import Combinatory.Proofs.Reduction.Evaluation

/-!
Reductions that were stopped. A reducer that has reached its bound drops brackets around single
terms all over the sequence, but these play no part in what comes later (`Evaluates.congr`), and what was
already done is passed over without a contraction. So it can go on as if it had never been stopped:
`reduce_resume`.
-/

namespace Combinatory

namespace Reduction

namespace Focus

def done : Focus → List Term
  | .head _ => []
  | .members done _ => done

def pending : Focus → List Term
  | .head terms => terms
  | .members _ rest => rest

inductive Alike : Focus → Focus → Prop where
  | head {ts us : List Term} (h : ts.map Term.outline = us.map Term.outline)
    : Alike (.head ts) (.head us)
  | members {done done' rest rest' : List Term}
    (hdone : done.map Term.outline = done'.map Term.outline)
    (hrest : rest.map Term.outline = rest'.map Term.outline)
    : Alike (.members done rest) (.members done' rest')

def refill (f : Focus) (done tail : List Term) : Focus :=
  match f with
  | .head _ => .head tail
  | .members .. => .members done tail

end Focus

namespace Evaluates

variable {limit limit' : Option Int} {n m k : Int} {f f' : Focus} {c : Combinator} {s : Option Span}
  {t u : Term} {nodes nodes' done done' rest ts us vs : List Term}

section Results

theorem exists_tail (h : Evaluates limit n f m us)
    : ∃ tail, us = f.done.reverse ++ tail ∧ ∀ t ∈ tail, t.Compact := by
  induction h with
  | rest _ _ ih => exact ih
  | splice _ _ _ ih => exact ih
  | fire _ _ _ _ _ ih => exact ih
  | @pass _ _ c s done _ _ _ ih =>
    obtain ⟨tail, rfl, htail⟩ := ih
    refine ⟨.primitive c s :: tail, by simp [Focus.done], ?_⟩
    rw [List.forall_mem_cons]
    exact ⟨.primitive c s, htail⟩
  | @group _ _ _ _ nodes' done _ _ s _ _ ihnodes ihrest =>
    obtain ⟨tail, rfl, htail⟩ := ihrest
    obtain ⟨_, rfl, hnodes⟩ := ihnodes
    refine ⟨(Term.group nodes' s).collapse :: tail, by simp [Focus.done], ?_⟩
    rw [List.forall_mem_cons]
    exact ⟨Term.compact_collapse hnodes s, htail⟩
  | done n done => exact ⟨[], by simp [Focus.done], by simp⟩

theorem compact (h : Evaluates limit n (.head ts) m us) : ∀ t ∈ us, t.Compact := by
  obtain ⟨tail, rfl, htail⟩ := h.exists_tail
  exact htail

theorem replace_done (h : Evaluates limit n (.members done rest) m us)
    : ∃ tail, us = done.reverse ++ tail ∧ tail.length = rest.length
        ∧ ∀ done', Evaluates limit n (.members done' rest) m (done'.reverse ++ tail) := by
  generalize hf : Focus.members done rest = f at h
  induction h generalizing done rest with
  | rest => cases hf
  | splice => cases hf
  | fire => cases hf
  | @pass _ _ c s _ _ _ _ ih =>
    cases hf
    obtain ⟨tail, rfl, hlen, hreplace⟩ := ih rfl
    refine ⟨.primitive c s :: tail, by simp, by simp [hlen], fun done' => .pass ?_⟩
    simpa using hreplace (.primitive c s :: done')
  | @group _ _ _ _ nodes' _ _ _ s hnodes _ _ ih =>
    cases hf
    obtain ⟨tail, rfl, hlen, hreplace⟩ := ih rfl
    refine ⟨(Term.group nodes' s).collapse :: tail, by simp, by simp [hlen], fun done' => ?_⟩
    apply Evaluates.group hnodes
    simpa using hreplace ((Term.group nodes' s).collapse :: done')
  | done n =>
    cases hf
    refine ⟨[], by simp, rfl, fun done' => ?_⟩
    simpa using Evaluates.done n done'

theorem outline_of_exhausted (h : Evaluates limit n f m us) (hexhausted : exhausts limit n = true)
    : m = n ∧ us.map Term.outline = f.terms.map Term.outline := by
  induction h with
  | rest _ _ ih => simpa [Focus.terms] using ih hexhausted
  | splice _ h => simp [h] at hexhausted
  | fire _ h => simp [h] at hexhausted
  | pass _ ih => simpa [Focus.terms] using ih hexhausted
  | group _ _ ihnodes ihrest =>
    obtain ⟨rfl, hnodes⟩ := ihnodes hexhausted
    obtain ⟨rfl, hrest⟩ := ihrest hexhausted
    refine ⟨rfl, hrest.trans ?_⟩
    simpa [Focus.terms] using Term.outline_group_congr hnodes _ _
  | done => simp [Focus.terms]

theorem stuck (h : Evaluates limit n (.members [] ts) m us) (hts : Stuck ts) : Stuck us := by
  cases hts with
  | nil =>
    cases h
    exact .nil
  | cons s hargs =>
    cases h with
    | pass h =>
      obtain ⟨tail, rfl, hlen, _⟩ := h.replace_done
      exact .cons s (hlen ▸ hargs)

end Results

section Neat

theorem members_of_forall (h : ∀ t ∈ rest, ∀ done rest m us,
      Evaluates limit n (.members (t :: done) rest) m us
        → Evaluates limit n (.members done (t :: rest)) m us)
    : Evaluates limit n (.members done rest) n (done.reverse ++ rest) := by
  induction rest generalizing done with
  | nil =>
    rw [List.append_nil]
    exact .done n done
  | cons t rest ih =>
    rw [List.forall_mem_cons] at h
    apply h.1
    have hrest : Evaluates limit n (.members (t :: done) rest) n ((t :: done).reverse ++ rest) :=
      ih h.2
    simpa using hrest

theorem of_compact (ht : t.Compact) (hidle : exhausts limit n = true ∨ t.Neat)
    (h : Evaluates limit n (.members (t :: done) rest) m us)
    : Evaluates limit n (.members done (t :: rest)) m us := by
  induction ht generalizing done rest m us with
  | primitive => exact .pass h
  | group s hlen _ ih =>
    rw [← Term.collapse_of_length_ne hlen] at h
    refine .group (.rest (hidle.imp_right fun hneat => hneat.nodes.1) (members_of_forall ?_)) h
    intro t ht done rest m us
    exact ih t ht (hidle.imp_right fun hneat => hneat.nodes.2 t ht)

theorem head_of_compact (h : ∀ t ∈ ts, t.Compact)
    (hidle : exhausts limit n = true ∨ Stuck ts ∧ ∀ t ∈ ts, t.Neat)
    : Evaluates limit n (.head ts) n ts := by
  refine .rest (hidle.imp_right fun hneat => hneat.1) (members_of_forall ?_)
  intro t ht done rest m us
  exact of_compact (h t ht) (hidle.imp_right fun hneat => hneat.2 t ht)

theorem of_members_neat (ht : t.Neat) (h : Evaluates limit n (.members done (t :: rest)) m us)
    : Evaluates limit n (.members (t :: done) rest) m us := by
  cases h with
  | pass h => exact h
  | group hnodes hrest =>
    cases ht with
    | group s hstuck hlen hneat =>
      obtain ⟨rfl, rfl⟩ := hnodes.unique
        (head_of_compact (fun t ht => (hneat t ht).compact) (.inr ⟨hstuck, hneat⟩))
      rwa [Term.collapse_of_length_ne hlen] at hrest

end Neat

section Brackets

theorem head_of_collapse (hexhausted : exhausts limit n = false)
    (h : Evaluates limit n (.head (t.collapse :: ts)) m us)
    : Evaluates limit n (.head (t :: ts)) m us := by
  fun_induction Term.collapse t with
  | case1 t s ih => exact .splice s hexhausted (ih h)
  | case2 => exact h

theorem head_singleton_primitive (h : t.collapse = .primitive c s)
    : Evaluates limit n (.head [t]) n [.primitive c s] := by
  fun_induction Term.collapse t with
  | case1 t r ih =>
    cases hexhausted : exhausts limit n with
    | false => exact .splice r hexhausted (ih h)
    | true =>
      refine .rest (.inl hexhausted) (.group (ih h) ?_)
      exact .done n [_]
  | case2 =>
    subst h
    refine .rest (.inr (.cons s ?_)) (.pass (.done n [_]))
    cases c <;> decide

theorem members_of_collapse_primitive (ht : t.collapse = .primitive c s)
    (h : Evaluates limit n (.members (.primitive c s :: done) rest) m us)
    : Evaluates limit n (.members done (t :: rest)) m us := by
  cases t with
  | primitive d r =>
    rw [Term.collapse_primitive] at ht
    rw [ht]
    exact .pass h
  | group ts r =>
    by_cases hlen : ts.length = 1
    . obtain ⟨t, rfl⟩ := List.length_eq_one_iff.mp hlen
      rw [Term.collapse_singleton] at ht
      exact .group (head_singleton_primitive ht) h
    . simp [Term.collapse_of_length_ne hlen] at ht

theorem members_of_collapse_group (ht : t.collapse = .group nodes s)
    (hnodes : Evaluates limit n (.head nodes) k nodes')
    : ∃ v, v.outline = (Term.group nodes' s).outline
        ∧ ∀ done rest m us, Evaluates limit k (.members (v :: done) rest) m us
          → Evaluates limit n (.members done (t :: rest)) m us := by
  fun_induction Term.collapse t with
  | case1 t r ih =>
    cases hexhausted : exhausts limit n with
    | false =>
      refine ⟨(Term.group nodes' r).collapse, ?_, fun done rest m us => .group ?_⟩
      . rw [Term.outline_collapse]
        exact Term.outline_group_congr rfl _ _
      . apply head_of_collapse hexhausted
        rw [ht]
        exact .splice s hexhausted (by simpa using hnodes)
    | true =>
      obtain ⟨v, hv, hmember⟩ := ih ht
      refine ⟨(Term.group [v] r).collapse, ?_, fun done rest m us => .group ?_⟩
      . rw [Term.outline_collapse, Term.outline_singleton, hv]
      . exact .rest (.inl hexhausted) (hmember _ _ _ _ (.done k [v]))
  | case2 =>
    subst ht
    refine ⟨(Term.group nodes' s).collapse, ?_, fun done rest m us => .group hnodes⟩
    rw [Term.outline_collapse]

end Brackets

section Congruence

theorem contract_congr {args args' after : List Term} (s' : Option Span)
    (h : c.contract (.primitive c s :: args) = .ok after)
    (hargs : args'.map Term.outline = args.map Term.outline)
    : ∃ after', c.contract (.primitive c s' :: args') = .ok after'
        ∧ after'.map Term.outline = after.map Term.outline := by
  obtain ⟨x, rest, rfl, rfl, rfl⟩ | ⟨x, y, rest, rfl, rfl, rfl⟩ | ⟨x, y, z, rest, rfl, rfl, rfl⟩ :=
    Combinator.contract_cases h
  . obtain ⟨x', rest', rfl, hx, hrest⟩ := List.map_eq_cons_iff.mp hargs
    exact ⟨_, rfl, by simp [hx, hrest]⟩
  . obtain ⟨x', tail, rfl, hx, htail⟩ := List.map_eq_cons_iff.mp hargs
    obtain ⟨y', rest', rfl, hy, hrest⟩ := List.map_eq_cons_iff.mp htail
    exact ⟨_, rfl, by simp [hx, hrest]⟩
  . obtain ⟨x', tail, rfl, hx, htail⟩ := List.map_eq_cons_iff.mp hargs
    obtain ⟨y', tail, rfl, hy, htail⟩ := List.map_eq_cons_iff.mp htail
    obtain ⟨z', rest', rfl, hz, hrest⟩ := List.map_eq_cons_iff.mp htail
    exact ⟨_, rfl, by simp [Term.outline_group, hx, hy, hz, hrest]⟩

theorem compact_of_contract {args after : List Term}
    (h : c.contract (.primitive c s :: args) = .ok after) (hargs : ∀ t ∈ args, t.Compact)
    : ∀ t ∈ after, t.Compact := by
  obtain ⟨x, rest, rfl, rfl, rfl⟩ | ⟨x, y, rest, rfl, rfl, rfl⟩ | ⟨x, y, z, rest, rfl, rfl, rfl⟩ :=
    Combinator.contract_cases h
  . exact hargs
  . simp only [List.forall_mem_cons] at hargs ⊢
    exact ⟨hargs.1, hargs.2.2⟩
  . simp only [List.forall_mem_cons] at hargs ⊢
    obtain ⟨hx, hy, hz, hrest⟩ := hargs
    exact ⟨hx, hz, .group _ (by simp) (by simp [hy, hz]), hrest⟩

theorem exists_cons_primitive {args : List Term}
    (h : ts.map Term.outline = (Term.primitive c s :: args).map Term.outline)
    : ∃ t args' s', ts = t :: args' ∧ t.collapse = .primitive c s' ∧ args'.length = args.length
        ∧ args'.map Term.outline = args.map Term.outline := by
  obtain ⟨t, args', rfl, ht, hargs⟩ := List.map_eq_cons_iff.mp h
  obtain ⟨s', hcollapse⟩ := Term.exists_collapse_eq_primitive ht
  have hlen : args'.length = args.length := by simpa using congrArg List.length hargs
  exact ⟨t, args', s', rfl, hcollapse, hlen, hargs⟩

theorem exists_cons_group (hgroup : (Term.group nodes s).Compact)
    (h : ts.map Term.outline = (Term.group nodes s :: us).map Term.outline)
    : ∃ t us' nodes' s', ts = t :: us' ∧ t.collapse = .group nodes' s'
        ∧ nodes'.map Term.outline = nodes.map Term.outline
        ∧ us'.map Term.outline = us.map Term.outline := by
  obtain ⟨t, us', rfl, ht, hus⟩ := List.map_eq_cons_iff.mp h
  cases hgroup with
  | group s hlen =>
    obtain ⟨nodes', s', hcollapse, hnodes⟩ := Term.exists_collapse_eq_group hlen ht
    exact ⟨t, us', nodes', s', rfl, hcollapse, hnodes, hus⟩

theorem congr (h : Evaluates limit n f m us) (hcompact : ∀ t ∈ f.pending, t.Compact)
    (halike : f'.Alike f)
    : ∃ vs, Evaluates limit n f' m vs ∧ vs.map Term.outline = us.map Term.outline := by
  induction h generalizing f' with
  | @rest n m ts us h _ ih =>
    obtain @⟨ts', _, hts⟩ | _ := halike
    cases hexhausted : exhausts limit n with
    | true =>
      obtain ⟨vs, hvs, heq⟩ := ih hcompact (.members rfl hts)
      exact ⟨vs, .rest (.inl hexhausted) hvs, heq⟩
    | false =>
      cases h.resolve_left (by simp [hexhausted]) with
      | nil =>
        rw [List.map_nil, List.map_eq_nil_iff] at hts
        subst hts
        obtain ⟨vs, hvs, heq⟩ := ih hcompact (.members rfl rfl)
        exact ⟨vs, .rest (.inr .nil) hvs, heq⟩
      | @cons c s args hargs =>
        obtain ⟨t, args', s', rfl, hcollapse, hlen, hargs'⟩ := exists_cons_primitive hts
        obtain ⟨vs, hvs, heq⟩ := @ih (.members [] (.primitive c s' :: args')) hcompact
          (.members rfl (by simp [hargs']))
        refine ⟨vs, head_of_collapse hexhausted ?_, heq⟩
        rw [hcollapse]
        exact .rest (.inr (.cons s' (hlen ▸ hargs))) hvs
  | @splice n m nodes ts us s h _ ih =>
    obtain @⟨ts', _, hts⟩ | _ := halike
    simp only [Focus.pending, List.forall_mem_cons] at hcompact
    obtain ⟨t, us', nodes', s', rfl, hcollapse, hnodes, hus⟩ := exists_cons_group hcompact.1 hts
    have hcompact' : ∀ t ∈ nodes ++ ts, t.Compact :=
      List.forall_mem_append.mpr ⟨hcompact.1.nodes, hcompact.2⟩
    obtain ⟨vs, hvs, heq⟩ := @ih (.head (nodes' ++ us')) hcompact' (.head (by simp [hnodes, hus]))
    refine ⟨vs, head_of_collapse h ?_, heq⟩
    rw [hcollapse]
    exact .splice s' h hvs
  | fire s h hargs hafter _ ih =>
    obtain @⟨ts', _, hts⟩ | _ := halike
    simp only [Focus.pending, List.forall_mem_cons] at hcompact
    obtain ⟨t, args', s', rfl, hcollapse, hlen, hargs'⟩ := exists_cons_primitive hts
    obtain ⟨after', hafter', heq⟩ := contract_congr s' hafter hargs'
    obtain ⟨vs, hvs, heq⟩ := ih (compact_of_contract hafter hcompact.2) (.head heq)
    refine ⟨vs, head_of_collapse h ?_, heq⟩
    rw [hcollapse]
    exact .fire s' h (hlen ▸ hargs) hafter' hvs
  | @pass n m c s done rest us _ ih =>
    obtain _ | @⟨done', _, _, _, hdone, hrest⟩ := halike
    simp only [Focus.pending, List.forall_mem_cons] at hcompact
    obtain ⟨t, rest', s', rfl, hcollapse, _, hrest'⟩ := exists_cons_primitive hrest
    obtain ⟨vs, hvs, heq⟩ := @ih (.members (.primitive c s' :: done') rest') hcompact.2
      (.members (by simp [hdone]) hrest')
    exact ⟨vs, members_of_collapse_primitive hcollapse hvs, heq⟩
  | @group n k m nodes ws done rest us s _ _ ihnodes ihrest =>
    obtain _ | @⟨done', _, _, _, hdone, hrest⟩ := halike
    simp only [Focus.pending, List.forall_mem_cons] at hcompact
    obtain ⟨t, rest', nodes', s', rfl, hcollapse, hnodes, hrest'⟩ :=
      exists_cons_group hcompact.1 hrest
    obtain ⟨ws', hws', hws⟩ := ihnodes hcompact.1.nodes (.head hnodes)
    obtain ⟨v, hv, hmember⟩ := members_of_collapse_group hcollapse hws'
    have hv : v.outline = (Term.group ws s).collapse.outline := by
      rw [hv, Term.outline_collapse, Term.outline_group_congr hws]
    obtain ⟨vs, hvs, heq⟩ := @ihrest (.members (v :: done') rest') hcompact.2
      (.members (by simp [hdone, hv]) hrest')
    exact ⟨vs, hmember _ _ _ _ hvs, heq⟩
  | done n done =>
    obtain _ | @⟨done', _, rest', _, hdone, hrest⟩ := halike
    rw [List.map_nil, List.map_eq_nil_iff] at hrest
    subst hrest
    exact ⟨done'.reverse, .done n done', by simp [hdone]⟩

end Congruence

section Resumption

variable (hle : ∀ n, exhausts limit' n = true → exhausts limit n = true)

theorem of_head_stuck (hstuck : Stuck ts) (h : Evaluates limit n (.head ts) m us)
    : Evaluates limit n (.members [] ts) m us := by
  cases h with
  | rest _ h => exact h
  | splice => cases hstuck
  | fire _ _ hargs =>
    cases hstuck with
    | cons _ hlt => exact absurd hargs (Nat.not_le_of_lt hlt)

include hle

theorem resume {tail : List Term} (h : Evaluates limit n f k us) (hus : us = f.done.reverse ++ tail)
    (hdone : done'.map Term.outline = f.done.map Term.outline)
    (h' : Evaluates limit' k (f.refill done' tail) m vs)
    : ∃ ws, Evaluates limit' n f m ws ∧ ws.map Term.outline = vs.map Term.outline := by
  induction h generalizing tail done' m vs with
  | @rest n k ts us h hrest ih =>
    simp only [Focus.done, Focus.refill, List.reverse_nil, List.nil_append] at hus h'
    subst hus
    cases hexhausted : exhausts limit n with
    | true =>
      -- Brackets may have been dropped, but nothing else has happened.
      obtain ⟨rfl, houtline⟩ := hrest.outline_of_exhausted hexhausted
      exact h'.congr (Evaluates.rest h hrest).compact (.head houtline.symm)
    | false =>
      have hstuck := h.resolve_left (by simp [hexhausted])
      have hus : us = (Focus.members [] ts).done.reverse ++ us := rfl
      have hdone : [].map Term.outline = (Focus.members [] ts).done.map Term.outline := rfl
      obtain ⟨ws, hws, heq⟩ := ih hus hdone (of_head_stuck (hrest.stuck hstuck) h')
      exact ⟨ws, .rest (.inr hstuck) hws, heq⟩
  | splice s h _ ih =>
    obtain ⟨ws, hws, heq⟩ := ih hus hdone h'
    exact ⟨ws, .splice s (not_exhausts_of_relax hle h) hws, heq⟩
  | fire s h hargs hafter _ ih =>
    obtain ⟨ws, hws, heq⟩ := ih hus hdone h'
    exact ⟨ws, .fire s (not_exhausts_of_relax hle h) hargs hafter hws, heq⟩
  | @pass n k c s done rest us hrest ih =>
    obtain ⟨tail', rfl, _⟩ := hrest.exists_tail
    simp only [Focus.done, List.reverse_cons, List.append_assoc, List.singleton_append,
      List.append_cancel_left_eq] at hus
    subst hus
    cases h' with
    | pass h' =>
      obtain ⟨ws, hws, heq⟩ := ih rfl (by simpa [Focus.done] using hdone) h'
      exact ⟨ws, .pass hws, heq⟩
  | @group n j k nodes nodes₁ done rest us s hnodes hrest ihnodes ihrest =>
    obtain ⟨tail', rfl, htail⟩ := hrest.exists_tail
    simp only [Focus.done, List.reverse_cons, List.append_assoc, List.singleton_append,
      List.append_cancel_left_eq] at hus
    subst hus
    cases hexhausted : exhausts limit j with
    | false =>
      -- The group is done, so that the count only goes on behind it.
      obtain ⟨hstuck, hneat⟩ := hnodes.neat hexhausted
      obtain ⟨ws, hws, heq⟩ := ihrest rfl (by simpa [Focus.done] using hdone)
        (of_members_neat (hstuck.neat_collapse hneat s) h')
      exact ⟨ws, .group (hnodes.relax hle hexhausted) hws, heq⟩
    | true =>
      -- The evaluation was stopped within the group, and what is behind it is as it was.
      obtain ⟨rfl, houtline⟩ := hrest.outline_of_exhausted hexhausted
      have halike : (Focus.members done (.group nodes₁ s :: rest)).Alike
          (.members done' ((Term.group nodes₁ s).collapse :: tail')) := by
        simp only [Focus.terms, Focus.done, List.map_append, List.append_cancel_left_eq] at houtline
        exact .members hdone.symm (by simp [houtline])
      have hcompact : ∀ t ∈ (Term.group nodes₁ s).collapse :: tail', t.Compact :=
        List.forall_mem_cons.mpr ⟨Term.compact_collapse hnodes.compact s, htail⟩
      obtain ⟨ws, hws, heq⟩ := h'.congr hcompact halike
      cases hws with
      | group hnodes₂ hrest₂ =>
        obtain ⟨nodes₃, hnodes₃, heq₃⟩ := @ihnodes _ [] _ nodes₁ rfl rfl hnodes₂
        obtain ⟨tail₂, rfl, _, hreplace⟩ := hrest₂.replace_done
        refine ⟨_, .group hnodes₃ (hreplace _), ?_⟩
        rw [← heq]
        simp [Term.outline_group_congr heq₃ s s]
  | done n done =>
    simp only [Focus.done, List.self_eq_append_right] at hus
    subst hus
    cases h' with
    | done => exact ⟨done.reverse, .done n done, by simpa [Focus.done] using hdone.symm⟩

omit hle

theorem resume_head (hle : ∀ n, exhausts limit' n = true → exhausts limit n = true)
    (h : Evaluates limit n (.head ts) k us) (h' : Evaluates limit' k (.head us) m vs)
    : ∃ ws, Evaluates limit' n (.head ts) m ws ∧ ws.map Term.outline = vs.map Term.outline :=
  @resume _ _ _ _ _ _ [] _ _ hle us h rfl rfl h'

theorem exists_of_resumed {bound : Int} (h : Evaluates (some bound) n (.head ts) k us)
    (h' : Evaluates none n (.head ts) m vs)
    : ∃ m us', Evaluates none k (.head us) m us' := by
  obtain ⟨m', us', hresumed⟩ := exists_of_bound (max bound (m + 1)) k (.head us)
  obtain ⟨ws, hws, _⟩ := resume_head (fun _ => exhausts_of_le (Int.le_max_left _ _)) h hresumed
  have hsteps : m' ≤ m := hws.steps_le_of_relax (fun _ => exhausts_of_none) h'
  have hexhausted : exhausts (some (max bound (m + 1))) m' = false := by
    simp only [exhausts, decide_eq_false_iff_not]
    omega
  exact ⟨m', us', hresumed.relax (fun _ => exhausts_of_none) hexhausted⟩

end Resumption

end Evaluates

end Reduction

namespace Reducer

open Reduction

structure EndsLike (r r' : Reducer) : Prop where
  ends_iff : (∃ fuel result, (r.reduce fuel).ending = .finished result)
    ↔ ∃ fuel result, (r'.reduce fuel).ending = .finished result
  agree : ∀ fuel fuel' result result', (r.reduce fuel).ending = .finished result
    → (r'.reduce fuel').ending = .finished result'
    → (r.reduce fuel).reducer.steps = (r'.reduce fuel').reducer.steps
      ∧ (r.reduce fuel).reducer.terms == (r'.reduce fuel').reducer.terms
      ∧ (r.reduce fuel).reducer.text = (r'.reduce fuel').reducer.text

section EndsLike

variable {r r' : Reducer} {limit : Option Int}

theorem EndsLike.of_evaluates (hlimit : r.budget? = .ok limit) (hlimit' : r'.budget? = .ok limit)
    (h : ∀ m us, Evaluates limit r.steps (.head r.terms) m us
      → ∃ us', Evaluates limit r'.steps (.head r'.terms) m us'
        ∧ us'.map Term.outline = us.map Term.outline)
    (h' : ∀ m us, Evaluates limit r'.steps (.head r'.terms) m us
      → ∃ m us, Evaluates limit r.steps (.head r.terms) m us)
    : EndsLike r r' := by
  constructor
  . constructor
    . rintro ⟨fuel, result, hend⟩
      obtain ⟨us, hus, _⟩ := h _ _ (evaluates_of_reduce hlimit hend)
      exact reduce_of_evaluates hlimit' hus
    . rintro ⟨fuel, result, hend⟩
      obtain ⟨m, us, hus⟩ := h' _ _ (evaluates_of_reduce hlimit' hend)
      exact reduce_of_evaluates hlimit hus
  . intro fuel fuel' result result' hend hend'
    have heval := evaluates_of_reduce hlimit hend
    have heval' := evaluates_of_reduce hlimit' hend'
    obtain ⟨us, hus, houtline⟩ := h _ _ heval
    obtain ⟨hsteps, rfl⟩ := hus.unique heval'
    have hbeq := beq_of_outline heval.compact heval'.compact houtline.symm
    exact ⟨hsteps, hbeq, render_eq_of_beq hbeq⟩

end EndsLike

theorem reduce_resume {r : Reducer} {bound bound' : Int} (hbounded : r.complexity.isBounded)
    (hbound : r.bound = some bound) (hle : bound ≤ bound')
    : (∃ fuel result, (r.reduce fuel).ending = .finished result)
        ∧ (∃ fuel result, ({ r with bound := some bound' }.reduce fuel).ending = .finished result)
        ∧ ∀ fuel result paused, (r.reduce fuel).ending = .finished result
          → paused = (r.reduce fuel).reducer
          → EndsLike { paused with bound := some bound' } { r with bound := some bound' }
            ∧ EndsLike { paused with complexity := .unbounded }
              { r with complexity := .unbounded } := by
  have hlimit := budget?_eq_ok_some hbounded hbound
  have hlimit' : { r with bound := some bound' }.budget? = .ok (some bound') :=
    budget?_eq_ok_some hbounded rfl
  refine ⟨exists_finished_of_bound hlimit, exists_finished_of_bound hlimit', ?_⟩
  intro fuel result paused hend hpaused
  have heval := evaluates_of_reduce hlimit hend
  obtain ⟨_, _, _, _, hreducer, _⟩ := finishes_of_reduce hend
  rw [← hpaused] at heval hreducer
  constructor
  . have hpausedLimit : { paused with bound := some bound' }.budget? = .ok (some bound') := by
      apply budget?_eq_ok_some _ rfl
      rw [hreducer]
      exact hbounded
    apply EndsLike.of_evaluates hpausedLimit hlimit'
    . intro m us
      exact heval.resume_head fun _ => exhausts_of_le hle
    . intro m us _
      exact Evaluates.exists_of_bound bound' _ _
  . apply EndsLike.of_evaluates (budget?_eq_ok_none rfl) (budget?_eq_ok_none rfl)
    . intro m us
      exact heval.resume_head fun _ => exhausts_of_none
    . intro m us
      exact heval.exists_of_resumed

theorem reduce_resume_of_brackets
    : let k : Term := .group [.group [.primitive .K none] none] none
      let i : Term := .group [.primitive .I none, .group [] none] none
      let r : Reducer :=
        { terms := [.primitive .S none, k, .group [k] none, i, i], complexity := .exponential
          bound := some 1 }
      (∃ fuel result, (r.reduce fuel).ending = .finished result)
        ∧ ∀ fuel result paused, (r.reduce fuel).ending = .finished result
          → paused = (r.reduce fuel).reducer
          → EndsLike { paused with bound := some 3 } { r with bound := some 3 }
            ∧ EndsLike { paused with complexity := .unbounded }
              { r with complexity := .unbounded } := by
  intro k i r
  obtain ⟨hends, _, h⟩ := @reduce_resume r 1 3 rfl rfl (by decide)
  exact ⟨hends, h⟩

end Reducer

end Combinatory
