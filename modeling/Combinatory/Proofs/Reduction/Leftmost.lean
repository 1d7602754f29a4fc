import Combinatory.Proofs.Calculus.Standard
import Combinatory.Proofs.Reduction.Shape

/-!
The machine contracts leftmost redexes. The sequences around the machine are put together again by
`Config.whole`. Silent steps keep the tree of the whole, contractions change it by its leftmost
redex, so that a reduction is a count of leftmost contractions: `reduce_leftmostTimes`.
-/

namespace Combinatory

namespace Reduction

def Frame.plug (f : Frame) (ts : List Term) : List Term :=
  f.done.reverse ++ .group ts f.note :: f.rest

def plugAll : List Frame → List Term → List Term
  | [], ts => ts
  | f :: outer, ts => plugAll outer (f.plug ts)

@[simp]
theorem plugAll_nil (ts : List Term) : plugAll [] ts = ts := rfl

@[simp]
theorem plugAll_cons (f : Frame) (outer : List Frame) (ts : List Term)
    : plugAll (f :: outer) ts = plugAll outer (f.plug ts) := rfl

def Config.whole (c : Config) : List Term :=
  plugAll c.outer c.focus.terms

theorem treeOf_plugAll_congr (outer : List Frame) {ts us : List Term} (h : treeOf ts = treeOf us)
    : treeOf (plugAll outer ts) = treeOf (plugAll outer us) := by
  induction outer generalizing ts us with
  | nil => exact h
  | cons f outer ih =>
    apply ih
    apply treeOf_congr
    simpa using h

theorem filled_of_plugAll {outer : List Frame} {ts : List Term} (h : Filled (plugAll outer ts))
    : Filled ts := by
  induction outer generalizing ts with
  | nil => exact h
  | cons f outer ih =>
    rw [← Term.filled_group_iff (s := f.note)]
    apply (ih h).all
    simp [Frame.plug]

theorem filled_plugAll_replace {outer : List Frame} {ts us : List Term}
    (h : Filled (plugAll outer ts)) (hus : Filled us)
    : Filled (plugAll outer us) := by
  induction outer generalizing ts us with
  | nil => exact hus
  | cons f outer ih =>
    apply ih h
    apply Filled.replace (filled_of_plugAll h)
    intro _
    rwa [Term.filled_group_iff]

theorem Silent.filled_and_tree {exhausted : Bool} {c d : Config} (h : Silent exhausted c d)
    (hc : Filled c.whole)
    : Filled d.whole ∧ treeOf d.whole = treeOf c.whole := by
  -- What is spliced or collapsed loses brackets that the tree does not show. The other steps only
  -- move the place at which the machine stands.
  cases h with
  | empty => exact ⟨hc, rfl⟩
  | stop => exact ⟨hc, rfl⟩
  | unsaturated => exact ⟨hc, rfl⟩
  | splice nodes s ts outer =>
    have hts := filled_of_plugAll hc
    refine ⟨filled_plugAll_replace hc hts.splice, ?_⟩
    apply treeOf_plugAll_congr
    apply treeOf_splice
    have hnodes := hts.all (.group nodes s) (by simp [Focus.terms])
    exact (Term.filled_group_iff.mp hnodes).ne_nil
  | enter => exact ⟨hc, rfl⟩
  | pass =>
    simp only [Config.whole, Focus.terms, List.reverse_cons, List.append_assoc] at hc ⊢
    exact ⟨hc, rfl⟩
  | leave done frame outer =>
    simp only [Config.whole, Focus.terms, Frame.plug, plugAll_cons, List.append_nil,
      List.reverse_cons, List.append_assoc, List.singleton_append] at hc ⊢
    refine ⟨filled_plugAll_replace hc ?_, ?_⟩
    . apply Filled.replace (filled_of_plugAll hc)
      exact Term.Filled.collapse
    . apply treeOf_plugAll_congr
      apply treeOf_congr
      simp

theorem headStep_applyAll {f g : Tree} (h : Tree.HeadStep f g) (ts : List Term)
    : Tree.HeadStep (applyAll f ts) (applyAll g ts) := by
  induction ts generalizing f g with
  | nil => simpa using h
  | cons t ts ih =>
    simp only [applyAll_cons]
    apply ih
    exact .left _ h

theorem headStep_of_contract {c : Combinator} {s : Option Span} {args after : List Term}
    (h : c.contract (.primitive c s :: args) = .ok after)
    : Tree.HeadStep (treeOf (.primitive c s :: args)) (treeOf after) := by
  obtain ⟨x, rest, rfl, rfl, rfl⟩ | ⟨x, y, rest, rfl, rfl, rfl⟩ | ⟨x, y, z, rest, rfl, rfl, rfl⟩ :=
    Combinator.contract_cases h
  all_goals
    simp only [treeOf_cons, applyAll_cons, applyAll_nil, Term.tree_primitive, Term.tree_group]
    apply headStep_applyAll
    exact .root rfl

theorem filled_of_contract {c : Combinator} {s : Option Span} {args after : List Term}
    (h : c.contract (.primitive c s :: args) = .ok after) (hfilled : Filled (.primitive c s :: args))
    : Filled after := by
  obtain ⟨x, rest, rfl, rfl, rfl⟩ | ⟨x, y, rest, rfl, rfl, rfl⟩ | ⟨x, y, z, rest, rfl, rfl, rfl⟩ :=
    Combinator.contract_cases h
  all_goals
    simp only [filled_iff, List.mem_cons, forall_eq_or_imp] at hfilled
    simp_all [filled_iff]

theorem Frame.Settled.leftmost?_plug {f : Frame} (hf : f.Settled) {ts us : List Term}
    (hfilled : Filled (f.plug ts)) (h : (treeOf ts).leftmost? = some (treeOf us))
    : (treeOf (f.plug ts)).leftmost? = some (treeOf (f.plug us)) := by
  -- The terms on the left of the group have a normal tree that waits for all the terms on the right,
  -- so that there is no redex before those in the group.
  have hstuck := hf.stuck (.group ts f.note)
  have hne := hf.done_ne_nil
  have hlen : f.rest.length + 1 < (treeOf f.done.reverse).demand := hstuck.lt_demand hne
  have hnormal : (treeOf f.done.reverse).IsNormal := by
    apply hstuck.of_append.isNormal_of_neat
    . refine ⟨hne, ?_⟩
      intro t ht
      exact hfilled.all t (List.mem_append_left _ ht)
    . simpa using hf.neat
  simp only [Frame.plug, treeOf_append hne, applyAll_cons, Term.tree_group]
  apply leftmost?_applyAll
  . rw [Tree.demand_app]
    omega
  . exact Tree.leftmost?_app_right (by omega) hnormal h

theorem leftmost?_plugAll {outer : List Frame} (houter : ∀ f ∈ outer, f.Settled)
    {ts us : List Term} (hfilled : Filled (plugAll outer ts))
    (h : (treeOf ts).leftmost? = some (treeOf us))
    : (treeOf (plugAll outer ts)).leftmost? = some (treeOf (plugAll outer us)) := by
  induction outer generalizing ts us with
  | nil => exact h
  | cons f outer ih =>
    simp only [List.mem_cons, forall_eq_or_imp] at houter
    apply ih houter.2 hfilled
    exact houter.1.leftmost?_plug (filled_of_plugAll hfilled) h

theorem Fires.filled_and_leftmost? {c d : Config} {before after : List Term}
    (h : Fires c before after d) (hsettled : c.Settled) (hc : Filled c.whole)
    : Filled d.whole ∧ (treeOf c.whole).leftmost? = some (treeOf d.whole) := by
  cases h with
  | mk s outer _ h =>
    have hbefore := filled_of_plugAll hc
    refine ⟨filled_plugAll_replace hc (filled_of_contract h hbefore), ?_⟩
    apply leftmost?_plugAll hsettled.outer hc
    exact (headStep_of_contract h).leftmost?

structure Follows (limit : Option Int) (start : Int) (t : Tree) (p : Progress) (c : Config) : Prop where
  filled : Filled c.whole
  settled : exhausts limit p.steps = false → c.Settled
  count : ∃ n : Nat, p.steps = start + n ∧ t.leftmostTimes n = some (treeOf c.whole)
  within : ∀ bound, limit = some bound → start ≤ bound → p.steps ≤ bound

theorem follows_start (limit : Option Int) (p : Progress) {ts : List Term} (hts : Filled ts)
    : Follows limit p.steps (treeOf ts) p (.start ts) := by
  refine ⟨hts, fun _ => Config.settled_start ts, ⟨0, by simp, rfl⟩, ?_⟩
  intro _ _ h
  exact h

namespace Follows

variable {limit : Option Int} {start : Int} {t : Tree} {p : Progress} {c d : Config}

theorem silent (h : Follows limit start t p c) (hd : Silent (exhausts limit p.steps) c d)
    : Follows limit start t p d := by
  obtain ⟨hfilled, htree⟩ := hd.filled_and_tree h.filled
  refine ⟨hfilled, ?_, ?_, h.within⟩
  . intro hexhausted
    rw [hexhausted] at hd
    exact hd.settled (h.settled hexhausted)
  . rw [htree]
    exact h.count

theorem fired {before after : List Term} (h : Follows limit start t p c)
    (hexhausted : exhausts limit p.steps = false) (hd : Fires c before after d)
    : Follows limit start t (p.record before after) d := by
  have hsettled := h.settled hexhausted
  obtain ⟨hfilled, hleftmost⟩ := hd.filled_and_leftmost? hsettled h.filled
  refine ⟨hfilled, fun _ => hd.settled hsettled, ?_, ?_⟩
  . obtain ⟨n, hn, htimes⟩ := h.count
    refine ⟨n + 1, ?_, Tree.leftmostTimes_succ htimes hleftmost⟩
    simp only [Progress.record, hn]
    omega
  . intro bound hbound _
    simp only [hbound, exhausts, decide_eq_false_iff_not] at hexhausted
    simp only [Progress.record]
    omega

end Follows

theorem Finishes.leftmostTimes {limit : Option Int} {p q : Progress} {ts result : List Term}
    (h : Finishes limit p (.start ts) q result) (hts : Filled ts)
    : Filled result
        ∧ (∃ n : Nat, q.steps = p.steps + n ∧ (treeOf ts).leftmostTimes n = some (treeOf result))
        ∧ (exhausts limit q.steps = false → Stuck result ∧ ∀ t ∈ result, t.Neat)
        ∧ (∀ bound, limit = some bound → p.steps ≤ bound → q.steps ≤ bound) := by
  obtain ⟨done, rfl, filled, settled, count, within⟩ := h.invariant
    (fun _ _ _ h hd => h.silent hd) (fun _ _ _ _ _ h he hd => h.fired he hd)
    (follows_start limit p hts)
  simp only [Config.whole, Focus.terms, plugAll_nil, List.append_nil] at filled count
  refine ⟨filled, count, ?_, within⟩
  intro hexhausted
  exact (settled hexhausted).of_halted

end Reduction

namespace Reducer

theorem reduce_leftmostTimes {r : Reducer} {fuel : Nat} {result : List Term}
    (hterms : Filled r.terms) (hsteps : r.steps = 0)
    (hbound : ∀ bound, r.bound = some bound → 0 ≤ bound)
    (hend : (r.reduce fuel).ending = .finished result)
    : ∃ k : Nat, (r.reduce fuel).reducer.steps = k ∧ (r.reduce fuel).reducer.terms = result
        ∧ Filled result ∧ (treeOf r.terms).leftmostTimes k = some (treeOf result)
        ∧ ((r.complexity.isBounded ∧ r.bound = some (k : Int)) ∨ (treeOf result).IsNormal) := by
  obtain ⟨limit, q, hlimit, hfinishes, hreducer, _⟩ := finishes_of_reduce hend
  obtain ⟨hfilled, ⟨k, hk, htimes⟩, hneat, hwithin⟩ := hfinishes.leftmostTimes hterms
  rw [hsteps, Int.zero_add] at hk
  refine ⟨k, by simp [hreducer, hk], by simp [hreducer], hfilled, htimes, ?_⟩
  cases hexhausted : Reduction.exhausts limit q.steps with
  | false =>
    obtain ⟨hstuck, hneat⟩ := hneat hexhausted
    exact .inr (hstuck.isNormal_of_neat hfilled hneat)
  | true =>
    -- A count that began below the bound and reached it cannot have gone past it.
    cases limit with
    | none => simp [Reduction.exhausts] at hexhausted
    | some bound =>
      obtain ⟨hbounded, hsome⟩ := of_budget?_eq_ok_some hlimit
      have hle : q.steps ≤ bound := by
        apply hwithin bound rfl
        rw [hsteps]
        exact hbound bound hsome
      have hge : bound ≤ q.steps := by simpa [Reduction.exhausts] using hexhausted
      refine .inl ⟨hbounded, ?_⟩
      rw [hsome, ← hk, Int.le_antisymm hle hge]

theorem reduce_leftmostTimes_of_nested
    : let group (c d : Combinator) : Term := .group [.primitive c none, .primitive d none] none
      let r : Reducer :=
        { terms := [group .S .K, .primitive .K none, group .I .K, group .I .S]
          complexity := .quadratic
          bound := some 3 }
      let result : List Term := [.primitive .K none, group .I .S]
      ∃ k : Nat, (r.reduce 20).reducer.steps = k ∧ (r.reduce 20).reducer.terms = result
        ∧ Filled result ∧ (treeOf r.terms).leftmostTimes k = some (treeOf result)
        ∧ ((r.complexity.isBounded ∧ r.bound = some (k : Int)) ∨ (treeOf result).IsNormal) := by
  intro group r result
  apply reduce_leftmostTimes
  . simp [r, group, filled_iff]
  . rfl
  . simp [r]
  . rfl

end Reducer

end Combinatory
