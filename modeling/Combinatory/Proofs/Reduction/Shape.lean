import Combinatory.Proofs.Calculus.Meaning
import Combinatory.Proofs.Reduction.Transition
import Combinatory.Proofs.Term.Brackets

/-!
The shape of what the machine leaves behind as long as its budget lasts. The members that it is done
with are `Neat`, and the sequences that it stands in are `Stuck`: nothing can be opened or contracted
at their heads. Neat terms without empty groups have normal trees.
-/

namespace Combinatory

inductive Stuck : List Term → Prop where
  | nil : Stuck []
  | cons {c : Combinator} (s : Option Span) {args : List Term} (h : args.length < c.arity)
    : Stuck (.primitive c s :: args)

namespace Stuck

theorem replace {ts us : List Term} {nodes : List Term} {s : Option Span}
    (h : Stuck (ts ++ .group nodes s :: us)) (u : Term)
    : Stuck (ts ++ u :: us) := by
  cases ts with
  | nil => cases h
  | cons t ts =>
    cases h with
    | cons s h =>
      apply Stuck.cons
      simpa using h

theorem of_append {ts us : List Term} (h : Stuck (ts ++ us)) : Stuck ts := by
  cases ts with
  | nil => exact .nil
  | cons t ts =>
    rw [List.cons_append] at h
    cases h with
    | cons s h =>
      apply Stuck.cons
      rw [List.length_append] at h
      omega

theorem lt_demand {ts us : List Term} (h : Stuck (ts ++ us)) (hne : ts ≠ [])
    : us.length < (treeOf ts).demand := by
  cases ts with
  | nil => contradiction
  | cons t ts =>
    rw [List.cons_append] at h
    cases h with
    | cons s h =>
      rw [List.length_append] at h
      simp only [treeOf_cons, Term.tree_primitive, demand_applyAll, Tree.demand_leaf]
      omega

end Stuck

inductive Term.Neat : Term → Prop where
  | primitive (c : Combinator) (s : Option Span) : Neat (.primitive c s)
  | group {ts : List Term} (s : Option Span) (hstuck : Stuck ts) (hlen : ts.length ≠ 1)
    (h : ∀ t ∈ ts, Neat t) : Neat (.group ts s)

theorem Term.Neat.nodes {ts : List Term} {s : Option Span} (h : (Term.group ts s).Neat)
    : Stuck ts ∧ ∀ t ∈ ts, t.Neat := by
  cases h with
  | group _ hstuck _ h => exact ⟨hstuck, h⟩

theorem Term.Neat.compact {t : Term} (h : t.Neat) : t.Compact := by
  induction h with
  | primitive c s => exact .primitive c s
  | group s _ hlen _ ih => exact .group s hlen ih

theorem Stuck.neat_collapse {ts : List Term} (hstuck : Stuck ts) (h : ∀ t ∈ ts, t.Neat)
    (s : Option Span)
    : (Term.group ts s).collapse.Neat := by
  match ts, hstuck with
  | [], hstuck => exact .group s hstuck (by simp) h
  | [_], .cons (c := c) s _ => exact .primitive c s
  | _ :: _ :: _, hstuck => exact .group s hstuck (by simp) h

theorem isNormal_applyAll {f : Tree} {ts : List Term} (hf : f.IsNormal)
    (hlen : ts.length < f.demand) (h : ∀ t ∈ ts, t.tree.IsNormal)
    : (applyAll f ts).IsNormal := by
  induction ts generalizing f with
  | nil => simpa using hf
  | cons t ts ih =>
    simp only [List.length_cons, List.mem_cons, forall_eq_or_imp] at hlen h
    rw [applyAll_cons]
    apply ih
    . rw [Tree.isNormal_app_iff]
      exact ⟨by omega, hf, h.1⟩
    . rw [Tree.demand_app]
      omega
    . exact h.2

theorem Stuck.isNormal {ts : List Term} (hstuck : Stuck ts) (hne : ts ≠ [])
    (h : ∀ t ∈ ts, t.tree.IsNormal)
    : (treeOf ts).IsNormal := by
  cases hstuck with
  | nil => contradiction
  | @cons c s args hargs =>
    rw [treeOf_cons, Term.tree_primitive]
    apply isNormal_applyAll
    . exact Tree.isNormal_leaf c
    . exact hargs
    . intro t ht
      exact h t (.tail _ ht)

theorem Term.Neat.isNormal {t : Term} (h : t.Neat) (hfilled : t.Filled) : t.tree.IsNormal := by
  induction h with
  | primitive c s => simpa using Tree.isNormal_leaf c
  | group s hstuck _ _ ih =>
    rw [Term.filled_group_iff] at hfilled
    rw [Term.tree_group]
    apply hstuck.isNormal hfilled.ne_nil
    intro t ht
    exact ih t ht (hfilled.all t ht)

theorem Stuck.isNormal_of_neat {ts : List Term} (hstuck : Stuck ts) (hfilled : Filled ts)
    (h : ∀ t ∈ ts, t.Neat)
    : (treeOf ts).IsNormal := by
  apply hstuck.isNormal hfilled.ne_nil
  intro t ht
  exact (h t ht).isNormal (hfilled.all t ht)

namespace Reduction

structure Frame.Settled (f : Frame) : Prop where
  neat : ∀ t ∈ f.done, t.Neat
  stuck : ∀ t, Stuck (f.done.reverse ++ t :: f.rest)

theorem Frame.Settled.done_ne_nil {f : Frame} (h : f.Settled) : f.done.reverse ≠ [] := by
  intro hnil
  have hstuck := h.stuck (.group [] none)
  rw [hnil] at hstuck
  cases hstuck

inductive Focus.Settled : Focus → Prop where
  | head (terms : List Term) : Settled (.head terms)
  | members {done rest : List Term} (neat : ∀ t ∈ done, t.Neat)
    (stuck : Stuck (done.reverse ++ rest)) : Settled (.members done rest)

structure Config.Settled (c : Config) : Prop where
  focus : c.focus.Settled
  outer : ∀ f ∈ c.outer, f.Settled

theorem Config.settled_start (terms : List Term) : (Config.start terms).Settled :=
  ⟨.head terms, by simp [start]⟩

theorem Config.Settled.of_halted {done : List Term} {outer : List Frame}
    (h : Config.Settled ⟨.members done [], outer⟩)
    : Stuck done.reverse ∧ ∀ t ∈ done.reverse, t.Neat := by
  obtain ⟨⟨⟩ | ⟨neat, stuck⟩, _⟩ := h
  rw [List.append_nil] at stuck
  refine ⟨stuck, ?_⟩
  simpa using neat

theorem Silent.settled {c d : Config} (h : Silent false c d) (hc : c.Settled) : d.Settled := by
  cases h with
  | empty outer => exact ⟨.members (by simp) .nil, hc.outer⟩
  | stop _ _ _ h => contradiction
  | splice nodes s ts outer => exact ⟨.head _, hc.outer⟩
  | unsaturated c s args outer _ hargs => exact ⟨.members (by simp) (.cons s hargs), hc.outer⟩
  | enter done nodes s rest outer =>
    obtain ⟨⟨⟩ | ⟨neat, stuck⟩, houter⟩ := hc
    refine ⟨.head _, ?_⟩
    simp only [List.mem_cons, forall_eq_or_imp]
    exact ⟨⟨neat, stuck.replace⟩, houter⟩
  | pass done c s rest outer =>
    obtain ⟨⟨⟩ | ⟨neat, stuck⟩, houter⟩ := hc
    refine ⟨.members ?_ ?_, houter⟩
    . simp only [List.mem_cons, forall_eq_or_imp]
      exact ⟨.primitive c s, neat⟩
    . simpa using stuck
  | leave done frame outer =>
    obtain ⟨⟨⟩ | ⟨neat, stuck⟩, houter⟩ := hc
    simp only [List.append_nil, List.mem_cons, forall_eq_or_imp] at stuck houter
    refine ⟨.members ?_ ?_, houter.2⟩
    . simp only [List.mem_cons, forall_eq_or_imp]
      refine ⟨stuck.neat_collapse ?_ frame.note, houter.1.neat⟩
      simpa using neat
    . rw [List.reverse_cons, List.append_assoc]
      exact houter.1.stuck _

theorem Fires.settled {c d : Config} {before after : List Term} (h : Fires c before after d)
    (hc : c.Settled)
    : d.Settled := by
  cases h with
  | mk s outer => exact ⟨.head _, hc.outer⟩

theorem Finishes.neat {limit : Option Int} {p q : Progress} {ts result : List Term}
    (h : Finishes limit p (.start ts) q result) (hexhausted : exhausts limit q.steps = false)
    : Stuck result ∧ ∀ t ∈ result, t.Neat := by
  -- A count that is not exhausted at the end was not exhausted before.
  have hsettled := h.invariant (P := fun p c => exhausts limit p.steps = false → c.Settled)
    (fun p c d hc hd hp => (hp ▸ hd).settled (hc hp))
    (fun p c before after d hc hp hd _ => hd.settled (hc hp))
    (fun _ => Config.settled_start ts)
  obtain ⟨done, rfl, hdone⟩ := hsettled
  exact (hdone hexhausted).of_halted

end Reduction

end Combinatory
