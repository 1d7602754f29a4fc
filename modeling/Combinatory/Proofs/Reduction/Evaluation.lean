import Combinatory.Proofs.Reduction.Budget
import Combinatory.Proofs.Reduction.Shape
import Combinatory.Proofs.Term.Brackets

/-!
Reduction without a machine. `Evaluates` says what becomes of a sequence by recursion into its
groups, and how the count goes on. It agrees with the runs of the machine: `evaluates_of_finishes` and
`exists_finishes_of_evaluates`.
-/

namespace Combinatory

namespace Reduction

/--
From the focus the sequence `us` results, while the count goes from one number to the other.
-/
inductive Evaluates (limit : Option Int) : Int → Focus → Int → List Term → Prop where
  | rest {n m : Int} {ts us : List Term} (h : exhausts limit n = true ∨ Stuck ts)
    (hrest : Evaluates limit n (.members [] ts) m us) : Evaluates limit n (.head ts) m us
  | splice {n m : Int} {nodes ts us : List Term} (s : Option Span) (h : exhausts limit n = false)
    (hhead : Evaluates limit n (.head (nodes ++ ts)) m us)
    : Evaluates limit n (.head (.group nodes s :: ts)) m us
  | fire {n m : Int} {c : Combinator} {args after us : List Term} (s : Option Span)
    (h : exhausts limit n = false) (hargs : c.arity ≤ args.length)
    (hafter : c.contract (.primitive c s :: args) = .ok after)
    (hhead : Evaluates limit (n + 1) (.head after) m us)
    : Evaluates limit n (.head (.primitive c s :: args)) m us
  | pass {n m : Int} {c : Combinator} {s : Option Span} {done rest us : List Term}
    (hrest : Evaluates limit n (.members (.primitive c s :: done) rest) m us)
    : Evaluates limit n (.members done (.primitive c s :: rest)) m us
  | group {n k m : Int} {nodes nodes' done rest us : List Term} {s : Option Span}
    (hnodes : Evaluates limit n (.head nodes) k nodes')
    (hrest : Evaluates limit k (.members ((Term.group nodes' s).collapse :: done) rest) m us)
    : Evaluates limit n (.members done (.group nodes s :: rest)) m us
  | done (n : Int) (done : List Term) : Evaluates limit n (.members done []) n done.reverse

section Machine

variable {limit : Option Int} {n m : Int} {f : Focus} {us : List Term}

theorem silent_rest {exhausted : Bool} {ts : List Term} (h : exhausted = true ∨ Stuck ts)
    (outer : List Frame)
    : Silent exhausted ⟨.head ts, outer⟩ ⟨.members [] ts, outer⟩ := by
  cases ts with
  | nil => exact .empty outer
  | cons t ts =>
    cases hexhausted : exhausted with
    | true => exact .stop t ts outer rfl
    | false =>
      rw [hexhausted] at h
      cases h.resolve_left (by simp) with
      | cons s hargs => exact .unsaturated _ s ts outer rfl hargs

theorem Evaluates.finishes (h : Evaluates limit n f m us) (outer : List Frame) {p : Progress}
    (hp : p.steps = n)
    : ∃ p', p'.steps = m ∧ ∀ q result, Finishes limit p' ⟨.members us.reverse [], outer⟩ q result
        → Finishes limit p ⟨f, outer⟩ q result := by
  induction h generalizing outer p with
  | rest h _ ih =>
    obtain ⟨p', hp', hfinishes⟩ := ih outer hp
    refine ⟨p', hp', fun q result hq => ?_⟩
    rw [← hp] at h
    exact .silent (silent_rest h outer).step_eq (hfinishes q result hq)
  | splice s h _ ih =>
    obtain ⟨p', hp', hfinishes⟩ := ih outer hp
    refine ⟨p', hp', fun q result hq => ?_⟩
    rw [← hp] at h
    exact .silent (Silent.splice _ s _ outer h).step_eq (hfinishes q result hq)
  | @fire n m c args after us s h hargs hafter _ ih =>
    have hrecord : (p.record (.primitive c s :: args) after).steps = n + 1 := by
      rw [← hp]
      rfl
    obtain ⟨p', hp', hfinishes⟩ := ih outer hrecord
    refine ⟨p', hp', fun q result hq => ?_⟩
    rw [← hp] at h
    apply Finishes.fired _ (hfinishes q result hq)
    rw [h]
    exact (Fires.mk s outer hargs hafter).step_eq
  | pass _ ih =>
    obtain ⟨p', hp', hfinishes⟩ := ih outer hp
    refine ⟨p', hp', fun q result hq => ?_⟩
    exact .silent (Silent.pass _ _ _ _ outer).step_eq (hfinishes q result hq)
  | @group n k m nodes nodes' done rest us s _ _ ihnodes ihrest =>
    -- The machine enters the group, leaves it with its result, and goes on with the rest.
    obtain ⟨p₁, hp₁, hnodes⟩ := ihnodes (⟨done, s, rest⟩ :: outer) hp
    obtain ⟨p₂, hp₂, hrest⟩ := ihrest outer hp₁
    refine ⟨p₂, hp₂, fun q result hq => ?_⟩
    apply Finishes.silent (Silent.enter done nodes s rest outer).step_eq
    apply hnodes
    apply Finishes.silent _ (hrest q result hq)
    simp [Config.step]
  | done n done =>
    refine ⟨p, hp, fun q result hq => ?_⟩
    rwa [List.reverse_reverse] at hq

theorem exists_finishes_of_evaluates (h : Evaluates limit n f m us) {p : Progress}
    (hp : p.steps = n)
    : ∃ q, q.steps = m ∧ Finishes limit p ⟨f, []⟩ q us := by
  obtain ⟨q, hq, hfinishes⟩ := h.finishes [] hp
  refine ⟨q, hq, hfinishes q us ?_⟩
  apply Finishes.halted
  simp [Config.step]

def Unwinds (limit : Option Int) (n : Int) (f : Focus) (outer : List Frame) (m : Int)
    (us : List Term) : Prop :=
  match outer with
  | [] => Evaluates limit n f m us
  | frame :: outer =>
    ∃ k nodes, Evaluates limit n f k nodes
      ∧ Unwinds limit k (.members ((Term.group nodes frame.note).collapse :: frame.done) frame.rest)
          outer m us

theorem Unwinds.of_evaluates {n' : Int} {f' : Focus} {outer : List Frame}
    (h : ∀ k vs, Evaluates limit n' f' k vs → Evaluates limit n f k vs)
    (hunwinds : Unwinds limit n' f' outer m us)
    : Unwinds limit n f outer m us := by
  cases outer with
  | nil => exact h m us hunwinds
  | cons frame outer =>
    obtain ⟨k, nodes, hnodes, hrest⟩ := hunwinds
    exact ⟨k, nodes, h k nodes hnodes, hrest⟩

theorem Silent.unwinds {c d : Config} (hd : Silent (exhausts limit n) c d)
    (h : Unwinds limit n d.focus d.outer m us)
    : Unwinds limit n c.focus c.outer m us := by
  cases hd with
  | empty => exact h.of_evaluates fun _ _ => .rest (.inr .nil)
  | stop _ _ _ hexhausted => exact h.of_evaluates fun _ _ => .rest (.inl hexhausted)
  | splice _ s _ _ hexhausted => exact h.of_evaluates fun _ _ => .splice s hexhausted
  | unsaturated _ s _ _ _ hargs => exact h.of_evaluates fun _ _ => .rest (.inr (.cons s hargs))
  | pass => exact h.of_evaluates fun _ _ => .pass
  | enter =>
    obtain ⟨k, nodes, hnodes, hrest⟩ := h
    exact hrest.of_evaluates fun _ _ => .group hnodes
  | leave done => exact ⟨n, done.reverse, .done n done, h⟩

theorem Finishes.unwinds {p q : Progress} {c : Config} {result : List Term}
    (h : Finishes limit p c q result)
    : Unwinds limit p.steps c.focus c.outer q.steps result := by
  induction h with
  | halted h =>
    obtain ⟨done, rfl, rfl⟩ := Config.eq_of_step_halted h
    exact .done _ done
  | silent h _ ih => exact (Config.silent_of_step h).unwinds ih
  | fired h _ ih =>
    obtain ⟨hexhausted, hfires⟩ := Config.fires_of_step h
    cases hfires with
    | mk s outer hargs hafter => exact ih.of_evaluates fun _ _ => .fire s hexhausted hargs hafter

theorem evaluates_of_finishes {p q : Progress} {result : List Term}
    (h : Finishes limit p ⟨f, []⟩ q result)
    : Evaluates limit p.steps f q.steps result :=
  h.unwinds

end Machine

namespace Evaluates

variable {limit limit' : Option Int} {n m m' : Int} {f : Focus} {ts us us' : List Term}

theorem unique (h : Evaluates limit n f m us) (h' : Evaluates limit n f m' us')
    : m = m' ∧ us = us' := by
  let p : Progress := { steps := n }
  obtain ⟨q, rfl, hq⟩ := exists_finishes_of_evaluates h (p := p) rfl
  obtain ⟨q', rfl, hq'⟩ := exists_finishes_of_evaluates h' (p := p) rfl
  obtain ⟨rfl, rfl⟩ := hq.unique hq'
  exact ⟨rfl, rfl⟩

theorem relax (hle : ∀ n, exhausts limit' n = true → exhausts limit n = true)
    (h : Evaluates limit n f m us) (hexhausted : exhausts limit m = false)
    : Evaluates limit' n f m us := by
  obtain ⟨q, rfl, hq⟩ := exists_finishes_of_evaluates h (p := { steps := n }) rfl
  exact evaluates_of_finishes (hq.relax hle hexhausted)

theorem steps_le_of_relax (hle : ∀ n, exhausts limit' n = true → exhausts limit n = true)
    (h : Evaluates limit n f m us) (h' : Evaluates limit' n f m' us')
    : m ≤ m' := by
  let p : Progress := { steps := n }
  obtain ⟨q, rfl, hq⟩ := exists_finishes_of_evaluates h (p := p) rfl
  obtain ⟨q', rfl, hq'⟩ := exists_finishes_of_evaluates h' (p := p) rfl
  exact hq.steps_le_of_relax hle hq'

theorem exists_of_bound (bound n : Int) (f : Focus)
    : ∃ m us, Evaluates (some bound) n f m us := by
  obtain ⟨q, result, hq⟩ := exists_finishes_of_bound bound { steps := n } ⟨f, []⟩
  exact ⟨q.steps, result, evaluates_of_finishes hq⟩

theorem neat (h : Evaluates limit n (.head ts) m us) (hexhausted : exhausts limit m = false)
    : Stuck us ∧ ∀ t ∈ us, t.Neat := by
  obtain ⟨q, rfl, hq⟩ := exists_finishes_of_evaluates h (p := { steps := n }) rfl
  exact hq.neat hexhausted

end Evaluates

end Reduction

namespace Reducer

open Reduction

variable {r : Reducer} {limit : Option Int}

theorem evaluates_of_reduce {fuel : Nat} {result : List Term} (hlimit : r.budget? = .ok limit)
    (h : (r.reduce fuel).ending = .finished result)
    : Evaluates limit r.steps (.head r.terms) (r.reduce fuel).reducer.steps
        (r.reduce fuel).reducer.terms := by
  obtain ⟨limit', q, hlimit', hfinishes, hreducer, _⟩ := finishes_of_reduce h
  cases hlimit.symm.trans hlimit'
  rw [hreducer]
  exact evaluates_of_finishes hfinishes

theorem reduce_of_evaluates {m : Int} {us : List Term} (hlimit : r.budget? = .ok limit)
    (h : Evaluates limit r.steps (.head r.terms) m us)
    : ∃ fuel result, (r.reduce fuel).ending = .finished result := by
  obtain ⟨q, _, hfinishes⟩ := exists_finishes_of_evaluates h (p := { steps := r.steps }) rfl
  obtain ⟨fuel, hfuel⟩ := reduce_of_finishes hlimit hfinishes
  exact ⟨fuel, us, hfuel⟩

end Reducer

end Combinatory
