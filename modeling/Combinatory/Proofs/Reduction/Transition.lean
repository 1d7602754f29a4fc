import Combinatory.Reduction.Reducer
import Mathlib.Data.List.Basic

namespace Combinatory

namespace Reduction

variable {α : Type}

def Focus.terms : Focus α → List (Term α)
  | .head terms => terms
  | .members done rest => done.reverse ++ rest

inductive Silent (exhausted : Bool) : Config α → Config α → Prop where
  | empty (outer : List (Frame α)) : Silent exhausted ⟨.head [], outer⟩ ⟨.members [] [], outer⟩
  | stop (t : Term α) (ts : List (Term α)) (outer : List (Frame α)) (h : exhausted = true)
    : Silent exhausted ⟨.head (t :: ts), outer⟩ ⟨.members [] (t :: ts), outer⟩
  | splice (nodes : List (Term α)) (s : α) (ts : List (Term α)) (outer : List (Frame α))
    (h : exhausted = false)
    : Silent exhausted ⟨.head (.group nodes s :: ts), outer⟩ ⟨.head (nodes ++ ts), outer⟩
  | unsaturated (c : Combinator) (s : α) (args : List (Term α)) (outer : List (Frame α))
    (h : exhausted = false) (hargs : args.length < c.arity)
    : Silent exhausted ⟨.head (.primitive c s :: args), outer⟩
        ⟨.members [] (.primitive c s :: args), outer⟩
  | enter (done : List (Term α)) (nodes : List (Term α)) (s : α) (rest : List (Term α))
    (outer : List (Frame α))
    : Silent exhausted ⟨.members done (.group nodes s :: rest), outer⟩
        ⟨.head nodes, ⟨done, s, rest⟩ :: outer⟩
  | pass (done : List (Term α)) (c : Combinator) (s : α) (rest : List (Term α))
    (outer : List (Frame α))
    : Silent exhausted ⟨.members done (.primitive c s :: rest), outer⟩
        ⟨.members (.primitive c s :: done) rest, outer⟩
  | leave (done : List (Term α)) (frame : Frame α) (outer : List (Frame α))
    : Silent exhausted ⟨.members done [], frame :: outer⟩
        ⟨.members ((Term.group done.reverse frame.note).collapse :: frame.done) frame.rest, outer⟩

inductive Fires [Note α] : Config α → (before after : List (Term α)) → Config α → Prop where
  | mk {c : Combinator} (s : α) {args after : List (Term α)} (outer : List (Frame α))
    (hargs : c.arity ≤ args.length) (h : c.contract (.primitive c s :: args) = .ok after)
    : Fires ⟨.head (.primitive c s :: args), outer⟩ (.primitive c s :: args) after
        ⟨.head after, outer⟩

theorem Silent.step_eq [Note α] {exhausted : Bool} {c d : Config α} (h : Silent exhausted c d)
    : c.step exhausted = .silent d := by
  cases h with
  | empty => rfl
  | stop _ _ _ h => simp [Config.step, h]
  | splice _ _ _ _ h => simp [Config.step, h]
  | unsaturated _ _ _ _ h hargs => simp [Config.step, h, Nat.succ_le_of_lt hargs]
  | enter => rfl
  | pass => rfl
  | leave => rfl

theorem Fires.step_eq [Note α] {c d : Config α} {before after : List (Term α)}
    (h : Fires c before after d)
    : c.step false = .fired before after d := by
  cases h with
  | @mk c s args after outer hargs h =>
    have hlen : ¬args.length + 1 ≤ c.arity := Nat.not_le_of_lt (Nat.lt_succ_of_le hargs)
    simp only [Config.step, List.length_cons, Bool.false_eq_true, if_false, if_neg hlen, h]

namespace Config

variable [Note α]

theorem step_cases (c : Config α) (exhausted : Bool)
    : (∃ d, c.step exhausted = .silent d ∧ Silent exhausted c d)
      ∨ (∃ before after d, c.step exhausted = .fired before after d ∧ exhausted = false
          ∧ Fires c before after d)
      ∨ (∃ done, c.step exhausted = .halted done.reverse ∧ c = ⟨.members done [], []⟩) := by
  rcases c with ⟨⟨⟨⟩ | ⟨t, ts⟩⟩ | ⟨done, ⟨⟩ | ⟨t, rest⟩⟩, outer⟩
  . exact .inl ⟨_, rfl, .empty outer⟩
  . cases exhausted with
    | true => exact .inl ⟨_, rfl, .stop t ts outer rfl⟩
    | false =>
      cases t with
      | group nodes s => exact .inl ⟨_, rfl, .splice nodes s ts outer rfl⟩
      | primitive c s =>
        by_cases hlen : ts.length < c.arity
        . have hsilent := Silent.unsaturated c s ts outer rfl hlen
          exact .inl ⟨_, hsilent.step_eq, hsilent⟩
        . rw [Nat.not_lt] at hlen
          obtain ⟨after, hafter⟩ : ∃ after, c.contract (.primitive c s :: ts) = .ok after := by
            apply Combinator.contract_isOk
            exact Nat.lt_succ_of_le hlen
          have hfires := Fires.mk s outer hlen hafter
          exact .inr (.inl ⟨_, after, _, hfires.step_eq, rfl, hfires⟩)
  . cases outer with
    | nil => exact .inr (.inr ⟨done, rfl, rfl⟩)
    | cons frame outer => exact .inl ⟨_, rfl, .leave done frame outer⟩
  . cases t with
    | group nodes s => exact .inl ⟨_, rfl, .enter done nodes s rest outer⟩
    | primitive c s => exact .inl ⟨_, rfl, .pass done c s rest outer⟩

theorem silent_of_step {c d : Config α} {exhausted : Bool} (h : c.step exhausted = .silent d)
    : Silent exhausted c d := by
  obtain ⟨d', hd, hsilent⟩ | ⟨_, _, _, hd, _⟩ | ⟨_, hd, _⟩ := c.step_cases exhausted
  . cases hd.symm.trans h
    exact hsilent
  . simp [hd] at h
  . simp [hd] at h

theorem fires_of_step {c d : Config α} {exhausted : Bool} {before after : List (Term α)}
    (h : c.step exhausted = .fired before after d)
    : exhausted = false ∧ Fires c before after d := by
  obtain ⟨_, hd, _⟩ | ⟨before', after', d', hd, hexhausted, hfires⟩ | ⟨_, hd, _⟩ :=
    c.step_cases exhausted
  . simp [hd] at h
  . cases hd.symm.trans h
    exact ⟨hexhausted, hfires⟩
  . simp [hd] at h

theorem eq_of_step_halted {c : Config α} {exhausted : Bool} {result : List (Term α)}
    (h : c.step exhausted = .halted result)
    : ∃ done, c = ⟨.members done [], []⟩ ∧ result = done.reverse := by
  obtain ⟨_, hd, _⟩ | ⟨_, _, _, hd, _⟩ | ⟨done, hd, hc⟩ := c.step_cases exhausted
  . simp [hd] at h
  . simp [hd] at h
  . cases hd.symm.trans h
    exact ⟨done, hc, rfl⟩

end Config

inductive Finishes [Note α] (limit : Option Int)
    : Progress α → Config α → (q : Progress α) → (result : List (Term α)) → Prop where
  | halted {p : Progress α} {c : Config α} {result : List (Term α)}
    (h : c.step (exhausts limit p.steps) = .halted result) : Finishes limit p c p result
  | silent {p q : Progress α} {c d : Config α} {result : List (Term α)}
    (h : c.step (exhausts limit p.steps) = .silent d) (hd : Finishes limit p d q result)
    : Finishes limit p c q result
  | fired {p q : Progress α} {c d : Config α} {before after result : List (Term α)}
    (h : c.step (exhausts limit p.steps) = .fired before after d)
    (hd : Finishes limit (p.record before after) d q result) : Finishes limit p c q result

section Runs

variable [Note α] {limit : Option Int} {p q : Progress α} {c : Config α} {result : List (Term α)}

theorem finishes_of_run {fuel : Nat} (h : run limit fuel p c = (q, .finished result))
    : Finishes limit p c q result := by
  induction fuel generalizing p c with
  | zero => simp [run] at h
  | succ fuel ih =>
    unfold run at h
    split at h
    . next hstep => exact .silent hstep (ih h)
    . next hstep => exact .fired hstep (ih h)
    . next hstep =>
      cases h
      exact .halted hstep
    . simp at h

theorem finishes_iff
    : Finishes limit p c q result ↔ ∃ fuel, run limit fuel p c = (q, .finished result) := by
  constructor
  . intro h
    induction h with
    | halted h => exact ⟨1, by simp [run, h]⟩
    | silent h _ ih =>
      obtain ⟨fuel, hfuel⟩ := ih
      exact ⟨fuel + 1, by simp [run, h, hfuel]⟩
    | fired h _ ih =>
      obtain ⟨fuel, hfuel⟩ := ih
      exact ⟨fuel + 1, by simp [run, h, hfuel]⟩
  . rintro ⟨fuel, h⟩
    exact finishes_of_run h

theorem Finishes.invariant {P : Progress α → Config α → Prop}
    (silent : ∀ p c d, P p c → Silent (exhausts limit p.steps) c d → P p d)
    (fired : ∀ p c before after d, P p c → exhausts limit p.steps = false
      → Fires c before after d → P (p.record before after) d)
    (h : Finishes limit p c q result) (hp : P p c)
    : ∃ done, result = done.reverse ∧ P q ⟨.members done [], []⟩ := by
  induction h with
  | halted h =>
    obtain ⟨done, rfl, hresult⟩ := Config.eq_of_step_halted h
    exact ⟨done, hresult, hp⟩
  | silent h _ ih =>
    apply ih
    exact silent _ _ _ hp (Config.silent_of_step h)
  | fired h _ ih =>
    obtain ⟨hexhausted, hfires⟩ := Config.fires_of_step h
    apply ih
    exact fired _ _ _ _ _ hp hexhausted hfires

end Runs

end Reduction

namespace Reducer

open Reduction

theorem budget?_of_limit? {r : Reducer} {limit : Option Int} (h : r.limit? = .ok limit)
    : r.budget? = .ok limit := by
  unfold budget?
  split
  . next hlimit =>
    rw [h] at hlimit
    contradiction
  . exact h

theorem budget?_eq_ok_none {r : Reducer} (h : r.complexity = .unbounded)
    : r.budget? = .ok none := by
  apply budget?_of_limit?
  simp [limit?, h, Complexity.isBounded]

theorem budget?_eq_ok_some {r : Reducer} {bound : Int} (hbounded : r.complexity.isBounded)
    (hbound : r.bound = some bound)
    : r.budget? = .ok (some bound) := by
  apply budget?_of_limit?
  simp [limit?, hbounded, hbound]

theorem of_budget?_eq_ok_some {r : Reducer} {bound : Int} (h : r.budget? = .ok (some bound))
    : r.complexity.isBounded ∧ r.bound = some bound := by
  unfold budget? limit? at h
  split at h
  . cases h
  . split at h
    . next hbounded =>
      split at h
      . next hbound =>
        cases h
        exact ⟨hbounded, hbound⟩
      . simp at h
    . simp at h

theorem finishes_of_reduce {r : Reducer} {fuel : Nat} {result : List Term}
    (h : (r.reduce fuel).ending = .finished result)
    : ∃ limit q, r.budget? = .ok limit
        ∧ Finishes limit { steps := r.steps } (.start r.terms) q result
        ∧ (r.reduce fuel).reducer = { r with terms := result, steps := q.steps }
        ∧ (r.reduce fuel).trace = q.trace := by
  unfold reduce at h ⊢
  split at h
  . simp at h
  . next limit hlimit =>
    generalize hrun : run limit fuel { steps := r.steps } (.start r.terms) = res at h
    obtain ⟨q, ending⟩ := res
    dsimp at h
    subst h
    exact ⟨limit, q, hlimit, finishes_of_run hrun, rfl, rfl⟩

theorem reduce_of_finishes {r : Reducer} {limit : Option Int} {q : Progress} {result : List Term}
    (hlimit : r.budget? = .ok limit)
    (h : Finishes limit { steps := r.steps } (.start r.terms) q result)
    : ∃ fuel, (r.reduce fuel).ending = .finished result := by
  obtain ⟨fuel, hrun⟩ := finishes_iff.mp h
  refine ⟨fuel, ?_⟩
  simp [reduce, hlimit, hrun]

end Reducer

end Combinatory
