import Combinatory.Proofs.Reduction.Resumption

namespace Combinatory

namespace Reduction

theorem finishes_or_fires (limit : Option Int) (p : Progress) (c : Config)
    : (∃ q result, run limit (c.weight + 1) p c = (q, .finished result))
        ∨ p.trace.size < (run limit (c.weight + 1) p c).1.trace.size := by
  induction hweight : c.weight using Nat.strongRecOn generalizing c with
  | ind weight ih =>
    obtain ⟨d, hd, hsilent⟩ | ⟨before, after, d, hd, _⟩ | ⟨done, hd, _⟩ :=
      c.step_cases (exhausts limit p.steps)
    . have hlt : d.weight + 1 ≤ weight := hweight ▸ hsilent.weight_lt
      have hrun : run limit (weight + 1) p c = run limit weight p d := by simp only [run, hd]
      rw [hrun]
      obtain ⟨q, result, hfinished⟩ | hfired := ih d.weight hlt d rfl
      . exact .inl ⟨q, result, run_eq_of_finished hfinished hlt⟩
      . have hprefix := trace_isPrefix_of_le limit p d hlt
        exact .inr (Nat.lt_of_lt_of_le hfired hprefix.length_le)
    . have hrun : run limit (weight + 1) p c = run limit weight (p.record before after) d := by
        simp only [run, hd]
      have hlt : p.trace.size < (p.record before after).trace.size := by simp [Progress.record]
      have hprefix : (p.record before after).trace.toList
          <+: (run limit weight (p.record before after) d).1.trace.toList :=
        trace_isPrefix_run weight _ d
      rw [hrun]
      exact .inr (Nat.lt_of_lt_of_le hlt hprefix.length_le)
    . exact .inl ⟨p, done.reverse, by simp only [run, hd]⟩

theorem Finishes.eq_nil {limit : Option Int} {p q : Progress} {result : List Term}
    (h : Finishes limit p (.start []) q result)
    : result = [] := by
  cases h with
  | halted h => simp [Config.start, Config.step] at h
  | fired h => simp [Config.start, Config.step] at h
  | silent h hd =>
    cases h
    cases hd with
    | halted h =>
      cases h
      rfl
    | silent h => simp [Config.step] at h
    | fired h => simp [Config.step] at h

section Unending

def wheel : Nat → Term
  | 0 => .group [.primitive .S none, .primitive .I none, .primitive .I none] none
  | n + 1 => .group [.primitive .I none, wheel n] none

inductive Rolls : List Term → Prop where
  | wheels (m n : Nat) : Rolls [wheel m, wheel n]
  | spoke (m n : Nat) : Rolls [.primitive .I none, wheel m, wheel n]
  | hub (n : Nat) : Rolls [.primitive .S none, .primitive .I none, .primitive .I none, wheel n]

theorem note_wheel (n : Nat) : (wheel n).note = none := by
  cases n <;> rfl

theorem Rolls.exists_step {ts : List Term} (h : Rolls ts)
    : ∃ us, Rolls us ∧ (Silent false (.start ts) (.start us)
        ∨ ∃ before after, Fires (.start ts) before after (.start us)) := by
  cases h with
  | wheels m n =>
    cases m with
    | zero => exact ⟨_, .hub n, .inl (.splice _ none _ [] rfl)⟩
    | succ m => exact ⟨_, .spoke m n, .inl (.splice _ none _ [] rfl)⟩
  | spoke m n => exact ⟨_, .wheels m n, .inr ⟨_, _, .mk none [] (by simp [Combinator.arity]) rfl⟩⟩
  | hub n =>
    refine ⟨_, .spoke n (n + 1), .inr ⟨_, _, .mk none [] (by simp [Combinator.arity]) ?_⟩⟩
    rw [Combinator.contract, Term.copy_eq, note_wheel]
    rfl

theorem Rolls.suspended {ts : List Term} (h : Rolls ts) (fuel : Nat) (p : Progress)
    : ∃ q config, run none fuel p (.start ts) = (q, .suspended config) := by
  induction fuel generalizing ts p with
  | zero => exact ⟨p, .start ts, rfl⟩
  | succ fuel ih =>
    obtain ⟨us, hus, hsilent | ⟨before, after, hfires⟩⟩ := h.exists_step
    . have hstep : (Config.start ts).step (exhausts none p.steps) = .silent (.start us) :=
        hsilent.step_eq
      simp only [run, hstep]
      exact ih hus p
    . have hstep : (Config.start ts).step (exhausts none p.steps)
          = .fired before after (.start us) :=
        hfires.step_eq
      simp only [run, hstep]
      exact ih hus (p.record before after)

end Unending

end Reduction

namespace Reducer

open Reduction

section Endings

variable {r : Reducer} {limit : Option Int} {m n : Nat} {result : List Term}

theorem reduce_cases (hlimit : r.budget? = .ok limit) (fuel : Nat)
    : (∃ config, (r.reduce fuel).ending = .suspended config)
        ∨ ∃ result, (r.reduce fuel).ending = .finished result := by
  rw [ending_reduce hlimit]
  obtain ⟨q, config, hrun⟩ | ⟨q, result, hrun⟩ :=
    run_cases limit fuel { steps := r.steps } (.start r.terms)
  . exact .inl ⟨config, by rw [hrun]⟩
  . exact .inr ⟨result, by rw [hrun]⟩

theorem reduce_eq_of_finished (h : (r.reduce m).ending = .finished result) (hle : m ≤ n)
    : r.reduce n = r.reduce m := by
  unfold reduce at h ⊢
  split at h
  . simp at h
  . next limit hlimit =>
    generalize hrun : run limit m { steps := r.steps } (.start r.terms) = res at h ⊢
    obtain ⟨q, ending⟩ := res
    dsimp at h
    subst h
    rw [run_eq_of_finished hrun hle]

theorem budget?_isOk (hbound : r.complexity.isBounded → r.bound.isSome)
    : ∃ limit, r.budget? = .ok limit := by
  by_cases hbounded : r.complexity.isBounded = true
  . obtain ⟨bound, hbound⟩ := Option.isSome_iff_exists.mp (hbound hbounded)
    exact ⟨some bound, budget?_eq_ok_some hbounded hbound⟩
  . refine ⟨none, budget?_of_limit? ?_⟩
    rw [limit?, if_neg hbounded]

theorem suspended_or_finished (hbound : r.complexity.isBounded → r.bound.isSome)
    : (r.complexity = .unbounded ∧ ∀ fuel, ∃ config, (r.reduce fuel).ending = .suspended config)
        ∨ ∃ m result, (∀ fuel, fuel < m → ∃ config, (r.reduce fuel).ending = .suspended config)
          ∧ ∀ fuel, m ≤ fuel → (r.reduce fuel).ending = .finished result := by
  classical
  obtain ⟨limit, hlimit⟩ := budget?_isOk hbound
  by_cases h : ∃ m result, (r.reduce m).ending = .finished result
  . obtain ⟨result, hresult⟩ := Nat.find_spec h
    refine .inr ⟨Nat.find h, result, fun fuel hlt => ?_, fun fuel hle => ?_⟩
    . exact (reduce_cases hlimit fuel).resolve_right (Nat.find_min h hlt)
    . rw [reduce_eq_of_finished hresult hle, hresult]
  . rw [not_exists] at h
    refine .inl ⟨?_, fun fuel => (reduce_cases hlimit fuel).resolve_right (h fuel)⟩
    by_contra hcomplexity
    have hbounded : r.complexity.isBounded := by simpa [Complexity.isBounded] using hcomplexity
    obtain ⟨bound, hbound⟩ := Option.isSome_iff_exists.mp (hbound hbounded)
    obtain ⟨m, hm⟩ := exists_finished_of_bound (budget?_eq_ok_some hbounded hbound)
    exact h m hm

theorem steps_reduce (r : Reducer) (fuel : Nat)
    : (r.reduce fuel).reducer.steps = r.steps + (r.reduce fuel).trace.size := by
  unfold reduce
  split
  . simp
  . exact ((Progress.counts_start r.steps).run fuel _).steps

theorem exists_le_size (hlimit : r.budget? = .ok limit)
    (h : ∀ fuel, ∃ config, (r.reduce fuel).ending = .suspended config) (n : Nat)
    : ∃ fuel, n ≤ (r.reduce fuel).trace.size := by
  induction n with
  | zero => exact ⟨0, Nat.zero_le _⟩
  | succ n ih =>
    obtain ⟨fuel, hsize⟩ := ih
    obtain ⟨config, hconfig⟩ := h fuel
    rw [trace_reduce hlimit] at hsize
    rw [ending_reduce hlimit] at hconfig
    generalize hrun : run limit fuel { steps := r.steps } (.start r.terms) = res at hsize hconfig
    obtain ⟨q, ending⟩ := res
    dsimp at hsize hconfig
    subst hconfig
    -- The run goes on from where it was suspended, for long enough to make another contraction.
    refine ⟨fuel + (config.weight + 1), ?_⟩
    obtain ⟨config', hconfig'⟩ := h (fuel + (config.weight + 1))
    rw [ending_reduce hlimit, run_add_of_suspended hrun] at hconfig'
    rw [trace_reduce hlimit, run_add_of_suspended hrun]
    obtain ⟨_, _, hfinished⟩ | hfired := finishes_or_fires limit q config
    . simp [hfinished] at hconfig'
    . exact Nat.lt_of_le_of_lt hsize hfired

end Endings

/--
A reduction never goes wrong. With a bounded complexity it comes to its end, and without one it
either comes to its end or makes more and more contractions.
-/
theorem reduce_finishes_or_fires {r : Reducer} (hbound : r.complexity.isBounded → r.bound.isSome)
    : (∀ fuel defect, (r.reduce fuel).ending ≠ .fault defect)
        ∧ (r.complexity.isBounded
          → ∃ m result, ∀ fuel, m ≤ fuel → (r.reduce fuel).ending = .finished result)
        ∧ (r.complexity = .unbounded
          → (∀ fuel, ∃ config, (r.reduce fuel).ending = .suspended config)
          → ∀ n, ∃ fuel, n ≤ (r.reduce fuel).trace.size
            ∧ (r.reduce fuel).reducer.steps = r.steps + (r.reduce fuel).trace.size) := by
  obtain ⟨limit, hlimit⟩ := budget?_isOk hbound
  refine ⟨?_, ?_, ?_⟩
  . intro fuel defect hfault
    obtain ⟨config, hconfig⟩ | ⟨result, hresult⟩ := reduce_cases hlimit fuel
    . simp [hfault] at hconfig
    . simp [hfault] at hresult
  . intro hbounded
    obtain ⟨hunbounded, _⟩ | ⟨m, result, _, hfinished⟩ := suspended_or_finished hbound
    . simp [hunbounded, Complexity.isBounded] at hbounded
    . exact ⟨m, result, hfinished⟩
  . intro _ hsuspended n
    obtain ⟨fuel, hsize⟩ := exists_le_size hlimit hsuspended n
    exact ⟨fuel, hsize, steps_reduce r fuel⟩

theorem reduce_finishes_or_fires_of_wheels
    : let r : Reducer := { terms := [wheel 0, wheel 0], complexity := .unbounded, bound := none }
      let braked : Reducer := { r with complexity := .quadratic, bound := some (-1), steps := -4 }
      (∀ fuel, ∃ config, (r.reduce fuel).ending = .suspended config)
        ∧ (∀ n, ∃ fuel, n ≤ (r.reduce fuel).trace.size
          ∧ (r.reduce fuel).reducer.steps = (r.reduce fuel).trace.size)
        ∧ (∃ m result, ∀ fuel, m ≤ fuel → (braked.reduce fuel).ending = .finished result)
        ∧ ∀ fuel defect, (braked.reduce fuel).ending ≠ .fault defect := by
  intro r braked
  have hsuspended (fuel : Nat) : ∃ config, (r.reduce fuel).ending = .suspended config := by
    obtain ⟨q, config, hrun⟩ := (Rolls.wheels 0 0).suspended fuel { steps := r.steps }
    exact ⟨config, by rw [ending_reduce (budget?_eq_ok_none rfl), hrun]⟩
  obtain ⟨_, _, hfires⟩ := @reduce_finishes_or_fires r (by simp [r, Complexity.isBounded])
  obtain ⟨hfault, hends, _⟩ := @reduce_finishes_or_fires braked (by simp [braked])
  refine ⟨hsuspended, ?_, hends rfl, hfault⟩
  simpa [r] using hfires rfl hsuspended

section Idempotence

variable {r : Reducer} {limit : Option Int} {fuel : Nat} {result : List Term}

theorem idle_of_finished (hlimit : r.budget? = .ok limit)
    (h : (r.reduce fuel).ending = .finished result)
    : exhausts limit (r.reduce fuel).reducer.steps = true
        ∨ Stuck result ∧ ∀ t ∈ result, t.Neat := by
  obtain ⟨_, _, _, _, hreducer, _⟩ := finishes_of_reduce h
  have heval := evaluates_of_reduce hlimit h
  rw [hreducer] at heval ⊢
  cases hexhausted : exhausts limit _ with
  | true => exact .inl rfl
  | false => exact .inr (heval.neat hexhausted)

theorem budget?_of_finishes {q : Progress} (hlimit : r.budget? = .ok limit)
    (h : Finishes limit { steps := r.steps } (.start r.terms) q result)
    : { r with terms := result, steps := q.steps }.budget? = .ok limit := by
  cases hread : r.limit? with
  | ok =>
    cases (budget?_of_limit? hread).symm.trans hlimit
    exact budget?_of_limit? hread
  | error =>
    cases hterms : r.terms with
    | nil =>
      rw [hterms] at h
      rw [h.eq_nil]
      simpa [budget?, hterms, limit?] using hlimit
    | cons => simp [budget?, hterms, hread] at hlimit

theorem reduce_eq_of_idle (hlimit : r.budget? = .ok limit) (hcompact : ∀ t ∈ r.terms, t.Compact)
    (hidle : exhausts limit r.steps = true ∨ Stuck r.terms ∧ ∀ t ∈ r.terms, t.Neat)
    : ∃ m, ∀ n, m ≤ n
        → r.reduce n = { reducer := r, trace := #[], ending := .finished r.terms } := by
  have heval := Evaluates.head_of_compact hcompact hidle
  obtain ⟨q, hsteps, hfinishes⟩ :=
    exists_finishes_of_evaluates heval (p := { steps := r.steps }) rfl
  have htrace : q.trace = #[] := by
    have hcounts := hfinishes.counts.steps
    rw [← Array.size_eq_zero_iff]
    omega
  obtain ⟨m, hm⟩ := finishes_iff.mp hfinishes
  refine ⟨m, fun n hn => ?_⟩
  have hrun : run limit n { steps := r.steps } (.start r.terms) = (q, .finished r.terms) :=
    run_eq_of_finished hm hn
  simp only [reduce, hlimit, hrun, hsteps, htrace]

/--
What a reduction leaves has no brackets around single terms, and if its budget lasted there is
nothing to do at the head of any sequence in it. So another reduction finds nothing to change.
-/
theorem reduce_idempotent (h : (r.reduce fuel).ending = .finished result)
    : (∀ t ∈ result, t.Compact)
        ∧ ((r.reduce fuel).reducer.isExhausted? = .ok false → Stuck result ∧ ∀ t ∈ result, t.Neat)
        ∧ (r.reduce fuel).reducer.terms = result
        ∧ ∃ m, ∀ n, m ≤ n → (r.reduce fuel).reducer.reduce n
          = { reducer := (r.reduce fuel).reducer, trace := #[], ending := .finished result } := by
  obtain ⟨limit, q, hlimit, hfinishes, hreducer, _⟩ := finishes_of_reduce h
  have hcompact := (evaluates_of_reduce hlimit h).compact
  have hidle := idle_of_finished hlimit h
  have hlimit' := budget?_of_finishes hlimit hfinishes
  rw [hreducer] at hcompact hidle ⊢
  refine ⟨hcompact, ?_, rfl, reduce_eq_of_idle hlimit' hcompact hidle⟩
  intro hexhausted
  unfold isExhausted? at hexhausted
  split at hexhausted
  . next hread =>
    cases (budget?_of_limit? hread).symm.trans hlimit'
    apply hidle.resolve_left
    simpa using hexhausted
  . simp at hexhausted

theorem reduce_idempotent_of_brackets
    : let stuck : Term := .group [.primitive .S none, .group [] none] none
      let ts : List Term :=
        [.primitive .K none, .group [.primitive .I none, .group [stuck] none] none]
      let r : Reducer := { terms := ts, complexity := .unbounded, bound := none }
      let braked : Reducer := { r with complexity := .exponential, bound := some 0 }
      let left : List Term := [.primitive .K none, .group [.primitive .I none, stuck] none]
      (r.reduce 20).ending = .finished [.primitive .K none, stuck]
        ∧ (∀ t ∈ [.primitive .K none, stuck], t.Neat)
        ∧ (∃ m, ∀ n, m ≤ n → ((r.reduce 20).reducer.reduce n).trace = #[])
        ∧ (braked.reduce 20).ending = .finished left
        ∧ (∀ t ∈ left, t.Compact)
        ∧ ∃ m, ∀ n, m ≤ n → ((braked.reduce 20).reducer.reduce n).ending = .finished left := by
  intro stuck ts r braked left
  have hends : (r.reduce 20).ending = .finished [.primitive .K none, stuck] := rfl
  have hends' : (braked.reduce 20).ending = .finished left := rfl
  obtain ⟨_, hneat, _, m, hm⟩ := reduce_idempotent hends
  obtain ⟨hcompact, _, _, m', hm'⟩ := reduce_idempotent hends'
  refine ⟨hends, (hneat rfl).2, ⟨m, fun n hn => ?_⟩, hends', hcompact, m', fun n hn => ?_⟩
  . rw [hm n hn]
  . rw [hm' n hn]

end Idempotence

end Reducer

end Combinatory
