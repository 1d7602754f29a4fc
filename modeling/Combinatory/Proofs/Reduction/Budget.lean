import Combinatory.Proofs.Reduction.Termination
import Mathlib.Data.ENat.Lattice
import Mathlib.Data.Set.Card

namespace Combinatory

namespace Reduction

section Fuel

variable {limit : Option Int} {p q : Progress} {c d : Config} {result : List Term}

theorem run_cases (limit : Option Int) (fuel : Nat) (p : Progress) (c : Config)
    : (∃ q d, run limit fuel p c = (q, .suspended d))
        ∨ (∃ q result, run limit fuel p c = (q, .finished result)) := by
  induction fuel generalizing p c with
  | zero => exact .inl ⟨p, c, rfl⟩
  | succ fuel ih =>
    obtain ⟨d, hd, _⟩ | ⟨before, after, d, hd, _⟩ | ⟨done, hd, _⟩ :=
      c.step_cases (exhausts limit p.steps)
    . simp only [run, hd]
      apply ih
    . simp only [run, hd]
      apply ih
    . simp only [run, hd]
      exact .inr ⟨p, done.reverse, rfl⟩

theorem run_add_of_suspended {m : Nat} (h : run limit m p c = (q, .suspended d)) (n : Nat)
    : run limit (m + n) p c = run limit n q d := by
  induction m generalizing p c with
  | zero =>
    cases h
    rw [Nat.zero_add]
  | succ m ih =>
    rw [Nat.succ_add]
    simp only [run] at h ⊢
    split at h
    . exact ih h
    . exact ih h
    . simp at h
    . simp at h

theorem run_add_of_finished {m : Nat} (h : run limit m p c = (q, .finished result)) (n : Nat)
    : run limit (m + n) p c = (q, .finished result) := by
  induction m generalizing p c with
  | zero => simp [run] at h
  | succ m ih =>
    rw [Nat.succ_add]
    simp only [run] at h ⊢
    split at h
    . exact ih h
    . exact ih h
    . exact h
    . simp at h

theorem run_eq_of_finished {m n : Nat} (h : run limit m p c = (q, .finished result)) (hle : m ≤ n)
    : run limit n p c = (q, .finished result) := by
  obtain ⟨k, rfl⟩ := Nat.exists_eq_add_of_le hle
  exact run_add_of_finished h k

theorem run_unique {m n : Nat} {q' : Progress} {result' : List Term}
    (h : run limit m p c = (q, .finished result)) (h' : run limit n p c = (q', .finished result'))
    : q = q' ∧ result = result' := by
  have heq := run_eq_of_finished h (Nat.le_max_left m n)
  rw [run_eq_of_finished h' (Nat.le_max_right m n)] at heq
  cases heq
  exact ⟨rfl, rfl⟩

theorem Finishes.unique {q' : Progress} {result' : List Term} (h : Finishes limit p c q result)
    (h' : Finishes limit p c q' result')
    : q = q' ∧ result = result' := by
  obtain ⟨m, hm⟩ := finishes_iff.mp h
  obtain ⟨n, hn⟩ := finishes_iff.mp h'
  exact run_unique hm hn

theorem trace_isPrefix_run (fuel : Nat) (p : Progress) (c : Config)
    : p.trace.toList <+: (run limit fuel p c).1.trace.toList := by
  induction fuel generalizing p c with
  | zero => exact List.prefix_refl _
  | succ fuel ih =>
    simp only [run]
    split
    . apply ih
    . next before after d _ =>
      apply List.IsPrefix.trans _ (ih (p.record before after) d)
      simp [Progress.record]
    . exact List.prefix_refl _
    . exact List.prefix_refl _

theorem trace_isPrefix_of_le (limit : Option Int) (p : Progress) (c : Config) {m n : Nat}
    (hle : m ≤ n)
    : (run limit m p c).1.trace.toList <+: (run limit n p c).1.trace.toList := by
  obtain ⟨k, rfl⟩ := Nat.exists_eq_add_of_le hle
  obtain ⟨q, d, h⟩ | ⟨q, result, h⟩ := run_cases limit m p c
  . rw [run_add_of_suspended h, h]
    apply trace_isPrefix_run
  . rw [run_add_of_finished h, h]

end Fuel

section Counting

variable {limit : Option Int} {start : Int} {p : Progress}

structure Progress.Counts (start : Int) (p : Progress) : Prop where
  steps : p.steps = start + p.trace.size
  number : ∀ (i : Nat) (f : Firing), p.trace[i]? = some f → f.number = start + i + 1

theorem Progress.counts_start (start : Int) : Progress.Counts start { steps := start } := by
  constructor
  . simp
  . simp

theorem Progress.Counts.record (h : p.Counts start) (before after : List Term)
    : (p.record before after).Counts start := by
  obtain ⟨hsteps, hnumber⟩ := h
  constructor
  . simp only [Progress.record, Array.size_push, hsteps]
    omega
  . intro i f hf
    simp only [Progress.record, Array.getElem?_push] at hf
    split at hf
    . next hi =>
      cases hf
      rw [hi, ← hsteps]
    . exact hnumber i f hf

theorem Progress.Counts.run (h : p.Counts start) (fuel : Nat) (c : Config)
    : (Reduction.run limit fuel p c).1.Counts start := by
  induction fuel generalizing p c with
  | zero => exact h
  | succ fuel ih =>
    simp only [Reduction.run]
    split
    . exact ih h _
    . exact ih (h.record _ _) _
    . exact h
    . exact h

theorem steps_run_le (bound : Int) (fuel : Nat) (p : Progress) (c : Config)
    : (run (some bound) fuel p c).1.steps ≤ max bound p.steps := by
  induction fuel generalizing p c with
  | zero => exact Int.le_max_right _ _
  | succ fuel ih =>
    simp only [run]
    split
    . apply ih
    . next before after d hd =>
      obtain ⟨hexhausted, _⟩ := Config.fires_of_step hd
      have hlt : p.steps < bound := by simpa [exhausts] using hexhausted
      apply Int.le_trans (ih _ _)
      simp only [Progress.record]
      omega
    . exact Int.le_max_right _ _
    . exact Int.le_max_right _ _

theorem Finishes.counts {q : Progress} {c : Config} {result : List Term}
    (h : Finishes limit { steps := start } c q result)
    : q.Counts start := by
  obtain ⟨fuel, hfuel⟩ := finishes_iff.mp h
  have hcounts : (run limit fuel { steps := start } c).1.Counts start :=
    (Progress.counts_start start).run fuel c
  rwa [hfuel] at hcounts

theorem Finishes.size_le {bound : Int} {q : Progress} {c : Config} {result : List Term}
    (h : Finishes (some bound) { steps := start } c q result)
    : q.trace.size ≤ (bound - start).toNat := by
  obtain ⟨fuel, hfuel⟩ := finishes_iff.mp h
  have hmax := steps_run_le bound fuel { steps := start } c
  rw [hfuel, h.counts.steps] at hmax
  dsimp only at hmax
  omega

end Counting

section Limits

theorem run_of_exhausted {limit : Option Int} {p : Progress} (h : exhausts limit p.steps = true)
    (fuel : Nat) (c : Config)
    : (run limit fuel p c).1 = p := by
  induction fuel generalizing c with
  | zero => rfl
  | succ fuel ih =>
    simp only [run]
    split
    . apply ih
    . next hd =>
      obtain ⟨hexhausted, _⟩ := Config.fires_of_step hd
      rw [h] at hexhausted
      contradiction
    . rfl
    . rfl

theorem exhausts_of_none {limit : Option Int} {n : Int} (h : exhausts none n = true)
    : exhausts limit n = true := by
  simp [exhausts] at h

theorem exhausts_of_le {bound bound' n : Int} (hle : bound ≤ bound')
    (h : exhausts (some bound') n = true)
    : exhausts (some bound) n = true := by
  simp only [exhausts, decide_eq_true_eq] at h ⊢
  omega

variable {limit limit' : Option Int}
  (hle : ∀ n, exhausts limit' n = true → exhausts limit n = true)

include hle

theorem not_exhausts_of_relax {n : Int} (h : exhausts limit n = false)
    : exhausts limit' n = false := by
  rw [Bool.eq_false_iff] at h ⊢
  exact mt (hle n) h

theorem run_relax (fuel : Nat) (p : Progress) (c : Config)
    : run limit' fuel p c = run limit fuel p c
        ∨ (exhausts limit (run limit fuel p c).1.steps = true
          ∧ ∃ m d, run limit' m p c = ((run limit fuel p c).1, .suspended d)) := by
  induction fuel generalizing p c with
  | zero => exact .inl rfl
  | succ fuel ih =>
    cases hexhausted : exhausts limit p.steps with
    | true =>
      rw [run_of_exhausted hexhausted]
      exact .inr ⟨hexhausted, 0, c, rfl⟩
    | false =>
      have hexhausted' : exhausts limit' p.steps = false := not_exhausts_of_relax hle hexhausted
      -- Both runs take the same step, the induction is on what comes after it.
      have hsucc (p' : Progress) (c' : Config) (h : ∀ n, run limit (n + 1) p c = run limit n p' c')
          (h' : ∀ n, run limit' (n + 1) p c = run limit' n p' c')
          : run limit' (fuel + 1) p c = run limit (fuel + 1) p c
            ∨ (exhausts limit (run limit (fuel + 1) p c).1.steps = true
              ∧ ∃ m d, run limit' m p c = ((run limit (fuel + 1) p c).1, .suspended d)) := by
        rw [h, h']
        obtain heq | ⟨hreached, m, d, hm⟩ := ih p' c'
        . exact .inl heq
        . exact .inr ⟨hreached, m + 1, d, by rw [h', hm]⟩
      obtain ⟨d, hd, _⟩ | ⟨before, after, d, hd, _⟩ | ⟨done, hd, _⟩ := c.step_cases false
      . apply hsucc p d
        . intro n
          simp only [run, hexhausted, hd]
        . intro n
          simp only [run, hexhausted', hd]
      . apply hsucc (p.record before after) d
        . intro n
          simp only [run, hexhausted, hd]
        . intro n
          simp only [run, hexhausted', hd]
      . left
        simp only [run, hexhausted, hexhausted', hd]

theorem Finishes.relax_or_reached {p q : Progress} {c : Config} {result : List Term}
    (h : Finishes limit p c q result)
    : Finishes limit' p c q result
        ∨ (exhausts limit q.steps = true ∧ ∃ m d, run limit' m p c = (q, .suspended d)) := by
  obtain ⟨fuel, hfuel⟩ := finishes_iff.mp h
  obtain heq | hreached := run_relax hle fuel p c
  . exact .inl (finishes_of_run (heq.trans hfuel))
  . rw [hfuel] at hreached
    exact .inr hreached

theorem Finishes.relax {p q : Progress} {c : Config} {result : List Term}
    (h : Finishes limit p c q result) (hexhausted : exhausts limit q.steps = false)
    : Finishes limit' p c q result := by
  obtain h' | ⟨hreached, _⟩ := h.relax_or_reached hle
  . exact h'
  . rw [hexhausted] at hreached
    contradiction

theorem Finishes.trace_isPrefix {p q : Progress} {c : Config} {result : List Term}
    (h : Finishes limit p c q result)
    : ∃ m, ∀ n, m ≤ n → q.trace.toList <+: (run limit' n p c).1.trace.toList := by
  obtain h' | ⟨_, m, d, hm⟩ := h.relax_or_reached hle
  . obtain ⟨m, hm⟩ := finishes_iff.mp h'
    refine ⟨m, fun n hn => ?_⟩
    rw [run_eq_of_finished hm hn]
  . refine ⟨m, fun n hn => ?_⟩
    have hprefix := trace_isPrefix_of_le limit' p c hn
    rwa [hm] at hprefix

theorem Finishes.trace_isPrefix_trace {p q q' : Progress} {c : Config} {result result' : List Term}
    (h : Finishes limit p c q result) (h' : Finishes limit' p c q' result')
    : q.trace.toList <+: q'.trace.toList := by
  obtain ⟨m, hm⟩ := h.trace_isPrefix hle
  obtain ⟨n, hn⟩ := finishes_iff.mp h'
  have hprefix := hm (max m n) (Nat.le_max_left m n)
  rwa [run_eq_of_finished hn (Nat.le_max_right m n)] at hprefix

theorem Finishes.steps_le_of_relax {start : Int} {q q' : Progress} {c : Config}
    {result result' : List Term} (h : Finishes limit { steps := start } c q result)
    (h' : Finishes limit' { steps := start } c q' result')
    : q.steps ≤ q'.steps := by
  have hsize := (h.trace_isPrefix_trace hle h').length_le
  simp only [Array.length_toList] at hsize
  rw [h.counts.steps, h'.counts.steps]
  omega

end Limits

end Reduction

namespace Reducer

open Reduction

section Limits

variable {r : Reducer} {limit : Option Int} (h : r.budget? = .ok limit) (fuel : Nat)

include h

theorem trace_reduce
    : (r.reduce fuel).trace = (run limit fuel { steps := r.steps } (.start r.terms)).1.trace := by
  simp [reduce, h]

theorem ending_reduce
    : (r.reduce fuel).ending = (run limit fuel { steps := r.steps } (.start r.terms)).2 := by
  simp [reduce, h]

end Limits

section Bounded

variable {r r' : Reducer} {bound bound' : Int}

theorem exists_finished_of_bound (h : r.budget? = .ok (some bound))
    : ∃ fuel result, (r.reduce fuel).ending = .finished result := by
  obtain ⟨q, result, hfinishes⟩ :=
    exists_finishes_of_bound bound { steps := r.steps } (.start r.terms)
  obtain ⟨fuel, hfuel⟩ := reduce_of_finishes h hfinishes
  exact ⟨fuel, result, hfuel⟩

theorem trace_isPrefix_of_bound_le {fuel fuel' : Nat} {result result' : List Term}
    (h : r.budget? = .ok (some bound)) (h' : r'.budget? = .ok (some bound')) (hle : bound ≤ bound')
    (hterms : r'.terms = r.terms) (hsteps : r'.steps = r.steps)
    (hend : (r.reduce fuel).ending = .finished result)
    (hend' : (r'.reduce fuel').ending = .finished result')
    : (r.reduce fuel).trace.toList <+: (r'.reduce fuel').trace.toList := by
  obtain ⟨limit, q, hlimit, hfinishes, _, htrace⟩ := finishes_of_reduce hend
  obtain ⟨limit', q', hlimit', hfinishes', _, htrace'⟩ := finishes_of_reduce hend'
  cases h.symm.trans hlimit
  cases h'.symm.trans hlimit'
  rw [hterms, hsteps] at hfinishes'
  rw [htrace, htrace']
  exact hfinishes.trace_isPrefix_trace (fun _ => exhausts_of_le hle) hfinishes'

end Bounded

noncomputable def firings (r : Reducer) : ℕ∞ :=
  {i : Nat | ∃ fuel, i < (r.reduce fuel).trace.size}.encard

section Firings

variable {r : Reducer} {limit : Option Int}

theorem size_le_firings (r : Reducer) (fuel : Nat)
    : ((r.reduce fuel).trace.size : ℕ∞) ≤ r.firings := by
  rw [← Set.Nat.encard_range (r.reduce fuel).trace.size]
  apply Set.encard_le_encard
  intro i hi
  exact ⟨fuel, hi⟩

theorem firings_of_finishes {q : Progress} {result : List Term} (hlimit : r.budget? = .ok limit)
    (h : Finishes limit { steps := r.steps } (.start r.terms) q result)
    : r.firings = q.trace.size := by
  obtain ⟨m, hm⟩ := finishes_iff.mp h
  have hsize (n : Nat) : (r.reduce n).trace.size ≤ q.trace.size := by
    have hprefix := trace_isPrefix_of_le limit { steps := r.steps } (.start r.terms)
      (Nat.le_max_right m n)
    rw [run_eq_of_finished hm (Nat.le_max_left m n)] at hprefix
    rw [trace_reduce hlimit]
    exact hprefix.length_le
  have hset : {i | ∃ fuel, i < (r.reduce fuel).trace.size} = {i | i < q.trace.size} := by
    ext i
    constructor
    . rintro ⟨n, hn⟩
      exact Nat.lt_of_lt_of_le hn (hsize n)
    . intro hi
      refine ⟨m, ?_⟩
      rwa [trace_reduce hlimit, hm]
  rw [firings, hset, Set.Nat.encard_range]

end Firings

section Bounds

variable {r free : Reducer} {bound : Int} {q : Progress} {result : List Term}
  (hlimit : free.budget? = .ok none) (hterms : free.terms = r.terms) (hsteps : free.steps = r.steps)
  (h : Finishes (some bound) { steps := r.steps } (.start r.terms) q result)

include hlimit hterms hsteps h

theorem finishes_or_reached
    : Finishes none { steps := free.steps } (.start free.terms) q result
        ∨ ((q.trace.size : ℕ∞) = (bound - r.steps).toNat ∧ (q.trace.size : ℕ∞) ≤ free.firings) := by
  rw [hterms, hsteps]
  obtain hfree | ⟨hreached, m, d, hm⟩ := h.relax_or_reached fun _ => exhausts_of_none
  . exact .inl hfree
  . right
    have hfirings := size_le_firings free m
    rw [trace_reduce hlimit, hterms, hsteps, hm] at hfirings
    refine ⟨?_, hfirings⟩
    have hle : bound ≤ q.steps := by simpa [exhausts] using hreached
    rw [h.counts.steps] at hle
    have hsize := h.size_le
    norm_cast
    omega

theorem size_eq_min
    : (q.trace.size : ℕ∞) = min ((bound - r.steps).toNat : ℕ∞) free.firings := by
  obtain hfree | ⟨hsize, hfirings⟩ := finishes_or_reached hlimit hterms hsteps h
  . rw [firings_of_finishes hlimit hfree, eq_comm, min_eq_right]
    exact_mod_cast h.size_le
  . rw [← hsize, eq_comm, min_eq_left hfirings]

theorem finishes_of_firings_lt {n : Nat} (hfirings : free.firings = n)
    (hlt : r.steps + n < bound)
    : Finishes none { steps := free.steps } (.start free.terms) q result := by
  obtain hfree | ⟨hsize, hle⟩ := finishes_or_reached hlimit hterms hsteps h
  . exact hfree
  . rw [hsize, hfirings] at hle
    norm_cast at hle
    omega

end Bounds

/--
A bound only cuts a reduction short. As many contractions are made as the bound allows, or all there
are, and they are the first ones of the reduction without a bound. If the bound is not reached, the
result is the same.
-/
theorem reduce_trace_isPrefix {r free : Reducer} {bound : Int} (hbounded : r.complexity.isBounded)
    (hbound : r.bound = some bound) (hunbounded : free.complexity = .unbounded)
    (hterms : free.terms = r.terms) (hsteps : free.steps = r.steps)
    : (∃ fuel result, (r.reduce fuel).ending = .finished result)
        ∧ ∀ fuel result, (r.reduce fuel).ending = .finished result
          → ((r.reduce fuel).trace.size : ℕ∞) = min ((bound - r.steps).toNat : ℕ∞) free.firings
            ∧ (r.reduce fuel).reducer.steps = r.steps + (r.reduce fuel).trace.size
            ∧ (∀ (i : Nat) (f : Firing), (r.reduce fuel).trace[i]? = some f
              → f.number = r.steps + i + 1)
            ∧ (∃ m, ∀ n, m ≤ n → (r.reduce fuel).trace.toList <+: (free.reduce n).trace.toList)
            ∧ (∀ n : Nat, free.firings = n → r.steps + n < bound
              → ∃ m, ∀ n', m ≤ n' → (free.reduce n').ending = .finished result) := by
  have hlimit := budget?_eq_ok_some hbounded hbound
  have hfree := budget?_eq_ok_none hunbounded
  constructor
  . exact exists_finished_of_bound hlimit
  . intro fuel result hend
    obtain ⟨limit, q, hlimit', h, hreducer, htrace⟩ := finishes_of_reduce hend
    cases hlimit.symm.trans hlimit'
    rw [htrace, hreducer]
    refine ⟨size_eq_min hfree hterms hsteps h, h.counts.steps, h.counts.number, ?_, ?_⟩
    . obtain ⟨m, hm⟩ := h.trace_isPrefix fun _ => exhausts_of_none
      refine ⟨m, fun n hn => ?_⟩
      rw [trace_reduce hfree, hterms, hsteps]
      exact hm n hn
    . intro n hfirings hlt
      have hfinishes := finishes_of_firings_lt hfree hterms hsteps h hfirings hlt
      obtain ⟨m, hm⟩ := finishes_iff.mp hfinishes
      refine ⟨m, fun n' hn' => ?_⟩
      rw [ending_reduce hfree, run_eq_of_finished hm hn']

theorem reduce_trace_isPrefix_of_loop
    : let loop : List Term := [.primitive .S none, .primitive .I none, .primitive .I none]
      let r : Reducer :=
        { terms := loop ++ [.group loop none, .group [] none]
          complexity := .quadratic
          bound := some 5
          steps := 2 }
      let free : Reducer := { r with complexity := .unbounded, bound := none }
      ∃ fuel result, (r.reduce fuel).ending = .finished result
        ∧ ((r.reduce fuel).trace.size : ℕ∞) = min 3 free.firings
        ∧ (∀ (i : Nat) (f : Firing), (r.reduce fuel).trace[i]? = some f → f.number = 2 + i + 1)
        ∧ ∃ m, ∀ n, m ≤ n → (r.reduce fuel).trace.toList <+: (free.reduce n).trace.toList := by
  intro loop r free
  obtain ⟨⟨fuel, result, hend⟩, h⟩ := @reduce_trace_isPrefix r free 5 rfl rfl rfl rfl rfl
  obtain ⟨hsize, _, hnumber, hprefix, _⟩ := h fuel result hend
  exact ⟨fuel, result, hend, hsize, hnumber, hprefix⟩

end Reducer

end Combinatory
