import Combinatory.Proofs.Reduction.Transition

namespace Combinatory

namespace Term

mutual

def weight : Term → Nat
  | .primitive .. => 1
  | .group ts _ => weightAll ts + 3

def weightAll : List Term → Nat
  | [] => 0
  | t :: ts => t.weight + weightAll ts

end

@[simp]
theorem weight_primitive (c : Combinator) (s : Option Span) : (primitive c s).weight = 1 := by
  simp [weight]

@[simp]
theorem weight_group (ts : List Term) (s : Option Span)
    : (group ts s).weight = weightAll ts + 3 := by
  simp [weight]

@[simp]
theorem weightAll_nil : weightAll [] = 0 := by
  simp [weightAll]

@[simp]
theorem weightAll_cons (t : Term) (ts : List Term)
    : weightAll (t :: ts) = t.weight + weightAll ts := by
  simp [weightAll]

@[simp]
theorem weightAll_append (ts us : List Term)
    : weightAll (ts ++ us) = weightAll ts + weightAll us := by
  induction ts with
  | nil => simp
  | cons t ts ih =>
    simp only [List.cons_append, weightAll_cons, ih]
    omega

end Term

namespace Reduction

def Focus.weight : Focus → Nat
  | .head terms => Term.weightAll terms + 2
  | .members _ rest => Term.weightAll rest + 1

def Frame.weight (f : Frame) : Nat :=
  Term.weightAll f.rest + 1

def Frame.weightAll : List Frame → Nat
  | [] => 0
  | f :: outer => f.weight + weightAll outer

def Config.weight (c : Config) : Nat :=
  c.focus.weight + Frame.weightAll c.outer

theorem Silent.weight_lt {exhausted : Bool} {c d : Config} (h : Silent exhausted c d)
    : d.weight < c.weight := by
  cases h
  all_goals
    simp only [Config.weight, Focus.weight, Frame.weight, Frame.weightAll, Term.weightAll_nil,
      Term.weightAll_cons, Term.weightAll_append, Term.weight_primitive, Term.weight_group]
    omega

theorem exists_finishes {limit : Option Int} {R : Nat → Progress → Config → Prop}
    (silent : ∀ n p c d, R n p c → Silent (exhausts limit p.steps) c d → R n p d)
    (fired : ∀ n p c before after d, R n p c → exhausts limit p.steps = false
      → Fires c before after d → ∃ m, m < n ∧ R m (p.record before after) d)
    {n : Nat} {p : Progress} {c : Config} (h : R n p c)
    : ∃ q result, Finishes limit p c q result := by
  -- Contractions lower the number, and between two of them every silent step lowers the weight.
  induction n using Nat.strongRecOn generalizing p c with
  | ind n ihn =>
    induction hweight : c.weight using Nat.strongRecOn generalizing c with
    | ind weight ihweight =>
      obtain ⟨d, hd, hsilent⟩ | ⟨before, after, d, hd, hexhausted, hfires⟩ | ⟨done, hd, _⟩ :=
        c.step_cases (exhausts limit p.steps)
      . have hlt : d.weight < weight := hweight ▸ hsilent.weight_lt
        obtain ⟨q, result, hfinishes⟩ := ihweight d.weight hlt (silent n p c d h hsilent) rfl
        exact ⟨q, result, .silent hd hfinishes⟩
      . obtain ⟨m, hlt, hm⟩ := fired n p c before after d h hexhausted hfires
        obtain ⟨q, result, hfinishes⟩ := ihn m hlt hm
        exact ⟨q, result, .fired hd hfinishes⟩
      . exact ⟨p, done.reverse, .halted hd⟩

theorem exists_finishes_of_bound (bound : Int) (p : Progress) (c : Config)
    : ∃ q result, Finishes (some bound) p c q result := by
  -- The number that goes down is the budget that is left.
  refine exists_finishes (R := fun n p _ => n = (bound - p.steps).toNat) ?_ ?_ rfl
  . intro n p c d h _
    exact h
  . rintro n p c before after d rfl hexhausted _
    have hlt : p.steps < bound := by simpa [exhausts] using hexhausted
    refine ⟨(bound - (p.steps + 1)).toNat, by omega, rfl⟩

end Reduction

end Combinatory
