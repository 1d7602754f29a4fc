namespace Combinatory

inductive Complexity where
  | unbounded
  | exponential
  | quadratic
  deriving DecidableEq, Inhabited

namespace Complexity

def word : Complexity → String
  | .unbounded => "inf"
  | .exponential => "exp"
  | .quadratic => "quad"

def ofWord? (word : String) : Option Complexity :=
  if word = "inf" then some .unbounded
  else if word = "exp" then some .exponential
  else if word = "quad" then some .quadratic
  else none

def isBounded (c : Complexity) : Bool :=
  c ≠ .unbounded

def bound : Complexity → (size : Int) → Option Int
  | .unbounded, _ => none
  | .exponential, size => some (Int.pow 2 (size + 1).toNat)
  | .quadratic, size => some (Int.pow (size + 1) 2)

theorem ofWord?_word (c : Complexity) : ofWord? c.word = some c := by
  cases c <;> decide

theorem bound_isSome (c : Complexity) (size : Int) : (c.bound size).isSome = c.isBounded := by
  cases c <;> rfl

end Complexity

end Combinatory
