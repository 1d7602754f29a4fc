/-!
Integers as decimal text. A number that is asked for as text may have at most `maxDigits` digits,
unless another limit is set or none.
-/

namespace Combinatory

namespace Numeral

def maxDigits : Nat := 4300

def text? (n : Int) (limit : Option Nat := some maxDigits) : Option String :=
  match limit with
  | some digits => if n.natAbs < Nat.pow 10 digits then some (toString n) else none
  | none => some (toString n)

end Numeral

end Combinatory
