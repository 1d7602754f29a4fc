import Combinatory.Complexity
import Combinatory.Text.Numeral
import Combinatory.Text.Quoted
import Combinatory.Text.Utf8

/-!
Uses of the library that have no answer: a word that names nothing, a budget that is missing, a file
that holds no text. Unlike a fault in a program, such a defect has no place in a program text.
-/

namespace Combinatory

inductive Defect where
  | notCombinator (text : String)
  | notComplexity (text : String)
  | boundRequired (complexity : Complexity)
  | boundMissing
  | tooFewTerms (needed given : Nat)
  | endTokenMissing
  | sourceMissing
  | nullInPath
  | notText (fault : Utf8.Fault)
  | tooManyDigits
  deriving DecidableEq

namespace Defect

def className : Defect → String
  | .notText _ => "UnicodeDecodeError"
  | .boundMissing => "TypeError"
  | _ => "ValueError"

def text : Defect → String
  | .notCombinator word => quoted word ++ " is not a valid Combinator"
  | .notComplexity word => quoted word ++ " is not a valid Complexity"
  | .boundRequired complexity => "'" ++ complexity.word ++ "' complexity requires a bound"
  | .boundMissing => "'>=' not supported between instances of 'int' and 'NoneType'"
  | .tooFewTerms needed given =>
    "not enough values to unpack (expected at least " ++ toString needed ++ ", got " ++
      toString given ++ ")"
  | .endTokenMissing => "token stream must end with END_OF_PROGRAM"
  | .sourceMissing => "either path or program is required"
  | .nullInPath => "embedded null byte"
  | .notText fault => fault.text
  | .tooManyDigits =>
    "Exceeds the limit (" ++ toString Numeral.maxDigits ++
      " digits) for integer string conversion; use sys.set_int_max_str_digits() " ++
      "to increase the limit"

end Defect

end Combinatory
