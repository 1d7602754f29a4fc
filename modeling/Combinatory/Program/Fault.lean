import Combinatory.Token.Basic

namespace Combinatory

inductive Expectation where
  | complexity
  | name
  | equalSign
  | questionSign
  | endOfProgram
  | rightBracket
  | definitionTerm
  | taskTerm
  deriving DecidableEq

def Expectation.text : Expectation → String
  | .complexity => "expected complexity"
  | .name => "expected user_combinator"
  | .equalSign => "expected equal_sign"
  | .questionSign => "expected question_sign"
  | .endOfProgram => "expected end_of_program"
  | .rightBracket => "expected right_bracket"
  | .definitionTerm => "expected left_bracket or one of K, S, I combs"
  | .taskTerm => "expected left_bracket or one of K, S, I combs or another user_combinator"

inductive ParseFault where
  | expected (expectation : Expectation) (found : Token)
  | undefined (name : Token)
  | notPrimitive (found : Token)
  deriving DecidableEq

end Combinatory
