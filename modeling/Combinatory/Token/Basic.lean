import Combinatory.Complexity
import Combinatory.Term.Basic

namespace Combinatory

inductive Tag where
  | leftBracket
  | rightBracket
  | name
  | complexity (complexity : Complexity)
  | questionSign
  | equalSign
  | primitive (combinator : Combinator)
  | endOfProgram
  deriving DecidableEq, Inhabited

namespace Tag

def label : Tag → String
  | .leftBracket => "LEFT_BRACKET"
  | .rightBracket => "RIGHT_BRACKET"
  | .name => "USER_COMBINATOR"
  | .complexity .unbounded => "INFINITY_COMP"
  | .complexity .exponential => "EXPONENT_COMP"
  | .complexity .quadratic => "QUADRATE_COMP"
  | .questionSign => "QUESTION_SIGN"
  | .equalSign => "EQUAL_SIGN"
  | .primitive .K => "K_COMB"
  | .primitive .S => "S_COMB"
  | .primitive .I => "I_COMB"
  | .endOfProgram => "END_OF_PROGRAM"

def symbol : Tag → String
  | .leftBracket => "("
  | .rightBracket => ")"
  | .name => "c"
  | .complexity c => c.word
  | .questionSign => "?"
  | .equalSign => "="
  | .primitive c => c.symbol.toString
  | .endOfProgram => "$"

end Tag

structure Token where
  tag : Tag
  span : Span
  text : String
  deriving DecidableEq, Inhabited

namespace Token

def position (t : Token) : Position :=
  t.span.start

def label (t : Token) : String :=
  t.tag.label ++ " " ++ t.span.text ++ ": " ++ t.text

end Token

end Combinatory
