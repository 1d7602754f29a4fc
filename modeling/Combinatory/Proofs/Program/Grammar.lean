import Combinatory.Token.Basic
import Mathlib.Data.List.Basic

namespace Combinatory

namespace Grammar

inductive Symbol where
  | program
  | definitions
  | definition
  | terms (names : Bool)
  | term (names : Bool)

/--
The grammar, one rule after the other:

```
program      ::= <complexity> definitions "?" terms     -- with names
definitions  ::= definition*
definition   ::= <name> "=" terms                       -- without names
terms        ::= term+
term         ::= "K" | "S" | "I" | <name> | "(" terms ")"
```
-/
inductive Derives : Symbol → List Tag → Prop where
  | program (complexity : Complexity) {ds task : List Tag} (hds : Derives .definitions ds)
    (htask : Derives (.terms true) task)
    : Derives .program (.complexity complexity :: (ds ++ .questionSign :: task))
  | noDefinition : Derives .definitions []
  | moreDefinitions {d ds : List Tag} (hd : Derives .definition d) (hds : Derives .definitions ds)
    : Derives .definitions (d ++ ds)
  | definition {body : List Tag} (hbody : Derives (.terms false) body)
    : Derives .definition (.name :: .equalSign :: body)
  | oneTerm {names : Bool} {tags : List Tag} (h : Derives (.term names) tags)
    : Derives (.terms names) tags
  | moreTerms {names : Bool} {tags rest : List Tag} (h : Derives (.term names) tags)
    (hrest : Derives (.terms names) rest) : Derives (.terms names) (tags ++ rest)
  | primitive (names : Bool) (c : Combinator) : Derives (.term names) [.primitive c]
  | name : Derives (.term true) [.name]
  | group {names : Bool} {inner : List Tag} (h : Derives (.terms names) inner)
    : Derives (.term names) (.leftBracket :: (inner ++ [.rightBracket]))

end Grammar

namespace Token

def definedNames (tokens : List Token) : List String :=
  (tokens.takeWhile (·.tag ≠ .questionSign)).filter (·.tag = .name) |>.map text

def usedNames (tokens : List Token) : List String :=
  (tokens.dropWhile (·.tag ≠ .questionSign)).filter (·.tag = .name) |>.map text

structure Accepted (tokens : List Token) : Prop where
  derives : Grammar.Derives .program (tokens.map tag)
  usedNames_subset : usedNames tokens ⊆ definedNames tokens

end Token

end Combinatory
