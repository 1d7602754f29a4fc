import Combinatory.Complexity
import Combinatory.Term.Render

namespace Combinatory

structure Definition where
  name : String
  body : Group
  span : Span

namespace Definition

def expand (d : Definition) : Term :=
  d.body.term

def label (d : Definition) : String :=
  "NamedComb(name='" ++ d.name ++ "', body=" ++ d.expand.label ++ ")"

end Definition

/--
Definitions in the order in which their names came up, with one definition for each name.
-/
structure Definitions where
  toList : List Definition := []

namespace Definitions

def find? (ds : Definitions) (name : String) : Option Definition :=
  ds.toList.find? (·.name = name)

def contains (ds : Definitions) (name : String) : Bool :=
  (ds.find? name).isSome

def define (ds : Definitions) (d : Definition) : Definitions :=
  { toList := go ds.toList }
where
  go : List Definition → List Definition
    | [] => [d]
    | e :: es => if e.name = d.name then d :: es else e :: go es

def names (ds : Definitions) : List String :=
  ds.toList.map (·.name)

theorem define.go_find? (d : Definition) (es : List Definition) (name : String)
    : (go d es).find? (·.name = name)
        = if d.name = name then some d else es.find? (·.name = name) := by
  induction es with
  | nil => by_cases h : d.name = name <;> simp [go, h]
  | cons e es ih =>
    by_cases hd : e.name = d.name
    . by_cases h : d.name = name <;> simp [go, hd, h]
    . by_cases he : e.name = name
      . have : d.name ≠ name := fun h => hd (he.trans h.symm)
        simp [go, he, this, this.symm]
      . simp [go, hd, he, ih]

theorem find?_define (ds : Definitions) (d : Definition) (name : String)
    : (ds.define d).find? name = if d.name = name then some d else ds.find? name := by
  simp only [find?, define]
  apply define.go_find?

end Definitions

structure Program where
  complexity : Complexity
  definitions : Definitions
  task : List Term
  /-- How many combinators were written down in definitions and in the task. -/
  primitives : Nat

def Program.bound (p : Program) : Option Int :=
  p.complexity.bound p.primitives

end Combinatory
