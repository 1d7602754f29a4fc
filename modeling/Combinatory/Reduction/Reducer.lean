import Combinatory.Reduction.Machine
import Combinatory.Term.Render

namespace Combinatory

structure Reducer where
  terms : List Term
  complexity : Complexity
  bound : Option Int
  steps : Int := 0

namespace Reducer

def new? (terms : List Term) (complexity : Complexity) (bound : Option Int)
    : Except Defect Reducer :=
  if complexity.isBounded ∧ bound = none then
    .error (.boundRequired complexity)
  else
    .ok { terms, complexity, bound }

def limit? (r : Reducer) : Except Defect (Option Int) :=
  if r.complexity.isBounded then
    match r.bound with
    | some bound => .ok (some bound)
    | none => .error .boundMissing
  else
    .ok none

/--
The limit of a reduction. The bound is read at the heads of sequences, so that one without terms
does without it.
-/
def budget? (r : Reducer) : Except Defect (Option Int) :=
  match r.terms, r.limit? with
  | [], .error _ => .ok none
  | _, limit => limit

def isExhausted? (r : Reducer) : Except Defect Bool :=
  match r.limit? with
  | .ok limit => .ok (Reduction.exhausts limit r.steps)
  | .error defect => .error defect

structure Reduced where
  reducer : Reducer
  trace : Array Reduction.Firing
  ending : Reduction.Ending

/--
Reduces the terms, within `fuel` steps of the machine. Only a reduction that comes to its end
replaces the terms.
-/
def reduce (r : Reducer) (fuel : Nat) : Reduced :=
  match r.budget? with
  | .error defect => { reducer := r, trace := #[], ending := .fault defect }
  | .ok limit =>
    let (progress, ending) := Reduction.run limit fuel { steps := r.steps } (.start r.terms)
    let terms :=
      match ending with
      | .finished result => result
      | _ => r.terms
    { reducer := { r with terms, steps := progress.steps }, trace := progress.trace, ending }

def text (r : Reducer) : String :=
  render r.terms

def label (r : Reducer) : String :=
  "Reducer('" ++ r.text ++ "', steps=" ++ toString r.steps ++ ")"

theorem new?_bound_isOk (terms : List Term) (complexity : Complexity) (size : Int)
    : new? terms complexity (complexity.bound size)
        = .ok { terms, complexity, bound := complexity.bound size } := by
  cases complexity <;> rfl

end Reducer

end Combinatory
