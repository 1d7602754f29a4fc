import Combinatory.Reduction.Reducer

/-!
What becomes of the terms that a reduction begins with. It works on their groups themselves, so that
whoever holds on to the terms finds in each of the groups what it was reduced to. The sequence of
the terms stays as it is, and so do the copies that contractions make: these are groups of their
own.
-/

namespace Combinatory

/--
Where a term comes from. A group that a reduction was handed, and none that it built or copied, has
a place: the indices that lead to it, the last one first.
-/
structure Origin where
  span : Option Span
  place : Option (List Nat)

instance : Note Origin where
  join own part := { span := Span.stretch own.span part.span, place := none }
  copy o := { o with place := none }

namespace Term

mutual

def locate (place : List Nat) : Term → Term Origin
  | .primitive c span => .primitive c { span, place := none }
  | .group ts span => .group (locateAll place 0 ts) { span, place := some place }

def locateAll (place : List Nat) (i : Nat) : List Term → List (Term Origin)
  | [] => []
  | t :: ts => t.locate (i :: place) :: locateAll place (i + 1) ts

end

end Term

namespace Reduction

abbrev Write := List Nat × List Term

def Config.write? : Config Origin → Option Write
  | ⟨.members done [], frame :: _⟩ =>
    frame.note.place.map fun place => (place, done.reverse.map (Term.map Origin.span))
  | _ => none

def writes (limit : Option Int)
    : (fuel : Nat) → (steps : Int) → Config Origin → (made : List Write) → List Write
  | 0, _, _, made => made
  | fuel + 1, steps, config, made =>
    let made := config.write?.toList ++ made
    match config.step (exhausts limit steps) with
    | .silent config => writes limit fuel steps config made
    | .fired _ _ config => writes limit fuel (steps + 1) config made
    | _ => made

end Reduction

namespace Term

mutual

def settle (made : List Reduction.Write) : Term Origin → Term
  | .primitive c o => .primitive c o.span
  | .group ts o =>
    match o.place.bind fun place => made.lookup place with
    | some nodes => .group nodes o.span
    | none => .group (settleAll made ts) o.span

def settleAll (made : List Reduction.Write) : List (Term Origin) → List Term
  | [] => []
  | t :: ts => t.settle made :: settleAll made ts

end

end Term

def Reducer.rewritten (r : Reducer) (fuel : Nat) : List Term :=
  match r.budget? with
  | .error _ => r.terms
  | .ok limit =>
    let located := Term.locateAll [] 0 r.terms
    Term.settleAll (Reduction.writes limit fuel r.steps (.start located) []) located

end Combinatory
