import Combinatory.Term.Basic

/-!
Terms as text. `render` writes a sequence in bracket notation, `Term.display` lays a term out as an
indented tree. `glyphs` is the text that `render` writes, as a list of characters: `toList_render`.
-/

namespace Combinatory

namespace Term

mutual

def glyphs : Term → List Char
  | .primitive c _ => [c.symbol]
  | .group ts _ => '(' :: (glyphsAll ts ++ [')'])

def glyphsAll : List Term → List Char
  | [] => []
  | t :: ts => t.glyphs ++ glyphsAll ts

end

mutual

def writeTo (acc : String) : Term → String
  | .primitive c _ => acc.push c.symbol
  | .group ts _ => (writeAllTo (acc.push '(') ts).push ')'

def writeAllTo (acc : String) : List Term → String
  | [] => acc
  | t :: ts => writeAllTo (t.writeTo acc) ts

end

mutual

theorem toList_writeTo (acc : String) (t : Term)
    : (t.writeTo acc).toList = acc.toList ++ t.glyphs := by
  cases t with
  | primitive => simp [writeTo, glyphs]
  | group ts => simp [writeTo, glyphs, toList_writeAllTo]

theorem toList_writeAllTo (acc : String) (ts : List Term)
    : (writeAllTo acc ts).toList = acc.toList ++ glyphsAll ts := by
  cases ts with
  | nil => simp [writeAllTo, glyphsAll]
  | cons t ts => simp [writeAllTo, glyphsAll, toList_writeAllTo _ ts, toList_writeTo]

end

end Term

def render (ts : List Term) : String :=
  Term.writeAllTo "" ts

@[simp]
theorem toList_render (ts : List Term) : (render ts).toList = Term.glyphsAll ts := by
  simp [render, Term.toList_writeAllTo]

namespace Term

def text (t : Term) : String :=
  render [t]

def bareText : Term → String
  | .primitive c _ => c.symbol.toString
  | .group ts _ => render ts

def kindName : Term → String
  | .primitive .. => "Primitive"
  | .group .. => "Group"

def label (t : Term) : String :=
  t.kindName ++ "('" ++ t.bareText ++ "')"

def indent (depth : Int) : String :=
  String.ofList (List.replicate (4 * depth.toNat) ' ')

mutual

def display (depth : Int) : Term → String
  | .primitive c s => indent depth ++ "Primitive(expr='" ++ (primitive c s).bareText ++ "')"
  | .group [] _ => indent depth ++ "Group(expr='')"
  | .group (t :: ts) s =>
    indent depth ++ "Group(expr='" ++ (group (t :: ts) s).bareText ++ "', nodes=[\n" ++
      t.display (depth + 1) ++ displayRest (depth + 1) ts ++ "\n" ++ indent depth ++ "])"

def displayRest (depth : Int) : List Term → String
  | [] => ""
  | t :: ts => ",\n" ++ t.display depth ++ displayRest depth ts

end

end Term

end Combinatory
