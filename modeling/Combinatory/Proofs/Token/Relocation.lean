import Combinatory.Proofs.Term.Spans
import Combinatory.Report.Message
import Combinatory.Token.Basic

namespace Combinatory

def Token.relocate (φ : Position → Position) (t : Token) : Token :=
  { t with span := t.span.relocate φ }

def Message.relocate (φ : Position → Position) (m : Message) : Message :=
  { m with position := m.position.map φ }

section

variable (φ : Position → Position) (t : Token)

@[simp]
theorem Token.tag_relocate : (t.relocate φ).tag = t.tag := rfl

@[simp]
theorem Token.text_relocate : (t.relocate φ).text = t.text := rfl

@[simp]
theorem Token.span_relocate : (t.relocate φ).span = t.span.relocate φ := rfl

@[simp]
theorem Token.position_relocate : (t.relocate φ).position = φ t.position := rfl

theorem Token.map_tag_relocate (ts : List Token)
    : (ts.map (relocate φ)).map tag = ts.map tag := by
  simp

end

end Combinatory
