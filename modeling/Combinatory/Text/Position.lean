namespace Combinatory

/--
A place in a text. Lines and columns count from one, the index counts the characters before it.
-/
structure Position where
  line : Int := 1
  column : Int := 1
  index : Int := 0
  deriving DecidableEq, Inhabited

structure Span where
  start : Position
  stop : Position
  deriving DecidableEq, Inhabited

namespace Position

def text (p : Position) : String :=
  "(" ++ toString p.line ++ "," ++ toString p.column ++ ")"

def nextColumn (p : Position) : Position :=
  { p with column := p.column + 1, index := p.index + 1 }

def nextLine (p : Position) (width : Int) : Position :=
  { line := p.line + 1, column := 1, index := p.index + width }

end Position

namespace Span

def text (s : Span) : String :=
  s.start.text ++ "-" ++ s.stop.text

/--
The span of a whole after a part has joined at its end: `own` reaches to the end of `part`. A part
without a span changes nothing, a whole without a span takes that of the part.
-/
def stretch (own part : Option Span) : Option Span :=
  match own, part with
  | own, none => own
  | none, some part => some part
  | some own, some part => some { start := own.start, stop := part.stop }

@[simp]
theorem stretch_none (own : Option Span) : stretch own none = own := by
  cases own <;> rfl

@[simp]
theorem none_stretch (part : Option Span) : stretch none part = part := by
  cases part <;> rfl

end Span

structure Cursor where
  position : Position
  rest : List Char
  deriving DecidableEq, Inhabited

namespace Cursor

def ofText (text : List Char) : Cursor :=
  { position := {}, rest := text }

/--
Moves behind the next character. Only a line feed ends a line; a carriage return right before it
belongs to the line end, so that the two count as one character. The end of the text is not left.
-/
def advance (c : Cursor) : Cursor :=
  match c.rest with
  | [] => c
  | '\r' :: '\n' :: rest => { position := c.position.nextLine 2, rest }
  | '\n' :: rest => { position := c.position.nextLine 1, rest }
  | _ :: rest => { position := c.position.nextColumn, rest }

def skip (c : Cursor) : Nat → Cursor
  | 0 => c
  | n + 1 => c.advance.skip n

@[simp]
theorem skip_zero (c : Cursor) : c.skip 0 = c := rfl

@[simp]
theorem skip_succ (c : Cursor) (n : Nat) : c.skip (n + 1) = c.advance.skip n := rfl

theorem advance_length_lt {c : Cursor} (h : c.rest ≠ [])
    : c.advance.rest.length < c.rest.length := by
  unfold advance
  split
  . contradiction
  . next rest hrest =>
    rw [hrest]
    exact Nat.lt_succ_of_lt (Nat.lt_succ_self _)
  . next hrest => simp [hrest]
  . next hrest => simp [hrest]

theorem advance_length_le (c : Cursor) : c.advance.rest.length ≤ c.rest.length := by
  by_cases h : c.rest = []
  . simp [advance, h]
  . exact Nat.le_of_lt (advance_length_lt h)

theorem skip_length_le (c : Cursor) (n : Nat) : (c.skip n).rest.length ≤ c.rest.length := by
  induction n generalizing c with
  | zero => simp
  | succ n ih =>
    simp only [skip_succ]
    exact Nat.le_trans (ih c.advance) (advance_length_le c)

theorem skip_length_lt {c : Cursor} {n : Nat} (h : c.rest ≠ []) (hn : n ≠ 0)
    : (c.skip n).rest.length < c.rest.length := by
  cases n with
  | zero => contradiction
  | succ n =>
    simp only [skip_succ]
    exact Nat.lt_of_le_of_lt (skip_length_le c.advance n) (advance_length_lt h)

end Cursor

/--
The place after the character of `text` that stands at `p`, the index of which is not negative.
-/
def Position.advance (p : Position) (text : List Char) : Position :=
  Cursor.advance { position := p, rest := text.drop p.index.toNat } |>.position

end Combinatory
