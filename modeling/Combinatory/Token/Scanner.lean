import Combinatory.Report.Message
import Combinatory.Text.Blank
import Combinatory.Token.Basic

namespace Combinatory

inductive Piece where
  | blank
  | token (tag : Tag) (width : Nat)
  /-- A letter that begins names, without the digits that would make it one. -/
  | bareName
  | stray
  deriving DecidableEq

/--
The piece at the head of the text `c :: rest`. A name takes all digits that follow its letter, a
word of a complexity is not asked what follows it.
-/
def Piece.ofChars (c : Char) (rest : List Char) : Piece :=
  match c, rest with
  | '(', _ => .token .leftBracket 1
  | ')', _ => .token .rightBracket 1
  | '?', _ => .token .questionSign 1
  | '=', _ => .token .equalSign 1
  | 'K', _ => .token (.primitive .K) 1
  | 'S', _ => .token (.primitive .S) 1
  | 'I', _ => .token (.primitive .I) 1
  | 'C', rest =>
    match rest.takeWhile Char.isDigit with
    | [] => .bareName
    | digits => .token .name (digits.length + 1)
  | 'i', 'n' :: 'f' :: _ => .token (.complexity .unbounded) 3
  | 'e', 'x' :: 'p' :: _ => .token (.complexity .exponential) 3
  | 'q', 'u' :: 'a' :: 'd' :: _ => .token (.complexity .quadratic) 4
  | c, _ => if isBlank c then .blank else .stray

theorem Piece.width_ne_zero {c : Char} {rest : List Char} {tag : Tag} {width : Nat}
    (h : Piece.ofChars c rest = .token tag width)
    : width ≠ 0 := by
  rintro rfl
  unfold Piece.ofChars at h
  split at h <;> (try split at h) <;> simp at h

structure Scanner where
  cursor : Cursor
  done : Bool := false
  messages : Array Message := #[]

namespace Scanner

def ofText (text : String) : Scanner :=
  { cursor := .ofText text.toList }

def skip (s : Scanner) (width : Nat) : Scanner :=
  { s with cursor := s.cursor.skip width }

def reject (s : Scanner) (text : String) : Scanner :=
  let message := { severity := .error, text, position := some s.cursor.position }
  { s with cursor := s.cursor.advance, messages := s.messages.push message }

def next (s : Scanner) : Token × Scanner :=
  let start := s.cursor.position
  match _h : s.cursor.rest with
  | [] => ({ tag := .endOfProgram, span := ⟨start, start⟩, text := "" }, { s with done := true })
  | c :: rest =>
    match Piece.ofChars c rest with
    | .blank => (s.skip 1).next
    | .token tag width =>
      let behind := s.skip width
      let text := String.ofList ((c :: rest).take width)
      ({ tag, span := ⟨start, behind.cursor.position⟩, text }, behind)
    | .bareName => (s.reject "Wrong user_combinator: C").next
    | .stray => (s.reject ("Unexpected symbol: " ++ c.toString)).next
termination_by s.cursor.rest.length
decreasing_by all_goals exact Cursor.advance_length_lt (by simp [*])

theorem next_length_lt {s behind : Scanner} {token : Token} (hnext : s.next = (token, behind))
    (h : behind.done = false)
    : behind.cursor.rest.length < s.cursor.rest.length := by
  have hbehind : s.next.2 = behind := by rw [hnext]
  rw [← hbehind] at h ⊢
  clear hnext hbehind
  fun_induction next s with
  | case1 => simp at h
  | case2 s c rest hrest _ ih =>
    exact Nat.lt_trans (ih h) (Cursor.advance_length_lt (by simp [hrest]))
  | case3 s _ c rest hrest tag width hpiece =>
    exact Cursor.skip_length_lt (by simp [hrest]) (Piece.width_ne_zero hpiece)
  | case4 s c rest hrest _ ih =>
    exact Nat.lt_trans (ih h) (Cursor.advance_length_lt (by simp [hrest]))
  | case5 s c rest hrest _ ih =>
    exact Nat.lt_trans (ih h) (Cursor.advance_length_lt (by simp [hrest]))

def drain (s : Scanner) : Array Token × Scanner :=
  go s #[]
where
  go (s : Scanner) (tokens : Array Token) : Array Token × Scanner :=
    if s.done then
      (tokens, s)
    else
      match _h : s.next with
      | (token, s) =>
        let tokens := tokens.push token
        if s.done then
          (tokens, s)
        else
          go s tokens
  termination_by s.cursor.rest.length
  decreasing_by exact next_length_lt _h (by simp_all)

end Scanner

structure Scanned where
  tokens : List Token
  messages : Array Message

def tokenize (text : String) : Scanned :=
  let (tokens, s) := (Scanner.ofText text).drain
  { tokens := tokens.toList, messages := s.messages }

end Combinatory
