import Combinatory.Token.Scanner
import Mathlib.Data.List.Basic

namespace Combinatory

def Tag.Spells (tag : Tag) (text : String) : Prop :=
  match tag with
  | .name => ∃ digits : List Char, digits ≠ [] ∧ (∀ d ∈ digits, d.isDigit)
      ∧ text = String.ofList ('C' :: digits)
  | .endOfProgram => False
  | tag => text = tag.symbol

def Token.lexeme (t : Token) : Tag × String :=
  (t.tag, t.text)

structure Blanks where
  chars : List Char
  all_blank : ∀ c ∈ chars, isBlank c

def layOut (gap : Nat → Blanks) : List String → List Char
  | [] => (gap 0).chars
  | text :: texts => (gap 0).chars ++ (text.toList ++ layOut (fun i => gap (i + 1)) texts)

def EndsName (text : List Char) : Prop :=
  ∀ c ∈ text.head?, c.isDigit = false

section Characters

variable {c : Char} {rest : List Char}

theorem isDigit_eq_false_of_isBlank (h : isBlank c) : c.isDigit = false := by
  simp only [isBlank, Bool.or_eq_true, Bool.and_eq_true, decide_eq_true_eq, beq_iff_eq] at h
  by_contra hdigit
  rw [Bool.not_eq_false, Char.isDigit_iff_toNat] at hdigit
  have : 48 ≤ c.toNat ∧ c.toNat ≤ 57 := hdigit
  omega

theorem takeWhile_isDigit {digits : List Char} (h : ∀ d ∈ digits, d.isDigit)
    (hrest : EndsName rest)
    : (digits ++ rest).takeWhile Char.isDigit = digits := by
  rw [List.takeWhile_append_of_pos h]
  cases rest with
  | nil => simp
  | cons c rest =>
    have hc : c.isDigit = false := hrest c rfl
    simp [hc]

theorem Piece.ofChars_of_isBlank (h : isBlank c) : Piece.ofChars c rest = .blank := by
  unfold ofChars
  split <;> try contradiction
  rw [if_pos h]

theorem Piece.ofChars_name {d : Char} {digits : List Char}
    (h : rest.takeWhile Char.isDigit = d :: digits)
    : Piece.ofChars 'C' rest = .token .name (digits.length + 2) := by
  unfold ofChars
  split <;> try contradiction
  rw [h]
  rfl

theorem Tag.Spells.exists_cons {tag : Tag} {text : String} (h : tag.Spells text)
    : ∃ c cs, text.toList = c :: cs ∧ c.isDigit = false ∧ (∀ d ∈ c :: cs, d ≠ '\n' ∧ d ≠ '\r')
      ∧ ∀ rest, (tag = .name → EndsName rest)
        → Piece.ofChars c (cs ++ rest) = .token tag (cs.length + 1) := by
  cases tag with
  | name =>
    obtain ⟨digits, hne, hdigits, rfl⟩ := h
    refine ⟨'C', digits, by simp, by decide, ?_, ?_⟩
    . rw [List.forall_mem_cons]
      refine ⟨by decide, ?_⟩
      intro d hd
      have := hdigits d hd
      constructor
      . rintro rfl
        contradiction
      . rintro rfl
        contradiction
    . intro rest hrest
      cases digits with
      | nil => contradiction
      | cons => exact Piece.ofChars_name (takeWhile_isDigit hdigits (hrest rfl))
  | endOfProgram => cases h
  | leftBracket =>
    cases h
    exact ⟨'(', [], rfl, rfl, by simp, fun _ _ => rfl⟩
  | rightBracket =>
    cases h
    exact ⟨')', [], rfl, rfl, by simp, fun _ _ => rfl⟩
  | questionSign =>
    cases h
    exact ⟨'?', [], rfl, rfl, by simp, fun _ _ => rfl⟩
  | equalSign =>
    cases h
    exact ⟨'=', [], rfl, rfl, by simp, fun _ _ => rfl⟩
  | complexity c =>
    cases h
    cases c with
    | unbounded => exact ⟨'i', ['n', 'f'], rfl, rfl, by simp, fun _ _ => rfl⟩
    | exponential => exact ⟨'e', ['x', 'p'], rfl, rfl, by simp, fun _ _ => rfl⟩
    | quadratic => exact ⟨'q', ['u', 'a', 'd'], rfl, rfl, by simp, fun _ _ => rfl⟩
  | primitive c =>
    cases h
    cases c with
    | K => exact ⟨'K', [], rfl, rfl, by simp, fun _ _ => rfl⟩
    | S => exact ⟨'S', [], rfl, rfl, by simp, fun _ _ => rfl⟩
    | I => exact ⟨'I', [], rfl, rfl, by simp, fun _ _ => rfl⟩

end Characters

theorem EndsName.append {text rest : List Char} (h : EndsName text) (hrest : EndsName rest)
    : EndsName (text ++ rest) := by
  cases text with
  | nil => exact hrest
  | cons => exact h

theorem endsName_layOut (gap : Nat → Blanks) {lexemes : List (Tag × String)}
    (h : ∀ l ∈ lexemes, l.1.Spells l.2)
    : EndsName (layOut gap (lexemes.map Prod.snd)) := by
  have hgap : EndsName (gap 0).chars := by
    intro c hc
    exact isDigit_eq_false_of_isBlank ((gap 0).all_blank c (List.mem_of_mem_head? hc))
  cases lexemes with
  | nil => exact hgap
  | cons lexeme lexemes =>
    rw [List.forall_mem_cons] at h
    obtain ⟨c, cs, hcs, hc, _⟩ := h.1.exists_cons
    rw [List.map_cons, layOut, hcs]
    apply hgap.append
    intro d hd
    cases hd
    exact hc

namespace Cursor

variable {cursor : Cursor} {c : Char} {rest : List Char}

theorem rest_advance (h : cursor.rest = c :: rest) (hc : c = '\r' → rest.head? ≠ some '\n')
    : cursor.advance.rest = rest := by
  unfold advance
  rw [h]
  split
  . next h => cases h
  . next h =>
    cases h
    simp at hc
  . next h =>
    cases h
    rfl
  . next h =>
    cases h
    rfl

theorem rest_advance_lineEnd (h : cursor.rest = '\r' :: '\n' :: rest)
    : cursor.advance.rest = rest := by
  simp [advance, h]

theorem rest_skip {text : List Char} (h : cursor.rest = text ++ rest)
    (htext : ∀ c ∈ text, c ≠ '\n' ∧ c ≠ '\r')
    : (cursor.skip text.length).rest = rest := by
  induction text generalizing cursor with
  | nil => exact h
  | cons c text ih =>
    rw [List.forall_mem_cons] at htext
    apply ih
    . apply rest_advance h
      intro hc
      exact absurd hc htext.1.2
    . exact htext.2

end Cursor

namespace Scanner

variable {s : Scanner} {c : Char} {rest : List Char}

theorem next_of_nil (h : s.cursor.rest = [])
    : ∃ span, s.next = (⟨.endOfProgram, span, ""⟩, { s with done := true }) := by
  unfold next
  split
  . exact ⟨_, rfl⟩
  . next h' => simp [h] at h'

theorem next_of_blank (h : s.cursor.rest = c :: rest) (hc : isBlank c)
    : s.next = (s.skip 1).next := by
  rw [next]
  split
  . next h' => simp [h] at h'
  . next h' =>
    cases h.symm.trans h'
    rw [Piece.ofChars_of_isBlank hc]

theorem next_of_token {tag : Tag} {width : Nat} (h : s.cursor.rest = c :: rest)
    (hpiece : Piece.ofChars c rest = .token tag width)
    : ∃ span, s.next = (⟨tag, span, String.ofList ((c :: rest).take width)⟩, s.skip width) := by
  rw [next]
  split
  . next h' => simp [h] at h'
  . next h' =>
    cases h.symm.trans h'
    rw [hpiece]
    exact ⟨_, rfl⟩

theorem next_of_blanks {blanks : List Char} (h : s.cursor.rest = blanks ++ rest)
    (hblanks : ∀ c ∈ blanks, isBlank c) (hrest : rest.head? ≠ some '\n')
    : ∃ cursor, cursor.rest = rest ∧ s.next = { s with cursor }.next := by
  -- A line end of two characters is passed at once, hence the induction on the length.
  induction hlen : blanks.length using Nat.strongRecOn generalizing s blanks with
  | ind n ih =>
    subst hlen
    cases blanks with
    | nil => exact ⟨s.cursor, h, rfl⟩
    | cons c blanks =>
      rw [List.forall_mem_cons] at hblanks
      rw [next_of_blank h hblanks.1]
      by_cases hc : c = '\r' → (blanks ++ rest).head? ≠ some '\n'
      . have hadvance : (s.skip 1).cursor.rest = blanks ++ rest := Cursor.rest_advance h hc
        exact ih blanks.length (by simp) hadvance hblanks.2 rfl
      . cases blanks with
        | nil => simp_all
        | cons d blanks =>
          simp only [List.cons_append, List.head?_cons, ne_eq, Option.some.injEq, Classical.not_imp,
            not_not] at hc
          obtain ⟨rfl, rfl⟩ := hc
          rw [List.forall_mem_cons] at hblanks
          have hadvance : (s.skip 1).cursor.rest = blanks ++ rest := Cursor.rest_advance_lineEnd h
          have hlen : blanks.length < ('\r' :: '\n' :: blanks).length := by
            rw [List.length_cons, List.length_cons]
            omega
          exact ih blanks.length hlen hadvance hblanks.2.2 rfl

theorem next_of_end {blanks : Blanks} (h : s.cursor.rest = blanks.chars)
    : ∃ span cursor, s.next = (⟨.endOfProgram, span, ""⟩, { s with cursor, done := true }) := by
  rw [← List.append_nil blanks.chars] at h
  obtain ⟨cursor, hcursor, hnext⟩ := next_of_blanks h blanks.all_blank (by simp)
  obtain ⟨span, hend⟩ := next_of_nil (s := { s with cursor }) hcursor
  exact ⟨span, cursor, hnext.trans hend⟩

theorem next_of_spells {tag : Tag} {text : String} {blanks : Blanks} (htext : tag.Spells text)
    (h : s.cursor.rest = blanks.chars ++ (text.toList ++ rest)) (hrest : EndsName rest)
    : ∃ span cursor, cursor.rest = rest ∧ s.next = (⟨tag, span, text⟩, { s with cursor }) := by
  obtain ⟨c, cs, hcs, _, hline, hpiece⟩ := htext.exists_cons
  rw [hcs] at h
  have hhead : (c :: cs ++ rest).head? ≠ some '\n' := by
    simpa using (hline c (by simp)).1
  obtain ⟨cursor, hcursor, hnext⟩ := next_of_blanks h blanks.all_blank hhead
  obtain ⟨span, htoken⟩ := next_of_token (s := { s with cursor }) hcursor (hpiece rest fun _ => hrest)
  refine ⟨span, cursor.skip (c :: cs).length, Cursor.rest_skip hcursor hline, ?_⟩
  have htake : String.ofList ((c :: cs ++ rest).take (cs.length + 1)) = text := by
    rw [← String.toList_inj, hcs]
    simp
  rw [hnext, ← htake]
  exact htoken

theorem drain_go_of_next {t : Token} {behind : Scanner} (hdone : s.done = false)
    (h : s.next = (t, behind)) (tokens : Array Token)
    : drain.go s tokens
        = if behind.done then (tokens.push t, behind) else drain.go behind (tokens.push t) := by
  rw [drain.go]
  simp [hdone, h]

theorem drain_go_of_layOut {lexemes : List (Tag × String)} (hlexemes : ∀ l ∈ lexemes, l.1.Spells l.2)
    {gap : Nat → Blanks} (h : s.cursor.rest = layOut gap (lexemes.map Prod.snd))
    (hdone : s.done = false) (tokens : Array Token)
    : ∃ body last cursor, drain.go s tokens
          = (tokens ++ (body ++ [last]).toArray, { s with cursor, done := true })
        ∧ body.map Token.lexeme = lexemes ∧ last.tag = .endOfProgram := by
  induction lexemes generalizing s gap tokens with
  | nil =>
    obtain ⟨span, cursor, hnext⟩ := next_of_end h
    refine ⟨[], ⟨.endOfProgram, span, ""⟩, cursor, ?_, rfl, rfl⟩
    rw [drain_go_of_next hdone hnext]
    simp
  | cons lexeme lexemes ih =>
    obtain ⟨tag, text⟩ := lexeme
    rw [List.forall_mem_cons] at hlexemes
    obtain ⟨span, cursor, hcursor, hnext⟩ :=
      next_of_spells hlexemes.1 h (endsName_layOut _ hlexemes.2)
    obtain ⟨body, last, cursor', hgo, hbody, hlast⟩ :=
      ih (s := { s with cursor }) hlexemes.2 hcursor hdone (tokens.push ⟨tag, span, text⟩)
    refine ⟨⟨tag, span, text⟩ :: body, last, cursor', ?_, ?_, hlast⟩
    . rw [drain_go_of_next hdone hnext, if_neg (by simp [hdone]), hgo]
      simp
    . rw [List.map_cons, hbody]
      rfl

end Scanner

theorem tokenize_layOut {lexemes : List (Tag × String)} (hlexemes : ∀ l ∈ lexemes, l.1.Spells l.2)
    (gap : Nat → Blanks)
    : let scanned := tokenize (String.ofList (layOut gap (lexemes.map Prod.snd)))
      scanned.messages = #[] ∧ ∃ body last, scanned.tokens = body ++ [last]
        ∧ body.map Token.lexeme = lexemes ∧ last.tag = .endOfProgram := by
  have hrest : (Scanner.ofText (String.ofList (layOut gap (lexemes.map Prod.snd)))).cursor.rest
      = layOut gap (lexemes.map Prod.snd) := by
    simp [Scanner.ofText, Cursor.ofText]
  obtain ⟨body, last, cursor, hgo, hbody, hlast⟩ :=
    Scanner.drain_go_of_layOut hlexemes hrest rfl #[]
  simp only [tokenize, Scanner.drain, hgo]
  exact ⟨rfl, body, last, by simp, hbody, hlast⟩

end Combinatory
