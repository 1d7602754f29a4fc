import Combinatory.Proofs.Token.Pieces

/-!
What the scanner finds in a text, read off the text piece by piece, with places that are counted
one character at a time. The tokens and the messages of a text are its findings (`tokenize_eq`), and
the places of the findings go up (`pairwise_findings`, `pairwise_messages`).
-/

namespace Combinatory

namespace Position

def behind (p : Position) (c : Char) : Position :=
  if c = '\n' then p.nextLine 1 else p.nextColumn

def after (p : Position) (text : List Char) : Position :=
  text.foldl behind p

@[simp]
theorem after_nil (p : Position) : p.after [] = p := rfl

@[simp]
theorem after_cons (p : Position) (c : Char) (text : List Char)
    : p.after (c :: text) = (p.behind c).after text := rfl

theorem after_append (p : Position) (text rest : List Char)
    : p.after (text ++ rest) = (p.after text).after rest :=
  List.foldl_append

theorem behind_of_ne {c : Char} (h : c ≠ '\n') (p : Position) : p.behind c = p.nextColumn := by
  rw [behind, if_neg h]

theorem behind_lineEnd (p : Position) : (p.behind '\r').behind '\n' = p.nextLine 2 := by
  simp [behind, nextLine, nextColumn, Int.add_assoc]

theorem index_behind (p : Position) (c : Char) : (p.behind c).index = p.index + 1 := by
  unfold behind
  split
  . rfl
  . rfl

theorem index_after (p : Position) (text : List Char)
    : (p.after text).index = p.index + text.length := by
  induction text generalizing p with
  | nil => simp
  | cons c text ih =>
    rw [after_cons, ih, index_behind, List.length_cons]
    omega

end Position

inductive Finding where
  | token (t : Token)
  | rejected (position : Position) (reproach : String)

namespace Finding

def position : Finding → Position
  | .token t => t.position
  | .rejected position _ => position

def token? : Finding → Option Token
  | .token t => some t
  | .rejected .. => none

def message? : Finding → Option Message
  | .token _ => none
  | .rejected position reproach =>
    some { severity := .error, text := reproach, position := some position }

@[simp]
theorem position_token (t : Token) : (token t).position = t.position := rfl

@[simp]
theorem position_rejected (position : Position) (reproach : String)
    : (rejected position reproach).position = position := rfl

end Finding

def findings (p : Position) : List Char → List Finding
  | [] => [.token ⟨.endOfProgram, ⟨p, p⟩, ""⟩]
  | c :: rest =>
    match _h : Piece.ofChars c rest with
    | .blank => findings (p.behind c) rest
    | .token tag width =>
      let text := (c :: rest).take width
      .token ⟨tag, ⟨p, p.after text⟩, String.ofList text⟩
        :: findings (p.after text) ((c :: rest).drop width)
    | .bareName => .rejected p "Wrong user_combinator: C" :: findings (p.behind c) rest
    | .stray => .rejected p ("Unexpected symbol: " ++ c.toString) :: findings (p.behind c) rest
termination_by text => text.length
decreasing_by
  . exact Nat.lt_succ_self _
  . rw [List.length_drop]
    exact Nat.sub_lt (Nat.succ_pos _) (Nat.pos_of_ne_zero (Piece.width_ne_zero _h))
  . exact Nat.lt_succ_self _
  . exact Nat.lt_succ_self _

section Steps

variable {c : Char} {rest : List Char}

theorem findings_nil (p : Position)
    : findings p [] = [.token ⟨.endOfProgram, ⟨p, p⟩, ""⟩] := by
  rw [findings]

theorem findings_of_blank (h : isBlank c) (p : Position)
    : findings p (c :: rest) = findings (p.behind c) rest := by
  have hpiece : Piece.ofChars c rest = .blank := Piece.ofChars_of_isBlank h
  rw [findings]
  split <;> simp_all

theorem findings_of_token {tag : Tag} {width : Nat} (h : Piece.ofChars c rest = .token tag width)
    (p : Position)
    : findings p (c :: rest)
        = .token ⟨tag, ⟨p, p.after ((c :: rest).take width)⟩,
            String.ofList ((c :: rest).take width)⟩
          :: findings (p.after ((c :: rest).take width)) ((c :: rest).drop width) := by
  rw [findings]
  split <;> simp_all

theorem findings_of_spells {tag : Tag} {text : String} (htext : tag.Spells text)
    (hrest : tag = .name → EndsName rest) (p : Position)
    : findings p (text.toList ++ rest)
        = .token ⟨tag, ⟨p, p.after text.toList⟩, text⟩ :: findings (p.after text.toList) rest := by
  obtain ⟨d, ds, hds, hpiece⟩ := Piece.ofChars_of_spells htext hrest
  have hfound := findings_of_token hpiece p
  rw [← List.cons_append, ← hds, List.take_left, List.drop_left, String.ofList_toList] at hfound
  exact hfound

theorem findings_of_reproach? {reproach : String}
    (h : (Piece.ofChars c rest).reproach? c = some reproach) (p : Position)
    : findings p (c :: rest) = .rejected p reproach :: findings (p.behind c) rest := by
  rw [findings]
  split <;> simp_all [Piece.reproach?]

end Steps

section Places

theorem index_le_of_mem_findings {p : Position} {text : List Char} {f : Finding}
    (h : f ∈ findings p text)
    : p.index ≤ f.position.index := by
  induction text using Piece.induct generalizing p with
  | nil =>
    rw [findings_nil, List.mem_singleton] at h
    subst h
    exact Int.le_refl _
  | blank c rest hc ih =>
    rw [findings_of_blank hc] at h
    have := ih h
    rw [Position.index_behind] at this
    omega
  | token tag text rest htext hrest ih =>
    rw [findings_of_spells htext hrest, List.mem_cons] at h
    obtain rfl | h := h
    . exact Int.le_refl _
    . have := ih h
      rw [Position.index_after] at this
      omega
  | rejected c rest reproach hreproach ih =>
    rw [findings_of_reproach? hreproach, List.mem_cons] at h
    obtain rfl | h := h
    . exact Int.le_refl _
    . have := ih h
      rw [Position.index_behind] at this
      omega

theorem pairwise_findings (p : Position) (text : List Char)
    : (findings p text).Pairwise (·.position.index < ·.position.index) := by
  induction text using Piece.induct generalizing p with
  | nil => simp [findings_nil]
  | blank c rest hc ih =>
    rw [findings_of_blank hc]
    exact ih _
  | token tag text rest htext hrest ih =>
    rw [findings_of_spells htext hrest, List.pairwise_cons]
    refine ⟨fun f hf => ?_, ih _⟩
    have hle := index_le_of_mem_findings hf
    obtain ⟨_, _, hcons, _⟩ := htext.exists_cons
    rw [Position.index_after, hcons, List.length_cons] at hle
    rw [Finding.position_token]
    dsimp only [Token.position]
    omega
  | rejected c rest reproach hreproach ih =>
    rw [findings_of_reproach? hreproach, List.pairwise_cons]
    refine ⟨fun f hf => ?_, ih _⟩
    have hle := index_le_of_mem_findings hf
    rw [Position.index_behind] at hle
    rw [Finding.position_rejected]
    omega

end Places

namespace Cursor

variable {cursor : Cursor} {c : Char} {rest : List Char}

theorem advance_eq (h : cursor.rest = c :: rest) (hc : c = '\r' → rest.head? ≠ some '\n')
    : cursor.advance = ⟨cursor.position.behind c, rest⟩ := by
  obtain ⟨position, _⟩ := cursor
  subst h
  fun_cases advance ⟨position, c :: rest⟩ <;> simp_all [Position.behind]

theorem advance_lineEnd (h : cursor.rest = '\r' :: '\n' :: rest)
    : cursor.advance = ⟨cursor.position.nextLine 2, rest⟩ := by
  simp [advance, h]

theorem skip_eq {text : List Char} (h : cursor.rest = text ++ rest)
    (htext : ∀ c ∈ text, c ≠ '\n' ∧ c ≠ '\r')
    : cursor.skip text.length = ⟨cursor.position.after text, rest⟩ := by
  induction text generalizing cursor with
  | nil =>
    obtain ⟨position, _⟩ := cursor
    subst h
    rfl
  | cons c text ih =>
    rw [List.forall_mem_cons] at htext
    have hadvance : cursor.advance = ⟨cursor.position.behind c, text ++ rest⟩ := by
      apply advance_eq h
      intro hc
      exact absurd hc htext.1.2
    rw [List.length_cons, skip_succ, ih (by rw [hadvance]) htext.2, hadvance]
    rfl

theorem findings_advance (h : cursor.rest = c :: rest) (hc : isBlank c)
    : findings cursor.advance.position cursor.advance.rest
        = findings cursor.position cursor.rest := by
  rw [h, findings_of_blank hc]
  by_cases hend : c = '\r' → rest.head? ≠ some '\n'
  . rw [advance_eq h hend]
  . simp only [ne_eq, Classical.not_imp, not_not] at hend
    obtain ⟨rfl, hhead⟩ := hend
    obtain ⟨others, rfl⟩ := List.head?_eq_some_iff.mp hhead
    rw [findings_of_blank (by decide), advance_lineEnd h, Position.behind_lineEnd]

end Cursor

namespace Scanner

variable {s : Scanner} {c : Char} {rest : List Char}

def findings (s : Scanner) : List Finding :=
  Combinatory.findings s.cursor.position s.cursor.rest

theorem findings_skip_of_blank (h : s.cursor.rest = c :: rest) (hc : isBlank c)
    : (s.skip 1).findings = s.findings :=
  Cursor.findings_advance h hc

theorem findings_of_reject {reproach : String} (h : s.cursor.rest = c :: rest)
    (hreproach : (Piece.ofChars c rest).reproach? c = some reproach)
    : s.findings = .rejected s.cursor.position reproach :: (s.reject reproach).findings := by
  have hc : isBlank c = false := Piece.isBlank_eq_false_of_reproach? hreproach
  have hadvance : s.cursor.advance = ⟨s.cursor.position.behind c, rest⟩ := by
    apply Cursor.advance_eq h
    rintro rfl
    contradiction
  rw [findings, h, findings_of_reproach? hreproach, findings, reject, hadvance]

theorem findings_of_token {tag : Tag} {width : Nat} (h : s.cursor.rest = c :: rest)
    (hpiece : Piece.ofChars c rest = .token tag width)
    : s.findings
        = .token ⟨tag, ⟨s.cursor.position, (s.skip width).cursor.position⟩,
            String.ofList ((c :: rest).take width)⟩
          :: (s.skip width).findings := by
  obtain ⟨text, others, htext, rfl, heq, hothers⟩ := Piece.exists_spells hpiece
  obtain ⟨_, _, hcons, _, hline, _⟩ := htext.exists_cons
  rw [← hcons] at hline
  have hskip : s.cursor.skip text.toList.length
      = ⟨s.cursor.position.after text.toList, others⟩ :=
    Cursor.skip_eq (h.trans heq) hline
  rw [findings, h, heq, findings_of_spells htext hothers, List.take_left, String.ofList_toList,
    findings, skip, hskip]

def Skips (s : Scanner) (ms : List Message) (others : List Finding) : Prop :=
  ∃ fs, s.findings = fs ++ others ∧ fs.filterMap Finding.token? = []
    ∧ ms = s.messages.toList ++ fs.filterMap Finding.message?

theorem Skips.of_reject {reproach : String} {ms : List Message} {others : List Finding}
    (hskips : (s.reject reproach).Skips ms others) (h : s.cursor.rest = c :: rest)
    (hreproach : (Piece.ofChars c rest).reproach? c = some reproach)
    : s.Skips ms others := by
  obtain ⟨fs, hfs, htokens, hmessages⟩ := hskips
  refine ⟨.rejected s.cursor.position reproach :: fs, ?_, htokens, ?_⟩
  . rw [findings_of_reject h hreproach, hfs, List.cons_append]
  . rw [hmessages]
    simp [reject, Finding.message?]

theorem skips_next (s : Scanner) (hdone : s.done = false)
    : s.Skips s.next.2.messages.toList
        (.token s.next.1 :: (if s.next.2.done then [] else s.next.2.findings)) := by
  fun_induction next s with
  | case1 s start hrest => exact ⟨[], by simp [findings, hrest, findings_nil, start], rfl, by simp⟩
  | case2 s c rest hrest hpiece ih =>
    obtain ⟨fs, hfs, htokens, hmessages⟩ := ih hdone
    rw [findings_skip_of_blank hrest (Piece.isBlank_of_ofChars hpiece)] at hfs
    exact ⟨fs, hfs, htokens, hmessages⟩
  | case3 s start c rest hrest tag width hpiece behind text =>
    refine ⟨[], ?_, rfl, by simp [behind, skip]⟩
    have hbehind : behind.done = false := hdone
    rw [findings_of_token hrest hpiece, List.nil_append, if_neg (by simp [hbehind])]
  | case4 s c rest hrest hpiece ih => exact (ih hdone).of_reject hrest (by rw [hpiece]; rfl)
  | case5 s c rest hrest hpiece ih => exact (ih hdone).of_reject hrest (by rw [hpiece]; rfl)

theorem drain_go_eq (s : Scanner) (tokens : Array Token) (hdone : s.done = false)
    : (drain.go s tokens).1.toList = tokens.toList ++ s.findings.filterMap Finding.token?
        ∧ (drain.go s tokens).2.messages.toList
          = s.messages.toList ++ s.findings.filterMap Finding.message? := by
  fun_induction drain.go s tokens with
  | case1 => simp_all
  | case2 s tokens _ token behind hnext read hbehind =>
    obtain ⟨fs, hfs, htokens, hmessages⟩ := s.skips_next hdone
    simp only [hnext, if_pos hbehind] at hfs hmessages
    simp [hfs, htokens, hmessages, read, Finding.token?, Finding.message?]
  | case3 s tokens _ token behind hnext read hbehind ih =>
    obtain ⟨fs, hfs, htokens, hmessages⟩ := s.skips_next hdone
    simp only [hnext, if_neg hbehind] at hfs hmessages
    obtain ⟨hrest, hothers⟩ := ih (by simpa using hbehind)
    simp [hrest, hothers, hfs, htokens, hmessages, read, List.filterMap_cons, Finding.token?,
      Finding.message?]

end Scanner

theorem tokenize_eq (text : String)
    : (tokenize text).tokens = (findings {} text.toList).filterMap Finding.token?
        ∧ (tokenize text).messages.toList
          = (findings {} text.toList).filterMap Finding.message? := by
  have hdrain := Scanner.drain_go_eq (Scanner.ofText text) #[] rfl
  simpa [tokenize, Scanner.drain, Scanner.findings, Scanner.ofText, Cursor.ofText] using hdrain

theorem pairwise_messages (text : String)
    : (tokenize text).messages.toList.Pairwise (fun m n =>
          ∃ p q, m.position = some p ∧ n.position = some q ∧ p.index < q.index)
        ∧ ∀ m ∈ (tokenize text).messages, m.severity = .error ∧ m.position.isSome := by
  have hmessages := (tokenize_eq text).2
  constructor
  . rw [hmessages]
    apply (pairwise_findings {} text.toList).filterMap
    rintro (_ | ⟨p, _⟩) (_ | ⟨q, _⟩) hlt m hm n hn <;> cases hm <;> cases hn
    exact ⟨p, q, rfl, rfl, hlt⟩
  . intro m hm
    rw [← Array.mem_toList_iff, hmessages, List.mem_filterMap] at hm
    obtain ⟨_ | _, _, hm⟩ := hm <;> cases hm
    exact ⟨rfl, rfl⟩

end Combinatory
