import Combinatory.Proofs.Token.LineEnds

namespace Combinatory

namespace Finding

def isEnd (f : Finding) : Bool :=
  f.token?.any (·.tag = .endOfProgram)

theorem filterMap_token?_filter_isEnd (fs : List Finding)
    : (fs.filter (!isEnd ·)).filterMap token?
        = (fs.filterMap token?).filter (·.tag ≠ .endOfProgram) := by
  rw [List.filterMap_filter, List.filter_filterMap]
  congr
  funext f
  cases f with
  | token t => by_cases ht : t.tag = .endOfProgram <;> simp [isEnd, token?, ht, Option.filter]
  | rejected => rfl

theorem filterMap_message?_filter_isEnd (fs : List Finding)
    : (fs.filter (!isEnd ·)).filterMap message? = fs.filterMap message? := by
  rw [List.filterMap_filter]
  congr
  funext f
  cases f with
  | token t => simp [message?]
  | rejected => rfl

end Finding

section Blanks

variable {c : Char} {front rest : List Char}

theorem takeWhile_append_blank (hc : isBlank c) (front rest : List Char)
    : (front ++ c :: rest).takeWhile (!isBlank ·) = front.takeWhile (!isBlank ·) := by
  rw [List.takeWhile_append, List.takeWhile_cons_of_neg (by simp [hc]), List.append_nil]
  split
  . next h => exact ((List.takeWhile_prefix _).eq_of_length h).symm
  . rfl

theorem EndsName.append_blank (hfront : EndsName front) (hc : isBlank c)
    : EndsName (front ++ c :: rest) := by
  apply hfront.append
  intro d hd
  cases hd
  exact isDigit_eq_false_of_isBlank hc

end Blanks

def placelessFindings (text : List Char) : List Finding :=
  (findings default text).map (Finding.relocate fun _ => default)

section Placeless

variable {c : Char} {rest : List Char}

theorem map_relocate_findings (p : Position) (text : List Char)
    : (findings p text).map (Finding.relocate fun _ => default) = placelessFindings text := by
  unfold placelessFindings
  apply map_relocate_findings_congr
  . intros
    rfl
  . rfl

theorem placelessFindings_nil : placelessFindings [] = [.token ⟨.endOfProgram, default, ""⟩] := by
  rw [placelessFindings, findings_nil]
  rfl

theorem placelessFindings_of_blank (h : isBlank c)
    : placelessFindings (c :: rest) = placelessFindings rest := by
  rw [placelessFindings, findings_of_blank h, map_relocate_findings]

theorem placelessFindings_of_spells {tag : Tag} {word : String} (hword : tag.Spells word)
    (hrest : tag = .name → EndsName rest)
    : placelessFindings (word.toList ++ rest)
        = .token ⟨tag, default, word⟩ :: placelessFindings rest := by
  rw [placelessFindings, findings_of_spells hword hrest, List.map_cons, map_relocate_findings]
  rfl

theorem placelessFindings_of_reproach? {reproach : String}
    (h : (Piece.ofChars c rest).reproach? c = some reproach)
    : placelessFindings (c :: rest) = .rejected default reproach :: placelessFindings rest := by
  rw [placelessFindings, findings_of_reproach? h, List.map_cons, map_relocate_findings]
  rfl

theorem placelessFindings_blanks {blanks : List Char} (h : ∀ c ∈ blanks, isBlank c)
    (rest : List Char)
    : placelessFindings (blanks ++ rest) = placelessFindings rest := by
  induction blanks with
  | nil => rfl
  | cons c blanks ih =>
    rw [List.forall_mem_cons] at h
    rw [List.cons_append, placelessFindings_of_blank h.1, ih h.2]

theorem placelessFindings_append_blank (hc : isBlank c) (front rest : List Char)
    : placelessFindings (front ++ c :: rest)
        = (placelessFindings front).filter (!Finding.isEnd ·) ++ placelessFindings rest := by
  induction front using Piece.induct with
  | nil =>
    rw [List.nil_append, placelessFindings_of_blank hc, placelessFindings_nil]
    rfl
  | blank d front hd ih =>
    rw [List.cons_append, placelessFindings_of_blank hd, placelessFindings_of_blank hd, ih]
  | token tag word front hword hfront ih =>
    have htag : tag ≠ .endOfProgram := by
      rintro rfl
      cases hword
    have hkept : (Finding.token ⟨tag, default, word⟩).isEnd = false := by
      simp [Finding.isEnd, Finding.token?, htag]
    rw [List.append_assoc, placelessFindings_of_spells hword fun h => (hfront h).append_blank hc,
      placelessFindings_of_spells hword hfront, ih, List.filter_cons_of_pos (by simp [hkept]),
      List.cons_append]
  | rejected d front reproach hreproach ih =>
    have hreproach' : (Piece.ofChars d (front ++ c :: rest)).reproach? d = some reproach := by
      rw [Piece.ofChars_congr (takeWhile_append_blank hc front rest), hreproach]
    rw [List.cons_append, placelessFindings_of_reproach? hreproach',
      placelessFindings_of_reproach? hreproach, ih]
    rfl

end Placeless

section Texts

theorem map_lexeme_tokens (text : String)
    : (tokenize text).tokens.map Token.lexeme
        = ((placelessFindings text.toList).filterMap Finding.token?).map Token.lexeme := by
  rw [(tokenize_eq text).1, ← map_relocate_findings {}, filterMap_token?_relocate, List.map_map]
  rfl

theorem map_text_messages (text : String)
    : (tokenize text).messages.toList.map Message.text
        = ((placelessFindings text.toList).filterMap Finding.message?).map Message.text := by
  rw [(tokenize_eq text).2, ← map_relocate_findings {}, filterMap_message?_relocate, List.map_map]
  rfl

/--
Blanks between two texts keep them apart: they have the tokens of the first, but for its end token,
and then those of the second, and likewise with the messages.
-/
theorem tokenize_append_blanks (front rest : String) {blanks : String} (hblanks : blanks ≠ "")
    (hblank : ∀ c ∈ blanks.toList, isBlank c)
    : (tokenize (front ++ blanks ++ rest)).tokens.map Token.lexeme
          = ((tokenize front).tokens.filter (·.tag ≠ .endOfProgram)).map Token.lexeme
            ++ (tokenize rest).tokens.map Token.lexeme
        ∧ (tokenize (front ++ blanks ++ rest)).messages.toList.map Message.text
          = (tokenize front).messages.toList.map Message.text
            ++ (tokenize rest).messages.toList.map Message.text := by
  obtain ⟨c, others, hcons⟩ := List.exists_cons_of_ne_nil (mt String.toList_eq_nil_iff.mp hblanks)
  have hfound : placelessFindings (front ++ blanks ++ rest).toList
      = (placelessFindings front.toList).filter (!Finding.isEnd ·)
        ++ placelessFindings rest.toList := by
    rw [hcons, List.forall_mem_cons] at hblank
    rw [String.toList_append, String.toList_append, hcons, List.append_assoc, List.cons_append,
      placelessFindings_append_blank hblank.1, placelessFindings_blanks hblank.2]
  constructor
  . have hbody : ((tokenize front).tokens.filter (·.tag ≠ .endOfProgram)).map Token.lexeme
        = (((placelessFindings front.toList).filterMap Finding.token?).filter
            (·.tag ≠ .endOfProgram)).map Token.lexeme := by
      rw [(tokenize_eq front).1, ← map_relocate_findings {}, filterMap_token?_relocate,
        List.filter_map, List.map_map]
      rfl
    rw [map_lexeme_tokens, hfound, List.filterMap_append, List.map_append,
      Finding.filterMap_token?_filter_isEnd, ← hbody, ← map_lexeme_tokens]
  . rw [map_text_messages, hfound, List.filterMap_append, List.map_append,
      Finding.filterMap_message?_filter_isEnd, ← map_text_messages, ← map_text_messages]

theorem tokenize_append_blanks_of_split_name
    : let front := "inC1"
      let blanks := "\r"
      let rest := "\n2fC"
      blanks ≠ "" ∧ (∀ c ∈ blanks.toList, isBlank c)
        ∧ (tokenize (front ++ blanks ++ rest)).tokens.map Token.lexeme
          = [(.name, "C1"), (.endOfProgram, "")]
        ∧ (tokenize (front ++ blanks ++ rest)).messages.toList.map Message.text
          = ["Unexpected symbol: i", "Unexpected symbol: n", "Unexpected symbol: 2",
            "Unexpected symbol: f", "Wrong user_combinator: C"] := by
  intro front blanks rest
  have hblanks : blanks ≠ "" := by decide
  have hblank : ∀ c ∈ blanks.toList, isBlank c := by simp [blanks, isBlank]
  obtain ⟨htokens, hmessages⟩ := tokenize_append_blanks front rest hblanks hblank
  refine ⟨hblanks, hblank, ?_, ?_⟩
  . rw [htokens]
    decide +kernel
  . rw [hmessages]
    decide +kernel

end Texts

end Combinatory
