import Combinatory.Proofs.Token.Scanning
import Mathlib.Data.List.TakeWhile

/-!
What decides which piece stands at the head of a text. Nothing behind the next blank does
(`Piece.ofChars_congr`), and a token stands there just when its lexeme does (`Piece.exists_spells`).
So a text falls into blanks, lexemes, and characters that are reproached: `Piece.induct`.
-/

namespace Combinatory

theorem isBlank_eq_false_of_isDigit {c : Char} (h : c.isDigit) : isBlank c = false := by
  by_contra hblank
  rw [Bool.not_eq_false] at hblank
  simp [isDigit_eq_false_of_isBlank hblank] at h

namespace Piece

def reproach? (c : Char) : Piece → Option String
  | .bareName => some "Wrong user_combinator: C"
  | .stray => some ("Unexpected symbol: " ++ c.toString)
  | _ => none

section Lookahead

variable {c : Char} {rest rest' : List Char}

theorem takeWhile_isDigit_takeWhile (rest : List Char)
    : (rest.takeWhile (!isBlank ·)).takeWhile Char.isDigit = rest.takeWhile Char.isDigit := by
  rw [List.takeWhile_takeWhile]
  congr
  funext d
  cases hd : d.isDigit with
  | false => simp
  | true => simp [isBlank_eq_false_of_isDigit hd]

theorem ofChars_bareName (h : rest.takeWhile Char.isDigit = [])
    : ofChars 'C' rest = .bareName := by
  unfold ofChars
  split <;> try contradiction
  rw [h]

theorem ofChars_name_congr (h : rest.takeWhile Char.isDigit = rest'.takeWhile Char.isDigit)
    : ofChars 'C' rest = ofChars 'C' rest' := by
  cases hdigits : rest'.takeWhile Char.isDigit with
  | nil => rw [ofChars_bareName hdigits, ofChars_bareName (h.trans hdigits)]
  | cons d digits => rw [ofChars_name hdigits, ofChars_name (h.trans hdigits)]

theorem ofChars_takeWhile (c : Char) (rest : List Char)
    : ofChars c (rest.takeWhile (!isBlank ·)) = ofChars c rest := by
  obtain ⟨others, hothers⟩ := List.takeWhile_prefix (l := rest) (!isBlank ·)
  have hrest {word : List Char} (h : rest.takeWhile (!isBlank ·) = word)
      : rest = word ++ others := by
    rw [← h, hothers]
  by_cases hc : c = 'C'
  . subst hc
    exact ofChars_name_congr (takeWhile_isDigit_takeWhile rest)
  . fun_cases ofChars c rest
    case case13 hblank _ _ _ => exact ofChars_of_isBlank hblank
    case case14 hblank hi he hq =>
      -- A word in front of the next blank would be there with the rest of the text as well.
      unfold ofChars
      split
      case h_9 => exact (hi _ rfl (hrest ‹_ = 'n' :: 'f' :: _›)).elim
      case h_10 => exact (he _ rfl (hrest ‹_ = 'x' :: 'p' :: _›)).elim
      case h_11 => exact (hq _ rfl (hrest ‹_ = 'u' :: 'a' :: 'd' :: _›)).elim
      case h_12 => rw [if_neg hblank]
      all_goals contradiction
    all_goals first | rfl | contradiction

theorem ofChars_congr (h : rest.takeWhile (!isBlank ·) = rest'.takeWhile (!isBlank ·))
    : ofChars c rest = ofChars c rest' := by
  rw [← ofChars_takeWhile, h, ofChars_takeWhile]

end Lookahead

section Heads

variable {c : Char} {rest : List Char} {tag : Tag} {text : String}

theorem isBlank_of_ofChars (h : ofChars c rest = .blank) : isBlank c := by
  unfold ofChars at h
  split at h <;> (try split at h) <;> try simp at h
  assumption

theorem isBlank_eq_false_of_reproach? {reproach : String}
    (h : (ofChars c rest).reproach? c = some reproach)
    : isBlank c = false := by
  by_contra hblank
  rw [Bool.not_eq_false] at hblank
  simp [ofChars_of_isBlank hblank, reproach?] at h

theorem exists_spells {width : Nat} (h : ofChars c rest = .token tag width)
    : ∃ text others, tag.Spells text ∧ width = text.toList.length
        ∧ c :: rest = text.toList ++ others ∧ (tag = .name → EndsName others) := by
  unfold ofChars at h
  split at h
  case h_8 =>
    split at h
    . simp at h
    . next hne =>
      cases h
      refine ⟨_, rest.dropWhile Char.isDigit, ⟨rest.takeWhile Char.isDigit, hne, ?_, rfl⟩,
        ?_, ?_, ?_⟩
      . intro d hd
        exact List.mem_takeWhile_imp hd
      . rw [String.toList_ofList, List.length_cons]
      . rw [String.toList_ofList, List.cons_append, List.takeWhile_append_dropWhile]
      . intro _ d hd
        have := List.head?_dropWhile_not Char.isDigit rest
        simp_all
  case h_12 => split at h <;> simp at h
  all_goals
    cases h
    exact ⟨_, _, rfl, rfl, rfl, by simp⟩

theorem ofChars_of_spells (htext : tag.Spells text) (hrest : tag = .name → EndsName rest)
    : ∃ d ds, text.toList = d :: ds ∧ ofChars d (ds ++ rest) = .token tag text.toList.length := by
  obtain ⟨d, ds, hds, _, _, hpiece⟩ := htext.exists_cons
  refine ⟨d, ds, hds, ?_⟩
  rw [hpiece rest hrest, hds, List.length_cons]

end Heads

@[elab_as_elim]
theorem induct {motive : List Char → Prop} (nil : motive [])
    (blank : ∀ c rest, isBlank c → motive rest → motive (c :: rest))
    (token : ∀ tag text rest, Tag.Spells tag text → (tag = .name → EndsName rest) → motive rest
      → motive (text.toList ++ rest))
    (rejected : ∀ c rest reproach, (ofChars c rest).reproach? c = some reproach → motive rest
      → motive (c :: rest))
    (text : List Char)
    : motive text := by
  induction hlen : text.length using Nat.strongRecOn generalizing text with
  | ind n ih =>
    subst hlen
    cases text with
    | nil => exact nil
    | cons c rest =>
      have hrest : motive rest := ih rest.length (Nat.lt_succ_self _) rest rfl
      cases hpiece : ofChars c rest with
      | blank => exact blank c rest (isBlank_of_ofChars hpiece) hrest
      | token tag width =>
        obtain ⟨text, others, htext, hwidth, heq, hothers⟩ := exists_spells hpiece
        have hlen : (c :: rest).length = width + others.length := by
          rw [heq, List.length_append, hwidth]
        have hlt : others.length < (c :: rest).length := by
          have := width_ne_zero hpiece
          omega
        rw [heq]
        exact token tag text others htext hothers (ih _ hlt others rfl)
      | bareName => exact rejected c rest _ (by rw [hpiece]; rfl) hrest
      | stray => exact rejected c rest _ (by rw [hpiece]; rfl) hrest

end Piece

end Combinatory
