import Combinatory.Proofs.Token.Findings
import Combinatory.Proofs.Token.Relocation

namespace Combinatory

/--
The text with a line feed for each pair of a carriage return and a line feed. The pairs are those of
the text: one that comes about by this stays.
-/
def joinPairs : List Char → List Char
  | [] => []
  | '\r' :: '\n' :: rest => '\n' :: joinPairs rest
  | c :: rest => c :: joinPairs rest

def joinLineEnds (text : String) : String :=
  String.ofList (joinPairs text.toList)

def Position.unindexed (p : Position) : Position :=
  { p with index := 0 }

section Joining

variable {c : Char} {rest : List Char}

theorem joinPairs_cons_of_ne (h : c = '\r' → rest.head? ≠ some '\n')
    : joinPairs (c :: rest) = c :: joinPairs rest := by
  rw [joinPairs]
  rintro others hc rfl
  exact h hc rfl

-- The second carriage return goes with the line feed, the first one is left in front of it.
example : joinPairs ['\r', '\r', '\n'] = ['\r', '\n'] := rfl

theorem joinPairs_append {word : List Char} (h : ∀ c ∈ word, c ≠ '\r') (rest : List Char)
    : joinPairs (word ++ rest) = word ++ joinPairs rest := by
  induction word with
  | nil => rfl
  | cons c word ih =>
    rw [List.forall_mem_cons] at h
    rw [List.cons_append, joinPairs_cons_of_ne fun hc => absurd hc h.1, ih h.2]
    rfl

theorem head?_joinPairs (rest : List Char)
    : (joinPairs rest).head? = rest.head?
        ∨ rest.head? = some '\r' ∧ (joinPairs rest).head? = some '\n' := by
  fun_cases joinPairs rest with
  | case1 => exact .inl rfl
  | case2 => exact .inr ⟨rfl, rfl⟩
  | case3 => exact .inl rfl

theorem takeWhile_joinPairs (rest : List Char)
    : (joinPairs rest).takeWhile (!isBlank ·) = rest.takeWhile (!isBlank ·) := by
  fun_induction joinPairs rest with
  | case1 => rfl
  | case2 rest =>
    rw [List.takeWhile_cons_of_neg (by decide), List.takeWhile_cons_of_neg (by decide)]
  | case3 c rest _ ih => rw [List.takeWhile_cons, List.takeWhile_cons, ih]

theorem EndsName.joinPairs (h : EndsName rest) : EndsName (joinPairs rest) := by
  intro d hd
  obtain hhead | ⟨_, hhead⟩ := head?_joinPairs rest
  . exact h d (hhead ▸ hd)
  . rw [hhead, Option.mem_some_iff] at hd
    subst hd
    decide

end Joining

namespace Position

variable {p q : Position}

theorem unindexed_behind (h : p.unindexed = q.unindexed) (c : Char)
    : (p.behind c).unindexed = (q.behind c).unindexed := by
  simp only [unindexed, mk.injEq, and_true] at h
  unfold behind
  split
  . simp [unindexed, nextLine, h]
  . simp [unindexed, nextColumn, h]

theorem after_congr {α : Type} {f : Position → α}
    (hf : ∀ p q c, f p = f q → f (p.behind c) = f (q.behind c)) (h : f p = f q)
    (text : List Char)
    : f (p.after text) = f (q.after text) := by
  induction text generalizing p q with
  | nil => exact h
  | cons c text ih => exact ih (hf p q c h)

end Position

def Finding.relocate (φ : Position → Position) : Finding → Finding
  | .token t => .token (t.relocate φ)
  | .rejected position reproach => .rejected (φ position) reproach

section Relocating

variable (φ : Position → Position) (fs : List Finding)

theorem filterMap_token?_relocate
    : (fs.map (Finding.relocate φ)).filterMap Finding.token?
        = (fs.filterMap Finding.token?).map (Token.relocate φ) := by
  rw [List.filterMap_map, List.map_filterMap]
  congr
  funext f
  cases f <;> rfl

theorem filterMap_message?_relocate
    : (fs.map (Finding.relocate φ)).filterMap Finding.message?
        = (fs.filterMap Finding.message?).map (Message.relocate φ) := by
  rw [List.filterMap_map, List.map_filterMap]
  congr
  funext f
  cases f <;> rfl

theorem map_relocate_findings_congr {φ : Position → Position}
    (hφ : ∀ p q c, φ p = φ q → φ (p.behind c) = φ (q.behind c)) {p q : Position} (h : φ p = φ q)
    (text : List Char)
    : (findings p text).map (Finding.relocate φ) = (findings q text).map (Finding.relocate φ) := by
  induction text using Piece.induct generalizing p q with
  | nil => simp [findings_nil, Finding.relocate, Token.relocate, Span.relocate, h]
  | blank c rest hc ih =>
    rw [findings_of_blank hc, findings_of_blank hc]
    exact ih (hφ p q c h)
  | token tag word rest hword hrest ih =>
    have hafter := Position.after_congr hφ h word.toList
    simp [findings_of_spells hword hrest, Finding.relocate, Token.relocate, Span.relocate, h,
      hafter, ih hafter]
  | rejected c rest reproach hreproach ih =>
    simp [findings_of_reproach? hreproach, Finding.relocate, h, ih (hφ p q c h)]

end Relocating

def shownFindings (p : Position) (text : List Char) : List Finding :=
  (findings p text).map (Finding.relocate .unindexed)

section Shown

variable {p q : Position}

theorem shownFindings_of_blank {c : Char} {rest : List Char} (h : isBlank c) (p : Position)
    : shownFindings p (c :: rest) = shownFindings (p.behind c) rest := by
  rw [shownFindings, findings_of_blank h, shownFindings]

theorem shownFindings_congr (h : p.unindexed = q.unindexed) (text : List Char)
    : shownFindings p text = shownFindings q text :=
  map_relocate_findings_congr (fun _ _ c h => Position.unindexed_behind h c) h text

theorem shownFindings_joinPairs (p : Position) (text : List Char)
    : shownFindings p (joinPairs text) = shownFindings p text := by
  induction text using Piece.induct generalizing p with
  | nil => rfl
  | blank c rest hc ih =>
    by_cases hpair : c = '\r' → rest.head? ≠ some '\n'
    . rw [joinPairs_cons_of_ne hpair, shownFindings_of_blank hc, shownFindings_of_blank hc, ih]
    . simp only [ne_eq, Classical.not_imp, not_not] at hpair
      obtain ⟨rfl, hhead⟩ := hpair
      obtain ⟨others, rfl⟩ := List.head?_eq_some_iff.mp hhead
      have hjoin : joinPairs ('\r' :: '\n' :: others) = joinPairs ('\n' :: others) := rfl
      have hplace : (p.behind '\n').unindexed = ((p.behind '\r').behind '\n').unindexed := rfl
      rw [shownFindings_of_blank hc, ← ih, hjoin, joinPairs_cons_of_ne (by simp),
        shownFindings_of_blank (by decide), shownFindings_of_blank (by decide)]
      exact shownFindings_congr hplace _
  | token tag word rest hword hrest ih =>
    obtain ⟨d, ds, hcons, _, hline, _⟩ := hword.exists_cons
    rw [← hcons] at hline
    have hreturn (c : Char) (hc : c ∈ word.toList) : c ≠ '\r' := (hline c hc).2
    have hothers := ih (p.after word.toList)
    unfold shownFindings at hothers ⊢
    rw [joinPairs_append hreturn, findings_of_spells hword fun htag => (hrest htag).joinPairs,
      findings_of_spells hword hrest, List.map_cons, List.map_cons, hothers]
  | rejected c rest reproach hreproach ih =>
    have hc : c ≠ '\r' := by
      rintro rfl
      have := Piece.isBlank_eq_false_of_reproach? hreproach
      contradiction
    have hjoined : (Piece.ofChars c (joinPairs rest)).reproach? c = some reproach := by
      rw [Piece.ofChars_congr (takeWhile_joinPairs rest), hreproach]
    have hothers := ih (p.behind c)
    unfold shownFindings at hothers ⊢
    rw [joinPairs_cons_of_ne fun h => absurd h hc, findings_of_reproach? hjoined,
      findings_of_reproach? hreproach, List.map_cons, List.map_cons, hothers]

end Shown

theorem tokens_joinLineEnds (text : String)
    : (tokenize (joinLineEnds text)).tokens.map (Token.relocate .unindexed)
        = (tokenize text).tokens.map (Token.relocate .unindexed) := by
  have hfound := shownFindings_joinPairs {} text.toList
  unfold shownFindings at hfound
  rw [(tokenize_eq _).1, (tokenize_eq text).1, joinLineEnds, String.toList_ofList,
    ← filterMap_token?_relocate, ← filterMap_token?_relocate, hfound]

theorem messages_joinLineEnds (text : String)
    : (tokenize (joinLineEnds text)).messages.map (Message.relocate .unindexed)
        = (tokenize text).messages.map (Message.relocate .unindexed) := by
  have hfound := shownFindings_joinPairs {} text.toList
  unfold shownFindings at hfound
  rw [← Array.toList_inj, Array.toList_map, Array.toList_map, (tokenize_eq _).2,
    (tokenize_eq text).2, joinLineEnds, String.toList_ofList, ← filterMap_message?_relocate,
    ← filterMap_message?_relocate, hfound]

end Combinatory
