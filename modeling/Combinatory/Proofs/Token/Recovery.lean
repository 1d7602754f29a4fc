import Combinatory.Proofs.Token.Findings

namespace Combinatory

def blankAt (pointed : Int → Bool) (i : Int) : List Char → List Char
  | [] => []
  | c :: rest => (if pointed i then ' ' else c) :: blankAt pointed (i + 1) rest

def Message.pointsAt (m : Message) (index : Int) : Bool :=
  m.position.any (·.index = index)

def blanked (text : String) : String :=
  let pointed (i : Int) : Bool := (tokenize text).messages.any (·.pointsAt i)
  String.ofList (blankAt pointed 0 text.toList)

section Blanking

variable {pointed : Int → Bool} {i : Int} {rest : List Char}

theorem blankAt_append {word : List Char}
    (h : ∀ j, i ≤ j → j < i + word.length → pointed j = false) (rest : List Char)
    : blankAt pointed i (word ++ rest) = word ++ blankAt pointed (i + word.length) rest := by
  induction word generalizing i with
  | nil => simp
  | cons c word ih =>
    rw [List.length_cons, Int.natCast_succ] at h ⊢
    have hfirst : pointed i = false := h i (Int.le_refl _) (by omega)
    have hplace : i + 1 + word.length = i + (word.length + 1) := by omega
    rw [List.cons_append, blankAt, hfirst, ih fun j hle hlt => h j (by omega) (by omega), hplace]
    rfl

theorem EndsName.blankAt (h : EndsName rest) : EndsName (blankAt pointed i rest) := by
  cases rest with
  | nil => exact h
  | cons c rest =>
    intro d hd
    rw [Combinatory.blankAt, List.head?_cons, Option.mem_some_iff] at hd
    subst hd
    split
    . decide
    . exact h c rfl

end Blanking

namespace Finding

def isToken (f : Finding) : Bool :=
  f.token?.isSome

@[simp]
theorem isToken_token (t : Token) : (token t).isToken = true := rfl

@[simp]
theorem isToken_rejected (position : Position) (reproach : String)
    : (rejected position reproach).isToken = false := rfl

theorem filterMap_token?_filter (fs : List Finding)
    : (fs.filter isToken).filterMap token? = fs.filterMap token? := by
  rw [List.filterMap_filter]
  congr
  funext f
  cases f <;> rfl

theorem filterMap_message?_filter (fs : List Finding)
    : (fs.filter isToken).filterMap message? = [] := by
  rw [List.filterMap_eq_nil_iff]
  rintro (t | _) h
  . rfl
  . simp at h

end Finding

def LeavesOut (p : Position) (text : List Char) (i : Int) : Prop :=
  ∃ f ∈ findings p text, f.isToken = false ∧ f.position.index = i

section Places

variable {p : Position} {text : List Char} {i : Int}

theorem LeavesOut.index_le (h : LeavesOut p text i) : p.index ≤ i := by
  obtain ⟨f, hf, _, rfl⟩ := h
  exact index_le_of_mem_findings hf

theorem leavesOut_iff_exists_message (p : Position) (text : List Char) (i : Int)
    : LeavesOut p text i
        ↔ ∃ m ∈ (findings p text).filterMap Finding.message?, m.pointsAt i = true := by
  simp only [LeavesOut, List.mem_filterMap]
  constructor
  . rintro ⟨t | _, hf, htoken, hindex⟩
    . cases htoken
    . exact ⟨_, ⟨_, hf, rfl⟩, by simpa [Message.pointsAt] using hindex⟩
  . rintro ⟨m, ⟨t | _, hf, hm⟩, hpoints⟩
    . cases hm
    . cases hm
      exact ⟨_, hf, rfl, by simpa [Message.pointsAt] using hpoints⟩

theorem findings_blankAt {pointed : Int → Bool}
    (h : ∀ i, p.index ≤ i → (pointed i = true ↔ LeavesOut p text i))
    : findings p (blankAt pointed p.index text) = (findings p text).filter Finding.isToken := by
  induction text using Piece.induct generalizing p with
  | nil =>
    rw [blankAt, findings_nil]
    rfl
  | blank c rest hc ih =>
    have hsame (i : Int) : LeavesOut p (c :: rest) i ↔ LeavesOut (p.behind c) rest i := by
      rw [LeavesOut, findings_of_blank hc]
      rfl
    have hfirst : pointed p.index = false := by
      rw [Bool.eq_false_iff, ne_eq, h _ (Int.le_refl _), hsame]
      intro hout
      have := hout.index_le
      rw [Position.index_behind] at this
      omega
    have hothers := ih (p := p.behind c) fun i hi => by
      rw [Position.index_behind] at hi
      rw [h i (by omega), hsame]
    rw [Position.index_behind] at hothers
    rw [blankAt, hfirst, if_neg (by simp), findings_of_blank hc, findings_of_blank hc, hothers]
  | token tag word rest hword hrest ih =>
    have hsame (i : Int) : LeavesOut p (word.toList ++ rest) i
        ↔ LeavesOut (p.after word.toList) rest i := by
      rw [LeavesOut, findings_of_spells hword hrest]
      simp [LeavesOut]
    have hinside (j : Int) (hle : p.index ≤ j) (hlt : j < p.index + word.toList.length)
        : pointed j = false := by
      rw [Bool.eq_false_iff, ne_eq, h j hle, hsame]
      intro hout
      have := hout.index_le
      rw [Position.index_after] at this
      omega
    have hothers := ih (p := p.after word.toList) fun i hi => by
      rw [Position.index_after] at hi
      rw [h i (by omega), hsame]
    rw [Position.index_after] at hothers
    rw [blankAt_append hinside, findings_of_spells hword fun htag => (hrest htag).blankAt,
      findings_of_spells hword hrest, hothers]
    rfl
  | rejected c rest reproach hreproach ih =>
    have hc : isBlank c = false := Piece.isBlank_eq_false_of_reproach? hreproach
    have hout (i : Int) : LeavesOut p (c :: rest) i
        ↔ i = p.index ∨ LeavesOut (p.behind c) rest i := by
      rw [LeavesOut, findings_of_reproach? hreproach]
      simp [LeavesOut, @eq_comm _ p.index]
    have hfirst : pointed p.index = true := by
      rw [h _ (Int.le_refl _), hout]
      exact .inl rfl
    have hothers := ih (p := p.behind c) fun i hi => by
      rw [Position.index_behind] at hi
      rw [h i (by omega), hout]
      exact or_iff_right (by omega)
    have hspace : p.behind ' ' = p.behind c := by
      rw [Position.behind_of_ne (by decide), Position.behind_of_ne]
      rintro rfl
      contradiction
    rw [Position.index_behind] at hothers
    rw [blankAt, hfirst, if_pos rfl, findings_of_blank (by decide), hspace, hothers,
      findings_of_reproach? hreproach]
    rfl

end Places

theorem tokenize_blanked (text : String)
    : tokenize (blanked text) = { tokens := (tokenize text).tokens, messages := #[] } := by
  obtain ⟨htokens, hmessages⟩ := tokenize_eq text
  obtain ⟨htokens', hmessages'⟩ := tokenize_eq (blanked text)
  let pointed (i : Int) : Bool := (tokenize text).messages.any (·.pointsAt i)
  have hpointed (i : Int) : pointed i = true ↔ LeavesOut {} text.toList i := by
    rw [leavesOut_iff_exists_message, ← hmessages]
    simp only [pointed, Array.any_eq_true', Array.mem_toList_iff]
  have hfound : findings {} (blanked text).toList
      = (findings {} text.toList).filter Finding.isToken := by
    rw [blanked, String.toList_ofList]
    exact findings_blankAt fun i _ => hpointed i
  rw [hfound, Finding.filterMap_token?_filter, ← htokens] at htokens'
  rw [hfound, Finding.filterMap_message?_filter] at hmessages'
  rw [Array.toList_eq_nil_iff] at hmessages'
  rw [← htokens', ← hmessages']

end Combinatory
