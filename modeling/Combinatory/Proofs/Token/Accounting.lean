import Combinatory.Proofs.Token.Recovery
import Combinatory.Proofs.Token.Stream
import Mathlib.Data.List.Pairwise

/-!
The scanner accounts for every character of a text. A character belongs to a lexeme, and then to
just one token; or it is blank, and nothing is said about it; or no lexeme begins with it, and there
is one message about it: `tokenize_accounts`.
-/

namespace Combinatory

section Pieces

variable {c : Char} {rest : List Char} {reproach : String}

theorem Piece.not_prefix_of_reproach? (h : (Piece.ofChars c rest).reproach? c = some reproach)
    {tag : Tag} {word : String} (hword : tag.Spells word)
    : ¬ word.toList <+: c :: rest := by
  rintro ⟨others, hothers⟩
  -- The name that begins here need not be `word`, which may have more digits behind it.
  by_cases hname : tag = .name
  . subst hname
    obtain ⟨digits, hne, hdigits, rfl⟩ := hword
    rw [String.toList_ofList, List.cons_append, List.cons.injEq] at hothers
    obtain ⟨rfl, rfl⟩ := hothers
    obtain ⟨d, ds, rfl⟩ := List.exists_cons_of_ne_nil hne
    have htake : (d :: ds ++ others).takeWhile Char.isDigit
        = d :: (ds ++ others).takeWhile Char.isDigit := by
      rw [List.forall_mem_cons] at hdigits
      rw [List.cons_append, List.takeWhile_cons_of_pos hdigits.1]
    rw [ofChars_name htake] at h
    cases h
  . have hends : tag = .name → EndsName others := fun h => absurd h hname
    obtain ⟨d, ds, hds, hpiece⟩ := ofChars_of_spells hword hends
    rw [hds, List.cons_append, List.cons.injEq] at hothers
    obtain ⟨rfl, rfl⟩ := hothers
    rw [hpiece] at h
    cases h

def reproachOf (c : Char) : String :=
  if c = 'C' then "Wrong user_combinator: C" else "Unexpected symbol: " ++ c.toString

theorem Piece.eq_reproachOf (h : (Piece.ofChars c rest).reproach? c = some reproach)
    : reproach = reproachOf c := by
  by_cases hc : c = 'C'
  . subst hc
    cases hdigits : rest.takeWhile Char.isDigit with
    | nil =>
      rw [ofChars_bareName hdigits] at h
      cases h
      rfl
    | cons d digits =>
      rw [ofChars_name hdigits] at h
      cases h
  . rw [reproachOf, if_neg hc]
    unfold ofChars at h
    split at h
    case h_8 => contradiction
    case h_12 =>
      split at h
      . cases h
      . cases h
        rfl
    all_goals cases h

end Pieces

section Findings

variable {p : Position} {text : List Char} {f : Finding}

inductive Found (p : Position) (text : List Char) : Finding → Prop where
  | token {tag : Tag} {word : String} (front others : List Char)
    (htext : text = front ++ (word.toList ++ others)) (hword : tag.Spells word)
    (hothers : tag = .name → EndsName others)
    : Found p text (.token ⟨tag, ⟨p.after front, p.after (front ++ word.toList)⟩, word⟩)
  | rejected {c : Char} {reproach : String} (front others : List Char)
    (htext : text = front ++ c :: others)
    (hreproach : (Piece.ofChars c others).reproach? c = some reproach)
    : Found p text (.rejected (p.after front) reproach)
  | ending : Found p text (.token ⟨.endOfProgram, ⟨p.after text, p.after text⟩, ""⟩)

theorem Found.append (word : List Char) (h : Found (p.after word) text f)
    : Found p (word ++ text) f := by
  cases h with
  | token front others htext hword hothers =>
    rw [← Position.after_append, ← Position.after_append, ← List.append_assoc]
    apply Found.token (word ++ front) others _ hword hothers
    rw [htext, List.append_assoc]
  | rejected front others htext hreproach =>
    rw [← Position.after_append]
    apply Found.rejected (word ++ front) others _ hreproach
    rw [htext, List.append_assoc]
  | ending =>
    rw [← Position.after_append]
    exact .ending

theorem found_of_mem_findings (h : f ∈ findings p text) : Found p text f := by
  induction text using Piece.induct generalizing p with
  | nil =>
    rw [findings_nil, List.mem_singleton] at h
    subst h
    exact .ending
  | blank c rest hc ih =>
    rw [findings_of_blank hc] at h
    exact (ih h).append [c]
  | token tag word rest hword hrest ih =>
    rw [findings_of_spells hword hrest, List.mem_cons] at h
    obtain rfl | h := h
    . exact .token [] rest rfl hword hrest
    . exact (ih h).append word.toList
  | rejected c rest reproach hreproach ih =>
    rw [findings_of_reproach? hreproach, List.mem_cons] at h
    obtain rfl | h := h
    . exact .rejected [] rest rfl hreproach
    . exact (ih h).append [c]

def Finding.stop : Finding → Int
  | .token t => t.span.stop.index
  | .rejected position _ => position.index + 1

theorem pairwise_findings_stop (p : Position) (text : List Char)
    : (findings p text).Pairwise (·.stop ≤ ·.position.index) := by
  induction text using Piece.induct generalizing p with
  | nil => simp [findings_nil]
  | blank c rest hc ih =>
    rw [findings_of_blank hc]
    apply ih
  | token tag word rest hword hrest ih =>
    rw [findings_of_spells hword hrest, List.pairwise_cons]
    exact ⟨fun f hf => index_le_of_mem_findings hf, ih _⟩
  | rejected c rest reproach hreproach ih =>
    rw [findings_of_reproach? hreproach, List.pairwise_cons]
    refine ⟨fun f hf => ?_, ih _⟩
    have hle := index_le_of_mem_findings hf
    rwa [Position.index_behind] at hle

def Finding.Covers (f : Finding) (i : Int) : Prop :=
  f.position.index ≤ i ∧ i < f.stop

theorem isBlank_or_covered {c : Char} {i : Nat} (h : text[i]? = some c) (p : Position)
    : isBlank c ∨ ∃ f ∈ findings p text, f.Covers (p.index + i) := by
  induction text using Piece.induct generalizing p i with
  | nil => simp at h
  | blank d rest hd ih =>
    rw [findings_of_blank hd]
    cases i with
    | zero =>
      cases h
      exact .inl hd
    | succ i =>
      have hrest := ih h (p.behind d)
      rwa [Position.index_behind, Int.add_assoc, Int.add_comm 1] at hrest
  | token tag word rest hword hends ih =>
    rw [findings_of_spells hword hends]
    by_cases hi : i < word.toList.length
    . right
      refine ⟨_, List.mem_cons_self, ?_⟩
      simp only [Finding.Covers, Finding.position_token, Token.position, Finding.stop,
        Position.index_after]
      omega
    . rw [List.getElem?_append_right (by omega)] at h
      have hindex : (p.after word.toList).index + (i - word.toList.length : Nat) = p.index + i := by
        rw [Position.index_after]
        omega
      have hrest := ih h (p.after word.toList)
      rw [hindex] at hrest
      exact hrest.imp_right fun ⟨f, hf, hcovers⟩ => ⟨f, List.mem_cons_of_mem _ hf, hcovers⟩
  | rejected d rest reproach hreproach ih =>
    rw [findings_of_reproach? hreproach]
    cases i with
    | zero =>
      right
      refine ⟨_, List.mem_cons_self, ?_⟩
      simp only [Finding.Covers, Finding.position_rejected, Finding.stop]
      omega
    | succ i =>
      have hrest := ih h (p.behind d)
      rw [Position.index_behind, Int.add_assoc, Int.add_comm 1] at hrest
      exact hrest.imp_right fun ⟨f, hf, hcovers⟩ => ⟨f, List.mem_cons_of_mem _ hf, hcovers⟩

theorem Found.exists_of_rejected {q : Position} {reproach : String}
    (h : Found p text (.rejected q reproach))
    : ∃ (i : Nat) (c : Char), text[i]? = some c ∧ q.index = p.index + i
        ∧ (Piece.ofChars c (text.drop (i + 1))).reproach? c = some reproach := by
  cases h with
  | @rejected c _ front others htext hreproach =>
    subst htext
    refine ⟨front.length, c, by simp, Position.index_after p front, ?_⟩
    rwa [List.drop_append, List.drop_eq_nil_of_le (by omega), Nat.add_sub_cancel_left]

def Finding.Apart (f g : Finding) : Prop :=
  f.stop ≤ g.position.index ∨ g.stop ≤ f.position.index

theorem Finding.Apart.not_covers {f g : Finding} (h : f.Apart g) {i : Int} (hi : f.Covers i)
    : ¬ g.Covers i := by
  unfold Apart at h
  unfold Covers at hi ⊢
  omega

theorem apart_of_mem_findings {f g : Finding} (hf : f ∈ findings p text)
    (hg : g ∈ findings p text) (hne : f ≠ g)
    : f.Apart g := by
  have hpairwise : (findings p text).Pairwise Finding.Apart :=
    (pairwise_findings_stop p text).imp .inl
  have : Std.Symm Finding.Apart := ⟨fun _ _ => Or.symm⟩
  exact hpairwise.forall hf hg hne

end Findings

section Tokens

variable {text : String}

theorem mem_tokens_iff {t : Token}
    : t ∈ (tokenize text).tokens ↔ .token t ∈ findings {} text.toList := by
  rw [(tokenize_eq text).1, List.mem_filterMap]
  constructor
  . rintro ⟨_ | _, hf, h⟩
    . cases h
      exact hf
    . cases h
  . intro h
    exact ⟨_, h, rfl⟩

theorem mem_messages_iff {m : Message}
    : m ∈ (tokenize text).messages ↔ ∃ p reproach, .rejected p reproach ∈ findings {} text.toList
        ∧ m = { severity := .error, text := reproach, position := some p } := by
  rw [← Array.mem_toList_iff, (tokenize_eq text).2, List.mem_filterMap]
  constructor
  . rintro ⟨_ | ⟨p, reproach⟩, hf, h⟩
    . cases h
    . cases h
      exact ⟨p, reproach, hf, rfl⟩
  . rintro ⟨p, reproach, hf, rfl⟩
    exact ⟨_, hf, rfl⟩

theorem Message.eq_of_pointsAt {m : Message} {i j : Int} (hi : m.pointsAt i) (hj : m.pointsAt j)
    : i = j := by
  unfold pointsAt at hi hj
  cases hposition : m.position with
  | none => simp [hposition] at hi
  | some p =>
    simp only [hposition, Option.any_some, decide_eq_true_eq] at hi hj
    exact hi.symm.trans hj

theorem Message.not_pointsAt_both {m n : Message}
    (h : ∃ p q, m.position = some p ∧ n.position = some q ∧ p.index < q.index) {i : Int}
    (hm : m.pointsAt i)
    : ¬ n.pointsAt i := by
  intro hn
  obtain ⟨p, q, hp, hq, hlt⟩ := h
  simp only [pointsAt, hp, hq, Option.any_some, decide_eq_true_eq] at hm hn
  omega

theorem filter_pointsAt_eq {ms : List Message} {m : Message} {i : Int}
    (hms : ms.Pairwise fun m n =>
      ∃ p q, m.position = some p ∧ n.position = some q ∧ p.index < q.index)
    (hm : m ∈ ms) (hi : m.pointsAt i)
    : ms.filter (·.pointsAt i) = [m] := by
  obtain ⟨before, after, rfl⟩ := List.append_of_mem hm
  rw [List.pairwise_append, List.pairwise_cons] at hms
  obtain ⟨_, ⟨hafter, _⟩, hbefore⟩ := hms
  have hnone : before.filter (·.pointsAt i) = [] := by
    rw [List.filter_eq_nil_iff]
    intro n hn hni
    exact Message.not_pointsAt_both (hbefore n hn m List.mem_cons_self) hni hi
  have hnone' : after.filter (·.pointsAt i) = [] := by
    rw [List.filter_eq_nil_iff]
    intro n hn
    exact Message.not_pointsAt_both (hafter n hn) hi
  rw [List.filter_append, List.filter_cons, if_pos hi, hnone, hnone', List.nil_append]

end Tokens

def Token.StandsIn (t : Token) (text : String) : Prop :=
  ∃ front others, text.toList = front ++ (t.text.toList ++ others)
    ∧ t.span.start.index = front.length
    ∧ t.span.stop.index = front.length + t.text.toList.length
    ∧ t.tag.Spells t.text ∧ (t.tag = .name → EndsName others)

def Token.Covers (t : Token) (i : Int) : Prop :=
  t.span.start.index ≤ i ∧ i < t.span.stop.index

structure Scanned.Accounts (scanned : Scanned) (text : String) : Prop where
  tokens_in_order : scanned.tokens.Pairwise fun t u =>
    t.span.start.index < u.span.start.index ∧ t.span.stop.index ≤ u.span.start.index
  tokens_end : ∃ (body : List Token) (place : Position),
    scanned.tokens = body ++ [⟨.endOfProgram, ⟨place, place⟩, ""⟩]
    ∧ place.index = text.toList.length ∧ ∀ t ∈ body, t.tag ≠ .endOfProgram ∧ t.StandsIn text
  outside : ∀ (i : Nat) c, text.toList[i]? = some c → (∀ t ∈ scanned.tokens, ¬ t.Covers i)
    → (isBlank c ∧ ∀ m ∈ scanned.messages, m.pointsAt i = false)
      ∨ (isBlank c = false
        ∧ (∀ tag word, Tag.Spells tag word → ¬ word.toList <+: text.toList.drop i)
        ∧ ∃ m, scanned.messages.toList.filter (·.pointsAt i) = [m]
          ∧ m.severity = .error ∧ m.text = reproachOf c)
  messages_outside : ∀ m ∈ scanned.messages, ∃ (i : Nat) (c : Char), text.toList[i]? = some c
    ∧ m.pointsAt i ∧ ∀ t ∈ scanned.tokens, ¬ t.Covers i
  messages_in_order : scanned.messages.toList.Pairwise fun m n =>
    ∃ p q, m.position = some p ∧ n.position = some q ∧ p.index < q.index

section Accounts

variable {text : String}

theorem Token.standsIn_of_found {t : Token} (h : Found {} text.toList (.token t))
    (htag : t.tag ≠ .endOfProgram)
    : t.StandsIn text := by
  cases h with
  | token front others htext hword hothers =>
    refine ⟨front, others, htext, ?_, ?_, hword, hothers⟩
    . simp [Position.index_after]
    . simp [Position.index_after]
  | ending => contradiction

theorem eq_of_found_end {t : Token} (h : Found {} text.toList (.token t))
    (htag : t.tag = .endOfProgram)
    : ∃ place : Position, t = ⟨.endOfProgram, ⟨place, place⟩, ""⟩
        ∧ place.index = text.toList.length := by
  cases h with
  | token _ _ _ hword =>
    dsimp only at htag
    subst htag
    cases hword
  | ending => exact ⟨_, rfl, by simp [Position.index_after]⟩

theorem exists_of_mem_messages {m : Message} (h : m ∈ (tokenize text).messages)
    : ∃ (i : Nat) (c : Char), text.toList[i]? = some c
        ∧ m.pointsAt i ∧ (Piece.ofChars c (text.toList.drop (i + 1))).reproach? c = some m.text
        ∧ m.severity = .error ∧ ∀ t ∈ (tokenize text).tokens, ¬ t.Covers i := by
  obtain ⟨p, reproach, hfound, rfl⟩ := mem_messages_iff.mp h
  obtain ⟨i, c, hc, hindex, hreproach⟩ := (found_of_mem_findings hfound).exists_of_rejected
  have hi : p.index = i := by simpa using hindex
  refine ⟨i, c, hc, by simp [Message.pointsAt, hi], hreproach, rfl, ?_⟩
  intro t ht
  have hcovers : (Finding.rejected p reproach).Covers i := by
    simp only [Finding.Covers, Finding.position_rejected, Finding.stop]
    omega
  have hapart := apart_of_mem_findings hfound (mem_tokens_iff.mp ht) (by simp)
  exact hapart.not_covers hcovers

theorem reproach?_of_mem_messages {m : Message} {c : Char} {i : Nat}
    (hm : m ∈ (tokenize text).messages) (hi : m.pointsAt i) (hc : text.toList[i]? = some c)
    : (Piece.ofChars c (text.toList.drop (i + 1))).reproach? c = some m.text
        ∧ m.severity = .error := by
  obtain ⟨j, d, hd, hj, hreproach, hseverity, _⟩ := exists_of_mem_messages hm
  obtain rfl : j = i := by
    have := Message.eq_of_pointsAt hj hi
    omega
  cases hd.symm.trans hc
  exact ⟨hreproach, hseverity⟩

theorem exists_mem_messages {c : Char} {i : Nat} (h : text.toList[i]? = some c)
    (hc : isBlank c = false) (htokens : ∀ t ∈ (tokenize text).tokens, ¬ t.Covers i)
    : ∃ m ∈ (tokenize text).messages, m.pointsAt i := by
  obtain hblank | ⟨t | ⟨p, reproach⟩, hf, hcovers⟩ := isBlank_or_covered h {}
  . simp [hc] at hblank
  . rw [Int.zero_add] at hcovers
    exact absurd hcovers (htokens t (mem_tokens_iff.mpr hf))
  . refine ⟨_, mem_messages_iff.mpr ⟨p, reproach, hf, rfl⟩, ?_⟩
    simp only [Finding.Covers, Finding.position_rejected, Finding.stop, Int.zero_add] at hcovers
    simp only [Message.pointsAt, Option.any_some, decide_eq_true_eq]
    omega

theorem exists_tokens_end (text : String)
    : ∃ (body : List Token) (place : Position),
        (tokenize text).tokens = body ++ [⟨.endOfProgram, ⟨place, place⟩, ""⟩]
          ∧ place.index = text.toList.length
          ∧ ∀ t ∈ body, t.tag ≠ .endOfProgram ∧ t.StandsIn text := by
  obtain ⟨body, last, htokens, hlast, hbody⟩ := exists_tokenize text
  have hfound : ∀ t ∈ body ++ [last], Found {} text.toList (.token t) := by
    intro t ht
    rw [← htokens, mem_tokens_iff] at ht
    exact found_of_mem_findings ht
  rw [List.forall_mem_append, List.forall_mem_singleton] at hfound
  obtain ⟨place, rfl, hplace⟩ := eq_of_found_end hfound.2 hlast
  refine ⟨body, place, htokens, hplace, ?_⟩
  intro t ht
  exact ⟨hbody t ht, Token.standsIn_of_found (hfound.1 t ht) (hbody t ht)⟩

theorem not_pointsAt_of_isBlank {c : Char} {i : Nat} (hc : text.toList[i]? = some c)
    (hblank : isBlank c) {m : Message} (hm : m ∈ (tokenize text).messages)
    : m.pointsAt i = false := by
  by_contra hi
  rw [Bool.not_eq_false] at hi
  have := Piece.isBlank_eq_false_of_reproach? (reproach?_of_mem_messages hm hi hc).1
  simp [hblank] at this

theorem exists_filter_pointsAt_eq {c : Char} {i : Nat} (hc : text.toList[i]? = some c)
    (hblank : isBlank c = false) (htokens : ∀ t ∈ (tokenize text).tokens, ¬ t.Covers i)
    : (∀ tag word, Tag.Spells tag word → ¬ word.toList <+: text.toList.drop i)
        ∧ ∃ m, (tokenize text).messages.toList.filter (·.pointsAt i) = [m]
          ∧ m.severity = .error ∧ m.text = reproachOf c := by
  obtain ⟨m, hm, hi⟩ := exists_mem_messages hc hblank htokens
  obtain ⟨hreproach, hseverity⟩ := reproach?_of_mem_messages hm hi hc
  refine ⟨?_, m, ?_, hseverity, Piece.eq_reproachOf hreproach⟩
  . intro tag word hword
    obtain ⟨hlt, hget⟩ := List.getElem?_eq_some_iff.mp hc
    rw [List.drop_eq_getElem_cons hlt, hget]
    exact Piece.not_prefix_of_reproach? hreproach hword
  . apply filter_pointsAt_eq (pairwise_messages text).1 _ hi
    exact Array.mem_toList_iff.mpr hm

end Accounts

theorem tokenize_accounts (text : String) : (tokenize text).Accounts text where
  tokens_in_order := by
    rw [(tokenize_eq text).1]
    apply ((pairwise_findings {} text.toList).and (pairwise_findings_stop {} text.toList)).filterMap
    rintro (t | _) (u | _) h _ ht _ hu <;> cases ht <;> cases hu
    exact h
  tokens_end := exists_tokens_end text
  outside := by
    intro i c hc htokens
    cases hblank : isBlank c with
    | true => exact .inl ⟨rfl, fun m hm => not_pointsAt_of_isBlank hc hblank hm⟩
    | false => exact .inr ⟨rfl, exists_filter_pointsAt_eq hc hblank htokens⟩
  messages_outside := by
    intro m hm
    obtain ⟨i, c, hc, hi, _, _, htokens⟩ := exists_of_mem_messages hm
    exact ⟨i, c, hc, hi, htokens⟩
  messages_in_order := (pairwise_messages text).1

end Combinatory
