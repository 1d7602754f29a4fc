import Combinatory.Proofs.Token.Findings
import Combinatory.Proofs.Token.Stream
import Mathlib.Data.List.DropRight

namespace Combinatory

namespace Position

def ofIndex (text : List Char) (i : Nat) : Position where
  line := 1 + (text.take i).count '\n'
  column := 1 + ((text.take i).rtakeWhile (· ≠ '\n')).length
  index := i

/--
The place of an index of the text, or of its end. It does not stand within a line end of two
characters.
-/
def IsPlaceIn (p : Position) (text : List Char) : Prop :=
  ∃ i ≤ text.length, p = ofIndex text i
    ∧ ¬∃ front rest, text = front ++ '\r' :: '\n' :: rest ∧ i = front.length + 1

def Before (p q : Position) : Prop :=
  p.line < q.line ∨ p.line = q.line ∧ p.column < q.column

section Counting

theorem after_eq_ofIndex (front rest : List Char)
    : ({} : Position).after front = ofIndex (front ++ rest) front.length := by
  rw [ofIndex, List.take_left]
  induction front using List.reverseRecOn with
  | nil => rfl
  | append_singleton front c ih =>
    rw [after_append, ih, after_cons, after_nil, List.rtakeWhile_concat]
    by_cases hc : c = '\n'
    . simp [behind, nextLine, hc, Int.add_assoc]
    . simp [behind, nextColumn, hc, Int.add_assoc]

end Counting

section Order

variable {p q r : Position}

theorem Before.trans (h : p.Before q) (h' : q.Before r) : p.Before r := by
  unfold Before at *
  omega

theorem Before.asymm (h : p.Before q) : ¬q.Before p := by
  unfold Before at *
  omega

theorem before_behind (p : Position) (c : Char) : p.Before (p.behind c) := by
  unfold Before behind
  split
  . exact .inl (Int.lt_succ _)
  . exact .inr ⟨rfl, Int.lt_succ _⟩

theorem before_after (p : Position) {text : List Char} (h : text ≠ [])
    : p.Before (p.after text) := by
  induction text generalizing p with
  | nil => contradiction
  | cons c text ih =>
    rw [after_cons]
    by_cases htext : text = []
    . rw [htext, after_nil]
      apply before_behind
    . exact (before_behind p c).trans (ih _ htext)

theorem ofIndex_before {text : List Char} {i j : Nat} (hi : i < j) (hj : j ≤ text.length)
    : (ofIndex text i).Before (ofIndex text j) := by
  obtain ⟨front, mid, rest, rfl, rfl, rfl⟩ : ∃ front mid rest, text = front ++ mid ++ rest
      ∧ i = front.length ∧ j = (front ++ mid).length := by
    refine ⟨(text.take j).take i, (text.take j).drop i, text.drop j, ?_, ?_, ?_⟩
    . rw [List.take_append_drop, List.take_append_drop]
    . rw [List.length_take, List.length_take]
      omega
    . rw [List.take_append_drop, List.length_take_of_le hj]
  have hmid : mid ≠ [] := by
    rintro rfl
    simp at hi
  rw [← after_eq_ofIndex, List.append_assoc, ← after_eq_ofIndex, after_append]
  exact before_after _ hmid

theorem IsPlaceIn.index_lt_iff {text : List Char} (hp : p.IsPlaceIn text) (hq : q.IsPlaceIn text)
    : p.index < q.index ↔ p.Before q := by
  obtain ⟨i, hi, rfl, _⟩ := hp
  obtain ⟨j, hj, rfl, _⟩ := hq
  have hindex (i : Nat) : (ofIndex text i).index = i := rfl
  rw [hindex, hindex, Int.ofNat_lt]
  constructor
  . intro h
    exact ofIndex_before h hj
  . intro h
    by_contra hle
    obtain rfl | hlt := Nat.eq_or_lt_of_not_lt hle
    . exact h.asymm h
    . exact h.asymm (ofIndex_before hlt hi)

end Order

end Position

def Cursor.IsIn (cursor : Cursor) (text : List Char) : Prop :=
  ∃ front, text = front ++ cursor.rest ∧ cursor.position = ({} : Position).after front
    ∧ (front.getLast? = some '\r' → cursor.rest.head? ≠ some '\n')

namespace Cursor

variable {cursor : Cursor} {text : List Char}

theorem isIn_ofText (text : List Char) : (ofText text).IsIn text :=
  ⟨[], rfl, rfl, by simp⟩

theorem IsIn.isPlaceIn (h : cursor.IsIn text) : cursor.position.IsPlaceIn text := by
  obtain ⟨front, rfl, hposition, hends⟩ := h
  refine ⟨front.length, by simp, ?_, ?_⟩
  . rw [hposition, Position.after_eq_ofIndex]
  . rintro ⟨front', rest, htext, hlength⟩
    have hsplit : front ++ cursor.rest = (front' ++ ['\r']) ++ '\n' :: rest := by
      rw [htext, List.append_assoc, List.singleton_append]
    obtain ⟨rfl, hrest⟩ := List.append_inj hsplit (by simp [hlength])
    exact hends (by simp) (by simp [hrest])

theorem IsIn.advance (h : cursor.IsIn text) : cursor.advance.IsIn text := by
  obtain ⟨front, rfl, hposition, hends⟩ := h
  cases hrest : cursor.rest with
  | nil =>
    have hadvance : cursor.advance = cursor := by simp [Cursor.advance, hrest]
    rw [hadvance, ← hrest]
    exact ⟨front, rfl, hposition, hends⟩
  | cons c rest =>
    by_cases hpair : c = '\r' → rest.head? ≠ some '\n'
    . rw [advance_eq hrest hpair]
      refine ⟨front ++ [c], by simp, ?_, ?_⟩
      . rw [Position.after_append, ← hposition]
        rfl
      . simpa using hpair
    . simp only [ne_eq, Classical.not_imp, not_not] at hpair
      obtain ⟨rfl, hhead⟩ := hpair
      obtain ⟨others, rfl⟩ := List.head?_eq_some_iff.mp hhead
      rw [advance_lineEnd hrest]
      refine ⟨front ++ ['\r', '\n'], by simp, ?_, by simp⟩
      rw [Position.after_append, ← hposition, ← Position.behind_lineEnd]
      rfl

theorem IsIn.skip (h : cursor.IsIn text) (n : Nat) : (cursor.skip n).IsIn text := by
  induction n generalizing cursor with
  | zero => exact h
  | succ n ih =>
    rw [skip_succ]
    exact ih h.advance

end Cursor

namespace Scanner

structure IsIn (s : Scanner) (text : List Char) : Prop where
  cursor : s.cursor.IsIn text
  messages : ∀ m ∈ s.messages, ∃ p, m.position = some p ∧ p.IsPlaceIn text

variable {s : Scanner} {text : List Char}

theorem IsIn.skip (h : s.IsIn text) (width : Nat) : (s.skip width).IsIn text :=
  ⟨h.cursor.skip width, h.messages⟩

theorem IsIn.reject (h : s.IsIn text) (reproach : String) : (s.reject reproach).IsIn text := by
  refine ⟨h.cursor.advance, fun m hm => ?_⟩
  rw [Scanner.reject, Array.mem_push] at hm
  obtain hm | rfl := hm
  . exact h.messages m hm
  . exact ⟨_, rfl, h.cursor.isPlaceIn⟩

theorem IsIn.next (h : s.IsIn text)
    : s.next.2.IsIn text ∧ s.next.1.span.start.IsPlaceIn text
        ∧ s.next.1.span.stop.IsPlaceIn text := by
  fun_induction Scanner.next s with
  | case1 s start hrest => exact ⟨⟨h.cursor, h.messages⟩, h.cursor.isPlaceIn, h.cursor.isPlaceIn⟩
  | case2 s c rest hrest hpiece ih => exact ih (h.skip 1)
  | case3 s start c rest hrest tag width hpiece behind word =>
    exact ⟨h.skip width, h.cursor.isPlaceIn, (h.skip width).cursor.isPlaceIn⟩
  | case4 s c rest hrest hpiece ih => exact ih (h.reject _)
  | case5 s c rest hrest hpiece ih => exact ih (h.reject _)

theorem IsIn.nextTimes (h : s.IsIn text) (n : Nat) : (s.nextTimes n).IsIn text := by
  induction n generalizing s with
  | zero => exact h
  | succ n ih => exact ih h.next.1

theorem isIn_ofText (text : String) : (ofText text).IsIn text.toList :=
  ⟨Cursor.isIn_ofText _, by simp [ofText]⟩

end Scanner

/--
The places that a scanner of the text holds or tells of: where it stands once it was asked some
times, where its tokens begin and end, and where its messages point, be it asked for tokens one by
one or for all of them.
-/
inductive Reported (text : String) : Position → Prop where
  | cursor (n : Nat) : Reported text ((Scanner.ofText text).nextTimes n).cursor.position
  | start (n : Nat) : Reported text ((Scanner.ofText text).nextTimes n).next.1.span.start
  | stop (n : Nat) : Reported text ((Scanner.ofText text).nextTimes n).next.1.span.stop
  | message {n : Nat} {m : Message} {p : Position}
    (h : m ∈ ((Scanner.ofText text).nextTimes n).messages) (hp : m.position = some p)
    : Reported text p
  | startOfToken {t : Token} (h : t ∈ (tokenize text).tokens) : Reported text t.span.start
  | stopOfToken {t : Token} (h : t ∈ (tokenize text).tokens) : Reported text t.span.stop
  | messageOfText {m : Message} {p : Position} (h : m ∈ (tokenize text).messages)
    (hp : m.position = some p)
    : Reported text p

/--
Every place that is reported is that of its index in the text, and places are in order as they are
shown just when their indices are. No message is without a place.
-/
theorem reported_isPlaceIn (text : String)
    : (∀ p, Reported text p → p.IsPlaceIn text.toList)
        ∧ (∀ p q, Reported text p → Reported text q → (p.index < q.index ↔ p.Before q))
        ∧ ∀ n, ∀ m ∈ ((Scanner.ofText text).nextTimes n).messages, m.position.isSome := by
  have hin (n : Nat) : ((Scanner.ofText text).nextTimes n).IsIn text.toList :=
    (Scanner.isIn_ofText text).nextTimes n
  have hmessage {n : Nat} {m : Message} {p : Position}
      (h : m ∈ ((Scanner.ofText text).nextTimes n).messages) (hp : m.position = some p)
      : p.IsPlaceIn text.toList := by
    obtain ⟨q, hq, hplace⟩ := (hin n).messages m h
    cases hp.symm.trans hq
    exact hplace
  obtain ⟨⟨last, hmessages⟩, htokens⟩ := exists_nextTimes_tokenize text
  have hplace (p : Position) (h : Reported text p) : p.IsPlaceIn text.toList := by
    cases h with
    | cursor n => exact (hin n).cursor.isPlaceIn
    | start n => exact (hin n).next.2.1
    | stop n => exact (hin n).next.2.2
    | message h hp => exact hmessage h hp
    | startOfToken h =>
      obtain ⟨n, rfl⟩ := htokens _ h
      exact (hin n).next.2.1
    | stopOfToken h =>
      obtain ⟨n, rfl⟩ := htokens _ h
      exact (hin n).next.2.2
    | messageOfText h hp =>
      rw [hmessages] at h
      exact hmessage h hp
  refine ⟨hplace, ?_, ?_⟩
  . intro p q hp hq
    exact (hplace p hp).index_lt_iff (hplace q hq)
  . intro n m hm
    obtain ⟨p, hp, _⟩ := (hin n).messages m hm
    rw [hp, Option.isSome_some]

end Combinatory
