import Combinatory.Proofs.Token.Scanning

namespace Combinatory

theorem Piece.tag_ne_endOfProgram {c : Char} {rest : List Char} {tag : Tag} {width : Nat}
    (h : Piece.ofChars c rest = .token tag width)
    : tag ≠ .endOfProgram := by
  rintro rfl
  unfold Piece.ofChars at h
  split at h <;> (try split at h) <;> simp at h

namespace Scanner

theorem done_next_iff (s : Scanner) (h : s.done = false)
    : s.next.2.done = true ↔ s.next.1.tag = .endOfProgram := by
  fun_induction next s with
  | case1 => simp
  | case2 _ _ _ _ _ ih => exact ih h
  | case3 s _ c rest _ tag width hpiece behind =>
    have hbehind : behind.done = false := h
    simp [hbehind, Piece.tag_ne_endOfProgram hpiece]
  | case4 _ _ _ _ _ ih => exact ih h
  | case5 _ _ _ _ _ ih => exact ih h

theorem exists_drain_go (s : Scanner) (tokens : Array Token) (h : s.done = false)
    : ∃ body last, (drain.go s tokens).1.toList = tokens.toList ++ (body ++ [last])
        ∧ last.tag = .endOfProgram ∧ ∀ t ∈ body, t.tag ≠ .endOfProgram := by
  fun_induction drain.go s tokens with
  | case1 _ _ hdone => simp [h] at hdone
  | case2 s tokens _ token behind hnext read hdone =>
    have hend := s.done_next_iff h
    rw [hnext] at hend
    exact ⟨[], token, by simp [read], hend.mp hdone, by simp⟩
  | case3 s tokens _ token behind hnext read hdone ih =>
    have hend := s.done_next_iff h
    rw [hnext] at hend
    obtain ⟨body, last, htokens, hlast, hbody⟩ := ih (by simpa using hdone)
    refine ⟨token :: body, last, by simp [htokens, read], hlast, ?_⟩
    rw [List.forall_mem_cons]
    exact ⟨fun htag => hdone (hend.mpr htag), hbody⟩

def nextTimes (s : Scanner) : Nat → Scanner
  | 0 => s
  | n + 1 => s.next.2.nextTimes n

theorem exists_nextTimes_drain_go (s : Scanner) (tokens : Array Token)
    : (∃ n, (drain.go s tokens).2 = s.nextTimes n)
        ∧ ∀ t ∈ (drain.go s tokens).1, t ∈ tokens ∨ ∃ n, t = (s.nextTimes n).next.1 := by
  fun_induction drain.go s tokens with
  | case1 => exact ⟨⟨0, rfl⟩, fun t ht => .inl ht⟩
  | case2 s tokens _ token behind hnext read hdone =>
    refine ⟨⟨1, by rw [nextTimes, hnext, nextTimes]⟩, fun t ht => ?_⟩
    rw [Array.mem_push] at ht
    refine ht.imp_right fun ht => ⟨0, ?_⟩
    rw [ht, nextTimes, hnext]
  | case3 s tokens _ token behind hnext read hdone ih =>
    have hbehind (n : Nat) : s.nextTimes (n + 1) = behind.nextTimes n := by
      rw [nextTimes, hnext]
    obtain ⟨⟨n, hn⟩, htokens⟩ := ih
    refine ⟨⟨n + 1, by rw [hn, hbehind]⟩, fun t ht => ?_⟩
    obtain ht | ⟨k, ht⟩ := htokens t ht
    . rw [Array.mem_push] at ht
      refine ht.imp_right fun ht => ⟨0, ?_⟩
      rw [ht, nextTimes, hnext]
    . exact .inr ⟨k + 1, by rw [ht, hbehind]⟩

end Scanner

theorem exists_nextTimes_tokenize (text : String)
    : (∃ n, (tokenize text).messages = ((Scanner.ofText text).nextTimes n).messages)
        ∧ ∀ t ∈ (tokenize text).tokens, ∃ n, t = ((Scanner.ofText text).nextTimes n).next.1 := by
  obtain ⟨⟨n, hn⟩, htokens⟩ := Scanner.exists_nextTimes_drain_go (Scanner.ofText text) #[]
  constructor
  . exact ⟨n, congrArg Scanner.messages hn⟩
  . intro t ht
    exact (htokens t (Array.mem_toList_iff.mp ht)).resolve_left (by simp)

theorem exists_tokenize (text : String)
    : ∃ body last, (tokenize text).tokens = body ++ [last] ∧ last.tag = .endOfProgram
        ∧ ∀ t ∈ body, t.tag ≠ .endOfProgram := by
  obtain ⟨body, last, htokens, hlast⟩ := Scanner.exists_drain_go (Scanner.ofText text) #[] rfl
  refine ⟨body, last, ?_, hlast⟩
  simpa [tokenize, Scanner.drain] using htokens

end Combinatory
