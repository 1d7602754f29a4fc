import Combinatory.Proofs.Token.Accounting

/-!
A scanner can be asked for the next token, or for all that are left, in any order and as often as
one likes. A single pull takes away from what lies ahead of the scanner (`gives_pull`), until the
end token is given; after that only the end token is left to be had, and nothing changes any more
(`Ended.pullAll`). So what a scanner gives is the same for every way of asking:
`pulled_isPrefix`.
-/

namespace Combinatory

namespace Scanner

inductive Pull where
  | next
  | rest

def pull (s : Scanner) : Pull → List Token × Scanner
  | .next => ([s.next.1], s.next.2)
  | .rest => (s.drain.1.toList, s.drain.2)

def pullAll (s : Scanner) : List Pull → List (List Token) × Scanner
  | [] => ([], s)
  | p :: ps =>
    let others := (s.pull p).2.pullAll ps
    ((s.pull p).1 :: others.1, others.2)

def Pull.afterEnd (last : Token) : Pull → List Token
  | .next => [last]
  | .rest => []

structure Ended (s : Scanner) (last : Token) : Prop where
  done : s.done = true
  rest : s.cursor.rest = []
  last : last = ⟨.endOfProgram, ⟨s.cursor.position, s.cursor.position⟩, ""⟩

def ahead (s : Scanner) : List Finding :=
  if s.done then [] else s.findings

structure Gives (s : Scanner) (given : List Token) (behind : Scanner) : Prop where
  tokens : s.ahead.filterMap Finding.token? = given ++ behind.ahead.filterMap Finding.token?
  messages : s.messages.toList ++ s.ahead.filterMap Finding.message?
    = behind.messages.toList ++ behind.ahead.filterMap Finding.message?
  ended : behind.done = true → ∃ front last, given = front ++ [last] ∧ behind.Ended last

section Ends

variable {s : Scanner} {last : Token}

theorem ended_next (hdone : s.done = false) (h : s.next.2.done = true)
    : s.next.2.Ended s.next.1 := by
  fun_induction next s with
  | case1 s start hrest => exact ⟨rfl, hrest, rfl⟩
  | case2 s c rest hrest hpiece ih => exact ih hdone h
  | case3 s start c rest hrest tag width hpiece behind text =>
    have hbehind : behind.done = false := hdone
    simp [hbehind] at h
  | case4 s c rest hrest hpiece ih => exact ih hdone h
  | case5 s c rest hrest hpiece ih => exact ih hdone h

theorem ended_drain_go (s : Scanner) (tokens : Array Token) (hdone : s.done = false)
    : ∃ front last, (drain.go s tokens).1.toList = front ++ [last]
        ∧ (drain.go s tokens).2.Ended last := by
  fun_induction drain.go s tokens with
  | case1 => simp_all
  | case2 s tokens _ token behind hnext read hbehind =>
    have hended := ended_next hdone (by rwa [hnext])
    rw [hnext] at hended
    exact ⟨tokens.toList, token, by simp [read], hended⟩
  | case3 s tokens _ token behind hnext read hbehind ih => exact ih (by simpa using hbehind)

theorem Ended.next_eq (h : s.Ended last) : s.next = (last, s) := by
  obtain ⟨hdone, hrest, rfl⟩ := h
  rw [next]
  split
  . rw [← hdone]
  . next hcons => simp [hrest] at hcons

theorem Ended.drain_eq (h : s.Ended last) : s.drain = (#[], s) := by
  rw [drain, drain.go, if_pos h.done]

theorem Ended.pull (h : s.Ended last) (p : Pull) : s.pull p = (p.afterEnd last, s) := by
  cases p with
  | next => rw [Scanner.pull, h.next_eq, Pull.afterEnd]
  | rest => rw [Scanner.pull, h.drain_eq, Pull.afterEnd]

theorem Ended.pullAll (h : s.Ended last) (ps : List Pull)
    : s.pullAll ps = (ps.map (Pull.afterEnd last), s) := by
  induction ps with
  | nil => rfl
  | cons p ps ih =>
    rw [Scanner.pullAll, h.pull, List.map_cons]
    dsimp only
    rw [ih]

end Ends

section Pulling

variable {s mid behind : Scanner} {given others : List Token}

theorem ahead_of_done (h : s.done = true) : s.ahead = [] := by
  rw [ahead, if_pos h]

theorem ahead_of_not_done (h : s.done = false) : s.ahead = s.findings := by
  rw [ahead, if_neg (by simp [h])]

theorem Gives.refl (h : s.done = false) : s.Gives [] s :=
  ⟨rfl, rfl, by simp [h]⟩

theorem Gives.trans (h : s.Gives given mid) (h' : mid.Gives others behind)
    : s.Gives (given ++ others) behind where
  tokens := by rw [h.tokens, h'.tokens, List.append_assoc]
  messages := h.messages.trans h'.messages
  ended := by
    intro hdone
    obtain ⟨front, last, rfl, hended⟩ := h'.ended hdone
    exact ⟨given ++ front, last, by rw [List.append_assoc], hended⟩

theorem gives_next (hdone : s.done = false) : s.Gives [s.next.1] s.next.2 := by
  obtain ⟨fs, hfs, htokens, hmessages⟩ := s.skips_next hdone
  have hahead : s.ahead = fs ++ .token s.next.1 :: s.next.2.ahead := by
    rw [ahead_of_not_done hdone, hfs, ahead]
  constructor
  . rw [hahead, List.filterMap_append, htokens]
    rfl
  . rw [hahead, hmessages, List.filterMap_append, List.append_assoc]
    rfl
  . intro hend
    exact ⟨[], s.next.1, rfl, ended_next hdone hend⟩

theorem gives_drain (hdone : s.done = false) : s.Gives s.drain.1.toList s.drain.2 := by
  obtain ⟨htokens, hmessages⟩ := s.drain_go_eq #[] hdone
  obtain ⟨front, last, hfront, hended⟩ := s.ended_drain_go #[] hdone
  have hahead : s.drain.2.ahead = [] := ahead_of_done hended.done
  constructor
  . rw [ahead_of_not_done hdone, hahead, List.filterMap_nil, List.append_nil]
    exact htokens.symm
  . rw [ahead_of_not_done hdone, hahead, List.filterMap_nil, List.append_nil]
    exact hmessages.symm
  . intro _
    exact ⟨front, last, hfront, hended⟩

theorem gives_pull (hdone : s.done = false) (p : Pull) : s.Gives (s.pull p).1 (s.pull p).2 := by
  cases p with
  | next => exact gives_next hdone
  | rest => exact gives_drain hdone

theorem exists_gives_pullAll (hdone : s.done = false) (ps : List Pull)
    : ∃ before after, ps = before ++ after
        ∧ s.Gives (s.pullAll before).1.flatten (s.pullAll before).2
        ∧ (after = [] ∨ (s.pullAll before).2.done = true) := by
  induction ps generalizing s with
  | nil => exact ⟨[], [], rfl, .refl hdone, .inl rfl⟩
  | cons p ps ih =>
    have hfirst := gives_pull hdone p
    cases hend : (s.pull p).2.done with
    | true =>
      refine ⟨[p], ps, rfl, ?_, .inr hend⟩
      simpa [pullAll] using hfirst
    | false =>
      obtain ⟨before, after, rfl, hgives, hafter⟩ := ih hend
      exact ⟨p :: before, after, rfl, hfirst.trans hgives, hafter⟩

theorem pullAll_append_of_ended {last : Token} {ps : List Pull} (h : (s.pullAll ps).2.Ended last)
    (qs : List Pull)
    : s.pullAll (ps ++ qs)
        = ((s.pullAll ps).1 ++ qs.map (Pull.afterEnd last), (s.pullAll ps).2) := by
  induction ps generalizing s with
  | nil => exact Ended.pullAll h qs
  | cons p ps ih =>
    rw [List.cons_append, pullAll, pullAll]
    dsimp only
    rw [ih h, List.cons_append]

end Pulling

end Scanner

section Texts

variable {text : String} {s : Scanner} {given body : List Token} {last : Token}

theorem Scanner.Gives.tokenize_eq (h : (ofText text).Gives given s)
    : (tokenize text).tokens = given ++ s.ahead.filterMap Finding.token?
        ∧ (tokenize text).messages.toList
          = s.messages.toList ++ s.ahead.filterMap Finding.message? := by
  obtain ⟨htokens, hmessages⟩ := Combinatory.tokenize_eq text
  have hahead : (ofText text).ahead = Combinatory.findings {} text.toList := rfl
  constructor
  . rw [htokens, ← hahead, h.tokens]
  . rw [hmessages, ← hahead, ← h.messages]
    rfl

theorem Scanner.Gives.isPrefix (h : (ofText text).Gives given s) (hdone : s.done = false)
    (htokens : (tokenize text).tokens = body ++ [last])
    : given <+: body := by
  have hbegins : given <+: body ++ [last] := by
    rw [← htokens, h.tokenize_eq.1]
    apply List.prefix_append
  apply (List.prefix_concat_iff.mp hbegins).resolve_left
  -- The token that the scanner would give next is still missing.
  intro hall
  have hnext := h.tokenize_eq.1
  obtain ⟨fs, hfs, _⟩ := s.skips_next hdone
  rw [htokens, ← hall, ahead_of_not_done hdone, hfs] at hnext
  simp [Finding.token?] at hnext

theorem Scanner.Gives.all (h : (ofText text).Gives given s) (hdone : s.done = true)
    (htokens : (tokenize text).tokens = body ++ [last])
    : given = body ++ [last] ∧ s.messages = (tokenize text).messages ∧ s.Ended last := by
  obtain ⟨hgiven, htold⟩ := h.tokenize_eq
  obtain ⟨front, end', hfront, hended⟩ := h.ended hdone
  rw [ahead_of_done hdone, List.filterMap_nil, List.append_nil] at hgiven htold
  have hboth : body ++ [last] = front ++ [end'] := by rw [← htokens, hgiven, hfront]
  obtain ⟨rfl, hlast⟩ := List.append_inj' hboth rfl
  cases hlast
  exact ⟨hfront, Array.toList_inj.mp htold.symm, hended⟩

theorem pulled_isPrefix (text : String) (pulls : List Scanner.Pull)
    : let pulled := (Scanner.ofText text).pullAll pulls
      let given := pulled.1.flatten
      let s := pulled.2
      ∃ (body : List Token) (place : Position),
        let last : Token := ⟨.endOfProgram, ⟨place, place⟩, ""⟩
        (tokenize text).tokens = body ++ [last] ∧ (∀ t ∈ body, t.tag ≠ .endOfProgram)
          ∧ (s.done = true ↔ ∃ t ∈ given, t.tag = .endOfProgram)
          ∧ (s.done = false → given <+: body
            ∧ s.messages.toList <+: (tokenize text).messages.toList)
          ∧ (s.done = true → s.messages = (tokenize text).messages ∧ s.pull .rest = ([], s)
            ∧ ∃ before after, pulls = before ++ after
              ∧ let early := ((Scanner.ofText text).pullAll before).1
                early.flatten = body ++ [last]
                  ∧ pulled.1 = early ++ after.map (Scanner.Pull.afterEnd last)) := by
  intro pulled given s
  obtain ⟨body, place, htokens, _, hstands⟩ := exists_tokens_end text
  have hbody : ∀ t ∈ body, t.tag ≠ .endOfProgram := fun t ht => (hstands t ht).1
  refine ⟨body, place, htokens, hbody, ?_⟩
  obtain ⟨before, after, hpulls, hgives, hafter⟩ :=
    Scanner.exists_gives_pullAll (s := Scanner.ofText text) rfl pulls
  cases hdone : ((Scanner.ofText text).pullAll before).2.done with
  | false =>
    have hnone : after = [] := hafter.resolve_right (by simp [hdone])
    rw [hnone, List.append_nil] at hpulls
    rw [← hpulls] at hgives hdone
    have hbegins : given <+: body := hgives.isPrefix hdone htokens
    have hmissing : ¬∃ t ∈ given, t.tag = .endOfProgram := by
      rintro ⟨t, ht, htag⟩
      exact hbody t (hbegins.subset ht) htag
    have hs : s.done = false := hdone
    have htold : s.messages.toList <+: (tokenize text).messages.toList := by
      rw [hgives.tokenize_eq.2]
      apply List.prefix_append
    exact ⟨by simp [hs, hmissing], fun _ => ⟨hbegins, htold⟩, by simp [hs]⟩
  | true =>
    obtain ⟨hall, htold, hended⟩ := hgives.all hdone htokens
    obtain ⟨hearly, hs⟩ := Prod.mk.inj (Scanner.pullAll_append_of_ended hended after)
    rw [← hpulls] at hearly hs
    rw [← hs] at htold hended
    have hs : s.done = true := hended.done
    have hfound : ∃ t ∈ given, t.tag = .endOfProgram := by
      refine ⟨⟨.endOfProgram, ⟨place, place⟩, ""⟩, ?_, rfl⟩
      have hgiven : given = body ++ [⟨.endOfProgram, ⟨place, place⟩, ""⟩]
          ++ (after.map (Scanner.Pull.afterEnd ⟨.endOfProgram, ⟨place, place⟩, ""⟩)).flatten := by
        rw [← hall, ← List.flatten_append, ← hearly]
      simp [hgiven]
    refine ⟨by simp [hs, hfound], by simp [hs], fun _ => ?_⟩
    exact ⟨htold, hended.pull .rest, before, after, hpulls, hall, hearly⟩

end Texts

end Combinatory
