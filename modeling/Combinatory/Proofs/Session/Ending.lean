import Combinatory.Proofs.Program.Lookahead
import Combinatory.Proofs.Reduction.Outcome
import Combinatory.Proofs.Token.Stream
import Combinatory.Session

namespace Combinatory

def Program.reducer (p : Program) : Reducer where
  terms := p.task
  complexity := p.complexity
  bound := p.bound

def Program.rewritten (p : Program) (fuel : Nat) : Program :=
  { p with task := p.reducer.rewritten fuel }

theorem Program.new?_eq_ok_reducer (p : Program)
    : Reducer.new? p.task p.complexity p.bound = .ok p.reducer :=
  Reducer.new?_bound_isOk p.task p.complexity p.primitives

theorem Program.bound_isSome (p : Program) (h : p.complexity.isBounded) : p.bound.isSome := by
  rw [bound, Complexity.bound_isSome]
  exact h

namespace Session

def read (text : String) : Except Signal Program :=
  (parse (tokenize text).tokens true).result

def Ending.ofReduction : Reduction.Ending → Ending
  | .finished result => .finished result
  | .suspended _ => .suspended
  | .fault defect => .raised (.defect defect)

section Running

variable {s : Session} {limit : Option Nat} {signal : Signal} {program : Program}

theorem boundText?_isSome_of_none (bound : Option Int) : (boundText? bound none).isSome := by
  cases bound <;> rfl

theorem perform_of_isSome (h : (boundText? program.bound limit).isSome) (console : Console)
    (fuel : Nat)
    : let reduced := program.reducer.reduce fuel
      let outcome := s.perform console program fuel limit
      outcome.session
          = { s with parsed := some (program.rewritten fuel), reducer := some reduced.reducer }
        ∧ outcome.ending = Ending.ofReduction reduced.ending := by
  obtain ⟨text, htext⟩ := Option.isSome_iff_exists.mp h
  simp only [perform, htext, program.new?_eq_ok_reducer]
  cases (program.reducer.reduce fuel).ending with
  | finished result => exact ⟨rfl, rfl⟩
  | suspended config => exact ⟨rfl, rfl⟩
  | fault defect => exact ⟨rfl, rfl⟩

theorem perform_of_eq_none (h : boundText? program.bound limit = none) (console : Console)
    (fuel : Nat)
    : (s.perform console program fuel limit).session = s
        ∧ (s.perform console program fuel limit).ending = .raised (.defect .tooManyDigits) := by
  simp [perform, h]

theorem run_of_error (h : read s.source = .error signal) (console : Console) (fuel : Nat)
    (limit : Option Nat)
    : (s.run console fuel limit).session = s
        ∧ (s.run console fuel limit).ending = .raised signal := by
  rw [read] at h
  simp [run, h]

theorem run_of_ok (h : read s.source = .ok program)
    (hbound : (boundText? program.bound limit).isSome) (console : Console) (fuel : Nat)
    : let reduced := program.reducer.reduce fuel
      let outcome := s.run console fuel limit
      outcome.session
          = { s with parsed := some (program.rewritten fuel), reducer := some reduced.reducer }
        ∧ outcome.ending = Ending.ofReduction reduced.ending := by
  rw [read] at h
  simp only [run, h]
  apply perform_of_isSome hbound

theorem run_of_tooManyDigits (h : read s.source = .ok program)
    (hbound : boundText? program.bound limit = none) (console : Console) (fuel : Nat)
    : let outcome := s.run console fuel limit
      outcome.session = { s with parsed := some program }
        ∧ outcome.ending = .raised (.defect .tooManyDigits) := by
  rw [read] at h
  simp only [run, h]
  apply perform_of_eq_none hbound

theorem exists_token_of_read_error (h : read s.source = .error signal)
    : ∃ t ∈ (tokenize s.source).tokens, ∃ text,
        signal = .complaint { text, position := some t.position } := by
  obtain ⟨body, last, htokens, hlast, _⟩ := exists_tokenize s.source
  rw [read, htokens] at h
  rw [htokens]
  exact exists_mem_of_parse_error hlast h

end Running

/--
Whatever the text, the messages that are pending, and what the session and its console are set to:
if nothing limits the digits of a number, a run raises nothing but a complaint about a token of the
text, or it goes through to the result of a program, or never ends since the program is unbounded.
-/
theorem run_ends (s : Session) (console : Console)
    : (∃ t ∈ (tokenize s.source).tokens, ∃ text, ∀ fuel,
          (s.run console fuel none).ending
            = .raised (.complaint { text, position := some t.position }))
        ∨ ∃ program, read s.source = .ok program
          ∧ ((∃ m result, ∀ fuel, (s.run console fuel none).ending
              = if m ≤ fuel then .finished result else .suspended)
            ∨ (program.complexity = .unbounded
              ∧ ∀ fuel, (s.run console fuel none).ending = .suspended)) := by
  cases hread : read s.source with
  | error signal =>
    obtain ⟨t, ht, text, hsignal⟩ := exists_token_of_read_error hread
    refine .inl ⟨t, ht, text, fun fuel => ?_⟩
    rw [(run_of_error hread console fuel none).2, hsignal]
  | ok program =>
    refine .inr ⟨program, rfl, ?_⟩
    have hending (fuel : Nat) :=
      (run_of_ok hread (boundText?_isSome_of_none program.bound) console fuel).2
    obtain ⟨hunbounded, hsuspended⟩ | ⟨m, result, hsuspended, hfinished⟩ :=
      program.reducer.suspended_or_finished program.bound_isSome
    . refine .inr ⟨hunbounded, fun fuel => ?_⟩
      obtain ⟨config, hconfig⟩ := hsuspended fuel
      rw [hending, hconfig, Ending.ofReduction]
    . refine .inl ⟨m, result, fun fuel => ?_⟩
      rw [hending]
      split
      . next hle => rw [hfinished fuel hle, Ending.ofReduction]
      . next hlt =>
        obtain ⟨config, hconfig⟩ := hsuspended fuel (Nat.lt_of_not_le hlt)
        rw [hconfig, Ending.ofReduction]

end Session

end Combinatory
