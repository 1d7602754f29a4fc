import Combinatory.Proofs.Session.Report
import Combinatory.Proofs.Token.Recovery

namespace Combinatory

structure Console.Omits (lines : List Line) (c c' : Console) : Prop where
  fatal : c'.fatal = c.fatal
  quiet : c'.quiet = c.quiet
  pending : c'.pending = c.pending
  printed : ∃ before after, c.printed.toList = before ++ lines ++ after
    ∧ c'.printed.toList = before ++ after

namespace Console.Omits

variable {lines : List Line} {c c' : Console} (h : Omits lines c c')

include h

theorem printAll (others : List Line) : Omits lines (c.printAll others) (c'.printAll others) := by
  obtain ⟨before, after, hc, hc'⟩ := h.printed
  exact ⟨h.fatal, h.quiet, h.pending, before, after ++ others, by simp [hc], by simp [hc']⟩

theorem flush : Omits lines c.flush c'.flush := by
  rw [flush_eq_printAll, flush_eq_printAll, h.pending]
  apply printAll
  exact ⟨h.fatal, h.quiet, rfl, h.printed⟩

theorem guard (raised : Option Signal)
    : (c'.guard raised).2 = (c.guard raised).2
        ∧ Omits lines (c.guard raised).1 (c'.guard raised).1 := by
  obtain ⟨others, escaped, _, hguard⟩ := exists_guard raised
  rw [hguard, hguard, h.fatal]
  exact ⟨rfl, h.printAll others⟩

end Console.Omits

namespace Session

structure Outcome.Omits (lines : List Line) (text : String) (o o' : Outcome) : Prop where
  ending : o'.ending = o.ending
  session : o'.session = { o.session with source := text }
  console : o.console.Omits lines o'.console

section Running

variable {s : Session} {lines : List Line} {console console' : Console}

theorem omits_perform (h : console.Omits lines console') (s : Session) (text : String)
    (program : Program) (fuel : Nat) (limit : Option Nat)
    : (s.perform console program fuel limit).Omits lines text
        (perform { s with source := text } console' program fuel limit) := by
  cases hbound : boundText? program.bound limit with
  | none =>
    rw [perform_eq_of_eq_none hbound, perform_eq_of_eq_none hbound]
    exact ⟨rfl, rfl, h⟩
  | some bound =>
    rw [perform_eq_of_eq_some hbound, perform_eq_of_eq_some hbound, h.quiet]
    exact ⟨rfl, rfl, h.printAll _⟩

theorem read_blanked (text : String) : read (blanked text) = read text := by
  rw [read, read, tokenize_blanked]

theorem omits_parsing (s : Session) (console : Console)
    : (s.parsing console).Omits ((tokenize s.source).messages.toList.map .message)
        (parsing { s with source := blanked s.source } console) := by
  have hwarnings : warnings (blanked s.source) = warnings s.source := by
    rw [warnings, warnings, tokenize_blanked]
  constructor
  . rw [fatal_parsing, fatal_parsing]
  . rw [quiet_parsing, quiet_parsing]
  . rw [pending_parsing, pending_parsing, hwarnings]
  . refine ⟨console.printed.toList ++ s.preface ++ console.pending.toList.map .message, [], ?_, ?_⟩
    . simp [toList_printed_parsing]
    . simp [toList_printed_parsing, preface, tokenize_blanked]

theorem omits_run (s : Session) (console : Console) (fuel : Nat) (limit : Option Nat)
    : (s.run console fuel limit).Omits ((tokenize s.source).messages.toList.map .message)
        (blanked s.source)
        (run { s with source := blanked s.source } console fuel limit) := by
  let s' : Session := { s with source := blanked s.source }
  have hparsing := omits_parsing s console
  have hread : read s'.source = read s.source := read_blanked s.source
  cases hsource : read s.source with
  | error signal =>
    rw [run_eq_of_error hsource, run_eq_of_error (s := s') (hread.trans hsource)]
    exact ⟨rfl, rfl, hparsing⟩
  | ok program =>
    rw [run_eq_of_ok hsource, run_eq_of_ok (s := s') (hread.trans hsource)]
    exact omits_perform hparsing.flush { s with parsed := some program } _ program fuel limit

theorem Outcome.Omits.guarded {o o' : Outcome} {text : String} (h : o.Omits lines text o')
    : o.guarded.Omits lines text o'.guarded := by
  unfold Outcome.guarded
  rw [h.ending]
  cases o.ending with
  | raised signal =>
    obtain ⟨hescaped, hguarded⟩ := h.console.guard (some signal)
    exact ⟨congrArg Ending.ofEscaped hescaped, h.session, hguarded⟩
  | _ => exact h

/--
With a space in place of everything that the scanner reports, a text has the same tokens and nothing
is reported of it. It is read as the same program, or has the same fault, and its runs, within a
guard or without, come to the same: what they print differs in the messages of the scanner only.
-/
theorem blanked_runs_alike (text : String)
    : tokenize (blanked text) = { tokens := (tokenize text).tokens, messages := #[] }
        ∧ read (blanked text) = read text
        ∧ ∀ (s : Session) (console : Console) (fuel : Nat) (limit : Option Nat),
          let lines := (tokenize text).messages.toList.map .message
          let run source := run { s with source } console fuel limit
          let runGuarded source := runGuarded { s with source } console fuel limit
          (run text).Omits lines (blanked text) (run (blanked text))
            ∧ (runGuarded text).Omits lines (blanked text) (runGuarded (blanked text)) := by
  refine ⟨tokenize_blanked text, read_blanked text, fun s console fuel limit => ?_⟩
  have hrun := omits_run { s with source := text } console fuel limit
  refine ⟨hrun, ?_⟩
  dsimp only
  rw [runGuarded_eq_guarded, runGuarded_eq_guarded]
  exact hrun.guarded

end Running

end Session

end Combinatory
