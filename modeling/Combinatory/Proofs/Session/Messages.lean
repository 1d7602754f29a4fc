import Combinatory.Proofs.Program.Warnings
import Combinatory.Proofs.Session.History
import Combinatory.Proofs.Session.Report

namespace Combinatory

namespace Console

def messages (c : Console) : List Message :=
  c.printed.toList.filterMap Line.message? ++ c.pending.toList

section Operations

variable (c : Console)

theorem messages_printAll {lines : List Line} (h : lines.filterMap Line.message? = [])
    : (c.printAll lines).messages = c.messages := by
  simp only [messages, toList_printed_printAll, List.filterMap_append, h, List.append_nil,
    pending_printAll]

theorem messages_record (m : Message) : (c.record m).messages = c.messages ++ [m] := by
  simp [messages, record]

theorem messages_flush : c.flush.messages = c.messages := by
  rw [flush_eq_printAll]
  simp [messages, printAll, Line.filterMap_message?_map, -List.filterMap_map]

theorem messages_registerFiring (number : Int) (before after : String)
    : (c.registerFiring number before after).messages = c.messages := by
  unfold registerFiring
  split
  . rfl
  . rw [print_eq_printAll]
    exact messages_printAll c rfl

theorem messages_complain (complaint : Complaint)
    : (c.complain complaint).1.messages = c.messages := by
  rw [complain_eq]
  exact messages_printAll c rfl

theorem messages_guard (raised : Option Signal) : (c.guard raised).1.messages = c.messages := by
  obtain ⟨lines, escaped, hlines, hguard⟩ := exists_guard raised
  rw [hguard]
  exact messages_printAll c hlines

theorem pending_guard (raised : Option Signal) : (c.guard raised).1.pending = c.pending := by
  obtain ⟨lines, escaped, _, hguard⟩ := exists_guard raised
  rw [hguard, pending_printAll]

end Operations

end Console

namespace Session

def recorded (text : String) : List Message :=
  (tokenize text).messages.toList ++ (warnings text).toList

theorem exists_name_of_mem_warnings {text : String} {m : Message} (h : m ∈ warnings text)
    : ∃ name ∈ (tokenize text).tokens, m = name.redefinition := by
  obtain ⟨body, last, htokens, hlast, _⟩ := exists_tokenize text
  rw [warnings, htokens] at h
  obtain ⟨name, hname, hm⟩ := Combinatory.exists_name_of_mem_warnings hlast h
  exact ⟨name, by simp [htokens, hname], hm⟩

section Running

variable {s : Session} {limit : Option Nat} {program : Program}

theorem messages_parsing (s : Session) (console : Console)
    : (s.parsing console).messages = console.messages ++ recorded s.source := by
  have hpreface : s.preface.filterMap Line.message? = [] := filterMap_preface (fun _ => rfl) rfl s
  simp [Console.messages, toList_printed_parsing, pending_parsing, hpreface,
    Line.filterMap_message?_map, recorded, -List.filterMap_map]

theorem console_perform_cases (s : Session) (console : Console) (program : Program) (fuel : Nat)
    (limit : Option Nat)
    : ∃ lines : List Line, lines.filterMap Line.message? = []
        ∧ (s.perform console program fuel limit).console = console.printAll lines := by
  cases hbound : boundText? program.bound limit with
  | none =>
    refine ⟨[], rfl, ?_⟩
    rw [perform_eq_of_eq_none hbound, Console.printAll_nil]
  | some bound =>
    refine ⟨_, filterMap_message?_report console.quiet bound program fuel, ?_⟩
    rw [perform_eq_of_eq_some hbound]

theorem messages_run (s : Session) (console : Console) (fuel : Nat) (limit : Option Nat)
    : (s.run console fuel limit).console.messages = console.messages ++ recorded s.source := by
  cases hread : read s.source with
  | error signal =>
    rw [run_eq_of_error hread]
    exact messages_parsing s console
  | ok program =>
    obtain ⟨lines, hlines, hconsole⟩ := console_perform_cases { s with parsed := some program }
      (s.parsing console).flush program fuel limit
    rw [run_eq_of_ok hread, hconsole, Console.messages_printAll _ hlines, Console.messages_flush,
      messages_parsing]

theorem pending_run_of_error {signal : Signal} (h : read s.source = .error signal)
    (console : Console) (fuel : Nat) (limit : Option Nat)
    : (s.run console fuel limit).console.pending = warnings s.source := by
  rw [run_eq_of_error h]
  exact pending_parsing s console

theorem pending_run_of_ok (h : read s.source = .ok program) (console : Console) (fuel : Nat)
    (limit : Option Nat)
    : (s.run console fuel limit).console.pending = #[] := by
  obtain ⟨lines, _, hconsole⟩ := console_perform_cases { s with parsed := some program }
    (s.parsing console).flush program fuel limit
  rw [run_eq_of_ok h, hconsole, Console.pending_printAll]
  rfl

end Running

structure Settles (limit : Option Nat) (text : String) (o : Outcome) : Prop where
  finished : o.ending.isFinished = true → o.console.pending = #[]
  failed : o.ending.isFinished = false → o.ending ≠ .suspended → fits limit text = true
    → o.console.pending = warnings text
  unfit : fits limit text = false → o.ending.isFinished = false ∧ o.console.pending = #[]

theorem settles_run (s : Session) (console : Console) (fuel : Nat) (limit : Option Nat)
    : Settles limit s.source (s.run console fuel limit) := by
  cases hread : read s.source with
  | error signal =>
    obtain ⟨_, hending⟩ := run_of_error hread console fuel limit
    have hfits : fits limit s.source = true := fits_of_error hread
    constructor
    . simp [hending, Ending.isFinished]
    . intro _ _ _
      exact pending_run_of_error hread console fuel limit
    . simp [hfits]
  | ok program =>
    have hpending := pending_run_of_ok hread console fuel limit
    have hfits : fits limit s.source = _ := fits_of_ok hread
    cases hbound : boundText? program.bound limit with
    | none =>
      obtain ⟨_, hending⟩ := run_of_tooManyDigits hread hbound console fuel
      refine ⟨fun _ => hpending, ?_, fun _ => ⟨by rw [hending]; rfl, hpending⟩⟩
      simp [hfits, hbound]
    | some bound =>
      have hsome : (boundText? program.bound limit).isSome := by rw [hbound]; rfl
      obtain ⟨_, hending⟩ := run_of_ok (s := s) hread hsome console fuel
      obtain ⟨_, hlimit⟩ := Reducer.budget?_isOk (r := program.reducer) program.bound_isSome
      refine ⟨fun _ => hpending, ?_, by simp [hfits, hbound]⟩
      -- A program whose bound is printed comes to its result, if it comes to an end.
      obtain ⟨config, hconfig⟩ | ⟨result, hresult⟩ := Reducer.reduce_cases hlimit fuel
      . simp [hending, hconfig, Ending.ofReduction]
      . simp [hending, hresult, Ending.ofReduction, Ending.isFinished]

theorem Settles.guarded {limit : Option Nat} {text : String} {o : Outcome}
    (h : Settles limit text o)
    : Settles limit text o.guarded := by
  unfold Outcome.guarded
  cases hending : o.ending with
  | raised signal =>
    obtain ⟨_, hfailed, hunfit⟩ := h
    have hpending := o.console.pending_guard (some signal)
    have hescaped (escaped : Option Signal) : (Ending.ofEscaped escaped).isFinished = false := by
      cases escaped <;> rfl
    constructor
    . simp [hescaped]
    . intro _ _ hfits
      exact hpending.trans (hfailed (by rw [hending]; rfl) (by simp [hending]) hfits)
    . intro hfits
      exact ⟨hescaped _, hpending.trans (hunfit hfits).2⟩
  | _ => exact h

theorem messages_guarded (o : Outcome) : o.guarded.console.messages = o.console.messages := by
  unfold Outcome.guarded
  cases o.ending with
  | raised signal => exact o.console.messages_guard (some signal)
  | _ => rfl

end Session

namespace Console

inductive Records (limit : Option Nat) (c : Console) : List Message → Console → Prop where
  | record (m : Message) : Records limit c [m] (c.record m)
  | flush : Records limit c [] c.flush
  | registerFiring (number : Int) (before after : String)
    : Records limit c [] (c.registerFiring number before after)
  | complain (complaint : Complaint) : Records limit c [] (c.complain complaint).1
  | guard (raised : Option Signal) : Records limit c [] (c.guard raised).1
  | run (s : Session) (fuel : Nat) (h : (s.run c fuel limit).ending ≠ .suspended)
    : Records limit c (Session.recorded s.source) (s.run c fuel limit).console
  | runGuarded (s : Session) (fuel : Nat) (h : (s.runGuarded c fuel limit).ending ≠ .suspended)
    : Records limit c (Session.recorded s.source) (s.runGuarded c fuel limit).console

inductive Reaches (limit : Option Nat) : List Message → Console → Prop where
  | start (fatal quiet : Bool) : Reaches limit [] { fatal, quiet }
  | step {recorded ms : List Message} {c c' : Console} (h : Reaches limit recorded c)
    (hrecords : Records limit c ms c') : Reaches limit (recorded ++ ms) c'

section Histories

variable {limit : Option Nat} {recorded ms : List Message} {c c' : Console}

theorem Records.messages (h : Records limit c ms c') : c'.messages = c.messages ++ ms := by
  cases h with
  | record m => exact messages_record c m
  | flush => rw [messages_flush, List.append_nil]
  | registerFiring => rw [messages_registerFiring, List.append_nil]
  | complain => rw [messages_complain, List.append_nil]
  | guard => rw [messages_guard, List.append_nil]
  | run s fuel _ => exact Session.messages_run s c fuel limit
  | runGuarded s fuel _ =>
    rw [Session.runGuarded_eq_guarded, Session.messages_guarded, Session.messages_run]

theorem Reaches.messages (h : Reaches limit recorded c) : c.messages = recorded := by
  induction h with
  | start => rfl
  | step _ hrecords ih => rw [hrecords.messages, ih]

/--
Whatever was done with a console, its messages are those that were recorded, each once and in order:
those that are printed come first, then those that are pending. Behind a run that succeeds none is
pending, and behind one that fails just the warnings are of the definitions it read, provided that
its bound, if any, can be printed. Otherwise the run fails, and none is pending.
-/
theorem messages_in_order (h : Reaches limit recorded c)
    : c.printed.toList.filterMap Line.message? ++ c.pending.toList = recorded
        ∧ ∀ (s : Session) (fuel : Nat),
          Session.Settles limit s.source (s.run c fuel limit)
            ∧ Session.Settles limit s.source (s.runGuarded c fuel limit)
            ∧ ∀ m ∈ Session.warnings s.source,
              ∃ name ∈ (tokenize s.source).tokens, m = name.redefinition := by
  refine ⟨h.messages, fun s fuel => ?_⟩
  have hrun := Session.settles_run s c fuel limit
  refine ⟨hrun, ?_, fun m hm => Session.exists_name_of_mem_warnings hm⟩
  rw [Session.runGuarded_eq_guarded]
  exact hrun.guarded

theorem messages_in_order_of_undefined
    : ∃ c recorded, Reaches (some Numeral.maxDigits) recorded c
        ∧ recorded.map Message.text
          = ["note", "Unexpected symbol: $", "user_combinator C1 redefined"]
        ∧ c.printed.toList.filterMap Line.message? ++ c.pending.toList = recorded
        ∧ c.pending = Session.warnings "inf C1=K C1=S $ ? C2" := by
  let limit := some Numeral.maxDigits
  let note : Message := { severity := .error, text := "note", position := none }
  let s : Session := { source := "inf C1=K C1=S $ ? C2" }
  have hnoted : Reaches limit ([] ++ [note]) (record {} note) :=
    (Reaches.start true false).step (.record note)
  have hundefined : (Session.read s.source).isOk = false := by decide +kernel
  cases hread : Session.read s.source with
  | ok program => simp [hread, Except.isOk, Except.toBool] at hundefined
  | error signal =>
    obtain ⟨_, hending⟩ := Session.run_of_error hread (record {} note) 0 limit
    have hreaches := hnoted.step (.run s 0 (by rw [hending]; simp))
    refine ⟨_, _, hreaches, by decide +kernel, (messages_in_order hreaches).1, ?_⟩
    apply ((messages_in_order hnoted).2 s 0).1.failed
    . rw [hending]
      rfl
    . simp [hending]
    . exact Session.fits_of_error hread

end Histories

end Console

section Overflow

def Rule.constant : Rule where
  name := ⟨['1'], by simp, by simp⟩
  body := [.primitive .K none]
  filled := ⟨by simp, by simp⟩

def Source.redefined (n : Nat) : Source where
  complexity := .exponential
  rules := [.constant, .constant]
  task := (repeated n).task
  task_ne_nil := (repeated n).task_ne_nil
  task_over := by
    intro p hp
    obtain rfl | hp := List.mem_cons.mp hp
    . exact .primitive .K
    . rw [List.eq_of_mem_replicate hp]
      exact .primitive .K

def textRedefined (n : Nat) : String :=
  "expC1=KC1=K?" ++ String.ofList (List.replicate (n + 1) 'K')

theorem Source.lexemes_redefined (n : Nat)
    : (redefined n).lexemes
        = Tag.lexeme (.complexity .exponential)
          :: (Rule.constant.lexemes ++ Rule.constant.lexemes ++ Tag.lexeme .questionSign
            :: List.replicate (n + 1) (Tag.lexeme (.primitive .K))) := by
  simp [lexemes, redefined, repeated, Phrase.lexemesAll_eq_flatMap, Phrase.lexemes,
    List.flatMap_replicate, List.replicate_succ]

theorem Token.definedNames_eq_of_lexemes (ts : List Token)
    : definedNames ts
        = (((ts.map lexeme).takeWhile (·.1 ≠ .questionSign)).filter (·.1 = .name)).map
            Prod.snd := by
  rw [List.takeWhile_map, List.filter_map, List.map_map]
  rfl

theorem write_redefined (n : Nat)
    : (Source.redefined n).write (fun _ => ⟨[], by simp⟩) = textRedefined n := by
  rw [← String.toList_inj, Source.write, layOut_of_forall (by simp), Source.lexemes_redefined]
  simp [textRedefined, Rule.lexemes, Rule.constant, Name.text, Term.phraseAll, Term.phrase,
    Phrase.lexemesAll, Phrase.lexemes, Tag.lexeme, Tag.symbol, List.flatMap_replicate,
    Complexity.word, Combinator.symbol]

namespace Session

theorem exists_read_textRedefined (n : Nat)
    : warnings (textRedefined n) ≠ #[]
        ∧ ∃ program, read (textRedefined n) = .ok program ∧ program.complexity = .exponential
          ∧ n < program.primitives := by
  obtain ⟨body, last, program, htokens, hlast, hbody, hdescribes, hread, hcomplexity⟩ :=
    exists_read_write (Source.redefined n) fun _ => ⟨[], by simp⟩
  have hcount := count_lexemes_le_primitives hbody hdescribes .K
  rw [write_redefined] at hread htokens
  refine ⟨?_, program, hread, hcomplexity, ?_⟩
  . have hnames : Token.definedNames body = ["C1", "C1"] := by
      rw [Token.definedNames_eq_of_lexemes, hbody, Source.lexemes_redefined]
      rfl
    rw [read, htokens] at hread
    obtain ⟨ms, hms⟩ := exists_warnings_eq_some body hlast
    rw [warnings, htokens, hms, Option.getD_some]
    rintro rfl
    have := (warnings_eq_empty_iff hlast hdescribes).mp hms
    simp [hnames] at this
  . have hmembers : n < ((Source.redefined n).lexemes.map Prod.fst).count (.primitive .K) := by
      simp [Source.lexemes_redefined, Tag.lexeme, List.count_append]
      omega
    exact Nat.lt_of_lt_of_le hmembers hcount

theorem pending_run_of_tooManyDigits {text : String} {limit : Option Nat} {program : Program}
    (hread : read text = .ok program) (hbound : boundText? program.bound limit = none)
    : let o := run { source := text } {} 0 limit
      o.ending = .raised (.defect .tooManyDigits) ∧ o.console.pending = #[] := by
  let s : Session := { source := text }
  have hpending := pending_run_of_ok (s := s) hread {} 0 limit
  exact ⟨(run_of_tooManyDigits (s := s) hread hbound {} 0).2, hpending⟩

theorem exists_warnings_printed
    : let o := run { source := textRedefined 14283 } {} 0 (some Numeral.maxDigits)
      o.ending = .raised (.defect .tooManyDigits) ∧ o.console.pending = #[]
        ∧ warnings (textRedefined 14283) ≠ #[] := by
  obtain ⟨hwarnings, program, hread, hcomplexity, hprimitives⟩ := exists_read_textRedefined 14283
  have hbound := boundText?_eq_none_of_le hcomplexity (pow_maxDigits_le hprimitives)
  obtain ⟨hending, hpending⟩ := pending_run_of_tooManyDigits hread hbound
  exact ⟨hending, hpending, hwarnings⟩

end Session

end Overflow

end Combinatory
