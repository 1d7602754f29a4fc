import Combinatory.Proofs.Program.Relocation
import Combinatory.Proofs.Reduction.Origin
import Combinatory.Proofs.Session.Report

namespace Combinatory

section

variable (φ : Position → Position)

def Line.relocate : Line → Line
  | .message m => .message (m.relocate φ)
  | .complaint c => .complaint (c.relocate φ)
  | line => line

end

namespace Console

variable (φ : Position → Position)

def relocate (c : Console) : Console :=
  { c with
    pending := c.pending.map (Message.relocate φ)
    printed := c.printed.map (Line.relocate φ) }

theorem printAll_relocate (c : Console) (lines : List Line)
    : (c.printAll lines).relocate φ = (c.relocate φ).printAll (lines.map (Line.relocate φ)) := by
  simp [relocate, printAll, ← Array.toList_inj]

theorem flush_relocate (c : Console) : (c.relocate φ).flush = c.flush.relocate φ := by
  simp [relocate, flush, Function.comp_def, Line.relocate]

theorem exit?_relocate (fatal : Bool)
    : (exit? fatal).map (Signal.relocate φ) = exit? fatal := by
  cases fatal <;> rfl

theorem complain_relocate (c : Console) (complaint : Complaint)
    : (c.relocate φ).complain (complaint.relocate φ)
        = Prod.map (relocate φ) (Option.map (Signal.relocate φ)) (c.complain complaint) := by
  rw [complain_eq, complain_eq, Prod.map, printAll_relocate, exit?_relocate]
  rfl

theorem complainUnknown_relocate (c : Console) (className text : String) {signal : Signal}
    (h : signal.relocate φ = signal)
    : (c.relocate φ).complainUnknown className text signal
        = Prod.map (relocate φ) (Option.map (Signal.relocate φ))
            (c.complainUnknown className text signal) := by
  have hescaped : (exit? c.fatal <|> some signal).map (Signal.relocate φ)
      = (exit? c.fatal <|> some signal) := by
    cases c.fatal with
    | false => exact congrArg some h
    | true => rfl
  rw [complainUnknown_eq, complainUnknown_eq, Prod.map, printAll_relocate, hescaped]
  rfl

theorem guard_relocate (c : Console) (signal : Signal)
    : (c.relocate φ).guard (some (signal.relocate φ))
        = Prod.map (relocate φ) (Option.map (Signal.relocate φ)) (c.guard (some signal)) := by
  -- Only a complaint has a place. What the other signals are told with has none either.
  cases signal with
  | complaint complaint => exact complain_relocate φ c complaint
  | interrupted => exact complain_relocate φ c { text := "keyboard interrupt" }
  | tooDeep =>
    exact complain_relocate φ c
      { text := "term is nested too deeply, maximum recursion depth exceeded" }
  | exit status => rfl
  | defect defect => exact complainUnknown_relocate φ c _ _ rfl
  | foreign className text => exact complainUnknown_relocate φ c _ _ rfl

end Console

namespace Session

variable (φ : Position → Position) (text : String)

def relocate (s : Session) : Session :=
  { s with
    source := text
    parsed := s.parsed.map (Program.relocate φ)
    reducer := s.reducer.map (Reducer.mapSpans (.relocating φ)) }

def Ending.relocate : Ending → Ending
  | .finished result => .finished (result.map (Term.mapSpans (.relocating φ)))
  | .raised signal => .raised (signal.relocate φ)
  | ending => ending

def Outcome.relocate (o : Outcome) : Outcome where
  console := o.console.relocate φ
  session := o.session.relocate φ text
  ending := o.ending.relocate φ

theorem Outcome.guarded_relocate (o : Outcome)
    : (o.relocate φ text).guarded = o.guarded.relocate φ text := by
  obtain ⟨c, s, ending⟩ := o
  cases ending with
  | raised signal =>
    have hguard := c.guard_relocate φ signal
    simp only [guarded, relocate, Ending.relocate, hguard]
    obtain ⟨c, _ | escaped⟩ := c.guard (some signal)
    . rfl
    . rfl
  | _ => rfl

theorem firings_mapSpans (g : SpanMap) (quiet : Bool) (trace : List Reduction.Firing)
    : firings quiet (trace.map (Reduction.Firing.mapSpans g)) = firings quiet trace := by
  simp [firings, Function.comp_def]

theorem firings_relocate (quiet : Bool) (trace : List Reduction.Firing)
    : (firings quiet trace).map (Line.relocate φ) = firings quiet trace := by
  unfold firings
  split
  . rfl
  . simp [Function.comp_def, Line.relocate]

theorem report_relocate (quiet : Bool) (bound : String) (program : Program) (fuel : Nat)
    : report quiet bound (program.relocate φ) fuel
        = (report quiet bound program fuel).map (Line.relocate φ) := by
  have hreduce := program.reducer.reduce_mapSpans (.relocating φ) fuel
  have hreducer : (program.relocate φ).reducer = program.reducer.mapSpans (.relocating φ) := rfl
  have htask : render (program.relocate φ).task = render program.task :=
    render_map_mapSpans _ program.task
  rw [← hreducer] at hreduce
  unfold report
  rw [hreduce, htask]
  simp only [Reducer.Reduced.mapSpans, Array.toList_map, firings_mapSpans, List.map_append,
    firings_relocate]
  congr 1
  cases (program.reducer.reduce fuel).ending with
  | finished result => simp [conclusion, Line.relocate, Reducer.mapSpans]
  | _ => rfl

theorem rewritten_relocate (program : Program) (fuel : Nat)
    : (program.relocate φ).rewritten fuel = (program.rewritten fuel).relocate φ := by
  have htask := program.reducer.rewritten_mapSpans (.relocating φ) fuel
  have hreducer : (program.relocate φ).reducer = program.reducer.mapSpans (.relocating φ) := rfl
  rw [Program.rewritten, hreducer, htask]
  rfl

theorem perform_relocate (s : Session) (console : Console) (program : Program) (fuel : Nat)
    (limit : Option Nat)
    : (s.relocate φ text).perform (console.relocate φ) (program.relocate φ) fuel limit
        = (s.perform console program fuel limit).relocate φ text := by
  have hbound : (program.relocate φ).bound = program.bound := rfl
  cases htext : boundText? program.bound limit with
  | none =>
    rw [perform_eq_of_eq_none htext, perform_eq_of_eq_none (by rwa [hbound])]
    rfl
  | some bound =>
    have hreduce := program.reducer.reduce_mapSpans (.relocating φ) fuel
    have hreducer : (program.relocate φ).reducer = program.reducer.mapSpans (.relocating φ) := rfl
    have hending (ending : Reduction.Ending)
        : Ending.ofReduction (ending.mapSpans (.relocating φ))
          = (Ending.ofReduction ending).relocate φ := by
      cases ending <;> rfl
    rw [perform_eq_of_eq_some htext, perform_eq_of_eq_some (by rwa [hbound]), report_relocate,
      rewritten_relocate, hreducer, hreduce, Outcome.relocate, Console.printAll_relocate, ← hending]
    rfl

section Texts

variable {φ : Position → Position} {text text' : String}

structure Relocates (φ : Position → Position) (text text' : String) : Prop where
  tokens : (tokenize text').tokens.map (Token.relocate φ)
    = (tokenize text).tokens.map (Token.relocate φ)
  messages : (tokenize text').messages.map (Message.relocate φ)
    = (tokenize text).messages.map (Message.relocate φ)

namespace Relocates

variable (h : Relocates φ text text')

include h

theorem map_tag : (tokenize text').tokens.map Token.tag = (tokenize text).tokens.map Token.tag := by
  rw [← Token.map_tag_relocate φ, h.tokens, Token.map_tag_relocate]

theorem parse
    : (parse (tokenize text').tokens true).relocate φ
        = (parse (tokenize text).tokens true).relocate φ := by
  rw [← parse_relocate, h.tokens, parse_relocate]

theorem warnings
    : (warnings text').map (Message.relocate φ) = (warnings text).map (Message.relocate φ) := by
  have hwarnings := congrArg (fun parsed => parsed.warnings.getD #[]) h.parse
  have hgetD (ms : Option (Array Message))
      : (ms.map (Array.map (Message.relocate φ))).getD #[]
        = (ms.getD #[]).map (Message.relocate φ) := by
    cases ms <;> simp
  simp only [Parsed.relocate, hgetD] at hwarnings
  exact hwarnings

theorem read_cases
    : (∃ signal signal', read text = .error signal ∧ read text' = .error signal'
          ∧ signal'.relocate φ = signal.relocate φ)
        ∨ ∃ program program', read text = .ok program ∧ read text' = .ok program'
          ∧ program'.relocate φ = program.relocate φ := by
  have hresult
      : ((read text').map (Program.relocate φ)).mapError (Signal.relocate φ)
        = ((read text).map (Program.relocate φ)).mapError (Signal.relocate φ) :=
    congrArg Parsed.result h.parse
  cases hread : read text with
  | error signal =>
    cases hread' : read text' with
    | error signal' =>
      rw [hread, hread'] at hresult
      exact .inl ⟨signal, signal', rfl, rfl, Except.error.inj hresult⟩
    | ok program' => simp [hread, hread', Except.map, Except.mapError] at hresult
  | ok program =>
    cases hread' : read text' with
    | error signal' => simp [hread, hread', Except.map, Except.mapError] at hresult
    | ok program' =>
      rw [hread, hread'] at hresult
      exact .inr ⟨program, program', rfl, rfl, Except.ok.inj hresult⟩

theorem parsing (s : Session) (console : Console)
    : (parsing { s with source := text' } console).relocate φ
        = (Session.parsing { s with source := text } console).relocate φ := by
  have hpreface : preface { s with source := text' } = preface { s with source := text } := by
    unfold preface
    rw [h.map_tag]
  have hmessages := congrArg Array.toList h.messages
  rw [Array.toList_map, Array.toList_map] at hmessages
  have hprinted (ms : List Message) : (ms.map Line.message).map (Line.relocate φ)
      = (ms.map (Message.relocate φ)).map Line.message := by
    simp [Function.comp_def, Line.relocate]
  unfold Session.parsing
  rw [hpreface]
  simp only [Console.relocate, Console.printAll, h.warnings, List.map_append]
  simp [← Array.toList_inj, hprinted, hmessages]

end Relocates

theorem run_congr_relocate (h : Relocates φ text text') (s : Session) (console : Console)
    (fuel : Nat) (limit : Option Nat) (source : String)
    : (run { s with source := text' } console fuel limit).relocate φ source
        = (run { s with source := text } console fuel limit).relocate φ source := by
  have hparsing := h.parsing s console
  obtain ⟨signal, signal', hread, hread', hsignal⟩ | ⟨program, program', hread, hread', hprogram⟩ :=
    h.read_cases
  . rw [run_eq_of_error (s := { s with source := text' }) hread',
      run_eq_of_error (s := { s with source := text }) hread]
    simp only [Outcome.relocate, hparsing, Ending.relocate, hsignal]
    rfl
  . have hflush : (Session.parsing { s with source := text' } console).flush.relocate φ
        = (Session.parsing { s with source := text } console).flush.relocate φ := by
      rw [← Console.flush_relocate, hparsing, Console.flush_relocate]
    have hsession : relocate φ source { s with source := text', parsed := some program' }
        = relocate φ source { s with source := text, parsed := some program } := by
      simp only [relocate, Option.map_some, hprogram]
    rw [run_eq_of_ok (s := { s with source := text' }) hread',
      run_eq_of_ok (s := { s with source := text }) hread, ← perform_relocate, ← perform_relocate,
      hflush, hprogram, hsession]

end Texts

end Session

end Combinatory
