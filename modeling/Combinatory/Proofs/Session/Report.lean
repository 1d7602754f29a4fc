import Combinatory.Proofs.Session.Ending

/-!
What a run prints, line by line. A run prints a preface and the messages that are pending; if its
text is read as a program, the report of its reduction follows: `run_eq_of_error`, `run_eq_of_ok`,
`perform_eq_of_eq_some`. A guard adds the line of a complaint at most: `exists_guard`.
-/

namespace Combinatory

namespace Line

def message? : Line → Option Message
  | .message m => some m
  | _ => none

theorem filterMap_message?_map (ms : List Message) : (ms.map message).filterMap message? = ms := by
  rw [List.filterMap_map]
  exact List.filterMap_some

end Line

namespace Console

def printAll (c : Console) (lines : List Line) : Console :=
  { c with printed := c.printed ++ lines }

section PrintAll

variable (c : Console) (lines others : List Line)

@[simp]
theorem fatal_printAll : (c.printAll lines).fatal = c.fatal := rfl

@[simp]
theorem quiet_printAll : (c.printAll lines).quiet = c.quiet := rfl

@[simp]
theorem pending_printAll : (c.printAll lines).pending = c.pending := rfl

@[simp]
theorem toList_printed_printAll
    : (c.printAll lines).printed.toList = c.printed.toList ++ lines := by
  simp [printAll]

@[simp]
theorem printAll_nil : c.printAll [] = c := by
  simp [printAll]

@[simp]
theorem printAll_printAll : (c.printAll lines).printAll others = c.printAll (lines ++ others) := by
  simp [printAll, ← Array.toList_inj]

theorem print_eq_printAll (line : Line) : c.print line = c.printAll [line] := by
  simp [print, printAll]

theorem flush_eq_printAll
    : c.flush = { c with pending := #[] }.printAll (c.pending.toList.map .message) := by
  simp [flush, printAll, ← Array.toList_inj]

theorem toList_printed_flush
    : c.flush.printed.toList = c.printed.toList ++ c.pending.toList.map .message := by
  rw [flush_eq_printAll, toList_printed_printAll]

end PrintAll

section Guards

def exit? (fatal : Bool) : Option Signal :=
  if fatal then some (.exit (.number 1)) else none

theorem complain_eq (c : Console) (complaint : Complaint)
    : c.complain complaint = (c.printAll [.complaint complaint], exit? c.fatal) := by
  rw [complain, print_eq_printAll]
  rfl

theorem complainUnknown_eq (c : Console) (className text : String) (signal : Signal)
    : c.complainUnknown className text signal
        = (c.printAll
            [.complaint ⟨"unknown error: '" ++ className ++ ": " ++ text ++ "'", none, true⟩],
          exit? c.fatal <|> some signal) := by
  rw [complainUnknown, complain_eq]

theorem exists_guard (raised : Option Signal)
    : ∃ (lines : List Line) (escaped : Bool → Option Signal),
        lines.filterMap Line.message? = []
          ∧ ∀ c : Console, c.guard raised = (c.printAll lines, escaped c.fatal) := by
  match raised with
  | none => exact ⟨[], fun _ => none, rfl, fun c => by rw [printAll_nil, guard]⟩
  | some (.exit status) =>
    exact ⟨[], fun _ => some (.exit status), rfl, fun c => by rw [printAll_nil, guard]⟩
  | some (.complaint complaint) =>
    exact ⟨[.complaint complaint], exit?, rfl, fun c => complain_eq c complaint⟩
  | some .interrupted => exact ⟨[.complaint _], exit?, rfl, fun c => complain_eq c _⟩
  | some .tooDeep => exact ⟨[.complaint _], exit?, rfl, fun c => complain_eq c _⟩
  | some (.defect defect) =>
    exact ⟨[.complaint _], fun fatal => exit? fatal <|> some (Signal.defect defect), rfl,
      fun c => complainUnknown_eq c defect.className defect.text (.defect defect)⟩
  | some (.foreign className text) =>
    exact ⟨[.complaint _], fun fatal => exit? fatal <|> some (Signal.foreign className text), rfl,
      fun c => complainUnknown_eq c className text (.foreign className text)⟩

end Guards

end Console

namespace Session

def warnings (text : String) : Array Message :=
  (parse (tokenize text).tokens true).warnings.getD #[]

def preface (s : Session) : List Line :=
  if s.echoes then [.echo (echo ((tokenize s.source).tokens.map Token.tag)), .blank] else []

def parsing (s : Session) (console : Console) : Console :=
  let messages := console.pending.toList ++ (tokenize s.source).messages.toList
  { console.printAll (s.preface ++ messages.map .message) with pending := warnings s.source }

section Parsing

variable (s : Session) (console : Console)

theorem fatal_parsing : (s.parsing console).fatal = console.fatal := rfl

theorem quiet_parsing : (s.parsing console).quiet = console.quiet := rfl

theorem pending_parsing : (s.parsing console).pending = warnings s.source := rfl

theorem toList_printed_parsing
    : (s.parsing console).printed.toList
        = console.printed.toList ++ s.preface
          ++ (console.pending.toList ++ (tokenize s.source).messages.toList).map .message := by
  simp [parsing, Console.printAll]

end Parsing

def firings (quiet : Bool) (trace : List Reduction.Firing) : List Line :=
  if quiet then [] else trace.map fun f => .firing f.number (render f.before) (render f.after)

def conclusion (steps : Int) : Reduction.Ending → List Line
  | .finished result => [.blank, .count steps, .result (render result)]
  | _ => []

def report (quiet : Bool) (bound : String) (program : Program) (fuel : Nat) : List Line :=
  let reduced := program.reducer.reduce fuel
  [.maximum bound, .start (render program.task), .blank] ++ firings quiet reduced.trace.toList
    ++ conclusion reduced.reducer.steps reduced.ending

section Lines

variable {α : Type} {f : Line → Option α}

theorem filterMap_preface (hecho : ∀ text, f (.echo text) = none) (hblank : f .blank = none)
    (s : Session)
    : s.preface.filterMap f = [] := by
  unfold preface
  split
  . simp [hecho, hblank]
  . rfl

theorem filterMap_firings (h : ∀ number before after, f (.firing number before after) = none)
    (quiet : Bool) (trace : List Reduction.Firing)
    : (firings quiet trace).filterMap f = [] := by
  unfold firings
  split
  . rfl
  . simp [h]

theorem filterMap_conclusion (hblank : f .blank = none) (hcount : ∀ steps, f (.count steps) = none)
    (hresult : ∀ task, f (.result task) = none) (steps : Int) (ending : Reduction.Ending)
    : (conclusion steps ending).filterMap f = [] := by
  cases ending <;> simp [conclusion, hblank, hcount, hresult]

theorem filterMap_message?_report (quiet : Bool) (bound : String) (program : Program) (fuel : Nat)
    : (report quiet bound program fuel).filterMap Line.message? = [] := by
  rw [report, List.filterMap_append, List.filterMap_append, filterMap_firings fun _ _ _ => rfl,
    filterMap_conclusion rfl (fun _ => rfl) fun _ => rfl]
  rfl

end Lines

section Running

variable {s : Session} {limit : Option Nat} {signal : Signal} {program : Program}

theorem registerAll_eq_printAll (c : Console) (trace : Array Reduction.Firing)
    : registerAll c trace = c.printAll (firings c.quiet trace.toList) := by
  rw [registerAll, ← Array.foldl_toList]
  generalize trace.toList = trace
  induction trace generalizing c with
  | nil => simp [firings]
  | cons f trace ih =>
    rw [List.foldl_cons, ih]
    unfold Console.registerFiring firings
    cases hquiet : c.quiet with
    | true => simp [hquiet]
    | false => simp [hquiet, Console.print_eq_printAll]

theorem perform_eq_of_eq_some {bound : String}
    (h : boundText? program.bound limit = some bound) (s : Session) (console : Console) (fuel : Nat)
    : s.perform console program fuel limit
        = { console := console.printAll (report console.quiet bound program fuel)
            session :=
              { s with
                parsed := some (program.rewritten fuel)
                reducer := some (program.reducer.reduce fuel).reducer }
            ending := .ofReduction (program.reducer.reduce fuel).ending } := by
  simp only [perform, h, program.new?_eq_ok_reducer, Console.print_eq_printAll,
    registerAll_eq_printAll, report]
  cases (program.reducer.reduce fuel).ending <;>
    simp [conclusion, Ending.ofReduction, Program.rewritten, Program.reducer]

theorem perform_eq_of_eq_none (h : boundText? program.bound limit = none) (s : Session)
    (console : Console) (fuel : Nat)
    : s.perform console program fuel limit = ⟨console, s, .raised (.defect .tooManyDigits)⟩ := by
  simp [perform, h]

theorem run_eq_parsing (s : Session) (console : Console) (fuel : Nat) (limit : Option Nat)
    : s.run console fuel limit
        = match read s.source with
          | .error signal => ⟨s.parsing console, s, .raised signal⟩
          | .ok program =>
            let console := (s.parsing console).flush
            perform { s with parsed := some program } console program fuel limit := by
  have hparsing : s.parsing console
      = ((if s.echoes then
          ((console.recordAll (tokenize s.source).messages).print
            (.echo (echo ((tokenize s.source).tokens.map Token.tag)))).print .blank
        else
          console.recordAll (tokenize s.source).messages).flush).recordAll (warnings s.source) := by
    unfold parsing preface
    split <;>
      simp [Console.print, Console.flush, Console.recordAll, Console.printAll, ← Array.toList_inj]
  rw [run, hparsing]
  rfl

theorem run_eq_of_error (h : read s.source = .error signal) (console : Console) (fuel : Nat)
    (limit : Option Nat)
    : s.run console fuel limit = ⟨s.parsing console, s, .raised signal⟩ := by
  rw [run_eq_parsing, h]

theorem run_eq_of_ok (h : read s.source = .ok program) (console : Console) (fuel : Nat)
    (limit : Option Nat)
    : s.run console fuel limit
        = perform { s with parsed := some program } (s.parsing console).flush program fuel
            limit := by
  rw [run_eq_parsing, h]

end Running

section Guarding

def Ending.ofEscaped : Option Signal → Ending
  | some signal => .raised signal
  | none => .held

def Outcome.guarded (o : Outcome) : Outcome :=
  match o.ending with
  | .raised signal =>
    let (console, escaped) := o.console.guard (some signal)
    { o with console, ending := .ofEscaped escaped }
  | _ => o

theorem runGuarded_eq_guarded (s : Session) (console : Console) (fuel : Nat) (limit : Option Nat)
    : s.runGuarded console fuel limit = (s.run console fuel limit).guarded := by
  dsimp only [runGuarded]
  obtain ⟨c, s, ending⟩ := s.run console fuel limit
  cases ending with
  | raised signal =>
    dsimp only [Outcome.guarded]
    obtain ⟨c, _ | escaped⟩ := c.guard (some signal)
    . rfl
    . rfl
  | _ => rfl

section Cases

variable {o : Outcome}

theorem Outcome.guarded_of_complaint {complaint : Complaint}
    (h : o.ending = .raised (.complaint complaint))
    : o.guarded
        = { o with
            console := o.console.printAll [.complaint complaint]
            ending := .ofEscaped (Console.exit? o.console.fatal) } := by
  simp only [guarded, h, Console.guard, Console.complain_eq]

theorem Outcome.ending_guarded_of_defect {defect : Defect} (h : o.ending = .raised (.defect defect))
    : o.guarded.ending
        = .ofEscaped (Console.exit? o.console.fatal <|> some (Signal.defect defect)) := by
  simp only [guarded, h, Console.guard, Console.complainUnknown_eq]

theorem Outcome.guarded_of_ne_raised (h : ∀ signal, o.ending ≠ .raised signal) : o.guarded = o := by
  unfold guarded
  split
  . next hending => exact absurd hending (h _)
  . rfl

end Cases

end Guarding

end Session

end Combinatory
