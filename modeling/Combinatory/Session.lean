import Combinatory.Program.Parser
import Combinatory.Reduction.Origin
import Combinatory.Report.Console
import Combinatory.Text.Newline
import Combinatory.Text.Numeral
import Combinatory.Token.Echo
import Combinatory.Token.Scanner

namespace Combinatory

abbrev Files := String → Option (List UInt8)

/--
A program text, whether it is echoed when it is run, and what the runs so far left: the program of
the last text that parsed, with its task as it was left by a reduction, and the reducer of the last
program that was reduced.
-/
structure Session where
  source : String
  echoes : Bool := false
  parsed : Option Program := none
  reducer : Option Reducer := none

namespace Session

def load (files : Files) (path : String) : Except Signal String :=
  if path.contains '\x00' then
    .error (.defect .nullInPath)
  else
    match files path with
    | none => .error (.complaint { text := "'" ++ path ++ "' could not be opened" })
    | some bytes =>
      match Utf8.decode bytes with
      | .error fault => .error (.defect (.notText fault))
      | .ok text => .ok (String.ofList (Newline.normalise text))

def open? (files : Files) (source path : Option String) (echoes : Bool) : Except Signal Session :=
  match source, path with
  | some source, _ => .ok { source, echoes }
  | none, some path =>
    match load files path with
    | .ok source => .ok { source, echoes }
    | .error signal => .error signal
  | none, none => .error (.defect .sourceMissing)

def steps (s : Session) : Int :=
  match s.reducer with
  | some r => r.steps
  | none => 0

def result? (s : Session) : Option String :=
  s.reducer.map Reducer.text

inductive Ending where
  | finished (result : List Term)
  | raised (signal : Signal)
  | held
  | suspended

structure Outcome where
  console : Console
  session : Session
  ending : Ending

def boundText? (bound : Option Int) (limit : Option Nat) : Option String :=
  match bound with
  | none => some "infinity"
  | some bound => Numeral.text? bound limit

def registerAll (c : Console) (trace : Array Reduction.Firing) : Console :=
  trace.foldl (fun c f => c.registerFiring f.number (render f.before) (render f.after)) c

def perform (s : Session) (console : Console) (program : Program) (fuel : Nat) (limit : Option Nat)
    : Outcome :=
  match boundText? program.bound limit with
  | none => { console, session := s, ending := .raised (.defect .tooManyDigits) }
  | some bound =>
    let console := console.print (.maximum bound)
    let console := console.print (.start (render program.task))
    let console := console.print .blank
    match Reducer.new? program.task program.complexity program.bound with
    | .error defect => { console, session := s, ending := .raised (.defect defect) }
    | .ok reducer =>
      let reduced := reducer.reduce fuel
      -- The groups of the task are reduced where they stand.
      let parsed := { program with task := reducer.rewritten fuel }
      let s := { s with parsed := some parsed, reducer := some reduced.reducer }
      let console := registerAll console reduced.trace
      match reduced.ending with
      | .fault defect => { console, session := s, ending := .raised (.defect defect) }
      | .suspended _ => { console, session := s, ending := .suspended }
      | .finished result =>
        let console := console.print .blank
        let console := console.print (.count reduced.reducer.steps)
        let console := console.print (.result (render result))
        { console, session := s, ending := .finished result }

/--
Runs the program text. Messages on its characters are printed before it is parsed, warnings of a
parse that fails stay pending. The bound of the program is printed if its digits are within `limit`.
How deep terms may be nested, and what a terminal can show, is not limited: no run raises
`Signal.tooDeep`, and none fails as it prints.
-/
def run (s : Session) (console : Console) (fuel : Nat)
    (limit : Option Nat := some Numeral.maxDigits) : Outcome :=
  let scanned := tokenize s.source
  let console := console.recordAll scanned.messages
  let console :=
    if s.echoes then
      console.print (.echo (echo (scanned.tokens.map Token.tag))) |>.print .blank
    else
      console
  let console := console.flush
  let parsed := parse scanned.tokens true
  let console := console.recordAll (parsed.warnings.getD #[])
  match parsed.result with
  | .error signal => { console, session := s, ending := .raised signal }
  | .ok program => perform { s with parsed := some program } console.flush program fuel limit

def runGuarded (s : Session) (console : Console) (fuel : Nat)
    (limit : Option Nat := some Numeral.maxDigits) : Outcome :=
  let outcome := s.run console fuel limit
  match outcome.ending with
  | .raised signal =>
    match outcome.console.guard (some signal) with
    | (console, some escaped) => { outcome with console, ending := .raised escaped }
    | (console, none) => { outcome with console, ending := .held }
  | _ => outcome

end Session

end Combinatory
