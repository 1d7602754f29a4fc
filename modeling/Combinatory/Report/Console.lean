import Combinatory.Report.Signal

namespace Combinatory

inductive Line where
  | blank
  | echo (text : String)
  | message (message : Message)
  | maximum (bound : String)
  | start (task : String)
  | firing (number : Int) (before after : String)
  | count (steps : Int)
  | result (task : String)
  | complaint (complaint : Complaint)
  deriving DecidableEq

namespace Line

inductive Tint where
  | red
  | magenta

def paint (colored : Bool) (tint : Tint) (word : String) : String :=
  if colored then
    let code :=
      match tint with
      | .red => "\x1b[31m"
      | .magenta => "\x1b[35m"
    "\x1b[1m" ++ code ++ word ++ "\x1b[0m"
  else
    word

def paintSeverity (colored : Bool) (severity : Severity) : String :=
  match severity with
  | .error => paint colored .red severity.text
  | .warning => paint colored .magenta severity.text

def complaintText (colored : Bool) (c : Complaint) : String :=
  let mark := paint colored .red "ERROR"
  if c.internal then
    paint colored .red "[internal] " ++ mark ++ ": " ++ c.text
  else
    match c.position with
    | some p => mark ++ p.text ++ ": " ++ c.text
    | none => mark ++ ": " ++ c.text

def text (colored : Bool) : Line → String
  | .blank => ""
  | .echo text => text
  | .message m => m.lineWith (paintSeverity colored)
  | .maximum bound => "Max number of interpretations: " ++ bound
  | .start task => "Start task: " ++ task
  | .firing number before after => toString number ++ ") " ++ before ++ " -> " ++ after
  | .count steps => "Number of interpretations: " ++ toString steps
  | .result task => "Result task: " ++ task
  | .complaint c => complaintText colored c

end Line

def textOfLines (colored : Bool) (lines : List Line) : String :=
  lines.foldl (fun acc line => acc ++ line.text colored ++ "\n") ""

/--
A fatal console ends the program after a complaint, a quiet one does not print contractions.
Messages stay `pending` until they are flushed.
-/
structure Console where
  fatal : Bool := true
  quiet : Bool := false
  pending : Array Message := #[]
  printed : Array Line := #[]

namespace Console

def print (c : Console) (line : Line) : Console :=
  { c with printed := c.printed.push line }

def record (c : Console) (m : Message) : Console :=
  { c with pending := c.pending.push m }

def recordAll (c : Console) (ms : Array Message) : Console :=
  { c with pending := c.pending ++ ms }

def flush (c : Console) : Console :=
  { c with pending := #[], printed := c.printed ++ c.pending.map Line.message }

def registerFiring (c : Console) (number : Int) (before after : String) : Console :=
  if c.quiet then c else c.print (.firing number before after)

def complain (c : Console) (complaint : Complaint) : Console × Option Signal :=
  let c := c.print (.complaint complaint)
  (c, if c.fatal then some (.exit (.number 1)) else none)

def complainUnknown (c : Console) (className text : String) (signal : Signal)
    : Console × Option Signal :=
  let text := "unknown error: '" ++ className ++ ": " ++ text ++ "'"
  let (c, escaped) := c.complain { text, internal := true }
  (c, escaped <|> some signal)

/--
Ends a run that raised a signal, or none, and says which signal is left for the caller. An exit
passes, the other expected signals are printed and held back.
-/
def guard (c : Console) (raised : Option Signal) : Console × Option Signal :=
  match raised with
  | none => (c, none)
  | some (.complaint complaint) => c.complain complaint
  | some .interrupted => c.complain { text := "keyboard interrupt" }
  | some .tooDeep =>
    c.complain { text := "term is nested too deeply, maximum recursion depth exceeded" }
  | some (.exit status) => (c, some (.exit status))
  | some (.defect defect) => c.complainUnknown defect.className defect.text (.defect defect)
  | some (.foreign className text) => c.complainUnknown className text (.foreign className text)

end Console

end Combinatory
