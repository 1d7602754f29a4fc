import Combinatory.Text.Position

namespace Combinatory

inductive Severity where
  | error
  | warning
  deriving DecidableEq

def Severity.text : Severity → String
  | .error => "Error"
  | .warning => "Warning"

structure Message where
  severity : Severity
  text : String
  position : Option Position
  deriving DecidableEq

namespace Message

def placeText (position : Option Position) : String :=
  match position with
  | some p => p.text
  | none => "None"

def lineWith (severity : Severity → String) (m : Message) : String :=
  severity m.severity ++ " " ++ placeText m.position ++ ": " ++ m.text

def line (m : Message) : String :=
  m.lineWith Severity.text

end Message

end Combinatory
