import Combinatory.Program.Fault
import Combinatory.Report.Defect
import Combinatory.Report.Message

namespace Combinatory

structure Complaint where
  text : String
  position : Option Position := none
  internal : Bool := false
  deriving DecidableEq

def Complaint.placedText (c : Complaint) : String :=
  match c.position with
  | some p => p.text ++ ": " ++ c.text
  | none => c.text

inductive ExitStatus where
  | unspecified
  | number (status : Int)
  | text (status : String)
  deriving DecidableEq

inductive Signal where
  | complaint (complaint : Complaint)
  | interrupted
  | tooDeep
  | exit (status : ExitStatus)
  | defect (defect : Defect)
  | foreign (className text : String)
  deriving DecidableEq

def ParseFault.signal : ParseFault → Signal
  | .expected expectation found =>
    .complaint { text := expectation.text, position := some found.position }
  | .undefined name =>
    .complaint { text := "undefined user_combinator " ++ name.text, position := some name.position }
  | .notPrimitive found => .defect (.notCombinator found.tag.symbol)

end Combinatory
