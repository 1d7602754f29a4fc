import Combinatory.Text.Quoted

/-!
What the arguments of the command line ask for. An option may be given by a short or a long name,
long names may be cut short as long as they stay unambiguous, and short ones may be written
together. All arguments are classified before any of them has an effect.
-/

namespace Combinatory

namespace CommandLine

inductive Flag where
  | help
  | lexemes
  | quiet
  deriving DecidableEq

def Flag.label : Flag → String
  | .help => "-h/--help"
  | .lexemes => "--lexemes"
  | .quiet => "-q/--quiet"

def flags : List (String × Flag) :=
  [("-h", .help), ("--help", .help), ("--lexemes", .lexemes), ("-q", .quiet), ("--quiet", .quiet)]

def flag? (name : String) : Option Flag :=
  flags.lookup name

inductive Misuse where
  | ambiguous (argument : String) (names : List String)
  | valueGiven (flag : Flag) (value : String)
  | fileMissing
  | unrecognized (arguments : List String)
  deriving DecidableEq

def Misuse.text : Misuse → String
  | .ambiguous argument names =>
    "ambiguous option: " ++ argument ++ " could match " ++ ", ".intercalate names
  | .valueGiven flag value =>
    "argument " ++ flag.label ++ ": ignored explicit argument " ++ quoted value
  | .fileMissing => "the following arguments are required: file"
  | .unrecognized arguments => "unrecognized arguments: " ++ " ".intercalate arguments

inductive Argument where
  | positional (text : String)
  | option (name : String) (flag : Flag) (value : Option String)
  | unknown (text : String)

def splitValue (text : String) : String × Option String :=
  match text.toList.span (· ≠ '=') with
  | (_, []) => (text, none)
  | (name, _ :: value) => (String.ofList name, some (String.ofList value))

/--
The options that an argument may stand for: those whose long name it begins, or the short one that
its first letter names, with the letters behind it as a value.
-/
def candidates (text : String) : List (String × Flag × Option String) :=
  if text.startsWith "--" then
    let (stem, value) := splitValue text
    flags.filterMap fun (name, flag) =>
      if name.startsWith stem then some (name, flag, value) else none
  else
    let name := String.ofList (text.toList.take 2)
    let value := String.ofList (text.toList.drop 2)
    match flag? name with
    | some flag => [(name, flag, some value)]
    | none => []

def isNegativeNumber (text : String) : Bool :=
  match text.toList with
  | '-' :: number =>
    match number.span Char.isDigit with
    | (whole, []) => !whole.isEmpty
    | (_, '.' :: fraction) => !fraction.isEmpty && fraction.all Char.isDigit
    | _ => false
  | _ => false

def Argument.classify (text : String) : Except Misuse Argument :=
  match text.toList with
  | '-' :: _ :: _ =>
    match flag? text, splitValue text with
    | some flag, _ => .ok (.option text flag none)
    | none, (name, value) =>
      match value.bind fun _ => flag? name with
      | some flag => .ok (.option name flag value)
      | none =>
        match candidates text with
        | [(name, flag, value)] => .ok (.option name flag value)
        | [] =>
          if isNegativeNumber text || text.contains ' ' then
            .ok (.positional text)
          else
            .ok (.unknown text)
        | several => .error (.ambiguous text (several.map (·.1)))
  | _ => .ok (.positional text)

def flagsOf (name : String) (flag : Flag) (value : Option String) : Except Misuse (List Flag) :=
  match value with
  | none => .ok [flag]
  | some value =>
    if name.startsWith "--" then
      .error (.valueGiven flag value)
    else
      cluster flag value.toList
where
  cluster (flag : Flag) : List Char → Except Misuse (List Flag)
    | [] => .error (.valueGiven flag "")
    | c :: rest =>
      match flag? (String.ofList ['-', c]), rest with
      | none, _ => .error (.valueGiven flag (String.ofList (c :: rest)))
      | some next, [] => .ok [flag, next]
      | some next, rest => (cluster next rest).map (flag :: ·)

structure Options where
  file : String
  echoes : Bool := false
  quiet : Bool := false
  deriving DecidableEq

inductive Request where
  | run (options : Options)
  | help
  | refused (misuse : Misuse)
  deriving DecidableEq

structure Intake where
  file : Option String := none
  fileLast : Bool := false
  echoes : Bool := false
  quiet : Bool := false
  extras : List String := []

namespace Intake

def extra (i : Intake) (text : String) : Intake :=
  { i with fileLast := false, extras := i.extras ++ [text] }

def positional (i : Intake) (text : String) : Intake :=
  match i.file with
  | none => { i with file := some text, fileLast := true }
  | some _ => i.extra text

def setFlags (i : Intake) : List Flag → Except Request Intake
  | [] => .ok { i with fileLast := false }
  | .help :: _ => .error .help
  | .lexemes :: rest => { i with echoes := true }.setFlags rest
  | .quiet :: rest => { i with quiet := true }.setFlags rest

def take (i : Intake) : Argument → Except Request Intake
  | .positional text => .ok (i.positional text)
  | .unknown text => .ok (i.extra text)
  | .option name flag value =>
    match flagsOf name flag value with
    | .ok flags => i.setFlags flags
    | .error misuse => .error (.refused misuse)

def separate (i : Intake) (rest : List String) : Intake :=
  match i.file, rest with
  | none, [] => i
  | none, file :: rest => { i with file := some file, extras := i.extras ++ rest }
  | some _, rest =>
    let rest := if i.fileLast then rest else "--" :: rest
    { i with extras := i.extras ++ rest }

def finish (i : Intake) : Request :=
  match i.file with
  | none => .refused .fileMissing
  | some file =>
    if i.extras.isEmpty then
      .run { file, echoes := i.echoes, quiet := i.quiet }
    else
      .refused (.unrecognized i.extras)

end Intake

def Request.ofArguments (arguments : List String) : Request :=
  let (front, back) := arguments.span (· ≠ "--")
  match front.mapM Argument.classify with
  | .error misuse => .refused misuse
  | .ok front =>
    match front.foldlM Intake.take {} with
    | .error request => request
    | .ok intake =>
      match back with
      | [] => intake.finish
      | _ :: rest => (intake.separate rest).finish

def Request.file? : Request → Option String
  | .run options => some options.file
  | _ => none

end CommandLine

end Combinatory
