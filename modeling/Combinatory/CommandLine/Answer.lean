import Combinatory.CommandLine.Request
import Combinatory.Session

namespace Combinatory

namespace CommandLine

/--
The status is `none` as long as the program still runs.
-/
structure Answer where
  status : Option Int
  stdout : String := ""
  stderr : String := ""

def usage (program : String) : String :=
  "usage: " ++ program ++ " [-h] [--lexemes] [-q] file\n"

def help (program : String) : String :=
  usage program ++
    "\n" ++
    "combinatory logic (K, S, I) interpreter\n" ++
    "\n" ++
    "positional arguments:\n" ++
    "  file         program to interpret and run\n" ++
    "\n" ++
    "options:\n" ++
    "  -h, --help   show this help message and exit\n" ++
    "  --lexemes    print the lexeme sequence before running\n" ++
    "  -q, --quiet  do not print reduction steps\n"

def statusOf : Option Signal → Int
  | none => 0
  | some (.exit .unspecified) => 0
  | some (.exit (.number status)) => status
  | some _ => 1

def runFile (files : Files) (options : Options) (fuel : Nat) : Console × Option Int :=
  let console : Console := { quiet := options.quiet }
  match Session.open? files none (some options.file) options.echoes with
  | .error signal =>
    let (console, escaped) := console.guard (some signal)
    (console, some (statusOf escaped))
  | .ok session =>
    let outcome := session.runGuarded console fuel
    match outcome.ending with
    | .finished _ => (outcome.console, some 0)
    | .held => (outcome.console, some 0)
    | .raised signal => (outcome.console, some (statusOf (some signal)))
    | .suspended => (outcome.console, none)

def answer (program : String) (colored : Bool) (files : Files) (request : Request) (fuel : Nat)
    : Answer :=
  match request with
  | .help => { status := some 0, stdout := help program }
  | .refused misuse =>
    { status := some 2, stderr := usage program ++ program ++ ": error: " ++ misuse.text ++ "\n" }
  | .run options =>
    let (console, status) := runFile files options fuel
    { status, stdout := textOfLines colored console.printed.toList }

end CommandLine

end Combinatory
