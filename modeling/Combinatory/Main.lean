import Combinatory.CommandLine.Answer

namespace Combinatory

namespace CommandLine

def readFile? (path : String) : IO (Option (List UInt8)) := do
  try
    let bytes ← IO.FS.readBinFile path
    return some bytes.toList
  catch _ =>
    return none

/--
Prints the answer behind the first `printed` characters of it, and goes on with twice the fuel until
the answer is complete.
-/
partial def respond (program : String) (colored : Bool) (files : Files) (request : Request)
    (printed fuel : Nat) : IO UInt32 := do
  let reply := answer program colored files request fuel
  IO.print (String.ofList (reply.stdout.toList.drop printed))
  IO.eprint reply.stderr
  (← IO.getStdout).flush
  match reply.status with
  | some status => return UInt32.ofNat status.toNat
  | none => respond program colored files request reply.stdout.length (2 * fuel)

def serve (args : List String) : IO UInt32 := do
  let request := Request.ofArguments args
  let content ←
    match request.file? with
    | some path => readFile? path
    | none => pure none
  let colored := (← (← IO.getStdout).isTty) && (← IO.getEnv "NO_COLOR").isNone
  let program := (← IO.appPath).fileName.getD ""
  respond program colored (fun _ => content) request 0 4096

end CommandLine

end Combinatory

def main (args : List String) : IO UInt32 :=
  Combinatory.CommandLine.serve args
