import Std.Time
import ClassicalPlanner.CommandLine.Run

/-!
# The program

Reads the files that a command line names and prints what it comes to.
-/

namespace ClassicalPlanner.CommandLine

/-- The number that the operating system gives an error. -/
def systemCode : IO.Error → UInt32
  | .noFileOrDirectory _ code _ | .inappropriateType _ code _ | .invalidArgument _ code _
  | .permissionDenied _ code _ | .otherError code _ => code
  | _ => 0

/-- The contents of a file. -/
def readTextFile (path : String) : IO (Except FileError String) := do
  try return .ok (← IO.FS.readFile path)
  catch
    | .userError _ => return .error (.other "stream did not contain valid UTF-8")
    | e => return .error ((FileError.ofCode? (systemCode e)).getD (.other e.toString))

/-- The files that a command line names. -/
def fileNames (args : List String) : List String :=
  match Request.ofArgs? args with
  | some (.plan domain problem options) => options.config.toList ++ [domain, problem]
  | some (.ground domain problem _) => [domain, problem]
  | _ => []

/-- The time since a start, given in nanoseconds. -/
def elapsedSince (start : Nat) : IO Elapsed := do
  let span := (← IO.monoNanosNow) - start
  return ⟨UInt64.ofNat (span / 1000000000), UInt32.ofNat (span % 1000000000)⟩

/-- A moment as text. -/
def dateText (moment : Std.Time.Timestamp) : String :=
  (Std.Time.PlainDateTime.ofWallTime (moment.toWallTime .zero)).format
    "uuuu-MM-dd'T'HH:mm:ss.SSSSSSSSS'Z'"

/-- Does what a command line asks for, and gives the exit status. -/
def execute (args : List String) : IO UInt32 := do
  let contents ← (fileNames args).mapM fun path => return (path, ← readTextFile path)
  let files : Files := fun path => (contents.find? (·.1 == path)).elim (.error .notFound) (·.2)
  let start ← IO.monoNanosNow
  let outcome := run files args
  match outcome with
  | .done output =>
    let date := dateText (← Std.Time.Timestamp.now)
    for line in output.text date (← elapsedSince start) do IO.println line
  | .failed failure => for line in failure.lines do IO.eprintln line
  | .misused => IO.eprintln "error: invalid arguments"
  return UInt32.ofNat outcome.code

end ClassicalPlanner.CommandLine

def main (args : List String) : IO UInt32 := ClassicalPlanner.CommandLine.execute args
