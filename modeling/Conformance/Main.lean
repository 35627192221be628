import Conformance.Runner

/-!
# The program

Runs the cases of fixture files. Patterns among the inputs are matched against the paths that come
from standard input, one a line. The exit code is 0 when every case passes, 1 when one fails or the
run does, and 2 for a command line that is refused.
-/

open Conformance

namespace Conformance.Main

def usage : String :=
  "Usage: conformance [--list] [-i <INPUT>...] [--filter <TEXT>] [--subset] " ++
    "[--max-depth <N>] [--no-color] [-h]"

def complaint : UsageError → String
  | .help => usage
  | .unknownArgument => "unexpected argument"
  | .missingValue => "an option lacks its value"
  | .invalidValue => "invalid value for --max-depth"
  | .repeatedOption => "an option is given twice"
  | .unneededValue => "a switch takes no value"
  | .missingInput => "no input is given"

/-- The lines of a stream up to its end. -/
partial def readLines (stream : IO.FS.Stream) (found : Array String) : IO (List String) := do
  let line ← stream.getLine
  if line.isEmpty then pure found.toList
  else readLines stream (found.push (line.dropSuffix "\n").toString)

/-- Why the system refuses a file. Code 21 is its answer for a directory. -/
def refusal : IO.Error → FileError
  | .noFileOrDirectory .. => .notFound
  | .inappropriateType _ code _ => if code = 21 then .isDirectory else .notDirectory
  | e => .refused (toString e)

/-- The bytes of a file, or why there are none. -/
def readPath (path : String) : IO (Except FileError (List UInt8)) := do
  match ← (IO.FS.readBinFile path).toBaseIO with
  | .ok bytes => pure (.ok bytes.toList)
  | .error e => pure (.error (refusal e))

/-- The files that a run may ask for. -/
def readFiles (a : Arguments) (listed : List String) : IO Files := do
  let tree := FileTree.ofFiles (listed.map fun path => (path, []))
  let expand (g : Glob) : Except Glob.ListingError (List String) := g.expand tree
  let named := a.inputs.flatMap fun input =>
    if Glob.isPattern input then
      ((Glob.ofText input).toOption.bind fun g => (expand g).toOption).getD []
    else [input]
  let contents ← named.mapM fun path => do pure (path, ← readPath path)
  pure ⟨expand, fun path => (contents.lookup path).getD (.error .notFound)⟩

end Conformance.Main

def main (args : List String) : IO UInt32 := do
  match Arguments.ofList args with
  | .error .help => do
    IO.println Main.usage
    pure 0
  | .error e => do
    IO.eprintln ("error: " ++ Main.complaint e)
    pure 2
  | .ok a => do
    let asksForPaths := !a.list && a.inputs.any Glob.isPattern
    let listed ← if asksForPaths then Main.readLines (← IO.getStdin) #[] else pure []
    let files ← if a.list then pure ⟨fun _ => .ok [], fun _ => .error .notFound⟩
      else Main.readFiles a listed
    let (answer, printed) := Runner.execute a files
    IO.print printed
    match answer with
    | .error e => do
      IO.eprintln ("Error: " ++ e.message)
      pure 1
    | .ok t => pure (if t.failed = 0 then 0 else 1)
