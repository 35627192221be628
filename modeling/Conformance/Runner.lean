import Conformance.Assertion
import Conformance.Fixture.Reader
import Conformance.Glob.Expansion
import Conformance.Runner.Arguments
import Conformance.Shape.Text

/-!
# Runner

A run resolves its inputs, loads all files, and only then runs the cases whose names contain the
filter. It prints a block for each case and a summary line. If an input cannot be resolved or loaded
the run fails before anything is printed.

Results:
* `Runner.outcomeBlock`: what is printed for a case.
* `Runner.session`: the steps of a run, with what it prints on the way.
* `Runner.execute`: what a run answers and what it has printed by then.
* `Runner.run`: what a run prints and counts, or why it fails.
-/

namespace Conformance

/-- Why a run fails. -/
inductive RunError where
  | pattern (e : Glob.PatternError)
  | unlisted (e : Glob.ListingError)
  | noMatch (input : String)
  | unreadable (path : String) (e : FileError)
  | malformed (path : String) (e : Json.ReadError)

/-- The error with its causes, outermost first. -/
def RunError.message : RunError → String
  | pattern e => e.message
  | unlisted e => e.message
  | noMatch input => "glob pattern matched no files: " ++ input
  | unreadable path e => "failed to read " ++ path ++ ": " ++ e.message
  | malformed path e =>
    "failed to parse fixture file " ++ path ++ ": " ++ e.message ++ ": " ++ e.source

/-- How many cases passed and failed. -/
structure Tally where
  passed : Nat := 0
  failed : Nat := 0
  deriving DecidableEq, Repr

namespace Tally

def count (t : Tally) : Outcome → Tally
  | .pass => { t with passed := t.passed + 1 }
  | .fail _ _ => { t with failed := t.failed + 1 }
  | .error _ => { t with failed := t.failed + 1 }

/-- The summary line. -/
def line (t : Tally) : String :=
  toString t.passed ++ " passed, " ++ toString t.failed ++ " failed\n"

end Tally

/-- Steps that print and may fail. What is printed before a failure stays printed. -/
abbrev Session := ExceptT RunError (StateM String)

def Session.print (text : String) : Session Unit := modify (· ++ text)

/-- What a run prints, and how many cases passed and failed. -/
structure Summary where
  output : String
  passed : Nat
  failed : Nat

/-- What a run sees of the files around it. -/
structure Files where
  /-- the paths that a pattern stands for -/
  expand : Glob → Except Glob.ListingError (List String)
  /-- the bytes of the file at a path -/
  read : String → Except FileError (List UInt8)

/-- The files of a tree. -/
def FileTree.toFiles (t : FileTree) : Files := ⟨fun g => g.expand t, t.read⟩

namespace Runner

/-! ## Loading -/

/-- The paths that an input stands for. -/
def resolve (files : Files) (input : String) : Except RunError (List String) :=
  if Glob.isPattern input then do
    let glob ← (Glob.ofText input).mapError .pattern
    let found ← (files.expand glob).mapError .unlisted
    if found.isEmpty then .error (.noMatch input) else .ok found
  else .ok [input]

/-- The cases of a file. -/
def load (files : Files) (path : String) : Except RunError (List Fixture) := do
  let bytes ← (files.read path).mapError (.unreadable path)
  (Fixture.ofBytes bytes).mapError (.malformed path)

/-- The cases of all inputs. Every input is resolved before any file is read. -/
def loadAll (files : Files) (inputs : List String) : Except RunError (List Fixture) := do
  let paths ← inputs.mapM (resolve files)
  let cases ← paths.flatten.mapM (load files)
  .ok cases.flatten

/-! ## Cases -/

/-- Does a text occur in another one? -/
def occursIn (part whole : List Char) : Bool :=
  part.isPrefixOf whole ||
    match whole with
    | [] => false
    | _ :: rest => occursIn part rest

/-- Is a case run under a filter? -/
def isSelected (filter : Option String) (f : Fixture) : Bool :=
  match filter with
  | some part => occursIn part.toList f.name.toList
  | none => true

/-- The options of every case. -/
def options (a : Arguments) : Options := ⟨a.subset, a.maxDepth⟩

def painted (color : Bool) (style : Text.Style) (s : String) : String :=
  if color then style.apply s else s

/-- The mark of a case that passes. -/
def passMark (color : Bool) : String := painted color .green "✅"

/-- The mark of a case that fails. -/
def failMark (color : Bool) : String := painted color .boldRed "❌"

/-- What is printed for a case with an outcome. -/
def outcomeBlock (color : Bool) (f : Fixture) : Outcome → String
  | .pass => passMark color ++ " " ++ f.name ++ "\n"
  | .fail actual report =>
    failMark color ++ " " ++ f.name ++ "\n" ++
      "   expected: " ++ f.expect.compact ++ "\n" ++
      "   actual:   " ++ actual.compact ++ "\n" ++
      match report with
      | some r =>
        String.join ((Text.lines (r.listing color)).map fun line => "     " ++ line ++ "\n")
      | none => ""
  | .error e => failMark color ++ " " ++ f.name ++ ": " ++ e.message ++ "\n"

/-- Prints the block of a case and counts its outcome. -/
def record (a : Arguments) (t : Tally) (f : Fixture) (o : Outcome) : Session Tally := do
  Session.print (outcomeBlock a.color f o)
  pure (t.count o)

/-- Runs cases, and then goes through them with their outcomes. -/
def runCases (a : Arguments) (cases : List Fixture) : Session Tally := do
  let outcomes := cases.map fun f => f.run (options a)
  let t ← (cases.zip outcomes).foldlM (fun t c => record a t c.1 c.2) {}
  Session.print t.line
  pure t

/-! ## Runs -/

/-- The lines of the catalogue. -/
def catalogueText : String :=
  String.join (Catalogue.entries.map fun e => e.1 ++ ": " ++ e.2.text ++ "\n")

/-- Runs the cases of the inputs, or prints the catalogue. -/
def session (a : Arguments) (files : Files) : Session Tally :=
  if a.list then do
    Session.print catalogueText
    pure {}
  else do
    let cases ← MonadExcept.ofExcept (loadAll files a.inputs)
    runCases a (cases.filter (isSelected a.filter))

/-- What a run answers, and what it has printed by then. -/
def execute (a : Arguments) (files : Files) : Except RunError Tally × String :=
  Id.run ((session a files).run.run "")

/-- What a run prints and counts, or why it fails. -/
def run (a : Arguments) (files : Files) : Except RunError Summary :=
  match execute a files with
  | (.ok t, output) => .ok ⟨output, t.passed, t.failed⟩
  | (.error e, _) => .error e

end Runner

end Conformance
