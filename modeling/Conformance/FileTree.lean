/-!
# File trees

The files below the directory where a run begins. A file is known by the names on its path, and a
directory is there where a file lies below it. Of the directories around the first one nothing is
known but that they are there. Paths are followed name by name, as a file system does.

Results:
* `FileTree.read`: the bytes of the file at a path, or why there are none.
* `FileTree.below`: everything below a directory, each directory before what it holds and names in
  ascending order.
-/

namespace Conformance

/-- Files by the names on their paths. -/
structure FileTree where
  files : List (List String × List UInt8)

/-- Why a path cannot be read. -/
inductive FileError where
  | notFound
  | notDirectory
  | isDirectory
  | nameTooLong
  /-- a character with code zero in the path -/
  | nulInPath
  /-- a refusal in the words of the system -/
  | refused (reason : String)
  deriving DecidableEq, Repr

def FileError.message : FileError → String
  | notFound => "No such file or directory (os error 2)"
  | notDirectory => "Not a directory (os error 20)"
  | isDirectory => "Is a directory (os error 21)"
  | nameTooLong => "File name too long (os error 36)"
  | nulInPath => "file name contained an unexpected NUL byte"
  | refused reason => reason

/-- A place that a path may lead to. -/
inductive Place where
  /-- what lies on some names below the directory where the run begins -/
  | inside (names : List String)
  /-- a directory around that one -/
  | outside
  deriving DecidableEq, Repr

namespace Place

/-- The directory where the run begins. -/
def start : Place := inside []

/-- The directory around a place. -/
def parent : Place → Place
  | inside [] => outside
  | inside (name :: names) => inside (name :: names).dropLast
  | outside => outside

/-- The place on some names below a place. -/
def down : Place → List String → Place
  | inside names, more => inside (names ++ more)
  | outside, _ => outside

end Place

namespace FileTree

/-- The names on a path. -/
def names (path : String) : List String :=
  (path.splitOn "/").filter fun name => name != "" && name != "."

/-- The tree with a file at each of the given paths. -/
def ofFiles (files : List (String × List UInt8)) : FileTree :=
  ⟨files.map fun f => (names f.1, f.2)⟩

def file? (t : FileTree) : Place → Option (List UInt8)
  | .inside names => t.files.lookup names
  | .outside => none

/-- Is there a directory? The one where the run begins is there, and so are those around it. -/
def isDirectory (t : FileTree) : Place → Bool
  | .inside names =>
    names.isEmpty || t.files.any fun f => names.isPrefixOf f.1 && names.length < f.1.length
  | .outside => true

/-- The place of a name in a directory, if it is there. -/
def child? (t : FileTree) (place : Place) (name : String) : Option Place :=
  match place with
  | .inside names =>
    let found := Place.inside (names ++ [name])
    if (t.file? found).isSome || t.isDirectory found then some found else none
  | .outside => none

/-! ## Directories -/

/-- The names on the way to each directory on the way to a file, and to the file. -/
def stagesOf (file : List String) : List (List String) :=
  (List.range file.length).map fun n => file.take (n + 1)

/-- Everything in the tree in ascending order: a directory comes before what it holds, and what it
holds is together. -/
def entries (t : FileTree) : List (List String) :=
  ((t.files.flatMap fun f => stagesOf f.1).mergeSort fun a b => !decide (b < a)).eraseReps

/-- What lies below a directory, by the names on the way from there. -/
def below (t : FileTree) : Place → List (List String)
  | .inside names =>
    (t.entries.filter fun e => names.isPrefixOf e && names.length < e.length).map
      (·.drop names.length)
  | .outside => []

/-- The names in a directory. -/
def children (t : FileTree) (place : Place) : List String :=
  (t.below place).filterMap fun e =>
    match e with
    | [name] => some name
    | _ => none

/-! ## Paths -/

/-- The longest name, in bytes. -/
def maxNameLength : Nat := 255

/-- The longest path, in bytes. -/
def maxPathLength : Nat := 4095

/-- Is a path too long to be asked for? -/
def isTooLong (path : String) : Bool := maxPathLength < path.utf8ByteSize

/-- Does a path begin at the root of all files? -/
def isAbsolute (path : String) : Bool := path.toList.head? == some '/'

/-- The place that names lead to from another place. -/
def follow (t : FileTree) (place : Place) : List String → Except FileError Place
  | [] => .ok place
  | name :: rest =>
    if !t.isDirectory place then .error .notDirectory
    else if name = "" ∨ name = "." then t.follow place rest
    else if name = ".." then t.follow place.parent rest
    else if maxNameLength < name.utf8ByteSize then .error .nameTooLong
    else
      match t.child? place name with
      | some found => t.follow found rest
      | none => .error .notFound

/-- The bytes of the file at a path. -/
def read (t : FileTree) (path : String) : Except FileError (List UInt8) := do
  if path.toList.contains '\x00' then .error .nulInPath
  else if path = "" then .error .notFound
  else if isTooLong path then .error .nameTooLong
  else
    let place ← t.follow (if isAbsolute path then .outside else .start) (path.splitOn "/")
    match t.file? place with
    | some bytes => .ok bytes
    | none => .error .isDirectory

end FileTree

end Conformance
