import Conformance.FileTree
import Conformance.Glob

/-!
# Expansion of patterns

The paths of a file tree that a pattern stands for. A component without wildcards is looked up, any
other one is tried on every name of the directory in ascending order, and a component `**` on
everything below. Paths are written as the pattern writes them, apart from a leading point. A
directory whose path is too long is still found in a listing, but cannot be listed itself: then the
expansion fails.

Results:
* `Glob.expand`: the paths that a pattern stands for, in order, or the first directory on the way
  that cannot be listed.
-/

namespace Conformance.Glob

/-- A directory that cannot be listed. -/
structure ListingError where
  path : String
  reason : FileError
  deriving DecidableEq, Repr

def ListingError.message (e : ListingError) : String :=
  "attempting to read `" ++ e.path ++ "` resulted in an error: " ++ e.reason.message

/-! ## Spots -/

/-- A place of the tree together with the path that leads there. -/
structure Spot where
  path : String
  place : Place
  /-- was the spot found in the listing of a directory? -/
  listed : Bool

namespace Spot

/-- Does the path say nothing but "here"? -/
def isHere (s : Spot) : Bool :=
  !FileTree.isAbsolute s.path &&
    (s.path.splitOn "/").all fun name => name == "." || name == ""

/-- A path with a name behind it. -/
def joined (path name : String) : String :=
  if path.toList.getLast? = some '/' then path ++ name else path ++ "/" ++ name

/-- The path of something in the directory of a spot. -/
def pathOf (s : Spot) (name : String) : String := if s.isHere then name else joined s.path name

/-- Is the spot known as a directory? A listing tells it of each of its names. Any other spot is
asked for by its path, which must not be too long. -/
def isDirectory (s : Spot) (t : FileTree) : Bool :=
  (s.listed || !FileTree.isTooLong s.path) && t.isDirectory s.place

/-- What listings lead to below a spot, on the given names. -/
def down (s : Spot) : List String → Spot
  | [] => s
  | name :: rest => down ⟨s.pathOf name, s.place.down [name], true⟩ rest

/-- Fails if the directory at a spot cannot be listed. -/
def checkListing (s : Spot) : Except ListingError Unit :=
  if FileTree.isTooLong s.path then .error ⟨s.path, .nameTooLong⟩ else .ok ()

end Spot

/-! ## Components -/

def isDirectories : List Token → Bool
  | [.anyDirectories] => true
  | _ => false

/-- The spots that a name without wildcards leads to. A point is the directory itself, two points
the one around it. -/
def lookUp (t : FileTree) (s : Spot) (name : String) : List Spot :=
  let path := s.pathOf name
  if name = "." then if s.isDirectory t then [⟨path, s.place, false⟩] else []
  else if name = ".." then if s.isDirectory t then [⟨path, s.place.parent, false⟩] else []
  else if FileTree.isTooLong path then []
  else if name = "" then
    if t.isDirectory s.place && !s.isHere then [⟨path, s.place, false⟩] else []
  else
    match t.child? s.place name with
    | some found => [⟨path, found, false⟩]
    | none => []

/-- The point and the two points that a component with wildcards stands for; it has to begin with a
point itself. -/
def pointEntries (s : Spot) (component : List Token) : List Spot :=
  if component.head? = some (.character '.') then
    [("..", s.place.parent), (".", s.place)].filterMap fun e =>
      if Token.accept component e.1.toList then some ⟨Spot.joined s.path e.1, e.2, false⟩ else none
  else []

/-- The spots that a component with wildcards stands for in the directory of a spot. -/
def matching (t : FileTree) (s : Spot) (component : List Token) :
    Except ListingError (List Spot) := do
  s.checkListing
  let names := (t.children s.place).filter fun name => Token.accept component name.toList
  return pointEntries s component ++ names.map fun name => s.down [name]

/-- What a search finds, by the last name and the spot, at each name below the directory of a spot.
A directory is listed once it is searched itself. -/
def throughout (t : FileTree) (s : Spot)
    (search : String → Spot → Except ListingError (List Spot)) :
    Except ListingError (List Spot) := do
  s.checkListing
  let found ← (t.below s.place).mapM fun names => do
    let spot := s.down names
    let here ← search (names.getLast?.getD "") spot
    if spot.isDirectory t then spot.checkListing
    return here
  return found.flatten

/-- The spots that components stand for, below a spot. -/
def expandBelow (t : FileTree) (directoriesOnly : Bool) :
    (components : List (List Token)) → Spot → Except ListingError (List Spot)
  | [], s => .ok (if directoriesOnly && !s.isDirectory t then [] else [s])
  | component :: rest, s =>
    match Token.literal? component with
    | some name => do
      let found ← (lookUp t s name).mapM (expandBelow t directoriesOnly rest)
      return found.flatten
    | none =>
      if !s.isDirectory t then .ok []
      else if !isDirectories component then do
        let found ← (← matching t s component).mapM (expandBelow t directoriesOnly rest)
        return found.flatten
      else
        match rest with
        | [] => throughout t s fun _ spot => .ok (if spot.isDirectory t then [spot] else [])
        | next :: others =>
          if isDirectories next then expandBelow t directoriesOnly (next :: others) s
          else
            throughout t s fun name spot =>
              if Token.accept next name.toList then expandBelow t directoriesOnly others spot
              else .ok []

/-- The paths that a pattern stands for, from the directory where the run begins or from the root of
all files. -/
def expand (g : Glob) (t : FileTree) : Except ListingError (List String) := do
  let first : Spot := if g.absolute then ⟨"/", .outside, false⟩ else ⟨".", .start, false⟩
  let found ← expandBelow t g.directoriesOnly g.components first
  return found.map (·.path)

end Conformance.Glob
