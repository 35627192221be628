/-!
# Glob patterns

A pattern is a path whose components may hold wildcards: `?` stands for one character, `*` for any
run of characters, a bracket for one character inside or outside a set, and a component `**` for
any number of directories.

Results:
* `Glob.ofText`: the pattern that a text writes, or the first error in it.
* `Glob.Token.accept`: the names that a component stands for.
-/

namespace Conformance

namespace Glob

/-! ## Names -/

/-- A set of characters, by its members and its ranges. -/
inductive CharacterSet.Item where
  | single (c : Char)
  | range (first last : Char)
  deriving DecidableEq, Repr

def CharacterSet.Item.contains (item : CharacterSet.Item) (c : Char) : Bool :=
  match item with
  | single d => c == d
  | range first last => first ≤ c && c ≤ last

/-- A part of a component. -/
inductive Token where
  | character (c : Char)
  /-- one character, whichever -/
  | anyCharacter
  /-- any run of characters -/
  | anySequence
  /-- any number of directories -/
  | anyDirectories
  | within (set : List CharacterSet.Item)
  | outside (set : List CharacterSet.Item)
  deriving DecidableEq, Repr

namespace Token

/-- Does the token stand for the character? -/
def admits : Token → Char → Bool
  | character d, c => c == d
  | anyCharacter, _ => true
  | within set, c => set.any (·.contains c)
  | outside set, c => !set.any (·.contains c)
  | anySequence, _ => false
  | anyDirectories, _ => false

/-- The characters with every shorter end of them, the longest first. -/
def ends : List Char → List (List Char)
  | [] => [[]]
  | c :: rest => (c :: rest) :: ends rest

/-- What is left of a name after a token, from everything that was left before it. Both lists have
the longest first, and an end of a name that is left is left with each shorter end of it after a run
of any characters. -/
def advance (token : Token) (left : List (List Char)) : List (List Char) :=
  match token, left with
  | anySequence, [] => []
  | anySequence, longest :: _ => ends longest
  | _, _ => left.filterMap fun name =>
    match name with
    | [] => none
    | c :: rest => if token.admits c then some rest else none

/-- Do the tokens stand for the name? Each token is tried once on each end of the name. -/
def accept (tokens : List Token) (name : List Char) : Bool :=
  (tokens.foldl (fun left token => advance token left) [name]).any (·.isEmpty)

/-- The character that a token is, if it is no wildcard. -/
def character? : Token → Option Char
  | character c => some c
  | _ => none

/-- The only name that the tokens stand for, if none of them is a wildcard. -/
def literal? (tokens : List Token) : Option String :=
  (tokens.mapM character?).map String.ofList

end Token

/-! ## Errors -/

/-- What is wrong with a pattern. -/
inductive Fault where
  /-- more than two stars in a row -/
  | tooManyStars
  /-- two stars that are not a whole component -/
  | starsInComponent
  /-- a bracket without its end -/
  | openBracket
  deriving DecidableEq, Repr

def Fault.text : Fault → String
  | tooManyStars => "wildcards are either regular `*` or recursive `**`"
  | starsInComponent => "recursive wildcards must form a single path component"
  | openBracket => "invalid range pattern"

/-- A fault with its position, counted in characters. -/
structure PatternError where
  position : Nat
  fault : Fault
  deriving DecidableEq, Repr

def PatternError.message (e : PatternError) : String :=
  "Pattern syntax error near position " ++ toString e.position ++ ": " ++ e.fault.text

/-! ## Reading patterns -/

/-- The items of a set: `a-z` is a range, any other character a member. -/
def setItems : List Char → List CharacterSet.Item
  | first :: '-' :: last :: rest => .range first last :: setItems rest
  | c :: rest => .single c :: setItems rest
  | [] => []

/-- The characters of a set and what follows the bracket that ends it. The first character never
ends the set. -/
def splitSet : List Char → Option (List Char × List Char)
  | [] => none
  | first :: rest =>
    match rest.dropWhile (· != ']') with
    | _ :: after => some (first :: rest.takeWhile (· != ']'), after)
    | [] => none

theorem length_splitSet {cs set after : List Char} (h : splitSet cs = some (set, after)) :
    after.length < cs.length := by
  cases cs with
  | nil => simp [splitSet] at h
  | cons first rest =>
    have hd : (rest.dropWhile (· != ']')).length ≤ rest.length :=
      (List.dropWhile_sublist _).length_le
    simp only [splitSet] at h
    split at h
    · rename_i heq
      simp only [Option.some.injEq, Prod.mk.injEq] at h
      simp only [heq, h.2, List.length_cons] at hd ⊢
      omega
    · cases h

/-- The tokens of some characters, which begin at `position` and follow `previous`. -/
def tokens (previous : Option Char) (position : Nat) (cs : List Char) :
    Except PatternError (List Token) :=
  match cs with
  | [] => .ok []
  | '?' :: rest => (tokens (some '?') (position + 1) rest).map (.anyCharacter :: ·)
  | '*' :: '*' :: '*' :: _ => .error ⟨position + 2, .tooManyStars⟩
  | '*' :: '*' :: rest =>
    if previous = none ∨ previous = some '/' then
      match rest with
      | [] => .ok [.anyDirectories]
      | '/' :: rest => (tokens (some '/') (position + 3) rest).map (.anyDirectories :: ·)
      | _ => .error ⟨position + 2, .starsInComponent⟩
    else .error ⟨position - 1, .starsInComponent⟩
  | '*' :: rest => (tokens (some '*') (position + 1) rest).map (.anySequence :: ·)
  | '[' :: '!' :: rest =>
    match h : splitSet rest with
    | some (set, after) =>
      have := length_splitSet h
      (tokens (some ']') (position + 3 + set.length) after).map (.outside (setItems set) :: ·)
    | none => .error ⟨position, .openBracket⟩
  | '[' :: rest =>
    match h : splitSet rest with
    | some (set, after) =>
      have := length_splitSet h
      (tokens (some ']') (position + 2 + set.length) after).map (.within (setItems set) :: ·)
    | none => .error ⟨position, .openBracket⟩
  | c :: rest => (tokens (some c) (position + 1) rest).map (.character c :: ·)
termination_by cs.length
decreasing_by all_goals (simp only [List.length_cons]; omega)

/-- The components of a path. A slash at the end begins no component. -/
def splitPath (path : String) : List String :=
  let parts := path.splitOn "/"
  if parts.getLast? = some "" then parts.dropLast else parts

end Glob

/-- A pattern. -/
structure Glob where
  /-- the tokens of each component -/
  components : List (List Glob.Token)
  /-- does the path begin at the root of all files? -/
  absolute : Bool
  /-- a slash at the end asks for directories -/
  directoriesOnly : Bool

namespace Glob

/-- The pattern that a text writes. The text is checked as a whole before its components are, so
that the first position of an error counts from the start of the text where both are faulty. -/
def ofText (text : String) : Except PatternError Glob := do
  let _ ← tokens none 0 text.toList
  let absolute := text.toList.head? = some '/'
  let path := if absolute then (text.drop 1).toString else text
  let components ← (splitPath path).mapM fun c => tokens none 0 c.toList
  .ok ⟨components, absolute, text.toList.getLast? = some '/'⟩

/-- Does a text hold a character that has a meaning in patterns? An opening brace counts, although
it stands for itself. -/
def isPattern (text : String) : Bool :=
  text.toList.any fun c => c == '*' || c == '?' || c == '[' || c == '\x7b'

end Glob

end Conformance
