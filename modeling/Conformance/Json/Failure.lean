import Conformance.Json
import Conformance.Text.Quoted

/-!
# Failures of reading JSON

A failure has a cause, the place in the tree that was being read, and a position in the text. The
position is kept as the number of bytes after it, which does not depend on what was read before.

Results:
* `Json.Cause.reason`, `Json.Cause.category`: the words for a cause and its kind.
* `Json.Failure.locate`: the line and column of a failure in its text.
* `Json.ReadError.message`: the whole message.
-/

namespace Conformance.Json

/-! ## Causes -/

/-- What was found where a value of another kind was awaited. -/
inductive Found where
  | null
  | bool (b : Bool)
  | number (n : Number)
  | string (s : String)
  | sequence
  | map

namespace Found

def text : Found → String
  | null => "null"
  | bool true => "boolean `true`"
  | bool false => "boolean `false`"
  | number (.int n) => "integer `" ++ toString n ++ "`"
  | number (.float x) => "floating point `" ++ x.text ++ "`"
  | string s => "string " ++ Text.quoted s
  | sequence => "sequence"
  | map => "map"

end Found

/-- Why reading stopped. -/
inductive Cause where
  | eofInValue
  | eofInString
  | eofInList
  | eofInObject
  | expectedValue
  | expectedWord
  | invalidNumber
  | numberOutOfRange
  | controlCharacter
  | invalidEscape
  | loneSurrogate
  | unfinishedSurrogate
  | invalidCodePoint
  | expectedCommaOrBracket
  | expectedCommaOrBrace
  | expectedColon
  | keyNotString
  | trailingComma
  | trailingCharacters
  | recursionLimit
  | invalidType (found : Found) (expected : String)
  | missingField (name : String)
  | duplicateField (name : String)
  | invalidLength (length : Nat) (expected : String)

/-- The kinds of cause: the text is no JSON, it ends too early, or it is JSON of another form than
awaited. -/
inductive Category where
  | malformed
  | eof
  | data
  deriving DecidableEq, Repr

namespace Cause

def reason : Cause → String
  | eofInValue => "EOF while parsing a value"
  | eofInString => "EOF while parsing a string"
  | eofInList => "EOF while parsing a list"
  | eofInObject => "EOF while parsing an object"
  | expectedValue => "expected value"
  | expectedWord => "expected ident"
  | invalidNumber => "invalid number"
  | numberOutOfRange => "number out of range"
  | controlCharacter => "control character (\\u0000-\\u001F) found while parsing a string"
  | invalidEscape => "invalid escape"
  | loneSurrogate => "lone leading surrogate in hex escape"
  | unfinishedSurrogate => "unexpected end of hex escape"
  | invalidCodePoint => "invalid unicode code point"
  | expectedCommaOrBracket => "expected `,` or `]`"
  | expectedCommaOrBrace => "expected `,` or `\x7d`"
  | expectedColon => "expected `:`"
  | keyNotString => "key must be a string"
  | trailingComma => "trailing comma"
  | trailingCharacters => "trailing characters"
  | recursionLimit => "recursion limit exceeded"
  | invalidType found expected => "invalid type: " ++ found.text ++ ", expected " ++ expected
  | missingField name => "missing field `" ++ name ++ "`"
  | duplicateField name => "duplicate field `" ++ name ++ "`"
  | invalidLength length expected =>
    "invalid length " ++ toString length ++ ", expected " ++ expected

def category : Cause → Category
  | eofInValue => .eof
  | eofInString => .eof
  | eofInList => .eof
  | eofInObject => .eof
  | invalidType _ _ => .data
  | missingField _ => .data
  | duplicateField _ => .data
  | invalidLength _ _ => .data
  | _ => .malformed

end Cause

/-! ## Places -/

/-- A step from a tree to a part of it. -/
inductive Segment where
  | index (i : Nat)
  | key (k : String)
  /-- a key that could not be read -/
  | unreadKey

namespace Segment

def text : Segment → String
  | index i => "[" ++ toString i ++ "]"
  | key k => k
  | unreadKey => "?"

/-- What stands before a segment that is not the first. -/
def separator : Segment → String
  | index _ => ""
  | key _ => "."
  | unreadKey => "."

/-- The text of a place; the whole tree is a point. -/
def path : List Segment → String
  | [] => "."
  | first :: rest =>
    first.text ++ String.join (rest.map fun s => s.separator ++ s.text)

end Segment

/-! ## Failures -/

/-- A failure while reading: `remaining` bytes of the text come after its position. -/
structure Failure where
  cause : Cause
  place : List Segment
  remaining : Nat

/-- A reader takes a part off the front of some bytes. -/
abbrev Reader (α : Type) := List UInt8 → Except Failure (α × List UInt8)

namespace Failure

/-- A failure just before the bytes `rest`. -/
def before (cause : Cause) (rest : List UInt8) : Failure := ⟨cause, [], rest.length⟩

/-- A failure just after the first of the bytes `rest`, or at the end when there is none. -/
def behind (cause : Cause) (rest : List UInt8) : Failure := ⟨cause, [], rest.length - 1⟩

/-- The failure as seen from the tree around. -/
def within (segment : Segment) (f : Failure) : Failure := { f with place := segment :: f.place }

end Failure

/-- A reader of the part at a segment. -/
def Reader.within {α : Type} (segment : Segment) (reader : Reader α) : Reader α := fun bytes =>
  (reader bytes).mapError (·.within segment)

/-- A failure in its text. -/
structure ReadError where
  cause : Cause
  place : List Segment
  line : Nat
  column : Nat

namespace ReadError

def path (e : ReadError) : String := Segment.path e.place

/-- The reason with the position. -/
def source (e : ReadError) : String :=
  e.cause.reason ++ " at line " ++ toString e.line ++ " column " ++ toString e.column

def message (e : ReadError) : String := "at JSON path " ++ e.path ++ " → " ++ e.source

end ReadError

/-- The position of a failure: lines begin at one, and a column counts the bytes since the last
line feed. -/
def Failure.locate (f : Failure) (bytes : List UInt8) : ReadError :=
  let read := bytes.take (bytes.length - f.remaining)
  let isLineFeed (b : UInt8) : Bool := b == '\n'.toUInt8
  ⟨f.cause, f.place, 1 + read.countP isLineFeed,
    (read.reverse.takeWhile fun b => !isLineFeed b).length⟩

end Conformance.Json
