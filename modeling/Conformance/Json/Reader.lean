import Conformance.Json.Token

/-!
# Reading JSON trees

A tree is read off the front of some bytes; what comes after it is not looked at. Arrays and
objects may nest 127 deep. A repeated key keeps its first place and takes its last value. A failure
inside an element or a field carries its index or key; one between elements belongs to the array;
one while a key is looked for or read carries a mark for the unread key.

Results:
* `nextElement`, `nextKey`, `readColon`: what stands between the parts of an array or object.
* `readValue`: a tree, given how many bytes there are at most and how much deeper brackets may nest.
* `Json.read`, `Json.ofText`: the tree of some bytes or of a text, or the failure in it.
-/

namespace Conformance.Json

/-- How deep brackets may nest. -/
def maxNesting : Nat := 127

/-! ## Between the parts -/

/-- Is there another element? The bytes come back at the element, or at the closing bracket. -/
def nextElement (first : Bool) : Reader Bool := fun bytes =>
  let bytes := skipBlanks bytes
  match bytes with
  | [] => .error (.behind .eofInList [])
  | b :: rest =>
    if b == ']'.toUInt8 then .ok (false, bytes)
    else if first then .ok (true, bytes)
    else if b == ','.toUInt8 then
      let rest := skipBlanks rest
      match rest with
      | [] => .error (.behind .eofInValue [])
      | c :: _ =>
        if c == ']'.toUInt8 then .error (.behind .trailingComma rest) else .ok (true, rest)
    else .error (.behind .expectedCommaOrBracket bytes)

/-- The next key, if there is one. Without one the bytes come back at the closing brace. -/
def nextKey (first : Bool) : Reader (Option String) := fun bytes =>
  let bytes := skipBlanks bytes
  match bytes with
  | [] => .error (.behind .eofInObject [])
  | b :: rest =>
    if b == '\x7d'.toUInt8 then .ok (none, bytes)
    else if first then
      if b == '"'.toUInt8 then (readString rest).map fun r => (some r.1, r.2)
      else .error (.behind .keyNotString bytes)
    else if b == ','.toUInt8 then
      let rest := skipBlanks rest
      match rest with
      | [] => .error (.behind .eofInValue [])
      | c :: after =>
        if c == '"'.toUInt8 then (readString after).map fun r => (some r.1, r.2)
        else if c == '\x7d'.toUInt8 then .error (.behind .trailingComma rest)
        else .error (.behind .keyNotString rest)
    else .error (.behind .expectedCommaOrBrace bytes)

/-- The colon between a key and its value. -/
def readColon : Reader Unit := fun bytes =>
  let bytes := skipBlanks bytes
  match bytes with
  | [] => .error (.behind .eofInObject [])
  | b :: rest =>
    if b == ':'.toUInt8 then .ok ((), rest) else .error (.behind .expectedColon bytes)

/-- The elements of an array after its opening bracket, and the closing one. Every element takes
at least a byte, so that `fuel` may be the number of bytes. -/
def readElements {α : Type} (element : Reader α) : (fuel index : Nat) → Reader (List α)
  | 0, _, bytes => .error (.behind .eofInList bytes)
  | fuel + 1, index, bytes => do
    let (more, bytes) ← nextElement (index == 0) bytes
    if more then do
      let (x, bytes) ← Reader.within (.index index) element bytes
      let (xs, bytes) ← readElements element fuel (index + 1) bytes
      .ok (x :: xs, bytes)
    else .ok ([], bytes.tail)

/-- The fields of an object after its opening brace, and the closing one. -/
def readFields {α : Type} (value : Reader α) :
    (fuel : Nat) → (first : Bool) → Reader (List (String × α))
  | 0, _, bytes => .error (.behind .eofInObject bytes)
  | fuel + 1, first, bytes => do
    let (key?, bytes) ← Reader.within .unreadKey (nextKey first) bytes
    match key? with
    | some key => do
      let ((), bytes) ← readColon bytes
      let (x, bytes) ← Reader.within (.key key) value bytes
      let (xs, bytes) ← readFields value fuel false bytes
      .ok ((key, x) :: xs, bytes)
    | none => .ok ([], bytes.tail)

/-! ## Values -/

/-- A value that is no array and no object, by its first byte. -/
def readScalar : Reader Json := fun bytes =>
  match bytes with
  | [] => .error (.behind .eofInValue [])
  | b :: rest =>
    if b == 'n'.toUInt8 then (expectWord ['u', 'l', 'l'] rest).map fun r => (null, r.2)
    else if b == 't'.toUInt8 then (expectWord ['r', 'u', 'e'] rest).map fun r => (bool true, r.2)
    else if b == 'f'.toUInt8 then
      (expectWord ['a', 'l', 's', 'e'] rest).map fun r => (bool false, r.2)
    else if b == '-'.toUInt8 then (readNumber true rest).map fun r => (number r.1, r.2)
    else if isDigit b then (readNumber false bytes).map fun r => (number r.1, r.2)
    else if b == '"'.toUInt8 then (readString rest).map fun r => (string r.1, r.2)
    else .error (.behind .expectedValue bytes)

/-- A tree, where brackets may nest `depth` deep. An array or object has no more parts than there
are bytes, so that `fuel` may be the number of all bytes. -/
def readValue (fuel : Nat) : (depth : Nat) → Reader Json
  | 0, bytes =>
    let bytes := skipBlanks bytes
    if bytes.head?.any fun b => b == '['.toUInt8 || b == '\x7b'.toUInt8 then
      .error (.behind .recursionLimit bytes)
    else readScalar bytes
  | depth + 1, bytes =>
    let bytes := skipBlanks bytes
    match bytes with
    | [] => readScalar bytes
    | b :: rest =>
      if b == '['.toUInt8 then
        (readElements (readValue fuel depth) fuel 0 rest).map fun r => (array r.1, r.2)
      else if b == '\x7b'.toUInt8 then
        (readFields (readValue fuel depth) fuel true rest).map fun r =>
          (object (Record.ofList r.1), r.2)
      else readScalar bytes

/-! ## Texts -/

/-- What a reader takes off the front of some bytes, or the failure in them. -/
def runReader {α : Type} (reader : Reader α) (bytes : List UInt8) : Except ReadError α :=
  match reader bytes with
  | .ok (x, _) => .ok x
  | .error f => .error (f.locate bytes)

/-- The tree at the front of some bytes. -/
def read (bytes : List UInt8) : Except ReadError Json :=
  runReader (readValue bytes.length maxNesting) bytes

/-- The tree at the front of a text. -/
def ofText (s : String) : Except ReadError Json := read s.toByteArray.data.toList

end Conformance.Json
