import Conformance.Fixture
import Conformance.Json.Skipping

/-!
# Reading fixture files

A fixture file is an array of fixtures. A fixture is an object with the fields of `Field`, or an
array of them in order. Unknown fields are skipped, a field may not occur twice, and only `subset`
may be missing. A wrong kind of value fails once a scalar has been read, and before a bracket.

Results:
* `Fixture.ofBytes`: the fixtures of a file, or the failure in it.
-/

namespace Conformance.Fixture

open Json

/-! ## Fields -/

/-- The fields of a fixture, in their order. -/
inductive Field where
  | name
  | shape
  | value
  | subset
  | expect
  deriving DecidableEq, Repr

namespace Field

def all : List Field := [name, shape, value, subset, expect]

def text : Field → String
  | name => "name"
  | shape => "shape"
  | value => "value"
  | subset => "subset"
  | expect => "expect"

def ofText? (s : String) : Option Field := all.find? fun f => f.text == s

end Field

/-- A fixture of which some fields have been read. -/
structure Draft where
  name : Option String := none
  shape : Option String := none
  value : Option Json := none
  subset : Option Bool := none
  expect : Option Json := none

namespace Draft

def has (d : Draft) : Field → Bool
  | .name => d.name.isSome
  | .shape => d.shape.isSome
  | .value => d.value.isSome
  | .subset => d.subset.isSome
  | .expect => d.expect.isSome

/-- The fixture of a draft, or the first field that it misses. -/
def finish (d : Draft) : Except Field Fixture := do
  let some name := d.name | .error .name
  let some shape := d.shape | .error .shape
  let some value := d.value | .error .value
  let some expect := d.expect | .error .expect
  .ok ⟨name, shape, value, d.subset.getD false, expect⟩

end Draft

/-! ## Values of a kind -/

/-- What a scalar is found to be. -/
def foundOf : Json → Found
  | .null => .null
  | .bool b => .bool b
  | .number n => .number n
  | .string s => .string s
  | .array _ => .sequence
  | .object _ => .map

/-- Fails for a value of another kind than the one expected. -/
def rejectValue {α : Type} (expected : String) : Reader α := fun bytes =>
  if bytes.head? = some '['.toUInt8 then .error (.before (.invalidType .sequence expected) bytes)
  else if bytes.head? = some '\x7b'.toUInt8 then
    .error (.before (.invalidType .map expected) bytes)
  else do
    let (found, rest) ← readScalar bytes
    .error (.before (.invalidType (foundOf found) expected) rest)

def readStringField : Reader String := fun bytes =>
  let bytes := skipBlanks bytes
  if bytes.head? = some '"'.toUInt8 then readString bytes.tail
  else rejectValue "a string" bytes

def readBoolField : Reader Bool := fun bytes =>
  let bytes := skipBlanks bytes
  if bytes.head? = some 't'.toUInt8 then
    (expectWord ['r', 'u', 'e'] bytes.tail).map fun r => (true, r.2)
  else if bytes.head? = some 'f'.toUInt8 then
    (expectWord ['a', 'l', 's', 'e'] bytes.tail).map fun r => (false, r.2)
  else rejectValue "a boolean" bytes

/-- How deep brackets may nest in a field; the array of fixtures and the fixture are around it. -/
def fieldNesting : Nat := maxNesting - 2

/-- Reads a field into a draft; `fuel` may be the number of all bytes. -/
def readField (fuel : Nat) (d : Draft) : Field → Reader Draft
  | .name, bytes => (readStringField bytes).map fun r => ({ d with name := some r.1 }, r.2)
  | .shape, bytes => (readStringField bytes).map fun r => ({ d with shape := some r.1 }, r.2)
  | .value, bytes =>
    (readValue fuel fieldNesting bytes).map fun r => ({ d with value := some r.1 }, r.2)
  | .subset, bytes => (readBoolField bytes).map fun r => ({ d with subset := some r.1 }, r.2)
  | .expect, bytes =>
    (readValue fuel fieldNesting bytes).map fun r => ({ d with expect := some r.1 }, r.2)

/-! ## Fixtures -/

/-- The bytes after the next blanks, and after a closing brace if one is next. -/
def pastBrace (bytes : List UInt8) : List UInt8 :=
  let bytes := skipBlanks bytes
  if bytes.head? = some '\x7d'.toUInt8 then bytes.tail else bytes

/-- The fields of a fixture after its opening brace, and the closing one. There are no more of them
than bytes, so that `fuel` and `count` may be the number of all bytes. -/
def readObject (fuel : Nat) : (count : Nat) → (first : Bool) → Draft → Reader Fixture
  | 0, _, _, bytes => .error (.behind .eofInObject bytes)
  | count + 1, first, draft, bytes => do
    let (key?, bytes) ← Reader.within .unreadKey (nextKey first) bytes
    match key? with
    | none =>
      match draft.finish with
      | .ok fixture => .ok (fixture, pastBrace bytes)
      | .error field => .error (.before (.missingField field.text) (pastBrace bytes))
    | some key =>
      match Field.ofText? key with
      | some field =>
        if draft.has field then .error (.before (.duplicateField key) (pastBrace bytes))
        else do
          let ((), bytes) ← readColon bytes
          let (draft, bytes) ← Reader.within (.key key) (readField fuel draft field) bytes
          readObject fuel count false draft bytes
      | none => do
        let ((), bytes) ← readColon bytes
        let ((), bytes) ← Reader.within (.key key) (skipValue fuel) bytes
        readObject fuel count false draft bytes

/-- The end of a fixture that is an array. -/
def readTupleEnd : Reader Unit := fun bytes =>
  let bytes := skipBlanks bytes
  match bytes with
  | [] => .error (.behind .eofInList [])
  | b :: rest =>
    if b == ']'.toUInt8 then .ok ((), rest)
    else if b == ','.toUInt8 then
      let rest := skipBlanks rest
      if rest.head? = some ']'.toUInt8 then .error (.behind .trailingComma rest)
      else .error (.behind .trailingCharacters rest)
    else .error (.behind .trailingCharacters bytes)

/-- The fields of a fixture in order, after its opening bracket, and the closing one. -/
def readTuple (fuel : Nat) : List Field → (index : Nat) → Draft → Reader Fixture
  | [], index, draft, bytes => do
    let ((), bytes) ← readTupleEnd bytes
    match draft.finish with
    | .ok fixture => .ok (fixture, bytes)
    | .error _ => .error (.before (.invalidLength index "struct Fixture with 5 elements") bytes)
  | field :: fields, index, draft, bytes => do
    let (more, bytes) ← nextElement (index == 0) bytes
    if more then do
      let (draft, bytes) ← Reader.within (.index index) (readField fuel draft field) bytes
      readTuple fuel fields (index + 1) draft bytes
    else if field = .subset then readTuple fuel fields (index + 1) draft bytes
    else
      .error (.before (.invalidLength index "struct Fixture with 5 elements") bytes.tail)

/-- A fixture; `fuel` may be the number of all bytes. -/
def readFixture (fuel : Nat) : Reader Fixture := fun bytes =>
  let bytes := skipBlanks bytes
  if bytes.head? = some '['.toUInt8 then readTuple fuel Field.all 0 {} bytes.tail
  else if bytes.head? = some '\x7b'.toUInt8 then readObject fuel fuel true {} bytes.tail
  else rejectValue "struct Fixture" bytes

/-- An array of fixtures. -/
def readFixtures : Reader (List Fixture) := fun bytes =>
  let bytes := skipBlanks bytes
  if bytes.head? = some '['.toUInt8 then
    readElements (readFixture bytes.length) bytes.length 0 bytes.tail
  else rejectValue "a sequence" bytes

/-- The fixtures of a file. -/
def ofBytes (bytes : List UInt8) : Except ReadError (List Fixture) :=
  runReader readFixtures bytes

end Conformance.Fixture
