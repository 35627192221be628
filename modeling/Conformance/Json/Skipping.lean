import Conformance.Json.Reader

/-!
# Skipping JSON values

A value that nobody asked for is only scanned. Brackets may nest without limit, numbers may be of
any size, escapes by number need not name a character, and bytes need not be UTF-8. Inside an array
a comma awaits a value, and inside an object a key.

Results:
* `skipValue`: the bytes after a value.
-/

namespace Conformance.Json

/-- The kinds of bracket that are open around a place. -/
inductive Bracket where
  | square
  | curly
  deriving DecidableEq, Repr

namespace Bracket

def closing : Bracket → UInt8
  | square => ']'.toUInt8
  | curly => '\x7d'.toUInt8

def eof : Bracket → Cause
  | square => .eofInList
  | curly => .eofInObject

def expected : Bracket → Cause
  | square => .expectedCommaOrBracket
  | curly => .expectedCommaOrBrace

end Bracket

/-! ## Scalars -/

/-- An exponent without limit, after its letter. -/
def skipExponent : Reader Unit := fun bytes =>
  let signed := bytes.head?.any fun b => b == '+'.toUInt8 || b == '-'.toUInt8
  match if signed then bytes.tail else bytes with
  | [] => .error (.before .invalidNumber [])
  | b :: rest =>
    if isDigit b then .ok ((), rest.dropWhile isDigit) else .error (.before .invalidNumber rest)

/-- What may follow the digits of a number: an exponent, or nothing. -/
def skipScale : Reader Unit := fun bytes =>
  match bytes with
  | b :: rest =>
    if b == 'e'.toUInt8 || b == 'E'.toUInt8 then skipExponent rest else .ok ((), bytes)
  | [] => .ok ((), bytes)

/-- What may follow the digits before the point. -/
def skipAfterInteger : Reader Unit := fun bytes =>
  match bytes with
  | b :: rest =>
    if b == '.'.toUInt8 then
      if rest.head?.any isDigit then skipScale (rest.dropWhile isDigit)
      else .error (.behind .invalidNumber rest)
    else skipScale bytes
  | [] => .ok ((), bytes)

/-- A number, after its sign. -/
def skipNumber : Reader Unit := fun bytes =>
  match bytes with
  | [] => .error (.before .invalidNumber [])
  | b :: rest =>
    if b == '0'.toUInt8 then
      if rest.head?.any isDigit then .error (.behind .invalidNumber rest)
      else skipAfterInteger rest
    else if isDigit b then skipAfterInteger (rest.dropWhile isDigit)
    else .error (.before .invalidNumber rest)

/-- An escape, after its backslash. -/
def skipEscape : Reader Unit
  | [] => .error (.before .eofInString [])
  | b :: rest =>
    if b == 'u'.toUInt8 then (readHex4 rest).map fun r => ((), r.2)
    else if (escapeLetters.lookup b).isSome then .ok ((), rest)
    else .error (.before .invalidEscape rest)

theorem length_skipEscape {bytes rest : List UInt8} (h : skipEscape bytes = .ok ((), rest)) :
    rest.length < bytes.length := by
  unfold skipEscape at h
  split at h
  · cases h
  · rename_i b after
    split at h
    · cases hx : readHex4 after with
      | error e => simp [hx, Except.map] at h
      | ok p =>
        obtain ⟨n, left⟩ := p
        have := length_readHex4 hx
        simp only [hx, Except.map, Except.ok.injEq, Prod.mk.injEq, true_and] at h
        subst h
        simp only [List.length_cons]
        omega
    · split at h
      · cases h
        simp
      · cases h

/-- A string, after its opening quote. A control character is left unread. -/
def skipString : Reader Unit
  | [] => .error (.before .eofInString [])
  | b :: rest =>
    if b == '"'.toUInt8 then .ok ((), rest)
    else if b == '\\'.toUInt8 then
      match h : skipEscape rest with
      | .ok ((), after) =>
        have := length_skipEscape h
        skipString after
      | .error e => .error e
    else if b < 0x20 then .error (.before .controlCharacter (b :: rest))
    else skipString rest
termination_by bytes => bytes.length

/-- A key and its colon. -/
def skipKey : Reader Unit := fun bytes =>
  let bytes := skipBlanks bytes
  match bytes with
  | [] => .error (.behind .eofInObject [])
  | b :: rest =>
    if b == '"'.toUInt8 then do
      let ((), rest) ← skipString rest
      readColon rest
    else .error (.behind .keyNotString bytes)

/-- A value without brackets. -/
def skipScalar : Reader Unit := fun bytes =>
  match bytes with
  | [] => .error (.behind .eofInValue [])
  | b :: rest =>
    if b == 'n'.toUInt8 then expectWord ['u', 'l', 'l'] rest
    else if b == 't'.toUInt8 then expectWord ['r', 'u', 'e'] rest
    else if b == 'f'.toUInt8 then expectWord ['a', 'l', 's', 'e'] rest
    else if b == '-'.toUInt8 then skipNumber rest
    else if isDigit b then skipNumber bytes
    else if b == '"'.toUInt8 then skipString rest
    else .error (.behind .expectedValue bytes)

/-! ## Brackets -/

/-- Where a scan is: a value is awaited, or one has just ended, or a bracket has just opened. -/
inductive Awaiting where
  | value
  | afterValue
  | afterOpening
  deriving DecidableEq, Repr

/-- Scans up to the end of the outermost value, given the open brackets, innermost first. Two steps
never pass without a byte being taken, so that `fuel` may be twice the number of bytes. -/
def skipFrom : (fuel : Nat) → Awaiting → List Bracket → Reader Unit
  | 0, _, _, bytes => .error (.behind .eofInValue bytes)
  | fuel + 1, .value, stack, bytes =>
    let bytes := skipBlanks bytes
    match bytes with
    | [] => skipScalar bytes
    | b :: rest =>
      if b == '['.toUInt8 then skipFrom fuel .afterOpening (.square :: stack) rest
      else if b == '\x7b'.toUInt8 then skipFrom fuel .afterOpening (.curly :: stack) rest
      else do
        let ((), rest) ← skipScalar bytes
        skipFrom fuel .afterValue stack rest
  | _ + 1, _, [], bytes => .ok ((), bytes)
  | fuel + 1, state, bracket :: stack, bytes =>
    let bytes := skipBlanks bytes
    let item (bytes : List UInt8) : Except Failure (Unit × List UInt8) := do
      let ((), bytes) ← if bracket = .curly then skipKey bytes else .ok ((), bytes)
      skipFrom fuel .value (bracket :: stack) bytes
    match bytes with
    | [] => .error (.behind bracket.eof [])
    | b :: rest =>
      if b == bracket.closing then skipFrom fuel .afterValue stack rest
      else if state = .afterOpening then item bytes
      else if b == ','.toUInt8 then item rest
      else .error (.behind bracket.expected bytes)

/-- Scans a value; `fuel` may be the number of all bytes. -/
def skipValue (fuel : Nat) : Reader Unit := skipFrom (2 * fuel + 1) .value []

end Conformance.Json
