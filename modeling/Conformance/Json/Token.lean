import Conformance.Json.Failure

/-!
# Tokens of JSON text

Readers of the parts of JSON that hold no other values: blanks, the three words, numbers and
strings. Each takes its token off the front of the bytes.

A number whose integer part fits 64 bits and has no fraction or exponent is an integer. Any other
one keeps the digits of its significand that fit 64 bits and lets the further ones move the point;
the significand is then rounded to binary64 and scaled by a power of ten, with one more rounding.

Results:
* `skipBlanks`, `expectWord`, `readNumber`, `readString`: the readers.
* `scale`: a number times a power of ten, unless it overflows.
* `length_readEscape`: an escape takes at least one byte.
-/

namespace Conformance.Json

/-! ## Bytes -/

def isBlank (b : UInt8) : Bool :=
  b == ' '.toUInt8 || b == '\n'.toUInt8 || b == '\t'.toUInt8 || b == '\r'.toUInt8

def isDigit (b : UInt8) : Bool := '0'.toUInt8 ≤ b && b ≤ '9'.toUInt8

def digitValue (b : UInt8) : Nat := b.toNat - '0'.toNat

/-- The value of a hexadecimal digit of either case. -/
def hexValue? (b : UInt8) : Option Nat :=
  if isDigit b then some (digitValue b)
  else if 'a'.toUInt8 ≤ b && b ≤ 'f'.toUInt8 then some (b.toNat - 'a'.toNat + 10)
  else if 'A'.toUInt8 ≤ b && b ≤ 'F'.toUInt8 then some (b.toNat - 'A'.toNat + 10)
  else none

def skipBlanks (bytes : List UInt8) : List UInt8 := bytes.dropWhile isBlank

/-! ## Words -/

/-- The rest of a word, byte by byte; a wrong byte is taken as well. -/
def expectWord : List Char → Reader Unit
  | [], bytes => .ok ((), bytes)
  | _ :: _, [] => .error (.before .eofInValue [])
  | c :: word, b :: rest =>
    if b == c.toUInt8 then expectWord word rest else .error (.before .expectedWord rest)

/-! ## Numbers -/

/-- The greatest significand that is kept. -/
def maxSignificand : Nat := (1 <<< 64) - 1

/-- The greatest exponent that is kept. -/
def maxExponent : Nat := (1 <<< 31) - 1

/-- Takes digits into a significand as long as it fits, and counts those left out. -/
def takeDigits : Nat → List UInt8 → Nat × Nat
  | significand, [] => (significand, 0)
  | significand, b :: rest =>
    let wider := significand * 10 + digitValue b
    if wider ≤ maxSignificand then takeDigits wider rest else (significand, rest.length + 1)

/-- Takes digits into an exponent as long as it fits. Where it does not, says how many digits come
after the one that went too far. -/
def takeExponent : Nat → List UInt8 → Nat × Option Nat
  | exponent, [] => (exponent, none)
  | exponent, b :: rest =>
    let wider := exponent * 10 + digitValue b
    if wider ≤ maxExponent then takeExponent wider rest else (exponent, some rest.length)

/-- A number times a power of ten, unless it overflows. A power past the greatest finite one is
applied in parts. -/
def scale (x : Binary64) (exponent : Int) : Option Binary64 :=
  if exponent.natAbs ≤ 308 then
    if 0 ≤ exponent then
      let y := x.mul (.powerOfTen exponent.natAbs)
      if y.isFinite then some y else none
    else some (x.div (.powerOfTen exponent.natAbs))
  else if x.isZero then some x
  else if 0 ≤ exponent then none
  else scale (x.div (.powerOfTen 308)) (exponent + 308)
termination_by exponent.natAbs

/-- The number of a significand and a power of ten, read up to `rest`. -/
def scaledNumber (negative : Bool) (significand : Nat) (exponent : Int) : Reader Number :=
  fun rest =>
    match scale (.ofInt significand) exponent with
    | some x => .ok (.float (if negative then x.neg else x), rest)
    | none => .error (.before .numberOutOfRange rest)

/-- The part of a number after the letter of the exponent. -/
def readExponent (negative : Bool) (significand : Nat) (exponent : Int) : Reader Number :=
  fun bytes =>
    let signed := bytes.head?.any fun b => b == '+'.toUInt8 || b == '-'.toUInt8
    let down := bytes.head?.any fun b => b == '-'.toUInt8
    match if signed then bytes.tail else bytes with
    | [] => .error (.before .eofInValue [])
    | b :: rest =>
      if isDigit b then
        let digits := rest.takeWhile isDigit
        let after := rest.dropWhile isDigit
        match takeExponent (digitValue b) digits with
        | (e, none) =>
          scaledNumber negative significand (if down then exponent - e else exponent + e) after
        | (_, some left) =>
          if significand ≠ 0 ∧ !down then
            .error (.before .numberOutOfRange (digits.drop (digits.length - left) ++ after))
          else .ok (.float (if negative then (Binary64.ofInt 0).neg else .ofInt 0), after)
      else .error (.before .invalidNumber rest)

/-- An exponent, if there is one. -/
def readScale (negative : Bool) (significand : Nat) (exponent : Int) : Reader Number :=
  fun bytes =>
    match bytes with
    | b :: rest =>
      if b == 'e'.toUInt8 || b == 'E'.toUInt8 then readExponent negative significand exponent rest
      else scaledNumber negative significand exponent bytes
    | [] => scaledNumber negative significand exponent bytes

/-- The part of a number after the point. -/
def readFraction (negative : Bool) (significand : Nat) (exponent : Int) : Reader Number :=
  fun bytes =>
    let digits := bytes.takeWhile isDigit
    let after := bytes.dropWhile isDigit
    if digits.isEmpty then
      .error (.behind (if after.isEmpty then .eofInValue else .invalidNumber) after)
    else
      let (wider, left) := takeDigits significand digits
      readScale negative wider (exponent - (digits.length - left : Nat)) after

/-- The integer of a significand, where it fits 64 bits; zero with a sign is no integer. -/
def wholeNumber (negative : Bool) (significand : Nat) : Number :=
  if negative then
    if significand = 0 ∨ 1 <<< 63 < significand then .float (Binary64.ofInt significand).neg
    else .int (-significand)
  else .int significand

/-- What follows the digits before the point, of which `left` were left out. -/
def readAfterInteger (negative : Bool) (significand left : Nat) : Reader Number := fun bytes =>
  match bytes with
  | b :: rest =>
    if b == '.'.toUInt8 then readFraction negative significand left rest
    else if b == 'e'.toUInt8 || b == 'E'.toUInt8 then readExponent negative significand left rest
    else if left = 0 then .ok (wholeNumber negative significand, bytes)
    else scaledNumber negative significand left bytes
  | [] =>
    if left = 0 then .ok (wholeNumber negative significand, bytes)
    else scaledNumber negative significand left bytes

/-- A number, after its sign. A leading zero stands alone. -/
def readNumber (negative : Bool) : Reader Number := fun bytes =>
  match bytes with
  | [] => .error (.before .eofInValue [])
  | b :: rest =>
    if b == '0'.toUInt8 then
      if rest.head?.any isDigit then .error (.behind .invalidNumber rest)
      else readAfterInteger negative 0 0 rest
    else if isDigit b then
      let digits := rest.takeWhile isDigit
      let (significand, left) := takeDigits (digitValue b) digits
      readAfterInteger negative significand left (rest.dropWhile isDigit)
    else .error (.before .invalidNumber rest)

/-! ## Strings -/

/-- Four hexadecimal digits. -/
def readHex4 : Reader Nat
  | a :: b :: c :: d :: rest =>
    match hexValue? a, hexValue? b, hexValue? c, hexValue? d with
    | some a, some b, some c, some d => .ok (((a * 16 + b) * 16 + c) * 16 + d, rest)
    | _, _, _, _ => .error (.before .invalidEscape rest)
  | _ => .error (.before .eofInString [])

/-- The bytes of a code point. -/
def encodeCodePoint (n : Nat) : List UInt8 := String.utf8EncodeChar (Char.ofNat n)

/-- A byte that a surrogate pair needs next. -/
def expectSurrogateByte (c : Char) : Reader Unit
  | [] => .error (.before .eofInString [])
  | b :: rest =>
    if b == c.toUInt8 then .ok ((), rest) else .error (.before .unfinishedSurrogate rest)

/-- The code point of an escape by number, after the letter. -/
def readCodePoint : Reader (List UInt8) := fun bytes => do
  let (n, rest) ← readHex4 bytes
  if 0xdc00 ≤ n ∧ n ≤ 0xdfff then .error (.before .loneSurrogate rest)
  else if 0xd800 ≤ n ∧ n ≤ 0xdbff then do
    let ((), rest) ← expectSurrogateByte '\\' rest
    let ((), rest) ← expectSurrogateByte 'u' rest
    let (m, rest) ← readHex4 rest
    if 0xdc00 ≤ m ∧ m ≤ 0xdfff then
      .ok (encodeCodePoint (0x10000 + (n - 0xd800) * 0x400 + (m - 0xdc00)), rest)
    else .error (.before .loneSurrogate rest)
  else .ok (encodeCodePoint n, rest)

/-- The letters of escapes with the bytes they stand for. -/
def escapeLetters : List (UInt8 × UInt8) :=
  [('"'.toUInt8, '"'.toUInt8), ('\\'.toUInt8, '\\'.toUInt8), ('/'.toUInt8, '/'.toUInt8),
    ('b'.toUInt8, 0x08), ('f'.toUInt8, 0x0c), ('n'.toUInt8, '\n'.toUInt8),
    ('r'.toUInt8, '\r'.toUInt8), ('t'.toUInt8, '\t'.toUInt8)]

/-- An escape, after its backslash. -/
def readEscape : Reader (List UInt8)
  | [] => .error (.before .eofInString [])
  | b :: rest =>
    if b == 'u'.toUInt8 then readCodePoint rest
    else
      match escapeLetters.lookup b with
      | some byte => .ok ([byte], rest)
      | none => .error (.before .invalidEscape rest)

theorem length_readHex4 {bytes rest : List UInt8} {n : Nat} (h : readHex4 bytes = .ok (n, rest)) :
    rest.length < bytes.length := by
  unfold readHex4 at h
  split at h
  · split at h
    · cases h
      simp only [List.length_cons]
      omega
    · cases h
  · cases h

theorem length_expectSurrogateByte {c : Char} {bytes rest : List UInt8}
    (h : expectSurrogateByte c bytes = .ok ((), rest)) : rest.length < bytes.length := by
  unfold expectSurrogateByte at h
  split at h
  · cases h
  · split at h
    · cases h
      simp
    · cases h

theorem length_readCodePoint {bytes rest out : List UInt8}
    (h : readCodePoint bytes = .ok (out, rest)) : rest.length < bytes.length := by
  unfold readCodePoint at h
  cases h1 : readHex4 bytes with
  | error e => simp [h1, bind, Except.bind] at h
  | ok p =>
    obtain ⟨n, r1⟩ := p
    have l1 := length_readHex4 h1
    simp only [h1, bind, Except.bind] at h
    split at h
    · cases h
    · split at h
      · cases h2 : expectSurrogateByte '\\' r1 with
        | error e => simp [h2] at h
        | ok p =>
          obtain ⟨⟨⟩, r2⟩ := p
          have l2 := length_expectSurrogateByte h2
          simp only [h2] at h
          cases h3 : expectSurrogateByte 'u' r2 with
          | error e => simp [h3] at h
          | ok p =>
            obtain ⟨⟨⟩, r3⟩ := p
            have l3 := length_expectSurrogateByte h3
            simp only [h3] at h
            cases h4 : readHex4 r3 with
            | error e => simp [h4] at h
            | ok p =>
              obtain ⟨m, r4⟩ := p
              have l4 := length_readHex4 h4
              simp only [h4] at h
              split at h
              · simp only [Except.ok.injEq, Prod.mk.injEq] at h
                rw [← h.2]
                omega
              · cases h
      · simp only [Except.ok.injEq, Prod.mk.injEq] at h
        rw [← h.2]
        exact l1

theorem length_readEscape {bytes rest out : List UInt8} (h : readEscape bytes = .ok (out, rest)) :
    rest.length < bytes.length := by
  unfold readEscape at h
  split at h
  · cases h
  · split at h
    · have := length_readCodePoint h
      simp only [List.length_cons]
      omega
    · split at h
      · cases h
        simp
      · cases h

/-- The bytes that a string stands for, up to its closing quote. -/
def readStringBytes : Reader (List UInt8)
  | [] => .error (.before .eofInString [])
  | b :: rest =>
    if b == '"'.toUInt8 then .ok ([], rest)
    else if b == '\\'.toUInt8 then
      match h : readEscape rest with
      | .ok (out, after) =>
        have := length_readEscape h
        (readStringBytes after).map fun r => (out ++ r.1, r.2)
      | .error e => .error e
    else if b < 0x20 then .error (.before .controlCharacter rest)
    else (readStringBytes rest).map fun r => (b :: r.1, r.2)
termination_by bytes => bytes.length

/-- How many of the first bytes make up whole characters, from a position on. -/
def validLength (bytes : ByteArray) : Nat → Nat → Nat
  | 0, position => position
  | fuel + 1, position =>
    match bytes.utf8DecodeChar? position with
    | some c => validLength bytes fuel (position + c.utf8Size)
    | none => position

/-- A string, after its opening quote. Bytes that are no characters are a failure at the place
where they begin, counted back from the closing quote by the bytes that the string stands for. -/
def readString : Reader String := fun bytes => do
  let (content, rest) ← readStringBytes bytes
  let encoded := content.toByteArray
  match String.fromUTF8? encoded with
  | some s => .ok (s, rest)
  | none =>
    let invalid := encoded.size - validLength encoded encoded.size 0
    .error ⟨.invalidCodePoint, [], rest.length + invalid⟩

end Conformance.Json
