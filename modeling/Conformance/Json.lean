import Conformance.Binary64.Shortest
import Conformance.Record

/-!
# JSON trees

A JSON tree keeps the order of the keys of its objects and tells integers from other numbers.
Equality ignores the order of keys at every level, and an integer never equals another number.

Results:
* `Json.beq`: equality up to the order of keys.
* `Json.ofBinary64`: a number as JSON, as an integer where the 64-bit range allows it.
-/

namespace Conformance

/-- A JSON number: an integer, or any other finite number. -/
inductive Json.Number where
  | int (n : Int)
  | float (x : Binary64)

/-- A JSON tree. -/
inductive Json where
  | null
  | bool (b : Bool)
  | number (n : Json.Number)
  | string (s : String)
  | array (items : List Json)
  | object (fields : List (String × Json))

namespace Json

/-! ## Numbers -/

namespace Number

/-- Integers equal integers; other numbers compare by the standard for binary64. -/
def beq : Number → Number → Bool
  | int a, int b => a == b
  | float a, float b => a == b
  | _, _ => false

instance : BEq Number := ⟨beq⟩

/-- The number as binary64, rounded. -/
def toBinary64 : Number → Binary64
  | int n => .ofInt n
  | float x => x

def text : Number → String
  | int n => toString n
  | float x => x.text

end Number

/-- The greatest signed integer of 64 bits. -/
def maxInteger : Int := (1 <<< 63 : Nat) - 1

/-- A number as JSON. A whole number from `-2 ^ 63` to `2 ^ 63` is written as an integer, the last
of them as the greatest one of 64 bits; another finite number keeps its kind; the rest is null. -/
def ofBinary64 (x : Binary64) : Json :=
  match x.toInt? with
  | some n =>
    if -maxInteger - 1 ≤ n ∧ n ≤ maxInteger + 1 then number (.int (min n maxInteger))
    else number (.float x)
  | none => if x.isFinite then number (.float x) else null

/-! ## Equality -/

mutual

/-- Equality up to the order of keys. -/
def beq : Json → Json → Bool
  | null, null => true
  | bool a, bool b => a == b
  | number a, number b => a == b
  | string a, string b => a == b
  | array a, array b => beqItems a b
  | object a, object b => a.length == b.length && beqFields a b
  | _, _ => false

/-- Equality of lists, place by place. -/
def beqItems : List Json → List Json → Bool
  | [], [] => true
  | a :: as, b :: bs => beq a b && beqItems as bs
  | _, _ => false

/-- Every field of the first object equals the one under the same key of the second. -/
def beqFields : List (String × Json) → List (String × Json) → Bool
  | [], _ => true
  | (key, a) :: rest, other =>
    (match Record.get? other key with
      | some b => beq a b
      | none => false) && beqFields rest other

end

instance : BEq Json := ⟨beq⟩

/-! ## Access -/

/-- The fields of an object. -/
def fields? : Json → Option (Record Json)
  | object fields => some fields
  | _ => none

end Json

end Conformance
