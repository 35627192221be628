import Conformance.Marker

/-!
# Shapes

A shape describes the values that are expected somewhere: anything but undefined, one literal, the
values of a marker or a class, the arrays whose elements have a shape, the records whose declared
keys have theirs, and a shape widened by a modifier to undefined or to null.

Results:
* `Shape.isIdentical`: is the value the very thing that the shape names?
* `Modifier.admits`: the value that a modifier lets through.
* `Shape.beq`: equality up to the order of declared keys.
-/

namespace Conformance

/-- A value that only an identical value matches. -/
inductive Literal where
  | bool (b : Bool)
  | number (x : Binary64)
  | bigint (n : Int)
  | string (s : String)
  | symbol (s : Symbol)

/-- A widening of a shape by one more value. -/
inductive Modifier where
  /-- lets undefined through -/
  | optional
  /-- lets null through -/
  | nullable
  deriving DecidableEq, Repr

/-- A shape. -/
inductive Shape where
  /-- every value but undefined -/
  | any
  | undefined
  | null
  | literal (l : Literal)
  | marker (m : Marker)
  | ofClass (c : Class)
  /-- an array whose every element has the shape -/
  | array (element : Shape)
  /-- a record or an instance whose declared keys read as values of their shapes -/
  | object (fields : List (String × Shape))
  | wrapped (m : Modifier) (inner : Shape)

/-! ## Literals and modifiers -/

namespace Literal

/-- Is the value identical to the literal? Numbers compare as in binary64, symbols by identity, and
a number never equals a big integer. -/
def isIdentical : Literal → Value → Bool
  | bool a, .bool b => a == b
  | number a, .number b => a == b
  | bigint a, .bigint b => a == b
  | string a, .string b => a == b
  | symbol a, .symbol b => a == b
  | _, _ => false

/-- The literal as a value. -/
def toValue : Literal → Value
  | bool b => .bool b
  | number x => .number x
  | bigint n => .bigint n
  | string s => .string s
  | symbol s => .symbol s

def beq : Literal → Literal → Bool
  | bool a, bool b => a == b
  | number a, number b => a == b
  | bigint a, bigint b => a == b
  | string a, string b => a == b
  | symbol a, symbol b => a == b
  | _, _ => false

instance : BEq Literal := ⟨beq⟩

end Literal

/-- Does the modifier let the value through? -/
def Modifier.admits : Modifier → Value → Bool
  | optional, v => v.isUndefined
  | nullable, v => v.isNull

namespace Shape

/-- Is the value the very thing that the shape names? -/
def isIdentical : Shape → Value → Bool
  | literal l, v => l.isIdentical v
  | undefined, .undefined => true
  | null, .null => true
  | ofClass c, .constructor d => c == d
  | _, _ => false

/-! ## Equality -/

mutual

/-- Equality up to the order of declared keys. -/
def beq : Shape → Shape → Bool
  | any, any => true
  | undefined, undefined => true
  | null, null => true
  | literal a, literal b => a == b
  | marker a, marker b => a == b
  | ofClass a, ofClass b => a == b
  | array a, array b => beq a b
  | object a, object b => a.length == b.length && beqFields a b
  | wrapped m a, wrapped n b => m == n && beq a b
  | _, _ => false

/-- Every declared key of the first pattern has an equal shape in the second. -/
def beqFields : List (String × Shape) → List (String × Shape) → Bool
  | [], _ => true
  | (key, a) :: rest, other =>
    (match Record.get? other key with
      | some b => beq a b
      | none => false) && beqFields rest other

end

instance : BEq Shape := ⟨beq⟩

end Shape

end Conformance
