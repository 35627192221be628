import Conformance.Identity
import Conformance.Instant
import Conformance.Json.Printer

/-!
# Values

The values that shapes describe: the six kinds of JSON, and beyond them undefined (what an absent
property reads as), big integers, symbols, dates, functions, classes and instances of classes.

Results:
* `Value.typeName`: the name of a value's kind; an instance has the name of its class.
* `Value.get`: what a property reads as.
* `Value.beq`: equality up to the order of keys, numbers as in binary64, identities by identity.
* `Value.toJson`, `Value.ofJson`, `Value.preview`: a value as JSON, back, and as one line of text.
-/

namespace Conformance

/-- A value. -/
inductive Value where
  | undefined
  | null
  | bool (b : Bool)
  | number (x : Binary64)
  | bigint (n : Int)
  | string (s : String)
  | symbol (s : Symbol)
  | array (items : List Value)
  | object (fields : List (String × Value))
  | instanceOf (c : Class) (fields : List (String × Value))
  | date (t : Instant)
  | function (f : NamedFunction)
  | constructor (c : Class)

namespace Value

/-- The name of the value's kind. -/
def typeName : Value → String
  | undefined => "Undefined"
  | null => "Null"
  | bool _ => "Boolean"
  | number _ => "Number"
  | bigint _ => "BigInt"
  | string _ => "String"
  | symbol _ => "Symbol"
  | array _ => "Array"
  | object _ => "Object"
  | instanceOf c _ => c.name
  | date _ => "Date"
  | function _ => "Function"
  | constructor _ => "Function"

def isUndefined : Value → Bool
  | undefined => true
  | _ => false

def isNull : Value → Bool
  | null => true
  | _ => false

/-- The own properties of a record or an instance. -/
def fields? : Value → Option (Record Value)
  | object fields => some fields
  | instanceOf _ fields => some fields
  | _ => none

/-- What a record reads as under a key: undefined where the key is absent. -/
def read (fields : Record Value) (key : String) : Value := (fields.get? key).getD undefined

/-- What a property of any value reads as. -/
def get (v : Value) (key : String) : Value :=
  match v.fields? with
  | some fields => read fields key
  | none => undefined

/-- Is the value an instance of the class or of one that descends from it? -/
def isInstanceOf (v : Value) (c : Class) : Bool :=
  match v with
  | instanceOf own _ => own.descendsFrom c
  | _ => false

/-! ## Equality -/

mutual

/-- Equality up to the order of keys. -/
def beq : Value → Value → Bool
  | undefined, undefined => true
  | null, null => true
  | bool a, bool b => a == b
  | number a, number b => a == b
  | bigint a, bigint b => a == b
  | string a, string b => a == b
  | symbol a, symbol b => a == b
  | array a, array b => beqItems a b
  | object a, object b => a.length == b.length && beqFields a b
  | instanceOf c a, instanceOf d b => c == d && a.length == b.length && beqFields a b
  | date a, date b => a == b
  | function a, function b => a == b
  | constructor a, constructor b => a == b
  | _, _ => false

/-- Equality of lists, place by place. -/
def beqItems : List Value → List Value → Bool
  | [], [] => true
  | a :: as, b :: bs => beq a b && beqItems as bs
  | _, _ => false

/-- Every property of the first record equals the one under the same key of the second. -/
def beqFields : List (String × Value) → List (String × Value) → Bool
  | [], _ => true
  | (key, a) :: rest, other =>
    (match Record.get? other key with
      | some b => beq a b
      | none => false) && beqFields rest other

end

instance : BEq Value := ⟨beq⟩

/-! ## JSON -/

mutual

/-- A value as JSON. Undefined is null, and an undefined property is left out; big integers,
symbols, dates, functions and classes are strings; an instance is the object of its properties. -/
def toJson : Value → Json
  | undefined => .null
  | null => .null
  | bool b => .bool b
  | number x => .ofBinary64 x
  | bigint n => .string (toString n)
  | string s => .string s
  | symbol s => .string ("Symbol(" ++ s.description ++ ")")
  | array items => .array (toJsonItems items)
  | object fields => .object (toJsonFields fields)
  | instanceOf _ fields => .object (toJsonFields fields)
  | date t => .string t.text
  | function f => .string ("[Function: " ++ f.name ++ "]")
  | constructor c => .string ("[class " ++ c.name ++ "]")

def toJsonItems : List Value → List Json
  | [] => []
  | item :: rest => item.toJson :: toJsonItems rest

def toJsonFields : List (String × Value) → List (String × Json)
  | [] => []
  | (key, value) :: rest =>
    if value.isUndefined then toJsonFields rest
    else (key, value.toJson) :: toJsonFields rest

end

mutual

/-- The value that a JSON tree stands for; every number becomes binary64. -/
def ofJson : Json → Value
  | .null => null
  | .bool b => bool b
  | .number n => number n.toBinary64
  | .string s => string s
  | .array items => array (ofJsonItems items)
  | .object fields => object (ofJsonFields fields)

def ofJsonItems : List Json → List Value
  | [] => []
  | item :: rest => ofJson item :: ofJsonItems rest

def ofJsonFields : List (String × Json) → List (String × Value)
  | [] => []
  | (key, value) :: rest => (key, ofJson value) :: ofJsonFields rest

end

/-- A value on one line: its compact JSON, or the word for undefined. -/
def preview (v : Value) : String :=
  if v.isUndefined then "undefined" else v.toJson.compact

end Value

end Conformance
