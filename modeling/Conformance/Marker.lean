import Conformance.Value

/-!
# Type markers

A marker stands for one kind of value, by a predicate in a table. A class counts as a function;
an instance of a class is not a plain object.

Results:
* `Marker.table`: the markers in their order, each with its predicate.
* `Marker.accepts`: does a value satisfy a marker?
-/

namespace Conformance

/-- The kinds of value with a marker of their own, in their order. -/
inductive Marker where
  | boolean
  | number
  | string
  | object
  | array
  | date
  | bigint
  | symbol
  | function
  deriving DecidableEq, Repr

namespace Marker

def name : Marker → String
  | boolean => "Boolean"
  | number => "Number"
  | string => "String"
  | object => "Object"
  | array => "Array"
  | date => "Date"
  | bigint => "BigInt"
  | symbol => "Symbol"
  | function => "Function"

/-! ## Predicates -/

def isBoolean : Value → Bool
  | .bool _ => true
  | _ => false

/-- Every number, the NaNs and infinities too. -/
def isNumber : Value → Bool
  | .number _ => true
  | _ => false

def isString : Value → Bool
  | .string _ => true
  | _ => false

/-- Plain records only. -/
def isPlainObject : Value → Bool
  | .object _ => true
  | _ => false

def isArray : Value → Bool
  | .array _ => true
  | _ => false

def isDate : Value → Bool
  | .date _ => true
  | _ => false

def isBigInt : Value → Bool
  | .bigint _ => true
  | _ => false

def isSymbol : Value → Bool
  | .symbol _ => true
  | _ => false

/-- Functions, and classes as well. -/
def isFunction : Value → Bool
  | .function _ => true
  | .constructor _ => true
  | _ => false

/-! ## The table -/

/-- Every marker with its predicate, in the order of the markers. -/
def table : List (Marker × (Value → Bool)) :=
  [(boolean, isBoolean), (number, isNumber), (string, isString), (object, isPlainObject),
    (array, isArray), (date, isDate), (bigint, isBigInt), (symbol, isSymbol),
    (function, isFunction)]

/-- The markers in their order. -/
def all : List Marker := table.map Prod.fst

/-- Does the value satisfy the marker? A marker outside the table accepts nothing. -/
def accepts (m : Marker) (v : Value) : Bool :=
  match table.lookup m with
  | some predicate => predicate v
  | none => false

end Marker

end Conformance
