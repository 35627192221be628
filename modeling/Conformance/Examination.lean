import Conformance.Report

/-!
# Examination of a value

The rules of a shape, tried in a fixed order of which the first one that applies decides: identity,
any, literals, null and undefined, modifiers, markers, classes, arrays, records. Two walks follow
them. `Shape.examine` visits everything and reports every departure; `Shape.accepts` stops at the
first one and only says whether there is any.

Both step into an element under its decimal index and into a declared key under the key; a
modifier and an undeclared key take no step.

Results:
* `Shape.reportWith`, `Shape.report`: the report on a value.
* `Shape.conformsWith`, `Shape.conforms`: does a value conform?
-/

namespace Conformance

/-- How a value is examined. -/
structure Options where
  /-- tolerate keys that a pattern does not declare -/
  subset : Bool := false
  /-- fail once nesting goes deeper than this -/
  maxDepth : Option Nat := none

/-- The own properties that a pattern does not declare, in the order of the value. -/
def undeclaredFields (pattern : Record Shape) (fields : Record Value) : Record Value :=
  fields.filter fun f => !pattern.contains f.1

/-- Does a value belong to a class: by descent, or because its kind has the name of the class? -/
def Class.hasMember (c : Class) (v : Value) : Bool := v.isInstanceOf c || v.typeName == c.name

namespace Shape

/-! ## The exhaustive walk -/

/-- The report on one value, if it departs. -/
abbrev Finding := Option Report

/-- The child entry of a finding. -/
def entry (key : String) : Finding → List (String × Report)
  | some r => [(key, r)]
  | none => []

/-- Walks the elements of an array from an index on and collects the reports on them. -/
def examineItems (visit : Value → Walk Finding) : Nat → List Value → Walk (List (String × Report))
  | _, [] => pure []
  | index, item :: rest => do
    let found ← Walk.child (toString index) (visit item)
    let others ← examineItems visit (index + 1) rest
    pure (entry (toString index) found ++ others)

mutual

/-- Walks a value and reports every departure from the shape. -/
def examine (subset : Bool) (shape : Shape) (value : Value) : Walk Finding :=
  if shape.isIdentical value then pure none
  else
    match shape with
    | any => pure (if value.isUndefined then some (.leaf (.wrongKind value "Any")) else none)
    | literal l => pure (some (.leaf (.wrongLiteral l value)))
    | null => pure (some (.leaf (.wrongKind value "Null")))
    | undefined => pure (some (.leaf (.wrongKind value "Undefined")))
    | wrapped m inner => if m.admits value then pure none else examine subset inner value
    | marker m => pure (if m.accepts value then none else some (.leaf (.wrongKind value m.name)))
    | ofClass c => pure (if c.hasMember value then none else some (.leaf (.wrongKind value c.name)))
    | array element =>
      match value with
      | .array items => Report.nested? <$> examineItems (examine subset element) 0 items
      | _ => pure (some (.leaf (.wrongKind value "Array")))
    | object pattern =>
      match value.fields? with
      | some fields => do
        let extra :=
          if subset then []
          else (undeclaredFields pattern fields).map fun f => (f.1, Report.leaf (.undeclared f.2))
        let wrong ← examineFields subset pattern fields
        pure (Report.nested? (extra ++ wrong))
      | none => pure (some (.leaf (.wrongKind value "Object")))

/-- Walks the declared keys of a pattern and collects the reports on what they read as. -/
def examineFields (subset : Bool) (pattern : List (String × Shape)) (fields : Record Value) :
    Walk (List (String × Report)) :=
  match pattern with
  | [] => pure []
  | (key, shape) :: rest => do
    let found ← Walk.child key (examine subset shape (Value.read fields key))
    let others ← examineFields subset rest fields
    pure (entry key found ++ others)

end

/-! ## The short walk -/

/-- Walks the elements of an array until one fails. -/
def acceptsItems (visit : Value → Walk Bool) : Nat → List Value → Walk Bool
  | _, [] => pure true
  | index, item :: rest => do
    match ← Walk.child (toString index) (visit item) with
    | true => acceptsItems visit (index + 1) rest
    | false => pure false

mutual

/-- Walks a value until it departs from the shape. -/
def accepts (subset : Bool) (shape : Shape) (value : Value) : Walk Bool :=
  if shape.isIdentical value then pure true
  else
    match shape with
    | any => pure !value.isUndefined
    | literal _ => pure false
    | null => pure false
    | undefined => pure false
    | wrapped m inner => if m.admits value then pure true else accepts subset inner value
    | marker m => pure (m.accepts value)
    | ofClass c => pure (c.hasMember value)
    | array element =>
      match value with
      | .array items => acceptsItems (accepts subset element) 0 items
      | _ => pure false
    | object pattern =>
      match value.fields? with
      | some fields =>
        if !subset && !(undeclaredFields pattern fields).isEmpty then pure false
        else acceptsFields subset pattern fields
      | none => pure false

/-- Walks the declared keys of a pattern until one fails. -/
def acceptsFields (subset : Bool) (pattern : List (String × Shape)) (fields : Record Value) :
    Walk Bool :=
  match pattern with
  | [] => pure true
  | (key, shape) :: rest => do
    match ← Walk.child key (accepts subset shape (Value.read fields key)) with
    | true => acceptsFields subset rest fields
    | false => pure false

end

/-! ## Entry points -/

/-- The report on a value, if it departs from the shape. Only a depth limit makes this fail. -/
def reportWith (shape : Shape) (value : Value) (options : Options) :
    Except DepthExceeded (Option Report) :=
  (examine options.subset shape value).answer options.maxDepth

/-- The strict report on a value, without a depth limit. -/
def report (shape : Shape) (value : Value) : Option Report :=
  (shape.reportWith value ⟨false, none⟩).toOption.join

/-- Does a value conform to the shape? Only a depth limit makes this fail. -/
def conformsWith (shape : Shape) (value : Value) (options : Options) :
    Except DepthExceeded Bool :=
  (accepts options.subset shape value).answer options.maxDepth

/-- Does a value conform to the shape, strictly and without a depth limit? -/
def conforms (shape : Shape) (value : Value) : Bool :=
  (shape.conformsWith value ⟨false, none⟩).toOption.getD false

end Shape

end Conformance
