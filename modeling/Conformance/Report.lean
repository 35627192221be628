import Conformance.Depth
import Conformance.Shape

/-!
# Reports

A report says where a value departs from a shape. It is a tree of keys: its leaves are mismatches
(present but wrong) and undeclared keys, and an inner node has children under property names or
element indices.

Results:
* `Report.nested?`: an inner node, or nothing when there are no children, so that a report never
  has an empty node.
* `Report.leaves`: the leaves with their keys from the root, in report order.
* `Report.text`, `Report.toJson`: the report on one line and as JSON.
* `Report.beq`: equality up to the order of keys.
-/

namespace Conformance

/-- One side of a mismatch: the name of a kind, or a value itself. -/
inductive Label where
  | kind (name : String)
  | literal (v : Value)

/-- A single departure from a shape. -/
inductive Leaf where
  /-- a wrong value; the value is kept where the labels name kinds -/
  | mismatch (actual expected : Label) (value : Option Value)
  /-- the value under a key that the shape does not declare -/
  | unexpected (kind : String) (value : Value)

/-- Where and how a value departs from a shape. -/
inductive Report where
  | leaf (l : Leaf)
  | nested (children : List (String × Report))

/-! ## Leaves -/

namespace Label

def isUndefined : Label → Bool
  | literal v => v.isUndefined
  | kind _ => false

def text : Label → String
  | kind name => name
  | literal v => v.preview

def toJson : Label → Json
  | kind name => .string name
  | literal v => v.toJson

def beq : Label → Label → Bool
  | kind a, kind b => a == b
  | literal a, literal b => a == b
  | _, _ => false

instance : BEq Label := ⟨beq⟩

end Label

namespace Leaf

/-- A value of the wrong kind. -/
def wrongKind (v : Value) (expected : String) : Leaf :=
  mismatch (.kind v.typeName) (.kind expected) (some v)

/-- A value that is not the expected literal: the labels are the values, and none is kept beside
them. -/
def wrongLiteral (expected : Literal) (v : Value) : Leaf :=
  mismatch (.literal v) (.literal expected.toValue) none

/-- A value under an undeclared key. -/
def undeclared (v : Value) : Leaf := unexpected v.typeName v

def isUnexpected : Leaf → Bool
  | unexpected _ _ => true
  | mismatch _ _ _ => false

/-- The leaf on one line. -/
def text : Leaf → String
  | mismatch actual expected (some v) =>
    "expected " ++ expected.text ++ ", got " ++ actual.text ++ " (" ++ v.preview ++ ")"
  | mismatch actual expected none => "expected " ++ expected.text ++ ", got " ++ actual.text
  | unexpected kind v => "unexpected " ++ kind ++ " (" ++ v.preview ++ ")"

/-- The leaf as a JSON object. An undefined literal has no `actual`, and a value that is not kept or
is undefined has no `value`. -/
def toJson : Leaf → Json
  | mismatch actual expected value =>
    let actualField := if actual.isUndefined then [] else [("actual", actual.toJson)]
    let valueField :=
      match value with
      | some v => if v.isUndefined then [] else [("value", v.toJson)]
      | none => []
    .object (actualField ++ ("expected", expected.toJson) :: valueField)
  | unexpected kind v => .object [("unexpected", .string kind), ("value", v.toJson)]

def beq : Leaf → Leaf → Bool
  | mismatch a e v, mismatch a' e' v' => a == a' && e == e' && v == v'
  | unexpected k v, unexpected k' v' => k == k' && v == v'
  | _, _ => false

instance : BEq Leaf := ⟨beq⟩

end Leaf

/-! ## Trees -/

namespace Report

/-- A node with the given children, or nothing when there are none. -/
def nested? (children : List (String × Report)) : Option Report :=
  if children.isEmpty then none else some (nested children)

def isLeaf : Report → Bool
  | leaf _ => true
  | nested _ => false

/-- The child under a key. -/
def get? (r : Report) (key : String) : Option Report :=
  match r with
  | nested children => Record.get? children key
  | leaf _ => none

mutual

/-- The leaves with their keys from the root, depth first in report order. -/
def leaves : Report → List (List String × Leaf)
  | leaf l => [([], l)]
  | nested children => leavesOfChildren children

def leavesOfChildren : List (String × Report) → List (List String × Leaf)
  | [] => []
  | (key, child) :: rest =>
    child.leaves.map (fun l => (key :: l.1, l.2)) ++ leavesOfChildren rest

end

mutual

def leafCount : Report → Nat
  | leaf _ => 1
  | nested children => leafCountOfChildren children

def leafCountOfChildren : List (String × Report) → Nat
  | [] => 0
  | (_, child) :: rest => child.leafCount + leafCountOfChildren rest

end

/-- The dotted text of keys from the root. A key after an empty text stands alone. -/
def dotted (keys : List String) : String :=
  keys.foldl (fun path key => if path.isEmpty then key else path ++ "." ++ key) ""

/-- The leaves with their dotted paths; a leaf at the root has the empty path. -/
def paths (r : Report) : List (String × Leaf) :=
  r.leaves.map fun l => (dotted l.1, l.2)

/-- A leaf on one line, or the number of leaves of a node. -/
def text (r : Report) : String :=
  match r with
  | leaf l => l.text
  | nested _ => toString r.leafCount ++ " mismatches"

mutual

/-- A report as JSON: a node is the object of its children. -/
def toJson : Report → Json
  | leaf l => l.toJson
  | nested children => .object (toJsonOfChildren children)

def toJsonOfChildren : List (String × Report) → List (String × Json)
  | [] => []
  | (key, child) :: rest => (key, child.toJson) :: toJsonOfChildren rest

end

/-! ## Equality -/

mutual

/-- Equality up to the order of keys. -/
def beq : Report → Report → Bool
  | leaf a, leaf b => a == b
  | nested a, nested b => a.length == b.length && beqChildren a b
  | _, _ => false

/-- Every child of the first node equals the one under the same key of the second. -/
def beqChildren : List (String × Report) → List (String × Report) → Bool
  | [], _ => true
  | (key, a) :: rest, other =>
    (match Record.get? other key with
      | some b => beq a b
      | none => false) && beqChildren rest other

end

instance : BEq Report := ⟨beq⟩

end Report

end Conformance
