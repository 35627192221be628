import Conformance.Shape
import Conformance.Text.Quoted

/-!
# The text of a shape

A shape is shown as a term: the name of its kind, with what it is made of in brackets.

Results:
* `Shape.text`: the text of a shape.
-/

namespace Conformance

def Literal.text : Literal → String
  | bool true => "Bool(true)"
  | bool false => "Bool(false)"
  | number x => "Number(" ++ x.text ++ ")"
  | bigint n => "BigInt(" ++ toString n ++ ")"
  | string s => "String(" ++ Text.quoted s ++ ")"
  | symbol s => "Symbol(Symbol(" ++ s.description ++ "))"

def Modifier.name : Modifier → String
  | optional => "Optional"
  | nullable => "Nullable"

namespace Shape

mutual

/-- The shape as a term. -/
def text : Shape → String
  | any => "Any"
  | undefined => "Undefined"
  | null => "Null"
  | literal l => "Literal(" ++ l.text ++ ")"
  | marker m => "Primitive(" ++ m.name ++ ")"
  | ofClass c => "Class([class " ++ c.name ++ "])"
  | array element => "Array(" ++ text element ++ ")"
  | object fields => "Object(\x7b" ++ ", ".intercalate (textOfFields fields) ++ "\x7d)"
  | wrapped m inner => "Wrapped(" ++ m.name ++ ", " ++ text inner ++ ")"

def textOfFields : List (String × Shape) → List String
  | [] => []
  | (key, shape) :: rest => (Text.quoted key ++ ": " ++ text shape) :: textOfFields rest

end

end Shape

end Conformance
