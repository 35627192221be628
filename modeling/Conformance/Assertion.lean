import Conformance.Examination
import Conformance.Text.Ansi
import Conformance.Text.Lines

/-!
# Assertions

An assertion that a value conforms to a shape fails with a message for people: a headline, the
report as JSON on lines, an empty line, and one line for each leaf of the report.

Results:
* `Report.listing`: a line for each leaf, its path and what is wrong there.
* `AssertionFailure.message`: the whole message.
* `Shape.assertWith`: passes, or fails with the report or the depth limit.
-/

namespace Conformance

namespace Report

/-- What the listing calls a path; the empty one is the root. -/
def pathLabel (path : String) : String := if path.isEmpty then "<root>" else path

/-- The line of a leaf. In colour the path is bold, an undeclared key yellow, a mismatch red. -/
def line (color : Bool) (path : String) (l : Leaf) : String :=
  if color then
    let style := if l.isUnexpected then Text.Style.yellow else Text.Style.red
    Text.Style.bold.apply (pathLabel path) ++ ": " ++ style.apply l.text
  else pathLabel path ++ ": " ++ l.text

/-- A line for each leaf, in report order. -/
def listing (r : Report) (color : Bool) : String :=
  String.join (r.paths.map fun p => line color p.1 p.2 ++ "\n")

end Report

/-- A value that does not conform: its report, and whether the listing is in colour. -/
structure AssertionFailure where
  report : Report
  color : Bool

namespace AssertionFailure

/-- The report as JSON on lines. -/
def reportText (f : AssertionFailure) : String := f.report.toJson.pretty

/-- The listing without white space at its end. -/
def listing (f : AssertionFailure) : String := Text.trimEnd (f.report.listing f.color)

def message (f : AssertionFailure) : String :=
  "Interface not as expected:\n" ++ f.reportText ++ "\n\n" ++ f.listing

end AssertionFailure

/-- Why an assertion does not pass. -/
inductive AssertionError where
  | depthExceeded (e : DepthExceeded)
  | failed (f : AssertionFailure)

namespace AssertionError

def message : AssertionError → String
  | depthExceeded e => e.message
  | failed f => f.message

end AssertionError

/-- Passes when the value conforms to the shape. -/
def Shape.assertWith (shape : Shape) (value : Value) (options : Options) (color : Bool) :
    Except AssertionError Unit :=
  match shape.reportWith value options with
  | .error e => .error (.depthExceeded e)
  | .ok none => .ok ()
  | .ok (some r) => .error (.failed ⟨r, color⟩)

/-- Passes when the value conforms to the shape, strictly and without a depth limit. -/
def Shape.assert (shape : Shape) (value : Value) : Except AssertionFailure Unit :=
  match shape.report value with
  | none => .ok ()
  | some r => .error ⟨r, false⟩

end Conformance
