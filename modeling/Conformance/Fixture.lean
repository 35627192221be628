import Conformance.Catalogue
import Conformance.Examination

/-!
# Fixtures

A fixture names a shape of the catalogue and holds a value with the report that is expected for it,
null when the value should conform. Running it compares the report as JSON with the expected one.

Results:
* `Fixture.run`: passes, fails with the actual report, or cannot be run.
-/

namespace Conformance

/-- One case of a fixture file. -/
structure Fixture where
  name : String
  /-- the entry of the catalogue -/
  shape : String
  value : Json
  /-- tolerate undeclared keys in this case -/
  subset : Bool
  /-- the expected report, null for none -/
  expect : Json

/-- Why a fixture cannot be run. -/
inductive FixtureError where
  | unknownShape (name : String)
  | depthExceeded (e : DepthExceeded)

namespace FixtureError

def message : FixtureError → String
  | unknownShape name => "unknown shape `" ++ name ++ "`"
  | depthExceeded e => e.message

end FixtureError

/-- What running a fixture gives. -/
inductive Outcome where
  | pass
  | fail (actual : Json) (report : Option Report)
  | error (e : FixtureError)

namespace Fixture

/-- A report as JSON, null when there is none. -/
def reportJson : Option Report → Json
  | some r => r.toJson
  | none => .null

/-- The options of a fixture under those of the whole run. -/
def options (f : Fixture) (base : Options) : Options :=
  { base with subset := base.subset || f.subset }

/-- Runs a fixture. -/
def run (f : Fixture) (base : Options) : Outcome :=
  match Catalogue.lookup f.shape with
  | none => .error (.unknownShape f.shape)
  | some shape =>
    match shape.reportWith (.ofJson f.value) (f.options base) with
    | .error e => .error (.depthExceeded e)
    | .ok report =>
      if reportJson report == f.expect then .pass else .fail (reportJson report) report

end Fixture

end Conformance
