import Conformance.Json.Reader
import Conformance.Value

/-!
# Values from JSON text

Results:
* `Value.ofBytes`, `Value.ofText`: the value that the JSON at the front of a text stands for.
-/

namespace Conformance.Value

/-- The value at the front of some bytes. -/
def ofBytes (bytes : List UInt8) : Except Json.ReadError Value := (Json.read bytes).map ofJson

/-- The value at the front of a text. -/
def ofText (s : String) : Except Json.ReadError Value := (Json.ofText s).map ofJson

end Conformance.Value
