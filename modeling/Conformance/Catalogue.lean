import Conformance.Shape

/-!
# The catalogue of shapes

Fixtures carry data only and refer to the shapes here by name.

Results:
* `Catalogue.entries`: the named shapes in their order.
* `Catalogue.lookup`: the shape of a name.
-/

namespace Conformance.Catalogue

open Shape

/-- An object pattern, built key by key. -/
def pattern (fields : List (String × Shape)) : Shape := .object (Record.ofList fields)

def pet : Shape := pattern [("name", marker .string), ("weight", marker .number)]

/-- The class of the entry for money; its identity is the one that no supply hands out. -/
def moneyClass : Class := .root 0 "Money"

/-- The named shapes. -/
def entries : Record Shape :=
  [("record", pattern [("id", marker .number)]),
    ("named", pattern [("name", marker .string)]),
    ("flags", array (marker .boolean)),
    ("pet", pet),
    ("owner", pattern [("name", marker .string), ("pets", array pet)]),
    ("user", pattern
      [("id", marker .number), ("name", marker .string),
        ("email", wrapped .optional (marker .string)),
        ("manager", wrapped .nullable (marker .number))]),
    ("event", pattern
      [("kind", literal (.string "event")), ("payload", any),
        ("at", wrapped .nullable (marker .number))]),
    ("money", ofClass moneyClass)]

/-- The shape of a name. -/
def lookup (name : String) : Option Shape := entries.get? name

end Conformance.Catalogue
