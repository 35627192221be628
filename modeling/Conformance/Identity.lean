/-!
# Identities

Symbols, named functions and classes are identities: two of them are the same only when they come
from the same making, whatever their names are. A `Supply` hands out identities that were never
handed out before. A class carries its superclass, so that the chain of superclasses is finite by
construction.

Results:
* `Class.ancestry`: the class, its superclass, and so on up to a class without one.
* `Class.descendsFrom`: the class or one of its superclasses is the given one.
-/

namespace Conformance

/-- A unique symbol. The description plays no part in its identity. -/
structure Symbol where
  id : Nat
  description : String

instance : BEq Symbol := ⟨fun a b => a.id == b.id⟩

@[simp] theorem Symbol.beq_iff_id_eq (a b : Symbol) : (a == b) = true ↔ a.id = b.id :=
  beq_iff_eq (a := a.id)

/-- A function, known by its name and compared by identity. -/
structure NamedFunction where
  id : Nat
  name : String

instance : BEq NamedFunction := ⟨fun a b => a.id == b.id⟩

/-- A class: a root, or an extension of another class. -/
inductive Class where
  | root (id : Nat) (name : String)
  | extending (parent : Class) (id : Nat) (name : String)

namespace Class

def id : Class → Nat
  | root id _ => id
  | extending _ id _ => id

def name : Class → String
  | root _ name => name
  | extending _ _ name => name

def parent? : Class → Option Class
  | root _ _ => none
  | extending parent _ _ => some parent

instance : BEq Class := ⟨fun a b => a.id == b.id⟩

@[simp] theorem beq_iff_id_eq (a b : Class) : (a == b) = true ↔ a.id = b.id :=
  beq_iff_eq (a := a.id)

/-- The class, then its chain of superclasses. -/
def ancestry : Class → List Class
  | root id name => [root id name]
  | extending parent id name => extending parent id name :: parent.ancestry

/-- Is `ancestor` the class itself or one of its superclasses? -/
def descendsFrom (c ancestor : Class) : Bool := c.ancestry.any (· == ancestor)

end Class

/-! ## Fresh identities -/

/-- What was not handed out yet: every identity from `next` on. -/
structure Supply where
  next : Nat

namespace Supply

/-- The supply at the start. Identity 0 stays with the class of the catalogue. -/
def initial : Supply := ⟨1⟩

def symbol (s : Supply) (description : String) : Symbol × Supply :=
  (⟨s.next, description⟩, ⟨s.next + 1⟩)

def function (s : Supply) (name : String) : NamedFunction × Supply :=
  (⟨s.next, name⟩, ⟨s.next + 1⟩)

/-- A class without superclass. -/
def rootClass (s : Supply) (name : String) : Class × Supply :=
  (.root s.next name, ⟨s.next + 1⟩)

/-- A class below `parent`. -/
def subclass (s : Supply) (parent : Class) (name : String) : Class × Supply :=
  (.extending parent s.next name, ⟨s.next + 1⟩)

end Supply

end Conformance
