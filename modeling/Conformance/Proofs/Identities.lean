import Conformance.Catalogue
import Conformance.Proofs.Induction

/-!
# Identities are handed out once

Equality of classes asks for the identity alone. That is enough because a supply never hands an
identity out twice: two classes of one supply that have the same identity are the same class, with
the same name and the same superclasses.

Results:
* `Supply.Made`: the classes that exist after a supply was used for a while.
* `Supply.Made.id_lt`: what every use of the supply preserves.
* `Supply.Made.eq_of_id_eq`: a class is determined by its identity.
* `Value.ClassesIn`, `Shape.ClassesIn`: the values and shapes over some classes.
-/

namespace Conformance

namespace Supply

/-- The classes that exist when the supply has come so far: the one of the catalogue, and those that
were made since, each on its own or below one that existed. -/
inductive Made : Supply → List Class → Prop
  | initial : Made initial [Catalogue.moneyClass]
  | symbol {s : Supply} {made : List Class} (description : String) :
      Made s made → Made (s.symbol description).2 made
  | function {s : Supply} {made : List Class} (name : String) :
      Made s made → Made (s.function name).2 made
  | rootClass {s : Supply} {made : List Class} (name : String) :
      Made s made → Made (s.rootClass name).2 ((s.rootClass name).1 :: made)
  | subclass {s : Supply} {made : List Class} {parent : Class} (name : String) :
      Made s made → parent ∈ made →
      Made (s.subclass parent name).2 ((s.subclass parent name).1 :: made)

variable {s : Supply} {made : List Class}

/-- Every identity in use is below the next one. -/
theorem Made.id_lt (h : Made s made) : ∀ c ∈ made, c.id < s.next := by
  induction h with
  | initial =>
    intro c hc
    rw [List.mem_singleton.mp hc]
    decide
  | symbol _ _ ih => exact fun c hc => Nat.lt_succ_of_lt (ih c hc)
  | function _ _ ih => exact fun c hc => Nat.lt_succ_of_lt (ih c hc)
  | rootClass _ _ ih =>
    exact List.forall_mem_cons.mpr ⟨Nat.lt_succ_self _, fun c hc => Nat.lt_succ_of_lt (ih c hc)⟩
  | subclass _ _ _ ih =>
    exact List.forall_mem_cons.mpr ⟨Nat.lt_succ_self _, fun c hc => Nat.lt_succ_of_lt (ih c hc)⟩

/-- A class whose identity is the next one can join without meeting another. -/
theorem eq_of_id_eq_cons {next : Nat} {new : Class} (hnew : new.id = next)
    (hlt : ∀ c ∈ made, c.id < next) (h : ∀ c ∈ made, ∀ d ∈ made, c.id = d.id → c = d) :
    ∀ c ∈ new :: made, ∀ d ∈ new :: made, c.id = d.id → c = d := by
  intro c hc d hd he
  rcases List.mem_cons.mp hc with rfl | hcm <;> rcases List.mem_cons.mp hd with rfl | hdm
  · rfl
  · have := hlt d hdm
    omega
  · have := hlt c hcm
    omega
  · exact h c hcm d hdm he

/-- A class is determined by its identity. -/
theorem Made.eq_of_id_eq (h : Made s made) :
    ∀ c ∈ made, ∀ d ∈ made, c.id = d.id → c = d := by
  induction h with
  | initial =>
    intro c hc d hd _
    rw [List.mem_singleton.mp hc, List.mem_singleton.mp hd]
  | symbol _ _ ih => exact ih
  | function _ _ ih => exact ih
  | rootClass _ h ih => exact eq_of_id_eq_cons rfl h.id_lt ih
  | subclass _ h _ ih => exact eq_of_id_eq_cons rfl h.id_lt ih

end Supply

/-- The classes that the value mentions are among the given ones. -/
def Value.ClassesIn (made : List Class) : Value → Prop
  | .array items => ∀ item ∈ items, item.ClassesIn made
  | .object fields => ∀ f ∈ fields, f.2.ClassesIn made
  | .instanceOf c fields => c ∈ made ∧ ∀ f ∈ fields, f.2.ClassesIn made
  | .constructor c => c ∈ made
  | _ => True
decreasing_by
  · have := List.sizeOf_lt_of_mem ‹item ∈ items›
    simp only [Value.array.sizeOf_spec]
    omega
  · have := Record.sizeOf_snd_lt_of_mem ‹f ∈ fields›
    simp only [Value.object.sizeOf_spec]
    omega
  · have := Record.sizeOf_snd_lt_of_mem ‹f ∈ fields›
    simp only [Value.instanceOf.sizeOf_spec]
    omega

/-- The classes that the shape mentions are among the given ones. -/
def Shape.ClassesIn (made : List Class) : Shape → Prop
  | .ofClass c => c ∈ made
  | .array element => element.ClassesIn made
  | .object pattern => ∀ f ∈ pattern, f.2.ClassesIn made
  | .wrapped _ inner => inner.ClassesIn made
  | _ => True
decreasing_by
  · simp only [Shape.array.sizeOf_spec]
    omega
  · have := Record.sizeOf_snd_lt_of_mem ‹f ∈ pattern›
    simp only [Shape.object.sizeOf_spec]
    omega
  · simp only [Shape.wrapped.sizeOf_spec]
    omega

end Conformance
