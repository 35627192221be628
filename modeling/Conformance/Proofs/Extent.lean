import Conformance.Proofs.Finding
import Mathlib.Data.Set.Insert

/-!
# The set that a shape denotes

A shape denotes a set of values, built from the sets of its parts without any order of rules: a
value that several rules admit is in the set all the same.

Results:
* `Literal.extent`, `Marker.extent`, `Class.extent`, `Shape.extent`: the sets.
* `Shape.mem_readings_iff`: a record satisfies a pattern when each declared key reads as it should.
* `Shape.isNone_finding_iff`: there is nothing to find in exactly the values of the set.
* `Shape.conformsWith_iff_mem_extent`: a value conforms exactly when it is in the set.
-/

namespace Conformance

/-! ## Literals, markers and classes -/

/-- The values strictly equal to a literal: numbers by the equality of the standard, symbols by
identity, and each kind by itself. -/
def Literal.extent : Literal → Set Value
  | bool b => {.bool b}
  | number x => {v | ∃ y, v = .number y ∧ (x == y) = true}
  | bigint n => {.bigint n}
  | string s => {.string s}
  | symbol a => {v | ∃ b, v = .symbol b ∧ a.id = b.id}

/-- The values that the predicate registered for a marker accepts. -/
def Marker.extent (m : Marker) : Set Value :=
  {v | ∃ predicate, (m, predicate) ∈ Marker.table ∧ predicate v = true}

/-- The class itself, the instances whose chain of superclasses contains it, and the values whose
kind has its name. -/
def Class.extent (c : Class) : Set Value :=
  {v | ∃ d, v = .constructor d ∧ c.id = d.id} ∪
    {v | ∃ own fields, v = .instanceOf own fields ∧ ∃ d ∈ own.ancestry, d.id = c.id} ∪
    {v | v.typeName = c.name}

theorem Literal.isIdentical_iff {l : Literal} {v : Value} :
    l.isIdentical v = true ↔ v ∈ l.extent := by
  cases l <;> cases v <;> simp [isIdentical, extent] <;> exact eq_comm

theorem Marker.accepts_iff {m : Marker} {v : Value} : m.accepts v = true ↔ v ∈ m.extent := by
  cases m <;> simp [extent, table] <;> rfl

theorem Class.isIdentical_or_hasMember_iff {c : Class} {v : Value} :
    ((Shape.ofClass c).isIdentical v || c.hasMember v) = true ↔ v ∈ c.extent := by
  simp only [extent, hasMember, Bool.or_eq_true, Set.mem_union, Set.mem_ofPred_eq, or_assoc,
    beq_iff_eq]
  refine or_congr ?_ (or_congr_left ?_)
  · cases v <;> simp [Shape.isIdentical]
  · cases v <;> simp [Value.isInstanceOf, descendsFrom]

theorem Modifier.admits_iff {m : Modifier} {v : Value} :
    m.admits v = true ↔ v = match m with
      | .optional => .undefined
      | .nullable => .null := by
  cases m <;> cases v <;> simp [Modifier.admits, Value.isUndefined, Value.isNull]

theorem Value.fields?_eq_some_iff {v : Value} {fields : Record Value} :
    v.fields? = some fields ↔ v = .object fields ∨ ∃ c, v = .instanceOf c fields := by
  cases v <;> simp [Value.fields?]

/-! ## Shapes -/

namespace Shape

mutual

/-- The values that a shape denotes; in a strict reading a record has no undeclared keys. -/
def extent (subset : Bool) : Shape → Set Value
  | any => {v | v ≠ .undefined}
  | undefined => {.undefined}
  | null => {.null}
  | literal l => l.extent
  | marker m => m.extent
  | ofClass c => c.extent
  | array element => {v | ∃ items, v = .array items ∧ ∀ item ∈ items, item ∈ extent subset element}
  | object pattern =>
    {v | ∃ fields, (v = .object fields ∨ ∃ c, v = .instanceOf c fields) ∧
      fields ∈ readings subset pattern ∧
      (subset = false → ∀ key ∈ Record.keys fields, key ∈ Record.keys pattern)}
  | wrapped .optional inner => extent subset inner ∪ {.undefined}
  | wrapped .nullable inner => extent subset inner ∪ {.null}

/-- The records whose declared keys read as values of their shapes. -/
def readings (subset : Bool) : List (String × Shape) → Set (Record Value)
  | [] => Set.univ
  | (key, shape) :: rest =>
    {fields | Value.read fields key ∈ extent subset shape} ∩ readings subset rest

end

theorem mem_readings_iff {subset : Bool} {pattern : Record Shape} {fields : Record Value} :
    fields ∈ readings subset pattern ↔
      ∀ f ∈ pattern, Value.read fields f.1 ∈ extent subset f.2 := by
  induction pattern with
  | nil => simp [readings]
  | cons f rest ih =>
    obtain ⟨key, shape⟩ := f
    simp [readings, ih]

theorem mem_extent_object_iff {subset : Bool} {pattern : Record Shape} {v : Value} :
    v ∈ extent subset (object pattern) ↔ ∃ fields, v.fields? = some fields ∧
      (∀ f ∈ pattern, Value.read fields f.1 ∈ extent subset f.2) ∧
      (subset = false → ∀ key ∈ Record.keys fields, key ∈ Record.keys pattern) := by
  simp only [extent, Set.mem_ofPred_eq, mem_readings_iff, Value.fields?_eq_some_iff]

theorem mem_extent_wrapped_iff {subset : Bool} {m : Modifier} {inner : Shape} {v : Value} :
    v ∈ extent subset (wrapped m inner) ↔
      m.admits v = true ∨ v ∈ extent subset inner := by
  cases m <;> simp [extent, Modifier.admits_iff]

/-- There is nothing to find in the values of the set, and in no others. -/
theorem isNone_finding_iff {subset : Bool} {s : Shape} {v : Value} :
    (finding subset s v).isNone = true ↔ v ∈ extent subset s := by
  induction s generalizing v with
  | any => cases v <;> simp [finding, objection?, Value.isUndefined, extent]
  | undefined => cases v <;> simp [finding, objection?, Value.isUndefined, extent]
  | null => cases v <;> simp [finding, objection?, Value.isNull, extent]
  | literal l =>
    rw [finding_of_isFlat rfl, extent, ← Literal.isIdentical_iff, objection?]
    split_ifs with h <;> simp [h]
  | marker m =>
    rw [finding_of_isFlat rfl, extent, ← Marker.accepts_iff, objection?]
    split_ifs with h <;> simp [h]
  | ofClass c =>
    rw [finding_of_isFlat rfl, extent, ← Class.isIdentical_or_hasMember_iff, objection?]
    split_ifs with h <;> simp [h]
  | array element ih =>
    cases v with
    | array items =>
      rw [finding, isNone_nested?, isEmpty_entriesOfItems_iff]
      simp [extent, ih]
    | _ => simp [finding, extent]
  | object pattern ih =>
    rw [mem_extent_object_iff, finding]
    cases v.fields? with
    | none => simp
    | some fields =>
      simp only [isNone_nested?, isEmpty_undeclaredEntries_append, Bool.and_eq_true,
        isEmpty_entriesOfFields_iff, Option.some.injEq, exists_eq_left']
      rw [and_comm]
      refine and_congr (forall₂_congr fun f hf => ih f hf) ?_
      rw [← isEmpty_undeclaredFields_iff]
      cases subset <;> simp
  | wrapped m inner ih =>
    rw [mem_extent_wrapped_iff, finding, ← ih]
    split_ifs with h <;> simp [h]

/-- **The extent of a shape.** Without a limit the short walk answers whether the value is in the
set that the shape denotes. A NaN denotes nothing, the two zeros denote each other, and no number is
a big integer. -/
theorem conformsWith_iff_mem_extent (s : Shape) (v : Value) (subset : Bool) :
    (s.conformsWith v ⟨subset, none⟩ = .ok true ↔ v ∈ extent subset s) ∧
      (s.conformsWith v ⟨subset, none⟩ = .ok false ↔ v ∉ extent subset s) ∧
      (∀ x : Binary64, x.isNaN = true → extent subset (literal (.number x)) = ∅) ∧
      (∀ x y : Binary64, x.isZero = true → y.isZero = true →
        .number y ∈ extent subset (literal (.number x))) ∧
      ∀ (x : Binary64) (n : Int), .number x ∉ extent subset (literal (.bigint n)) ∧
        .bigint n ∉ extent subset (literal (.number x)) := by
  rw [← isNone_finding_iff, conformsWith_unlimited, Bool.not_eq_true]
  refine ⟨by rw [Except.ok.injEq], by rw [Except.ok.injEq], ?_, ?_, ?_⟩
  · intro x hx
    rw [Set.eq_empty_iff_forall_notMem]
    rintro _ ⟨y, rfl, hxy⟩
    rw [Binary64.beq_iff, hx] at hxy
    cases hxy.1
  · intro x y hx hy
    refine ⟨y, rfl, (Binary64.beq_iff x y).mpr ?_⟩
    exact ⟨Binary64.isNaN_of_isZero hx, Binary64.isNaN_of_isZero hy, .inr ⟨hx, hy⟩⟩
  · intro x n
    refine ⟨?_, ?_⟩
    · rintro ⟨⟩
    · rintro ⟨y, ⟨⟩, -⟩

end Shape

end Conformance
