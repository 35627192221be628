import Conformance.Proofs.Finding
import Mathlib.Logic.Relation

/-!
# Chains of modifiers

A chain of modifiers lets through what one of them admits and leaves the rest to the shape behind
it, so that only the set of its modifiers counts: their order and their number do not. Both walks
of a shape are the same, under any guard, when chains anywhere inside it are put in another order,
or have modifiers repeated or repetitions taken out.

Results:
* `Shape.examine_stack`, `Shape.accepts_stack`: the walks of a shape behind a chain.
* `Shape.Restacking`, `Shape.Restacks`: one chain replaced, and any number of chains.
* `Shape.Restacking.indistinct`: what one replacement preserves, a case for each place.
* `Shape.Restacks.indistinct`: what any number of replacements preserve.
* `Shape.Restacks.answers_eq`: the answers, under any options.
-/

namespace Conformance.Shape

/-! ## Chains -/

/-- A shape behind a chain of modifiers. -/
def stack (ms : List Modifier) (s : Shape) : Shape := ms.foldr wrapped s

/-- Does a modifier of the chain let the value through? -/
def anyAdmits (ms : List Modifier) (v : Value) : Bool := ms.any fun m => m.admits v

theorem anyAdmits_congr {ms ns : List Modifier} (h : ∀ m, m ∈ ms ↔ m ∈ ns) (v : Value) :
    anyAdmits ms v = anyAdmits ns v := by
  rw [Bool.eq_iff_iff, anyAdmits, anyAdmits, List.any_eq_true, List.any_eq_true]
  exact exists_congr fun m => and_congr_left fun _ => h m

section Walks

variable {subset : Bool} {s t : Shape} {v : Value}

theorem examine_wrapped (m : Modifier) (inner : Shape) : examine subset (wrapped m inner) v =
    if m.admits v then pure none else examine subset inner v := by
  simp only [examine, isIdentical, Bool.false_eq_true, if_false]

theorem accepts_wrapped (m : Modifier) (inner : Shape) : accepts subset (wrapped m inner) v =
    if m.admits v then pure true else accepts subset inner v := by
  simp only [accepts, isIdentical, Bool.false_eq_true, if_false]

/-- The exhaustive walk ends where the chain lets the value through, and is else that of the shape
behind the chain, with no step taken for a modifier. -/
theorem examine_stack (ms : List Modifier) : examine subset (stack ms s) v =
    if anyAdmits ms v then pure none else examine subset s v := by
  induction ms with
  | nil => rfl
  | cons m ms ih =>
    change examine subset (wrapped m (stack ms s)) v = _
    rw [examine_wrapped, ih, anyAdmits, anyAdmits, List.any_cons]
    cases m.admits v <;> rfl

/-- So does the short walk. -/
theorem accepts_stack (ms : List Modifier) : accepts subset (stack ms s) v =
    if anyAdmits ms v then pure true else accepts subset s v := by
  induction ms with
  | nil => rfl
  | cons m ms ih =>
    change accepts subset (wrapped m (stack ms s)) v = _
    rw [accepts_wrapped, ih, anyAdmits, anyAdmits, List.any_cons]
    cases m.admits v <;> rfl

/-! ## Patterns with one declared key exchanged -/

theorem examineFields_field (before after : Record Shape) (key : String) (fields : Record Value)
    (h : ∀ v, examine subset s v = examine subset t v) :
    examineFields subset (before ++ (key, s) :: after) fields =
      examineFields subset (before ++ (key, t) :: after) fields := by
  induction before with
  | nil => rw [List.nil_append, List.nil_append, examineFields, examineFields, h]
  | cons f rest ih =>
    obtain ⟨other, shape⟩ := f
    rw [List.cons_append, List.cons_append, examineFields, examineFields, ih]

theorem acceptsFields_field (before after : Record Shape) (key : String) (fields : Record Value)
    (h : ∀ v, accepts subset s v = accepts subset t v) :
    acceptsFields subset (before ++ (key, s) :: after) fields =
      acceptsFields subset (before ++ (key, t) :: after) fields := by
  induction before with
  | nil => rw [List.nil_append, List.nil_append, acceptsFields, acceptsFields, h]
  | cons f rest ih =>
    obtain ⟨other, shape⟩ := f
    rw [List.cons_append, List.cons_append, acceptsFields, acceptsFields, ih]

end Walks

/-! ## Shapes that no examination tells apart -/

/-- Both walks of every value are the same, under any guard. -/
structure Indistinct (s t : Shape) : Prop where
  examine_eq : ∀ subset v, examine subset s v = examine subset t v
  accepts_eq : ∀ subset v, accepts subset s v = accepts subset t v

namespace Indistinct

variable {s t u : Shape}

theorem refl (s : Shape) : Indistinct s s := ⟨fun _ _ => rfl, fun _ _ => rfl⟩

theorem trans (h : Indistinct s t) (h' : Indistinct t u) : Indistinct s u :=
  ⟨fun subset v => (h.examine_eq subset v).trans (h'.examine_eq subset v),
    fun subset v => (h.accepts_eq subset v).trans (h'.accepts_eq subset v)⟩

theorem stack {ms ns : List Modifier} (hset : ∀ m, m ∈ ms ↔ m ∈ ns) (s : Shape) :
    Indistinct (stack ms s) (stack ns s) := by
  constructor
  · intro subset v
    rw [examine_stack, examine_stack, anyAdmits_congr hset]
  · intro subset v
    rw [accepts_stack, accepts_stack, anyAdmits_congr hset]

theorem inner (m : Modifier) (h : Indistinct s t) : Indistinct (wrapped m s) (wrapped m t) := by
  constructor
  · intro subset v
    rw [examine_wrapped, examine_wrapped, h.examine_eq]
  · intro subset v
    rw [accepts_wrapped, accepts_wrapped, h.accepts_eq]

theorem element (h : Indistinct s t) : Indistinct (array s) (array t) := by
  constructor
  · intro subset v
    cases v with
    | array items =>
      change Report.nested? <$> examineItems (examine subset s) 0 items =
        Report.nested? <$> examineItems (examine subset t) 0 items
      rw [funext (h.examine_eq subset)]
    | _ => rfl
  · intro subset v
    cases v with
    | array items =>
      change acceptsItems (accepts subset s) 0 items = acceptsItems (accepts subset t) 0 items
      rw [funext (h.accepts_eq subset)]
    | _ => rfl

theorem field (before after : Record Shape) (key : String) (h : Indistinct s t) :
    Indistinct (object (before ++ (key, s) :: after)) (object (before ++ (key, t) :: after)) := by
  have hkeys := keys_field before after key s t
  constructor
  · intro subset v
    simp only [examine, isIdentical, Bool.false_eq_true, if_false, undeclaredFields_congr hkeys,
      examineFields_field before after key _ (h.examine_eq subset)]
  · intro subset v
    simp only [accepts, isIdentical, Bool.false_eq_true, if_false, undeclaredFields_congr hkeys,
      acceptsFields_field before after key _ (h.accepts_eq subset)]

end Indistinct

/-! ## Chains replaced -/

/-- One chain of modifiers, anywhere in a shape, is replaced by a chain of the same modifiers, each
of them as often as may be and in any order. -/
inductive Restacking : Shape → Shape → Prop
  | stack (ms ns : List Modifier) (inner : Shape) : (∀ m, m ∈ ms ↔ m ∈ ns) →
      Restacking (stack ms inner) (stack ns inner)
  | element {s t : Shape} : Restacking s t → Restacking (array s) (array t)
  | field (before after : Record Shape) (key : String) {s t : Shape} : Restacking s t →
      Restacking (object (before ++ (key, s) :: after)) (object (before ++ (key, t) :: after))
  | inner (m : Modifier) {s t : Shape} : Restacking s t → Restacking (wrapped m s) (wrapped m t)

/-- Any number of chains are replaced, one after the other. -/
def Restacks : Shape → Shape → Prop := Relation.ReflTransGen Restacking

section Runs

variable {s t : Shape}

/-- No examination notices that one chain was replaced. -/
theorem Restacking.indistinct (h : Restacking s t) : Indistinct s t := by
  induction h with
  | stack ms ns inner hset => exact .stack hset inner
  | element _ ih => exact ih.element
  | field before after key _ ih => exact .field before after key ih
  | inner m _ ih => exact .inner m ih

/-- Nor does it notice that any number of them were. -/
theorem Restacks.indistinct (h : Restacks s t) : Indistinct s t := by
  induction h with
  | refl => exact .refl s
  | tail _ hstep ih => exact ih.trans hstep.indistinct

end Runs

/-- **A chain of modifiers is a set.** Replace chains of modifiers, anywhere in a shape, by chains
of the same modifiers before the same shapes. On every value and under all options the report is the
same, with its keys in the same order, or the refusal is, with the same limit and place; and the
verdict is the same. -/
theorem Restacks.answers_eq {s t : Shape} (h : Restacks s t) (v : Value) (o : Options) :
    s.reportWith v o = t.reportWith v o ∧ s.conformsWith v o = t.conformsWith v o := by
  constructor
  · rw [reportWith, reportWith, h.indistinct.examine_eq]
  · rw [conformsWith, conformsWith, h.indistinct.accepts_eq]

/-- Two chains replaced, below a key and in the element of an array: one put in another order with a
repetition, the other rid of one. The report is the same, and so is the refusal. -/
theorem Restacks.answers_eq_rows :
    let s := object [("id", wrapped .optional (wrapped .nullable (marker .number))),
      ("rows", array (wrapped .nullable (wrapped .nullable any)))]
    let t := object
      [("id", wrapped .nullable (wrapped .optional (wrapped .nullable (marker .number)))),
        ("rows", array (wrapped .nullable any))]
    let v := Value.object [("rows", .array [.null, .undefined]), ("id", .bool true)]
    Restacks s t ∧
      s.reportWith v ⟨false, some 2⟩ = t.reportWith v ⟨false, some 2⟩ ∧
      t.reportWith v ⟨false, some 2⟩ = .ok (some (.nested
        [("id", .leaf (.wrongKind (.bool true) "Number")),
          ("rows", .nested [("1", .leaf (.wrongKind .undefined "Any"))])])) ∧
      s.reportWith v ⟨false, some 1⟩ = t.reportWith v ⟨false, some 1⟩ ∧
      t.reportWith v ⟨false, some 1⟩ = .error ⟨1, ["rows"], "0"⟩ := by
  intro s t v
  have hid : Restacking s (object
      [("id", wrapped .nullable (wrapped .optional (wrapped .nullable (marker .number)))),
        ("rows", array (wrapped .nullable (wrapped .nullable any)))]) := by
    refine .field [] [("rows", array (wrapped .nullable (wrapped .nullable any)))] "id" ?_
    exact .stack [.optional, .nullable] [.nullable, .optional, .nullable] (marker .number)
      fun m => by cases m <;> decide
  have hrows : Restacking (object
      [("id", wrapped .nullable (wrapped .optional (wrapped .nullable (marker .number)))),
        ("rows", array (wrapped .nullable (wrapped .nullable any)))]) t := by
    refine .field
      [("id", wrapped .nullable (wrapped .optional (wrapped .nullable (marker .number))))] [] "rows"
      (.element ?_)
    exact .stack [.nullable, .nullable] [.nullable] any fun m => by cases m <;> decide
  have hst : Restacks s t := (Relation.ReflTransGen.single hid).tail hrows
  exact ⟨hst, (answers_eq hst v ⟨false, some 2⟩).1, rfl, (answers_eq hst v ⟨false, some 1⟩).1, rfl⟩

end Conformance.Shape
