import Conformance.Proofs.Position

/-!
# What the two walks find

Without a guard in the way the exhaustive walk has an answer that plain recursion over the shape
computes, `finding`. Under a guard both walks are governed by it and by the steps that are taken:
the exhaustive walk follows `visited` to `finding`, and the short walk follows the front of
`visited` and says whether `finding` is empty.

Results:
* `Shape.objection?`: what the rule of a shape itself has against a value, its children apart.
* `Shape.examine_follows`, `Shape.accepts_cutsShort`: the two walks under any guard.
* `Shape.reportWith_eq`: the report with a limit, by the first step that is refused.
* `Shape.reportWith_unlimited`, `Shape.conformsWith_unlimited`: the answers without a limit.
* `Shape.report_eq_finding`, `Shape.conforms_iff`: the answers without options.
-/

namespace Conformance

namespace Shape

/-! ## Findings -/

/-- What the rule of the shape itself has against the value. -/
def objection? : Shape → Value → Option Leaf
  | any, v => if v.isUndefined then some (.wrongKind v "Any") else none
  | undefined, v => if v.isUndefined then none else some (.wrongKind v "Undefined")
  | null, v => if v.isNull then none else some (.wrongKind v "Null")
  | literal l, v => if l.isIdentical v then none else some (.wrongLiteral l v)
  | marker m, v => if m.accepts v then none else some (.wrongKind v m.name)
  | ofClass c, v =>
    if (ofClass c).isIdentical v || c.hasMember v then none else some (.wrongKind v c.name)
  | array _, v => if Marker.isArray v then none else some (.wrongKind v "Array")
  | object _, v => if v.fields?.isSome then none else some (.wrongKind v "Object")
  | wrapped _ _, _ => none

/-- The entries on the own properties that a pattern does not declare. -/
def undeclaredEntries (subset : Bool) (pattern : Record Shape) (fields : Record Value) :
    List (String × Report) :=
  if subset then []
  else (undeclaredFields pattern fields).map fun f => (f.1, Report.leaf (.undeclared f.2))

/-- The entries on the elements of an array from an index on. -/
def entriesOfItems (visit : Value → Finding) : Nat → List Value → List (String × Report)
  | _, [] => []
  | index, item :: rest =>
    entry (toString index) (visit item) ++ entriesOfItems visit (index + 1) rest

mutual

/-- The report on a value, by recursion over the shape. -/
def finding (subset : Bool) (shape : Shape) (value : Value) : Finding :=
  match shape with
  | wrapped m inner => if m.admits value then none else finding subset inner value
  | array element =>
    match value with
    | .array items => Report.nested? (entriesOfItems (finding subset element) 0 items)
    | _ => some (.leaf (.wrongKind value "Array"))
  | object pattern =>
    match value.fields? with
    | some fields =>
      Report.nested?
        (undeclaredEntries subset pattern fields ++ entriesOfFields subset pattern fields)
    | none => some (.leaf (.wrongKind value "Object"))
  | s => (s.objection? value).map Report.leaf

/-- The entries on what the declared keys of a pattern read as. -/
def entriesOfFields (subset : Bool) (pattern : List (String × Shape)) (fields : Record Value) :
    List (String × Report) :=
  match pattern with
  | [] => []
  | (key, shape) :: rest =>
    entry key (finding subset shape (Value.read fields key)) ++ entriesOfFields subset rest fields

end

theorem mem_undeclaredFields_iff {pattern : Record Shape} {fields : Record Value}
    {f : String × Value} :
    f ∈ undeclaredFields pattern fields ↔ f ∈ fields ∧ f.1 ∉ Record.keys pattern := by
  rw [undeclaredFields, List.mem_filter, ← Record.contains_iff_mem_keys, Bool.not_eq_true,
    Bool.not_eq_true']

theorem isEmpty_undeclaredFields_iff {pattern : Record Shape} {fields : Record Value} :
    (undeclaredFields pattern fields).isEmpty = true ↔
      ∀ key ∈ Record.keys fields, key ∈ Record.keys pattern := by
  rw [undeclaredFields, List.isEmpty_iff, List.filter_eq_nil_iff, Record.keys, List.forall_mem_map]
  refine forall₂_congr fun f _ => ?_
  rw [Bool.not_eq_true', Bool.not_eq_false, Record.contains_iff_mem_keys]

/-- Which keys are undeclared is a matter of the declared keys, not of their shapes. -/
theorem undeclaredFields_congr {pattern pattern' : Record Shape}
    (h : Record.keys pattern = Record.keys pattern') (fields : Record Value) :
    undeclaredFields pattern fields = undeclaredFields pattern' fields := by
  have hcontains (key : String) : pattern.contains key = pattern'.contains key := by
    rw [Bool.eq_iff_iff, Record.contains_iff_mem_keys, Record.contains_iff_mem_keys, h]
  simp only [undeclaredFields, hcontains]

theorem keys_field (before after : Record Shape) (key : String) (s t : Shape) :
    Record.keys (before ++ (key, s) :: after) = Record.keys (before ++ (key, t) :: after) := by
  simp only [Record.keys, List.map_append, List.map_cons]

theorem isEmpty_entry_append (key : String) (found : Finding) (others : List (String × Report)) :
    (entry key found ++ others).isEmpty = (found.isNone && others.isEmpty) := by
  cases found <;> rfl

theorem isEmpty_entriesOfItems_iff {found : Value → Finding} {items : List Value} :
    ∀ {index : Nat}, (entriesOfItems found index items).isEmpty = true ↔
      ∀ item ∈ items, (found item).isNone = true := by
  induction items with
  | nil => simp [entriesOfItems]
  | cons item rest ih =>
    intro index
    rw [entriesOfItems, isEmpty_entry_append, Bool.and_eq_true, ih, List.forall_mem_cons]

theorem isEmpty_entriesOfFields_iff {subset : Bool} {fields : Record Value}
    {pattern : Record Shape} : (entriesOfFields subset pattern fields).isEmpty = true ↔
      ∀ f ∈ pattern, (finding subset f.2 (Value.read fields f.1)).isNone = true := by
  induction pattern with
  | nil => simp [entriesOfFields]
  | cons f rest ih =>
    obtain ⟨key, shape⟩ := f
    rw [entriesOfFields, isEmpty_entry_append, Bool.and_eq_true, ih, List.forall_mem_cons]

theorem isNone_nested? (children : List (String × Report)) :
    (Report.nested? children).isNone = children.isEmpty := by
  cases children <;> rfl

theorem isEmpty_undeclaredEntries_append (subset : Bool) (pattern : Record Shape)
    (fields : Record Value) (others : List (String × Report)) :
    (undeclaredEntries subset pattern fields ++ others).isEmpty =
      (!(!subset && !(undeclaredFields pattern fields).isEmpty) && others.isEmpty) := by
  cases subset with
  | true => rfl
  | false =>
    rw [undeclaredEntries, if_neg Bool.false_ne_true]
    cases undeclaredFields pattern fields <;> rfl

/-! ## Shapes without children -/

/-- The shapes whose rule decides alone. -/
def isFlat : Shape → Bool
  | array _ => false
  | object _ => false
  | wrapped _ _ => false
  | _ => true

theorem visited_of_isFlat {s : Shape} (h : s.isFlat = true) (v : Value) : visited s v = [] := by
  cases s with
  | array => cases h
  | object => cases h
  | wrapped => cases h
  | _ => rfl

theorem finding_of_isFlat {s : Shape} (h : s.isFlat = true) (subset : Bool) (v : Value) :
    finding subset s v = (s.objection? v).map Report.leaf := by
  cases s with
  | array => cases h
  | object => cases h
  | wrapped => cases h
  | _ => rfl

theorem examine_of_isFlat {s : Shape} (h : s.isFlat = true) (subset : Bool) (v : Value) :
    examine subset s v = pure (finding subset s v) := by
  cases s with
  | array => cases h
  | object => cases h
  | wrapped => cases h
  | literal l =>
    by_cases hl : l.isIdentical v <;> simp [examine, finding, objection?, isIdentical, hl]
  | marker m =>
    simp only [examine, finding, objection?, isIdentical, Bool.false_eq_true, if_false]
    cases m.accepts v <;> rfl
  | ofClass c =>
    simp only [examine, finding, objection?, Bool.or_eq_true]
    cases (ofClass c).isIdentical v <;> cases c.hasMember v <;> rfl
  | _ => cases v <;> rfl

theorem accepts_of_isFlat {s : Shape} (h : s.isFlat = true) (subset : Bool) (v : Value) :
    accepts subset s v = pure (finding subset s v).isNone := by
  cases s with
  | array => cases h
  | object => cases h
  | wrapped => cases h
  | literal l =>
    by_cases hl : l.isIdentical v <;> simp [accepts, finding, objection?, isIdentical, hl]
  | marker m =>
    simp only [accepts, finding, objection?, isIdentical, Bool.false_eq_true, if_false]
    cases m.accepts v <;> rfl
  | ofClass c =>
    simp only [accepts, finding, objection?, Bool.or_eq_true]
    cases (ofClass c).isIdentical v <;> cases c.hasMember v <;> rfl
  | _ => cases v <;> rfl

/-- Where the rule of a shape objects, the objection is the whole report. -/
theorem finding_of_objection? {s : Shape} {v : Value} {l : Leaf} (h : s.objection? v = some l)
    (subset : Bool) : finding subset s v = some (.leaf l) := by
  cases s with
  | array element =>
    cases v with
    | array items => cases h
    | _ =>
      cases h
      rfl
  | object pattern =>
    rw [objection?] at h
    rw [finding]
    cases hf : v.fields? with
    | some fields =>
      rw [hf] at h
      cases h
    | none =>
      rw [hf] at h
      cases h
      rfl
  | wrapped => cases h
  | _ => rw [finding_of_isFlat rfl, h, Option.map_some]

/-! ## The exhaustive walk -/

theorem examineItems_follows {element : Shape} {visit : Value → Walk Finding}
    {found : Value → Finding} (h : ∀ v, Walk.Follows (visit v) (visited element v) (found v))
    (items : List Value) : ∀ index, Walk.Follows (examineItems visit index items)
      ((positionsOfItems (positions element) index items).map Position.keys)
      (entriesOfItems found index items) := by
  induction items with
  | nil => exact fun _ => Walk.Follows.pure []
  | cons item rest ih =>
    intro index
    rw [keys_positionsOfItems_cons]
    refine ((h item).child (toString index)).bind ?_
    exact (ih (index + 1)).map (entry (toString index) (found item) ++ ·)

theorem examineFields_follows {subset : Bool} {fields : Record Value} {pattern : Record Shape}
    (h : ∀ f ∈ pattern, ∀ v, Walk.Follows (examine subset f.2 v) (visited f.2 v)
      (finding subset f.2 v)) :
    Walk.Follows (examineFields subset pattern fields)
      ((positionsOfFields pattern fields).map Position.keys)
      (entriesOfFields subset pattern fields) := by
  induction pattern with
  | nil => exact Walk.Follows.pure []
  | cons f rest ih =>
    obtain ⟨key, shape⟩ := f
    rw [keys_positionsOfFields_cons, examineFields, entriesOfFields]
    refine ((h _ List.mem_cons_self _).child key).bind ?_
    exact (ih fun f hf => h f (List.mem_cons_of_mem _ hf)).map
      (entry key (finding subset shape (Value.read fields key)) ++ ·)

/-- Under any guard the exhaustive walk takes the steps to the positions below the root. -/
theorem examine_follows (subset : Bool) (s : Shape) (v : Value) :
    Walk.Follows (examine subset s v) (visited s v) (finding subset s v) := by
  induction s generalizing v with
  | array element ih =>
    cases v with
    | array items =>
      rw [visited_array]
      exact (examineItems_follows ih items 0).map Report.nested?
    | _ => exact Walk.Follows.pure _
  | object pattern ih =>
    simp only [examine, finding, isIdentical, Bool.false_eq_true, if_false]
    cases hf : v.fields? with
    | some fields =>
      rw [visited_object pattern hf]
      exact (examineFields_follows ih).map
        (Report.nested? <| undeclaredEntries subset pattern fields ++ ·)
    | none =>
      rw [visited, positions, hf]
      exact Walk.Follows.pure _
  | wrapped m inner ih =>
    rw [visited_wrapped]
    simp only [examine, finding, isIdentical, Bool.false_eq_true, if_false]
    split_ifs
    · exact Walk.Follows.pure none
    · exact ih v
  | _ =>
    rw [examine_of_isFlat rfl, visited_of_isFlat rfl]
    exact Walk.Follows.pure _

/-! ## The short walk -/

theorem acceptsItems_cutsShort {element : Shape} {visit : Value → Walk Bool}
    {found : Value → Finding}
    (h : ∀ v, Walk.CutsShort (visit v) (visited element v) (found v).isNone) (items : List Value) :
    ∀ index, Walk.CutsShort (acceptsItems visit index items)
      ((positionsOfItems (positions element) index items).map Position.keys)
      (entriesOfItems found index items).isEmpty := by
  induction items with
  | nil => exact fun _ => Walk.CutsShort.pure true
  | cons item rest ih =>
    intro index
    rw [keys_positionsOfItems_cons, entriesOfItems, isEmpty_entry_append]
    exact ((h item).child (toString index)).andThen (ih (index + 1))

theorem acceptsFields_cutsShort {subset : Bool} {fields : Record Value} {pattern : Record Shape}
    (h : ∀ f ∈ pattern, ∀ v, Walk.CutsShort (accepts subset f.2 v) (visited f.2 v)
      (finding subset f.2 v).isNone) :
    Walk.CutsShort (acceptsFields subset pattern fields)
      ((positionsOfFields pattern fields).map Position.keys)
      (entriesOfFields subset pattern fields).isEmpty := by
  induction pattern with
  | nil => exact Walk.CutsShort.pure true
  | cons f rest ih =>
    obtain ⟨key, shape⟩ := f
    rw [keys_positionsOfFields_cons, acceptsFields, entriesOfFields, isEmpty_entry_append]
    exact ((h _ List.mem_cons_self _).child key).andThen
      (ih fun f hf => h f (List.mem_cons_of_mem _ hf))

/-- Under any guard the short walk takes the first of the same steps, and all of them when there is
nothing to find. -/
theorem accepts_cutsShort (subset : Bool) (s : Shape) (v : Value) :
    Walk.CutsShort (accepts subset s v) (visited s v) (finding subset s v).isNone := by
  induction s generalizing v with
  | array element ih =>
    cases v with
    | array items =>
      rw [visited_array, finding, isNone_nested?]
      exact acceptsItems_cutsShort ih items 0
    | _ => exact Walk.CutsShort.pure false
  | object pattern ih =>
    simp only [accepts, finding, isIdentical, Bool.false_eq_true, if_false]
    cases hf : v.fields? with
    | some fields =>
      simp only [isNone_nested?, isEmpty_undeclaredEntries_append]
      rw [visited_object pattern hf]
      cases !subset && !(undeclaredFields pattern fields).isEmpty with
      | true => exact Walk.CutsShort.refuse _
      | false => exact acceptsFields_cutsShort ih
    | none =>
      rw [visited, positions, hf]
      exact Walk.CutsShort.pure false
  | wrapped m inner ih =>
    rw [visited_wrapped]
    simp only [accepts, finding, isIdentical, Bool.false_eq_true, if_false]
    split_ifs
    · exact Walk.CutsShort.pure true
    · exact ih v
  | _ =>
    rw [accepts_of_isFlat rfl, visited_of_isFlat rfl]
    exact Walk.CutsShort.pure _

/-! ## Answers -/

/-- The report fails with the first step that is refused; when none is, it is the finding. -/
theorem reportWith_eq (s : Shape) (v : Value) (o : Options) :
    s.reportWith v o = match (Guard.ofLimit o.maxDepth).firstRefusal? (visited s v) with
      | some e => .error e
      | none => .ok (finding o.subset s v) :=
  (examine_follows o.subset s v).answer_eq o.maxDepth

/-- There is an answer where no step is refused, and it is what plain recursion finds. -/
theorem reportWith_ok_iff {s : Shape} {v : Value} {o : Options} {r : Finding} :
    s.reportWith v o = .ok r ↔
      (Guard.ofLimit o.maxDepth).firstRefusal? (visited s v) = none ∧ finding o.subset s v = r := by
  rw [reportWith_eq]
  cases (Guard.ofLimit o.maxDepth).firstRefusal? (visited s v) <;> simp

theorem reportWith_unlimited (s : Shape) (v : Value) (subset : Bool) :
    s.reportWith v ⟨subset, none⟩ = .ok (finding subset s v) :=
  (examine_follows subset s v).answer_unlimited

/-- The short walk fails with the first refusal among the steps it takes. -/
theorem conformsWith_eq (s : Shape) (v : Value) (o : Options) :
    ∃ seen, seen <+: visited s v ∧
      ((finding o.subset s v).isNone = true → seen = visited s v) ∧
      s.conformsWith v o = match (Guard.ofLimit o.maxDepth).firstRefusal? seen with
        | some e => .error e
        | none => .ok (finding o.subset s v).isNone := by
  obtain ⟨seen, hp, hf, hall⟩ := accepts_cutsShort o.subset s v
  exact ⟨seen, hp, hall, hf.answer_eq o.maxDepth⟩

theorem conformsWith_unlimited (s : Shape) (v : Value) (subset : Bool) :
    s.conformsWith v ⟨subset, none⟩ = .ok (finding subset s v).isNone := by
  obtain ⟨seen, -, hf, -⟩ := accepts_cutsShort subset s v
  exact hf.answer_unlimited

theorem conforms_iff {s : Shape} {v : Value} : s.conforms v = true ↔ finding false s v = none := by
  rw [conforms, conformsWith_unlimited]
  exact Option.isNone_iff_eq_none

/-- Without options the report is the finding. -/
theorem report_eq_finding (s : Shape) (v : Value) : s.report v = finding false s v := by
  rw [report, reportWith_unlimited]
  rfl

end Shape

end Conformance
