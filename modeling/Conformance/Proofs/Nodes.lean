import Conformance.Proofs.Edit

/-!
# The nodes of a report

A node of a report mirrors a record or an array: its children stand under undeclared keys, under
declared keys that read wrong, or under the indices of wrong elements. No node is empty, and an
undeclared key is never the whole report, so that every report has a leaf.

Results:
* `Report.at?`: the part of a report at the end of a path of keys.
* `Shape.mem_children_cases`: where a child of a report comes from.
* `Shape.reaches_of_at?`: a node stands at a position, and is the report there.
* `Report.MadeFrom`: what the children of a node say of the shape and the value that they mirror.
* `Shape.reportWith_wellMade`: every report is well made, at every depth.
-/

namespace Conformance

/-! ## Parts of a report -/

namespace Report

/-- The part of the report at the end of a path of keys. -/
def at? (r : Report) : List String → Option Report
  | [] => some r
  | key :: keys => (r.get? key).bind fun child => child.at? keys

/-- Is the whole report an undeclared key? -/
def isUnexpected : Report → Bool
  | leaf l => l.isUnexpected
  | nested _ => false

theorem at?_nested_cons (children : List (String × Report)) (key : String) (keys : List String) :
    (nested children).at? (key :: keys) =
      (Record.get? children key).bind fun child => child.at? keys := rfl

theorem leafCount_eq_length_leaves (r : Report) : r.leafCount = r.leaves.length := by
  induction r with
  | leaf l => rfl
  | nested children ih =>
    show leafCountOfChildren children = (leavesOfChildren children).length
    induction children with
    | nil => rfl
    | cons c rest ihrest =>
      obtain ⟨key, child⟩ := c
      have hchild : child.leafCount = child.leaves.length := ih (key, child) List.mem_cons_self
      have hrest := ihrest fun c hc => ih c (List.mem_cons_of_mem _ hc)
      rw [leafCountOfChildren, leavesOfChildren, List.length_append, List.length_map, hchild, hrest]

theorem length_paths (r : Report) : r.paths.length = r.leafCount := by
  rw [leafCount_eq_length_leaves, paths, List.length_map]

end Report

/-! ## Children -/

namespace Shape

theorem isUnexpected_of_finding {subset : Bool} {s : Shape} {v : Value} {r : Report}
    (h : finding subset s v = some r) : r.isUnexpected = false := by
  induction s with
  | array element =>
    cases v with
    | array items =>
      rw [finding, Report.nested?] at h
      split_ifs at h
      cases h
      rfl
    | _ =>
      cases h
      rfl
  | object pattern =>
    cases hv : v.fields? with
    | none =>
      rw [finding, hv] at h
      cases h
      rfl
    | some fields =>
      rw [finding_object hv, Report.nested?] at h
      split_ifs at h
      cases h
      rfl
  | wrapped m inner ih =>
    rw [finding] at h
    split_ifs at h
    exact ih h
  | _ =>
    rw [finding_of_isFlat rfl] at h
    obtain ⟨l, hl, rfl⟩ := Option.map_eq_some_iff.mp h
    exact isUnexpected_of_objection? hl

theorem eq_of_mem_entry {key : String} {found : Finding} {c : String × Report}
    (h : c ∈ entry key found) : c.1 = key ∧ found = some c.2 := by
  cases found with
  | none => cases h
  | some r =>
    cases List.mem_singleton.mp h
    exact ⟨rfl, rfl⟩

theorem exists_of_mem_entriesOfItems {found : Value → Finding} {items : List Value}
    {c : String × Report} : ∀ {index : Nat}, c ∈ entriesOfItems found index items →
      ∃ i item, items[i]? = some item ∧ c.1 = toString (index + i) ∧ found item = some c.2 := by
  induction items with
  | nil =>
    intro index h
    cases h
  | cons item rest ih =>
    intro index h
    rw [entriesOfItems, List.mem_append] at h
    rcases h with h | h
    · obtain ⟨hkey, hfound⟩ := eq_of_mem_entry h
      exact ⟨0, item, rfl, hkey, hfound⟩
    · obtain ⟨i, x, hx, hkey, hfound⟩ := ih h
      refine ⟨i + 1, x, hx, ?_, hfound⟩
      rw [hkey, Nat.add_right_comm, Nat.add_assoc]

theorem exists_of_mem_entriesOfFields {subset : Bool} {fields : Record Value}
    {pattern : Record Shape} {c : String × Report}
    (h : c ∈ entriesOfFields subset pattern fields) :
    ∃ shape, (c.1, shape) ∈ pattern ∧
      finding subset shape (Value.read fields c.1) = some c.2 := by
  induction pattern with
  | nil => cases h
  | cons f rest ih =>
    obtain ⟨key, shape⟩ := f
    rw [entriesOfFields, List.mem_append] at h
    rcases h with h | h
    · obtain ⟨hkey, hfound⟩ := eq_of_mem_entry h
      rw [hkey]
      exact ⟨shape, List.mem_cons_self, hfound⟩
    · obtain ⟨t, ht, hfound⟩ := ih h
      exact ⟨t, List.mem_cons_of_mem _ ht, hfound⟩

theorem exists_of_mem_undeclaredEntries {subset : Bool} {pattern : Record Shape}
    {fields : Record Value} {c : String × Report}
    (h : c ∈ undeclaredEntries subset pattern fields) :
    c.1 ∉ Record.keys pattern ∧ ∃ x, c.2 = .leaf (.undeclared x) := by
  refine ⟨notMem_keys_of_mem_undeclaredEntries (List.mem_map_of_mem h), ?_⟩
  cases subset with
  | true => cases h
  | false =>
    obtain ⟨f, -, rfl⟩ := List.mem_map.mp h
    exact ⟨f.2, rfl⟩

/-- A child of a report stands under an undeclared key of a pattern, or it is the report on what one
step leads to. -/
theorem mem_children_cases {subset : Bool} {s : Shape} {v : Value}
    {children : List (String × Report)}
    (h : finding subset s v = some (.nested children)) {c : String × Report} (hc : c ∈ children) :
    (∃ pattern x, s.strip v = object pattern ∧ c.1 ∉ Record.keys pattern ∧
        c.2 = .leaf (.undeclared x)) ∨
      ∃ t w, Child (s.strip v) v c.1 t w ∧ finding subset t w = some c.2 := by
  induction s with
  | array element =>
    cases v with
    | array items =>
      rw [finding, Report.nested?] at h
      split_ifs at h
      cases h
      obtain ⟨i, item, hi, hkey, hfound⟩ := exists_of_mem_entriesOfItems hc
      rw [hkey, Nat.zero_add]
      exact .inr ⟨element, item, .element hi, hfound⟩
    | _ => cases h
  | object pattern =>
    cases hv : v.fields? with
    | none =>
      rw [finding, hv] at h
      cases h
    | some fields =>
      rw [finding_object hv, Report.nested?] at h
      split_ifs at h
      cases h
      rcases List.mem_append.mp hc with hc | hc
      · obtain ⟨hkey, x, hx⟩ := exists_of_mem_undeclaredEntries hc
        exact .inl ⟨pattern, x, rfl, hkey, hx⟩
      · obtain ⟨shape, hmem, hfound⟩ := exists_of_mem_entriesOfFields hc
        exact .inr ⟨shape, _, .property hv hmem, hfound⟩
  | wrapped m inner ih =>
    rw [finding] at h
    split_ifs at h with hadmits
    rw [strip_wrapped, if_neg hadmits]
    exact ih h
  | _ =>
    rw [finding_of_isFlat rfl] at h
    obtain ⟨l, -, hl⟩ := Option.map_eq_some_iff.mp h
    cases hl

theorem ne_nil_of_finding_nested {subset : Bool} {s : Shape} {v : Value}
    {children : List (String × Report)} (h : finding subset s v = some (.nested children)) :
    children ≠ [] := by
  rintro rfl
  have hleaves : leavesOf (finding subset s v) = [] := by
    rw [h]
    rfl
  rw [leavesOf_finding_eq_nil_iff, h] at hleaves
  cases hleaves

/-- A modifier stays in front only where it admits the value. -/
theorem finding_of_strip_eq_wrapped {s inner : Shape} {m : Modifier} {v : Value}
    (h : s.strip v = wrapped m inner) (subset : Bool) : finding subset s v = none := by
  induction s with
  | wrapped m' inner' ih =>
    rw [strip_wrapped] at h
    rw [finding]
    split_ifs at h ⊢ with hadmits
    · rfl
    · exact ih h
  | _ => cases h

end Shape

/-! ## Nodes -/

/-- The children of a node mirror a record or an array. Under a pattern they are undeclared keys
exactly where the pattern does not declare them; in an array each stands under the index of an
element and is the report on it. -/
def Report.MadeFrom (subset : Bool) (children : List (String × Report)) : Shape → Value → Prop
  | .object pattern, _ =>
    ∀ c ∈ children, (c.2.isUnexpected = true ↔ c.1 ∉ Record.keys pattern)
  | .array element, .array items =>
    ∀ c ∈ children, c.2.isUnexpected = false ∧ ∃ (i : Nat) (item : Value),
      items[i]? = some item ∧ c.1 = toString i ∧
        element.reportWith item ⟨subset, none⟩ = .ok (some c.2)
  | _, _ => False

namespace Shape

theorem madeFrom_of_finding {subset : Bool} {s : Shape} {v : Value}
    {children : List (String × Report)} (h : finding subset s v = some (.nested children)) :
    Report.MadeFrom subset children (s.strip v) v := by
  have hnode : finding subset (s.strip v) v = some (.nested children) := by rw [finding_strip, h]
  have hcases (c : String × Report) (hc : c ∈ children) := mem_children_cases h hc
  cases hs : s.strip v with
  | object pattern =>
    rw [hs] at hcases
    show ∀ c ∈ children, (c.2.isUnexpected = true ↔ c.1 ∉ Record.keys pattern)
    intro c hc
    rcases hcases c hc with ⟨_, x, ⟨⟩, hkey, hx⟩ | ⟨t, w, hstep, hfound⟩
    · simp [hx, hkey, Report.isUnexpected, Leaf.undeclared, Leaf.isUnexpected]
    · cases hstep with
      | property _ hmem =>
        have hdeclared : c.1 ∈ Record.keys pattern := List.mem_map_of_mem hmem
        simp [isUnexpected_of_finding hfound, hdeclared]
  | array element =>
    rw [hs] at hcases hnode
    cases v with
    | array items =>
      unfold Report.MadeFrom
      intro c hc
      rcases hcases c hc with ⟨_, x, ⟨⟩, -⟩ | ⟨t, w, hstep, hfound⟩
      refine ⟨isUnexpected_of_finding hfound, ?_⟩
      generalize c.1 = key at hstep
      cases hstep with
      | element hi => exact ⟨_, w, hi, rfl, by rw [reportWith_unlimited, hfound]⟩
    | _ => cases hnode
  | wrapped m inner =>
    rw [finding_of_strip_eq_wrapped hs] at h
    cases h
  | _ =>
    rw [hs, finding_of_isFlat rfl] at hnode
    obtain ⟨l, -, hl⟩ := Option.map_eq_some_iff.mp hnode
    cases hl

/-- A node stands at a position and is made from the shape and the value there. -/
theorem reaches_of_at? {subset : Bool} {keys : List String} {children : List (String × Report)} :
    ∀ {s : Shape} {v : Value} {r : Report}, finding subset s v = some r →
      r.at? keys = some (.nested children) →
      children ≠ [] ∧ ∃ t w, Reaches s v keys t w ∧ Report.MadeFrom subset children t w := by
  induction keys with
  | nil =>
    intro s v r hr hat
    cases hat
    exact ⟨ne_nil_of_finding_nested hr, s.strip v, v, .root s v, madeFrom_of_finding hr⟩
  | cons key keys ih =>
    intro s v r hr hat
    cases r with
    | leaf l => cases hat
    | nested siblings =>
      rw [Report.at?_nested_cons, Option.bind_eq_some_iff] at hat
      obtain ⟨child, hchild, hat⟩ := hat
      rcases mem_children_cases hr (Record.mem_of_get? hchild) with
        ⟨_, x, -, -, hx⟩ | ⟨t, w, hstep, hfound⟩
      · -- an undeclared key has no nodes below it
        cases hx
        cases keys <;> cases hat
      · obtain ⟨hne, t', w', hreach, hmade⟩ := ih hfound hat
        exact ⟨hne, t', w', .step hstep hreach, hmade⟩

end Shape

/-! ## Well-made reports -/

/-- A report on a value by a shape that is well made at every depth. -/
structure Report.WellMade (subset : Bool) (s : Shape) (v : Value) (r : Report) : Prop where
  root : r.isUnexpected = false
  node : ∀ keys children, r.at? keys = some (nested children) →
    children ≠ [] ∧ ∃ t w, Shape.Reaches s v keys t w ∧ MadeFrom subset children t w
  distinct : s.WellFormed → v.WellFormed → r.WellFormed
  leafCount_pos : 1 ≤ r.leafCount
  leafCount_eq : r.leafCount = r.paths.length

namespace Shape

theorem wellMade_of_finding {subset : Bool} {s : Shape} {v : Value} {r : Report}
    (h : finding subset s v = some r) : r.WellMade subset s v where
  root := isUnexpected_of_finding h
  node := fun _ _ hat => reaches_of_at? h hat
  distinct := fun hs hv => wellFormed_of_mem_finding hs hv r h
  leafCount_pos := by
    rw [Report.leafCount_eq_length_leaves, Nat.one_le_iff_ne_zero, ne_eq, List.length_eq_zero_iff]
    intro hnil
    have hleaves : leavesOf (finding subset s v) = [] := by rw [h, leavesOf, hnil]
    rw [leavesOf_finding_eq_nil_iff, h] at hleaves
    cases hleaves
  leafCount_eq := r.length_paths.symm

/-- **Reports are well made.** Whatever the options, no node of a report is empty, the report is no
undeclared key, a child of a node that mirrors a record is an undeclared key exactly where the
pattern does not declare it, and a child of a node that mirrors an array is the report on the
element of its index. So a report has as many listed paths as leaves, and at least one; only the
empty answer has none. -/
theorem reportWith_wellMade (s : Shape) (v : Value) (o : Options) :
    (∀ r, s.reportWith v o = .ok (some r) → r.WellMade o.subset s v) ∧
      (∀ r, s.report v = some r → r.WellMade false s v) ∧
      ∀ r, s.reportWith v o = .ok r → (leavesOf r = [] ↔ r = none) := by
  refine ⟨fun r h => wellMade_of_finding (reportWith_ok_iff.mp h).2, fun r h => ?_, fun r h => ?_⟩
  · rw [report_eq_finding] at h
    exact wellMade_of_finding h
  · obtain ⟨-, rfl⟩ := reportWith_ok_iff.mp h
    exact leavesOf_finding_eq_nil_iff

/-- A node made from a record with a node made from an array below it. -/
theorem reportWith_wellMade_record :
    ∃ r, (object [("tags", array (marker .string))]).reportWith
        (.object [("tags", .array [.string "a", .null]), ("more", .bool true)]) ⟨false, none⟩ =
          .ok (some r) ∧
      r.at? ["tags"] = some (.nested [("1", .leaf (.wrongKind .null "String"))]) ∧
      r.WellMade false (object [("tags", array (marker .string))])
        (.object [("tags", .array [.string "a", .null]), ("more", .bool true)]) := by
  have hr := reportWith_unlimited (object [("tags", array (marker .string))])
    (.object [("tags", .array [.string "a", .null]), ("more", .bool true)]) false
  exact ⟨_, hr, rfl, (reportWith_wellMade _ _ _).1 _ hr⟩

end Shape

end Conformance
