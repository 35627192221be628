import Conformance.Proofs.WellFormed

/-!
# The leaves of a report

A report is sound and complete, position by position: at each position the rule of the shape there
says whether there is a mismatch, and in a strict reading each undeclared key of a record there is
a leaf one key further down.

Results:
* `Position.leaves`: the leaves that a position gives rise to.
* `Shape.leavesOf_finding`: the leaves of a report are those of the positions, in their order.
* `Shape.leavesOf_finding_eq_nil_iff`: every report has a leaf.
* `Shape.reportWith_leaves`: which leaves a report has, in which order, and that no two of them have
  the same keys.
-/

namespace Conformance

/-! ## Leaves of positions and of findings -/

/-- The own properties under a record-like value that the pattern there does not declare. -/
def Shape.undeclaredAt : Shape → Value → Record Value
  | object pattern, v =>
    match v.fields? with
    | some fields => undeclaredFields pattern fields
    | none => []
  | _, _ => []

/-- The leaves that a position gives rise to: what the rule there has against the value, and each
undeclared key. -/
def Position.leaves (subset : Bool) (p : Position) : List (List String × Leaf) :=
  (p.shape.objection? p.value).toList.map (fun l => (p.keys, l)) ++
    if subset then []
    else (p.shape.undeclaredAt p.value).map fun f => (p.keys ++ [f.1], Leaf.undeclared f.2)

namespace Shape

/-- The leaves of a finding with their keys. -/
def leavesOf : Finding → List (List String × Leaf)
  | some r => r.leaves
  | none => []

/-- What a rule has against a value is never an undeclared key. -/
theorem isUnexpected_of_objection? {s : Shape} {v : Value} {l : Leaf}
    (h : s.objection? v = some l) : l.isUnexpected = false := by
  cases s with
  | wrapped => cases h
  | _ =>
    simp only [objection?] at h
    split at h <;> cases h
    rfl

theorem leavesOf_nested? (children : List (String × Report)) :
    leavesOf (Report.nested? children) = Report.leavesOfChildren children := by
  cases children <;> rfl

theorem leavesOfChildren_append (a b : List (String × Report)) :
    Report.leavesOfChildren (a ++ b) =
      Report.leavesOfChildren a ++ Report.leavesOfChildren b := by
  induction a with
  | nil => rfl
  | cons c rest ih =>
    obtain ⟨key, child⟩ := c
    rw [List.cons_append, Report.leavesOfChildren, Report.leavesOfChildren, ih, List.append_assoc]

theorem leavesOfChildren_entry (key : String) (found : Finding) :
    Report.leavesOfChildren (entry key found) =
      (leavesOf found).map fun l => (key :: l.1, l.2) := by
  cases found with
  | none => rfl
  | some r => exact List.append_nil _

theorem leavesOfChildren_undeclaredEntries (subset : Bool) (pattern : Record Shape)
    (fields : Record Value) :
    Report.leavesOfChildren (undeclaredEntries subset pattern fields) =
      if subset then []
      else (undeclaredFields pattern fields).map fun f => ([f.1], Leaf.undeclared f.2) := by
  cases subset with
  | true => rfl
  | false =>
    rw [undeclaredEntries, if_neg Bool.false_ne_true, if_neg Bool.false_ne_true]
    induction undeclaredFields pattern fields with
    | nil => rfl
    | cons f rest ih =>
      rw [List.map_cons, Report.leavesOfChildren, ih]
      rfl

/-! ## Position by position -/

theorem leaves_under (subset : Bool) (key : String) (p : Position) :
    (p.under key).leaves subset = (p.leaves subset).map fun l => (key :: l.1, l.2) := by
  cases subset <;> simp [Position.leaves, Position.under, Function.comp_def]

/-- The leaves of the positions of a child, seen from its parent. -/
theorem flatMap_leaves_under (subset : Bool) (key : String) (ps : List Position) :
    (ps.map (Position.under key)).flatMap (Position.leaves subset) =
      (ps.flatMap (Position.leaves subset)).map fun l => (key :: l.1, l.2) := by
  rw [List.flatMap_map, List.map_flatMap]
  exact congrArg (ps.flatMap ·) (funext fun p => leaves_under subset key p)

theorem leavesOfChildren_entriesOfItems {subset : Bool} {element : Shape}
    {found : Value → Finding}
    (h : ∀ v, leavesOf (found v) = (positions element v).flatMap (Position.leaves subset))
    (items : List Value) : ∀ index, Report.leavesOfChildren (entriesOfItems found index items) =
      (positionsOfItems (positions element) index items).flatMap (Position.leaves subset) := by
  induction items with
  | nil => exact fun _ => rfl
  | cons item rest ih =>
    intro index
    rw [entriesOfItems, positionsOfItems, leavesOfChildren_append, List.flatMap_append,
      leavesOfChildren_entry, flatMap_leaves_under, h item, ih]

theorem leavesOfChildren_entriesOfFields {subset : Bool} {fields : Record Value}
    {pattern : Record Shape}
    (h : ∀ f ∈ pattern, ∀ v, leavesOf (finding subset f.2 v) =
      (positions f.2 v).flatMap (Position.leaves subset)) :
    Report.leavesOfChildren (entriesOfFields subset pattern fields) =
      (positionsOfFields pattern fields).flatMap (Position.leaves subset) := by
  induction pattern with
  | nil => rfl
  | cons f rest ih =>
    obtain ⟨key, shape⟩ := f
    rw [entriesOfFields, positionsOfFields, leavesOfChildren_append, List.flatMap_append,
      leavesOfChildren_entry, flatMap_leaves_under, h _ List.mem_cons_self,
      ih fun f hf => h f (List.mem_cons_of_mem _ hf)]

theorem leavesOf_map_leaf (objection : Option Leaf) :
    leavesOf (objection.map Report.leaf) = objection.toList.map fun l => ([], l) := by
  cases objection <;> rfl

/-- The leaves of a report are those of the positions, in the order of the positions. -/
theorem leavesOf_finding (subset : Bool) (s : Shape) (v : Value) :
    leavesOf (finding subset s v) = (positions s v).flatMap (Position.leaves subset) := by
  induction s generalizing v with
  | array element ih =>
    cases v with
    | array items =>
      rw [finding, leavesOf_nested?, leavesOfChildren_entriesOfItems ih, positions,
        List.flatMap_cons]
      cases subset <;> rfl
    | _ => cases subset <;> rfl
  | object pattern ih =>
    rw [finding, positions, List.flatMap_cons]
    cases hf : v.fields? with
    | some fields =>
      show leavesOf (Report.nested? (_ ++ _)) = _ ++ (positionsOfFields pattern fields).flatMap _
      rw [leavesOf_nested?, leavesOfChildren_append, leavesOfChildren_entriesOfFields ih,
        leavesOfChildren_undeclaredEntries]
      simp [Position.leaves, objection?, undeclaredAt, hf]
    | none => cases subset <;> simp [Position.leaves, objection?, undeclaredAt, hf] <;> rfl
  | wrapped m inner ih =>
    rw [finding, positions]
    split_ifs
    · cases subset <;> rfl
    · exact ih v
  | _ =>
    rw [finding_of_isFlat rfl, leavesOf_map_leaf]
    cases subset <;> simp [positions, Position.leaves, undeclaredAt]

/-! ## Reports without leaves -/

theorem eq_nil_of_leavesOfChildren_undeclaredEntries {subset : Bool} {pattern : Record Shape}
    {fields : Record Value}
    (h : Report.leavesOfChildren (undeclaredEntries subset pattern fields) = []) :
    undeclaredEntries subset pattern fields = [] := by
  cases subset with
  | true => rfl
  | false =>
    rw [leavesOfChildren_undeclaredEntries, if_neg Bool.false_ne_true, List.map_eq_nil_iff] at h
    rw [undeclaredEntries, h]
    rfl

/-- Where every finding has a leaf, so have the entries that begin with one. -/
theorem eq_nil_of_leavesOfChildren_entry_append {key : String} {found : Finding}
    {others : List (String × Report)} (hfound : leavesOf found = [] → found = none)
    (hothers : Report.leavesOfChildren others = [] → others = [])
    (h : Report.leavesOfChildren (entry key found ++ others) = []) :
    entry key found ++ others = [] := by
  rw [leavesOfChildren_append, leavesOfChildren_entry, List.append_eq_nil_iff,
    List.map_eq_nil_iff] at h
  rw [hfound h.1, hothers h.2]
  rfl

theorem eq_nil_of_leavesOfChildren_entriesOfItems {found : Value → Finding} {items : List Value}
    (hfound : ∀ v, leavesOf (found v) = [] → found v = none) :
    ∀ index, Report.leavesOfChildren (entriesOfItems found index items) = [] →
      entriesOfItems found index items = [] := by
  induction items with
  | nil => exact fun _ _ => rfl
  | cons item rest ih =>
    intro index h
    exact eq_nil_of_leavesOfChildren_entry_append (hfound item) (ih (index + 1)) h

theorem eq_nil_of_leavesOfChildren_entriesOfFields {subset : Bool} {fields : Record Value}
    {pattern : Record Shape}
    (hfound : ∀ f ∈ pattern, ∀ v, leavesOf (finding subset f.2 v) = [] →
      finding subset f.2 v = none)
    (h : Report.leavesOfChildren (entriesOfFields subset pattern fields) = []) :
    entriesOfFields subset pattern fields = [] := by
  induction pattern with
  | nil => rfl
  | cons f rest ih =>
    obtain ⟨key, shape⟩ := f
    rw [List.forall_mem_cons] at hfound
    exact eq_nil_of_leavesOfChildren_entry_append (hfound.1 _) (ih hfound.2) h

/-- A report has a leaf: only the empty finding has none. -/
theorem leavesOf_finding_eq_nil_iff {subset : Bool} {s : Shape} {v : Value} :
    leavesOf (finding subset s v) = [] ↔ finding subset s v = none := by
  refine ⟨?_, fun h => by rw [h]; rfl⟩
  induction s generalizing v with
  | array element ih =>
    cases v with
    | array items =>
      rw [finding, leavesOf_nested?]
      intro h
      rw [eq_nil_of_leavesOfChildren_entriesOfItems (fun v => ih (v := v)) 0 h]
      rfl
    | _ => rintro ⟨⟩
  | object pattern ih =>
    rw [finding]
    cases v.fields? with
    | none => rintro ⟨⟩
    | some fields =>
      show leavesOf (Report.nested? _) = [] → Report.nested? _ = none
      rw [leavesOf_nested?, leavesOfChildren_append, List.append_eq_nil_iff]
      rintro ⟨hundeclared, hwrong⟩
      rw [eq_nil_of_leavesOfChildren_undeclaredEntries hundeclared,
        eq_nil_of_leavesOfChildren_entriesOfFields (fun f hf v => ih f hf) hwrong]
      rfl
  | wrapped m inner ih =>
    rw [finding]
    split_ifs
    · exact fun _ => rfl
    · exact ih
  | _ =>
    rw [finding_of_isFlat rfl, leavesOf_map_leaf, List.map_eq_nil_iff, Option.toList_eq_nil_iff]
    intro h
    rw [h]
    rfl

/-! ## Which leaves there are -/

theorem mem_undeclaredAt_iff {s : Shape} {v : Value} {f : String × Value} :
    f ∈ s.undeclaredAt v ↔ ∃ pattern fields, s = object pattern ∧ v.fields? = some fields ∧
      f ∈ fields ∧ f.1 ∉ Record.keys pattern := by
  cases s with
  | object pattern =>
    rw [undeclaredAt]
    cases hf : v.fields? with
    | some fields => simp [mem_undeclaredFields_iff]
    | none => simp
  | _ => simp [undeclaredAt]

theorem mem_leaves_iff {subset : Bool} {p : Position} {keys : List String} {l : Leaf} :
    (keys, l) ∈ p.leaves subset ↔
      (keys = p.keys ∧ p.shape.objection? p.value = some l) ∨
      (subset = false ∧ ∃ f ∈ p.shape.undeclaredAt p.value,
        keys = p.keys ++ [f.1] ∧ l = .undeclared f.2) := by
  have hrule : (keys, l) ∈ (p.shape.objection? p.value).toList.map (fun l => (p.keys, l)) ↔
      keys = p.keys ∧ p.shape.objection? p.value = some l := by
    cases p.shape.objection? p.value <;> simp [eq_comm]
  rw [Position.leaves, List.mem_append, hrule]
  refine or_congr_right ?_
  cases subset with
  | true => simp
  | false => simp [eq_comm]

theorem mem_leavesOf_finding_iff {subset : Bool} {s : Shape} {v : Value} {keys : List String}
    {l : Leaf} : (keys, l) ∈ leavesOf (finding subset s v) ↔
      (∃ t w, Reaches s v keys t w ∧ t.objection? w = some l) ∨
      (subset = false ∧ ∃ above key pattern w fields x, keys = above ++ [key] ∧
        Reaches s v above (object pattern) w ∧ w.fields? = some fields ∧ (key, x) ∈ fields ∧
        key ∉ Record.keys pattern ∧ l = .undeclared x) := by
  rw [leavesOf_finding, List.mem_flatMap]
  constructor
  · rintro ⟨p, hp, hl⟩
    have hr : Reaches s v p.keys p.shape p.value := mem_positions_iff.mp hp
    rcases mem_leaves_iff.mp hl with ⟨rfl, ho⟩ | ⟨hs, ⟨key, x⟩, hf, rfl, rfl⟩
    · exact .inl ⟨_, _, hr, ho⟩
    · obtain ⟨pattern, fields, ht, hw, hx, hk⟩ := mem_undeclaredAt_iff.mp hf
      rw [ht] at hr
      exact .inr ⟨hs, p.keys, key, pattern, p.value, fields, x, rfl, hr, hw, hx, hk, rfl⟩
  · rintro (⟨t, w, hr, ho⟩ | ⟨hs, above, key, pattern, w, fields, x, rfl, hr, hw, hx, hk, rfl⟩)
    · exact ⟨_, mem_positions_iff.mpr hr, mem_leaves_iff.mpr (.inl ⟨rfl, ho⟩)⟩
    · have hf := mem_undeclaredAt_iff.mpr ⟨pattern, fields, rfl, hw, hx, hk⟩
      exact ⟨_, mem_positions_iff.mpr hr, mem_leaves_iff.mpr (.inr ⟨hs, (key, x), hf, rfl, rfl⟩)⟩

theorem nodup_keys_leavesOf_finding {subset : Bool} {s : Shape} {v : Value} (hs : s.WellFormed)
    (hv : v.WellFormed) : ((leavesOf (finding subset s v)).map Prod.fst).Nodup := by
  have hwf : ∀ r ∈ finding subset s v, r.WellFormed := wellFormed_of_mem_finding hs hv
  cases hr : finding subset s v with
  | none => exact List.nodup_nil
  | some r =>
    rw [hr] at hwf
    exact Report.nodup_keys_leaves (hwf r rfl)

/-- **The leaves of a report.** Without a limit there is always an answer. A leaf stands at the keys
of a position where the rule of the shape objects to the value, or, in a strict reading, at an
undeclared key of a record that meets a pattern; and there are no others. The leaves come in the
order of the positions. Where the keys of records are distinct, each sequence of keys has at most
one leaf. -/
theorem reportWith_leaves (s : Shape) (v : Value) (subset : Bool) :
    ∃ r, s.reportWith v ⟨subset, none⟩ = .ok r ∧
      (∀ keys l, (keys, l) ∈ leavesOf r ↔
        (∃ t w, Reaches s v keys t w ∧ t.objection? w = some l) ∨
        (subset = false ∧ ∃ above key pattern w fields x, keys = above ++ [key] ∧
          Reaches s v above (object pattern) w ∧ w.fields? = some fields ∧ (key, x) ∈ fields ∧
          key ∉ Record.keys pattern ∧ l = .undeclared x)) ∧
      leavesOf r = (positions s v).flatMap (Position.leaves subset) ∧
      (s.WellFormed → v.WellFormed → ((leavesOf r).map Prod.fst).Nodup) := by
  refine ⟨finding subset s v, reportWith_unlimited s v subset, ?_, ?_, ?_⟩
  · exact fun keys l => mem_leavesOf_finding_iff
  · exact leavesOf_finding subset s v
  · exact nodup_keys_leavesOf_finding

/-- An undeclared key, an element of the wrong kind and an absent key, in that order. -/
theorem reportWith_leaves_record :
    (object [("tags", array (marker .string)), ("size", any)]).WellFormed ∧
      (Value.object [("tags", .array [.string "a", .null]), ("more", .bool true)]).WellFormed ∧
      ∃ r, (object [("tags", array (marker .string)), ("size", any)]).reportWith
          (.object [("tags", .array [.string "a", .null]), ("more", .bool true)]) ⟨false, none⟩ =
            .ok r ∧
        leavesOf r = [(["more"], .undeclared (.bool true)),
          (["tags", "1"], .wrongKind .null "String"), (["size"], .wrongKind .undefined "Any")] ∧
        ((leavesOf r).map Prod.fst).Nodup := by
  have hs : (object [("tags", array (marker .string)), ("size", any)]).WellFormed := by
    simp [WellFormed, Record.Distinct, Record.keys]
  have hv : (Value.object
      [("tags", .array [.string "a", .null]), ("more", .bool true)]).WellFormed := by
    simp [Value.WellFormed, Record.Distinct, Record.keys]
  obtain ⟨r, hr, -, horder, hnodup⟩ := reportWith_leaves _ _ false
  refine ⟨hs, hv, r, hr, ?_, hnodup hs hv⟩
  rw [horder]
  rfl

end Shape

end Conformance
