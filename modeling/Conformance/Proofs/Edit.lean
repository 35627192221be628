import Conformance.Proofs.Leaves
import Conformance.Proofs.Lookup

/-!
# Edits of a value

An edit changes what stands under a key, an element of an array or a property of a record, or it
takes a key out of a record. The report follows: an edit under a key changes the entry on that key
only, and when an undeclared key is taken out, the leaf on it goes.

Results:
* `Value.modify`, `Value.modifyAt`: a change under a key, and at the end of a path of keys.
* `Value.erase`: a record without a key.
* `Shape.finding_strip`: the modifiers that do not admit a value play no part in the report on it.
* `Shape.Child.exists_split`: one entry of the report changes with what stands under its key.
* `Shape.leavesOf_finding_erase`: one leaf of the report goes with its undeclared key.
-/

namespace Conformance

/-! ## Edits -/

/-- The record without a key. -/
def Record.erase {α : Type} (r : Record α) (key : String) : Record α := r.filter (·.1 != key)

namespace Value

/-- The same kind of record with other properties; a value that is no record stays as it is. -/
def mapFields (f : Record Value → Record Value) : Value → Value
  | object fields => object (f fields)
  | instanceOf c fields => instanceOf c (f fields)
  | v => v

/-- Changes what stands under a key: an element under its index, or what a property reads as. A
property that is absent is entered. -/
def modify (change : Value → Value) (key : String) : Value → Value
  | array items =>
    array (items.mapIdx fun index item => if toString index = key then change item else item)
  | v => v.mapFields fun fields => Record.insert fields key (change (read fields key))

/-- Changes what stands at the end of a path of keys. -/
def modifyAt (change : Value → Value) : List String → Value → Value
  | [], v => change v
  | key :: keys, v => v.modify (modifyAt change keys) key

/-- Takes a key out of a record. -/
def erase (key : String) (v : Value) : Value := v.mapFields (Record.erase · key)

theorem fields?_mapFields (f : Record Value → Record Value) (v : Value) :
    (v.mapFields f).fields? = v.fields?.map f := by
  cases v <;> rfl

theorem modify_of_fields? {v : Value} {fields : Record Value} (h : v.fields? = some fields)
    (change : Value → Value) (key : String) :
    (v.modify change key).fields? =
      some (Record.insert fields key (change (read fields key))) := by
  cases v with
  | object =>
    cases h
    rfl
  | instanceOf =>
    cases h
    rfl
  | _ => cases h

theorem modify_array {items : List Value} {index : Nat} {item : Value}
    (h : items[index]? = some item) (change : Value → Value) :
    (array items).modify change (toString index) = array (items.set index (change item)) := by
  rw [modify, array.injEq, List.mapIdx_eq_iff]
  intro i
  rw [List.getElem?_set]
  by_cases hi : index = i
  · subst hi
    obtain ⟨hlt, -⟩ := List.getElem?_eq_some_iff.mp h
    rw [if_pos rfl, if_pos hlt, h, Option.map_some, if_pos rfl]
  · have hkey : toString i ≠ toString index := fun he => hi (Shape.eq_of_toString_eq he).symm
    simp only [hi, hkey, if_false, Option.map_id']

theorem read_insert (fields : Record Value) (key : String) (x : Value) (other : String) :
    read (Record.insert fields key x) other = if other = key then x else read fields other := by
  rw [read, read, Record.get?_insert]
  split_ifs <;> rfl

theorem read_erase (fields : Record Value) (key other : String) :
    read (Record.erase fields key) other =
      if other = key then undefined else read fields other := by
  rw [read, read, Record.erase, Record.get?_filter (· != key)]
  by_cases h : other = key <;> simp [h]

end Value

namespace Shape

/-! ## Modifiers in front -/

theorem finding_strip (subset : Bool) (s : Shape) (v : Value) :
    finding subset (s.strip v) v = finding subset s v := by
  induction s with
  | wrapped m inner ih =>
    rw [strip_wrapped]
    split_ifs with hadmits
    · rfl
    · rw [ih, finding, if_neg hadmits]
  | _ => rfl

theorem strip_congr (s : Shape) {v w : Value} (hundefined : v.isUndefined = w.isUndefined)
    (hnull : v.isNull = w.isNull) : s.strip v = s.strip w := by
  induction s with
  | wrapped m inner ih =>
    rw [strip_wrapped, strip_wrapped, m.admits_congr hundefined hnull, ih]
  | _ => rfl

theorem strip_modify (s : Shape) (change : Value → Value) (key : String) (v : Value) :
    s.strip (v.modify change key) = s.strip v := by
  apply strip_congr <;> cases v <;> rfl

theorem strip_erase (s : Shape) (key : String) (v : Value) :
    s.strip (v.erase key) = s.strip v := by
  apply strip_congr <;> cases v <;> rfl

theorem wellFormed_strip {s : Shape} (h : s.WellFormed) (v : Value) : (s.strip v).WellFormed := by
  induction s with
  | wrapped m inner ih =>
    rw [strip_wrapped]
    split_ifs
    · exact h
    · rw [WellFormed] at h
      exact ih h
  | _ => exact h

/-! ## A change under a key -/

theorem entriesOfItems_append (found : Value → Finding) (before after : List Value) :
    ∀ index, entriesOfItems found index (before ++ after) =
      entriesOfItems found index before ++
        entriesOfItems found (index + before.length) after := by
  induction before with
  | nil => exact fun _ => rfl
  | cons item rest ih =>
    intro index
    rw [List.cons_append, entriesOfItems, entriesOfItems, ih (index + 1), List.append_assoc,
      List.length_cons, Nat.add_right_comm, Nat.add_assoc]

theorem entriesOfItems_set (found : Value → Finding) {items : List Value} {index : Nat}
    (h : index < items.length) (x : Value) :
    entriesOfItems found 0 (items.set index x) =
      entriesOfItems found 0 (items.take index) ++ entry (toString index) (found x) ++
        entriesOfItems found (index + 1) (items.drop (index + 1)) := by
  have hlength : (items.take index).length = index := List.length_take_of_le (Nat.le_of_lt h)
  rw [List.set_eq_take_append_cons_drop, if_pos h, entriesOfItems_append, hlength, Nat.zero_add,
    entriesOfItems, List.append_assoc]

theorem entriesOfFields_append (subset : Bool) (before after : Record Shape)
    (fields : Record Value) :
    entriesOfFields subset (before ++ after) fields =
      entriesOfFields subset before fields ++ entriesOfFields subset after fields := by
  induction before with
  | nil => rfl
  | cons f rest ih =>
    obtain ⟨key, shape⟩ := f
    rw [List.cons_append, entriesOfFields, entriesOfFields, ih, List.append_assoc]

theorem entriesOfFields_congr {subset : Bool} {pattern : Record Shape}
    {fields fields' : Record Value}
    (h : ∀ f ∈ pattern, Value.read fields f.1 = Value.read fields' f.1) :
    entriesOfFields subset pattern fields = entriesOfFields subset pattern fields' := by
  induction pattern with
  | nil => rfl
  | cons f rest ih =>
    obtain ⟨key, shape⟩ := f
    rw [List.forall_mem_cons] at h
    rw [entriesOfFields, entriesOfFields, h.1, ih h.2]

theorem undeclaredFields_insert {pattern : Record Shape} {key : String}
    (h : key ∈ Record.keys pattern) (fields : Record Value) (x : Value) :
    undeclaredFields pattern (Record.insert fields key x) = undeclaredFields pattern fields := by
  have hdeclared : pattern.contains key = true := (Record.contains_iff_mem_keys _ _).mpr h
  induction fields with
  | nil => simp [Record.insert, undeclaredFields, hdeclared]
  | cons f rest ih =>
    obtain ⟨k, v⟩ := f
    simp only [undeclaredFields] at ih ⊢
    rw [Record.insert]
    split_ifs with hk
    · subst hk
      simp [hdeclared]
    · rw [List.filter_cons, List.filter_cons, ih]

theorem finding_object {v : Value} {fields : Record Value} (h : v.fields? = some fields)
    (subset : Bool) (pattern : Record Shape) : finding subset (object pattern) v =
      Report.nested?
        (undeclaredEntries subset pattern fields ++ entriesOfFields subset pattern fields) := by
  rw [finding, h]

/-- The entries under a pattern, a declared key apart, do not see what stands under the key. -/
theorem objectEntries_insert {subset : Bool} {before after : Record Shape} {key : String}
    {shape : Shape} (hbefore : key ∉ Record.keys before) (hafter : key ∉ Record.keys after)
    (fields : Record Value) (x : Value) :
    undeclaredEntries subset (before ++ (key, shape) :: after) (Record.insert fields key x) ++
        entriesOfFields subset (before ++ (key, shape) :: after) (Record.insert fields key x) =
      undeclaredEntries subset (before ++ (key, shape) :: after) fields ++
        entriesOfFields subset before fields ++ entry key (finding subset shape x) ++
        entriesOfFields subset after fields := by
  have hdeclared : key ∈ Record.keys (before ++ (key, shape) :: after) :=
    List.mem_map.mpr ⟨(key, shape), by simp, rfl⟩
  have hothers {pattern : Record Shape} (h : key ∉ Record.keys pattern) :
      entriesOfFields subset pattern (Record.insert fields key x) =
        entriesOfFields subset pattern fields := by
    refine entriesOfFields_congr fun f hf => ?_
    rw [Value.read_insert, if_neg (Record.ne_of_notMem_keys h hf)]
  rw [undeclaredEntries, undeclaredFields_insert hdeclared, ← undeclaredEntries,
    entriesOfFields_append, entriesOfFields, hothers hbefore, hothers hafter, Value.read_insert,
    if_pos rfl, List.append_assoc, List.append_assoc]

/-- A change under a key changes the entry on what stands there, and no other entry. -/
theorem Child.exists_split {s t : Shape} {v w : Value} {key : String} (h : Child s v key t w)
    (hs : s.WellFormed) (subset : Bool) :
    ∃ before after, key ∉ Record.keys before ∧ key ∉ Record.keys after ∧
      finding subset s v =
        Report.nested? (before ++ entry key (finding subset t w) ++ after) ∧
      ∀ change, finding subset s (v.modify change key) =
        Report.nested? (before ++ entry key (finding subset t (change w)) ++ after) := by
  cases h with
  | @element element items index item hitem =>
    obtain ⟨hlt, rfl⟩ := List.getElem?_eq_some_iff.mp hitem
    refine ⟨entriesOfItems (finding subset t) 0 (items.take index),
      entriesOfItems (finding subset t) (index + 1) (items.drop (index + 1)), ?_, ?_, ?_, ?_⟩
    · intro hmem
      obtain ⟨i, -, hi, he⟩ := mem_keys_entriesOfItems hmem
      have := eq_of_toString_eq he
      rw [List.length_take] at hi
      omega
    · intro hmem
      obtain ⟨i, hi, -, he⟩ := mem_keys_entriesOfItems hmem
      have := eq_of_toString_eq he
      omega
    · rw [finding, ← entriesOfItems_set (finding subset t) hlt, List.set_getElem_self]
    · intro change
      rw [Value.modify_array hitem, finding, entriesOfItems_set (finding subset t) hlt]
  | @property pattern _ fields _ shape hfields hmem =>
    rw [WellFormed] at hs
    obtain ⟨before, after, rfl⟩ := List.append_of_mem hmem
    have hkeys := hs.1
    rw [Record.Distinct, Record.keys, List.map_append, List.map_cons, List.nodup_middle,
      List.nodup_cons, List.mem_append, not_or] at hkeys
    obtain ⟨⟨hbefore, hafter⟩, -⟩ := hkeys
    refine ⟨undeclaredEntries subset (before ++ (key, t) :: after) fields ++
      entriesOfFields subset before fields, entriesOfFields subset after fields, ?_, ?_, ?_, ?_⟩
    · rw [Record.keys, List.map_append, List.mem_append]
      rintro (hundeclared | hdeclared)
      · refine notMem_keys_of_mem_undeclaredEntries hundeclared ?_
        exact List.mem_map.mpr ⟨(key, t), by simp, rfl⟩
      · exact hbefore ((keys_entriesOfFields_sublist _ _ _).subset hdeclared)
    · exact fun hdeclared => hafter ((keys_entriesOfFields_sublist _ _ _).subset hdeclared)
    · rw [finding_object hfields, entriesOfFields_append, entriesOfFields]
      simp only [List.append_assoc]
    · intro change
      rw [finding_object (Value.modify_of_fields? hfields change key),
        objectEntries_insert hbefore hafter]

/-! ## A key taken out -/

theorem undeclaredFields_erase (pattern : Record Shape) (fields : Record Value) (key : String) :
    undeclaredFields pattern (Record.erase fields key) =
      Record.erase (undeclaredFields pattern fields) key := by
  rw [undeclaredFields, undeclaredFields, Record.erase, Record.erase, List.filter_filter,
    List.filter_filter]
  simp only [Bool.and_comm]

theorem leavesOfChildren_undeclaredEntries_erase (subset : Bool) (pattern : Record Shape)
    (fields : Record Value) (key : String) :
    Report.leavesOfChildren (undeclaredEntries subset pattern (Record.erase fields key)) =
      (Report.leavesOfChildren (undeclaredEntries subset pattern fields)).filter
        (·.1 != [key]) := by
  rw [leavesOfChildren_undeclaredEntries, leavesOfChildren_undeclaredEntries,
    undeclaredFields_erase]
  cases subset with
  | true => rfl
  | false =>
    rw [if_neg Bool.false_ne_true, if_neg Bool.false_ne_true, List.filter_map, Record.erase]
    refine congrArg _ (List.filter_congr fun f _ => ?_)
    rw [Bool.eq_iff_iff]
    simp

theorem filter_leavesOfChildren_entriesOfFields {pattern : Record Shape} {key : String}
    (hkey : key ∉ Record.keys pattern) (subset : Bool) (fields : Record Value) :
    (Report.leavesOfChildren (entriesOfFields subset pattern fields)).filter (·.1 != [key]) =
      Report.leavesOfChildren (entriesOfFields subset pattern fields) := by
  rw [List.filter_eq_self]
  intro l hl
  obtain ⟨k, below, hcons, hk⟩ := Report.exists_cons_of_mem_leavesOfChildren hl
  have hmem := (keys_entriesOfFields_sublist _ _ _).subset hk
  rw [bne_iff_ne, hcons]
  rintro ⟨⟩
  exact hkey hmem

/-- When an undeclared key is taken out, the leaf on it goes, and no other leaf. -/
theorem leavesOf_finding_erase {pattern : Record Shape} {v : Value} {fields : Record Value}
    {key : String} (h : v.fields? = some fields) (hkey : key ∉ Record.keys pattern)
    (subset : Bool) :
    leavesOf (finding subset (object pattern) (v.erase key)) =
      (leavesOf (finding subset (object pattern) v)).filter (·.1 != [key]) := by
  have herase : (v.erase key).fields? = some (Record.erase fields key) := by
    rw [Value.erase, Value.fields?_mapFields, h, Option.map_some]
  have hread : entriesOfFields subset pattern (Record.erase fields key) =
      entriesOfFields subset pattern fields := by
    refine entriesOfFields_congr fun f hf => ?_
    rw [Value.read_erase, if_neg (Record.ne_of_notMem_keys hkey hf)]
  rw [finding_object herase, finding_object h, leavesOf_nested?, leavesOf_nested?,
    leavesOfChildren_append, leavesOfChildren_append, List.filter_append, hread,
    leavesOfChildren_undeclaredEntries_erase, filter_leavesOfChildren_entriesOfFields hkey]

end Shape

end Conformance
