import Conformance.Proofs.Finding
import Mathlib.Data.List.Nodup

/-!
# Distinct keys at every level

Records and patterns are built by entering, so that their keys are distinct, and so are those of
the values and shapes inside them. A report on such a value by such a shape has distinct keys at
every node: undeclared keys never meet declared ones, and the elements of an array have different
indices.

Results:
* `Shape.wellFormed_of_mem_finding`: the report of a well-formed shape on a well-formed value.
* `Report.nodup_keys_leaves`: no two leaves of a well-formed report have the same keys.
-/

namespace Conformance

/-! ## Trees, values, shapes and reports -/

/-- The keys of every object inside the tree are distinct. -/
def Json.WellFormed : Json → Prop
  | .array items => ∀ item ∈ items, item.WellFormed
  | .object fields => Record.Distinct fields ∧ ∀ f ∈ fields, f.2.WellFormed
  | _ => True
decreasing_by
  · have := List.sizeOf_lt_of_mem ‹item ∈ items›
    simp only [Json.array.sizeOf_spec]
    omega
  · have := Record.sizeOf_snd_lt_of_mem ‹f ∈ fields›
    simp only [Json.object.sizeOf_spec]
    omega

/-- The keys of every record inside the value are distinct. -/
def Value.WellFormed : Value → Prop
  | .array items => ∀ item ∈ items, item.WellFormed
  | .object fields => Record.Distinct fields ∧ ∀ f ∈ fields, f.2.WellFormed
  | .instanceOf _ fields => Record.Distinct fields ∧ ∀ f ∈ fields, f.2.WellFormed
  | _ => True
decreasing_by
  · have := List.sizeOf_lt_of_mem ‹item ∈ items›
    simp only [Value.array.sizeOf_spec]
    omega
  · have := Record.sizeOf_snd_lt_of_mem ‹f ∈ fields›
    simp only [Value.object.sizeOf_spec]
    omega
  · have := Record.sizeOf_snd_lt_of_mem ‹f ∈ fields›
    simp only [Value.instanceOf.sizeOf_spec]
    omega

/-- The keys of every pattern inside the shape are distinct. -/
def Shape.WellFormed : Shape → Prop
  | .array element => element.WellFormed
  | .object pattern => Record.Distinct pattern ∧ ∀ f ∈ pattern, f.2.WellFormed
  | .wrapped _ inner => inner.WellFormed
  | _ => True
decreasing_by
  · simp only [Shape.array.sizeOf_spec]
    omega
  · have := Record.sizeOf_snd_lt_of_mem ‹f ∈ pattern›
    simp only [Shape.object.sizeOf_spec]
    omega
  · simp only [Shape.wrapped.sizeOf_spec]
    omega

/-- The keys of every node of the report are distinct. -/
def Report.WellFormed : Report → Prop
  | .leaf _ => True
  | .nested children => Record.Distinct children ∧ ∀ c ∈ children, c.2.WellFormed
decreasing_by
  have := Record.sizeOf_snd_lt_of_mem ‹c ∈ children›
  simp only [Report.nested.sizeOf_spec]
  omega

/-! ## Reports on well-formed values -/

theorem Value.wellFormed_read {fields : Record Value} (h : ∀ f ∈ fields, f.2.WellFormed)
    (key : String) : (Value.read fields key).WellFormed := by
  induction fields with
  | nil => simp [read, WellFormed]
  | cons f rest ih =>
    obtain ⟨k, v⟩ := f
    rw [List.forall_mem_cons] at h
    rw [read, Record.get?_cons]
    split
    · exact h.1
    · exact ih h.2

theorem Value.wellFormed_of_fields? {v : Value} {fields : Record Value} (h : v.WellFormed)
    (hf : v.fields? = some fields) :
    Record.Distinct fields ∧ ∀ f ∈ fields, f.2.WellFormed := by
  cases v with
  | object => cases hf; rwa [WellFormed] at h
  | instanceOf => cases hf; rwa [WellFormed] at h
  | _ => cases hf

namespace Shape

/-- The key of an element determines its index. -/
theorem eq_of_toString_eq {m n : Nat} (h : toString m = toString n) : m = n := by
  have hd : Nat.toDigits 10 m = Nat.toDigits 10 n := by
    rw [← Nat.toList_repr, ← Nat.toList_repr]
    exact congrArg String.toList h
  rw [← Nat.ofDigitChars_toDigits (by omega : 1 < 10) (by omega : 10 ≤ 10) (n := m), hd,
    Nat.ofDigitChars_toDigits (by omega) (by omega)]

theorem keys_entry_append (key : String) (found : Finding) (others : List (String × Report)) :
    Record.keys (entry key found ++ others) =
      (found.toList.map fun _ => key) ++ Record.keys others := by
  cases found <;> rfl

theorem mem_keys_entriesOfItems {found : Value → Finding} {items : List Value} {key : String} :
    ∀ {index : Nat}, key ∈ Record.keys (entriesOfItems found index items) →
      ∃ i, index ≤ i ∧ i < index + items.length ∧ key = toString i := by
  induction items with
  | nil => intro index h; cases h
  | cons item rest ih =>
    intro index h
    rw [entriesOfItems, keys_entry_append, List.mem_append, List.mem_map] at h
    rcases h with ⟨r, -, rfl⟩ | h
    · exact ⟨index, Nat.le_refl _, Nat.lt_add_of_pos_right (Nat.succ_pos _), rfl⟩
    · obtain ⟨i, hle, hlt, rfl⟩ := ih h
      rw [List.length_cons]
      exact ⟨i, by omega, by omega, rfl⟩

theorem distinct_entry_append {key : String} {others : List (String × Report)}
    (hkey : key ∉ Record.keys others) (h : Record.Distinct others) (found : Finding) :
    Record.Distinct (entry key found ++ others) := by
  cases found with
  | none => exact h
  | some r => exact List.nodup_cons.mpr ⟨hkey, h⟩

theorem distinct_entriesOfItems (found : Value → Finding) (items : List Value) :
    ∀ index, Record.Distinct (entriesOfItems found index items) := by
  induction items with
  | nil => exact fun _ => List.nodup_nil
  | cons item rest ih =>
    intro index
    refine distinct_entry_append (fun hm => ?_) (ih (index + 1)) (found item)
    obtain ⟨i, hi, -, he⟩ := mem_keys_entriesOfItems hm
    have := eq_of_toString_eq he
    omega

theorem keys_entriesOfFields_sublist (subset : Bool) (pattern : Record Shape)
    (fields : Record Value) :
    (Record.keys (entriesOfFields subset pattern fields)).Sublist (Record.keys pattern) := by
  induction pattern with
  | nil => exact List.Sublist.refl []
  | cons f rest ih =>
    obtain ⟨key, shape⟩ := f
    rw [entriesOfFields]
    cases finding subset shape (Value.read fields key) with
    | none => exact ih.cons key
    | some r => exact ih.cons_cons key

theorem keys_undeclaredEntries_sublist (subset : Bool) (pattern : Record Shape)
    (fields : Record Value) :
    (Record.keys (undeclaredEntries subset pattern fields)).Sublist (Record.keys fields) := by
  cases subset with
  | true => exact List.nil_sublist _
  | false =>
    have hk : Record.keys (undeclaredEntries false pattern fields) =
        (undeclaredFields pattern fields).map Prod.fst := by
      rw [undeclaredEntries, if_neg Bool.false_ne_true, Record.keys, List.map_map]
      rfl
    rw [hk]
    exact List.filter_sublist.map Prod.fst

theorem notMem_keys_of_mem_undeclaredEntries {subset : Bool} {pattern : Record Shape}
    {fields : Record Value} {key : String}
    (h : key ∈ Record.keys (undeclaredEntries subset pattern fields)) :
    key ∉ Record.keys pattern := by
  cases subset with
  | true => cases h
  | false =>
    rw [undeclaredEntries, if_neg Bool.false_ne_true, Record.keys, List.map_map, List.mem_map] at h
    obtain ⟨f, hf, rfl⟩ := h
    exact (mem_undeclaredFields_iff.mp hf).2

/-- Undeclared keys come first and never meet a declared one. -/
theorem distinct_object_entries {subset : Bool} {pattern : Record Shape} {fields : Record Value}
    (hp : Record.Distinct pattern) (hf : Record.Distinct fields) :
    Record.Distinct
      (undeclaredEntries subset pattern fields ++ entriesOfFields subset pattern fields) := by
  have hdeclared := keys_entriesOfFields_sublist subset pattern fields
  rw [Record.Distinct, Record.keys, List.map_append]
  refine List.nodup_append.mpr ⟨?_, hdeclared.nodup hp, ?_⟩
  · exact (keys_undeclaredEntries_sublist subset pattern fields).nodup hf
  · rintro key hkey _ hmem rfl
    exact notMem_keys_of_mem_undeclaredEntries hkey (hdeclared.subset hmem)

theorem wellFormed_undeclaredEntries {subset : Bool} {pattern : Record Shape}
    {fields : Record Value} :
    ∀ c ∈ undeclaredEntries subset pattern fields, c.2.WellFormed := by
  intro c hc
  cases subset with
  | true => cases hc
  | false =>
    obtain ⟨f, -, rfl⟩ := List.mem_map.mp hc
    rw [Report.WellFormed]
    trivial

theorem snd_mem_of_mem_entry {key : String} {found : Finding} {c : String × Report}
    (h : c ∈ entry key found) : c.2 ∈ found := by
  cases found with
  | none => cases h
  | some r =>
    cases List.mem_singleton.mp h
    rfl

theorem wellFormed_entriesOfItems {found : Value → Finding} {items : List Value}
    (h : ∀ item ∈ items, ∀ r ∈ found item, r.WellFormed) :
    ∀ index, ∀ c ∈ entriesOfItems found index items, c.2.WellFormed := by
  induction items with
  | nil => intro index c hc; cases hc
  | cons item rest ih =>
    intro index c hc
    rw [List.forall_mem_cons] at h
    rw [entriesOfItems, List.mem_append] at hc
    rcases hc with hc | hc
    · exact h.1 _ (snd_mem_of_mem_entry hc)
    · exact ih h.2 (index + 1) c hc

theorem wellFormed_entriesOfFields {subset : Bool} {fields : Record Value}
    {pattern : Record Shape}
    (h : ∀ f ∈ pattern, ∀ r ∈ finding subset f.2 (Value.read fields f.1), r.WellFormed) :
    ∀ c ∈ entriesOfFields subset pattern fields, c.2.WellFormed := by
  induction pattern with
  | nil => intro c hc; cases hc
  | cons f rest ih =>
    obtain ⟨key, shape⟩ := f
    intro c hc
    rw [List.forall_mem_cons] at h
    rw [entriesOfFields, List.mem_append] at hc
    rcases hc with hc | hc
    · exact h.1 _ (snd_mem_of_mem_entry hc)
    · exact ih h.2 c hc

theorem wellFormed_of_mem_nested? {children : List (String × Report)}
    (hd : Record.Distinct children) (h : ∀ c ∈ children, c.2.WellFormed) :
    ∀ r ∈ Report.nested? children, r.WellFormed := by
  intro r hr
  rw [Report.nested?] at hr
  split_ifs at hr
  · cases hr
  · cases hr
    rw [Report.WellFormed]
    exact ⟨hd, h⟩

theorem wellFormed_of_mem_map_leaf (objection : Option Leaf) :
    ∀ r ∈ objection.map Report.leaf, r.WellFormed := by
  intro r hr
  obtain ⟨l, -, rfl⟩ := Option.map_eq_some_iff.mp hr
  rw [Report.WellFormed]
  trivial

/-- The report on a value has distinct keys at every node. -/
theorem wellFormed_of_mem_finding {subset : Bool} {s : Shape} {v : Value} (hs : s.WellFormed)
    (hv : v.WellFormed) : ∀ r ∈ finding subset s v, r.WellFormed := by
  induction s generalizing v with
  | array element ih =>
    rw [WellFormed] at hs
    cases v with
    | array items =>
      rw [Value.WellFormed] at hv
      refine wellFormed_of_mem_nested? (distinct_entriesOfItems _ items 0) ?_
      exact wellFormed_entriesOfItems (fun item hi => ih hs (hv item hi)) 0
    | _ => exact wellFormed_of_mem_map_leaf (some _)
  | object pattern ih =>
    rw [WellFormed] at hs
    rw [finding]
    cases hf : v.fields? with
    | none => exact wellFormed_of_mem_map_leaf (some _)
    | some fields =>
      obtain ⟨hd, hall⟩ := Value.wellFormed_of_fields? hv hf
      refine wellFormed_of_mem_nested? (distinct_object_entries hs.1 hd) ?_
      refine List.forall_mem_append.mpr ⟨wellFormed_undeclaredEntries, ?_⟩
      exact wellFormed_entriesOfFields fun f hm =>
        ih f hm (hs.2 f hm) (Value.wellFormed_read hall f.1)
  | wrapped m inner ih =>
    rw [WellFormed] at hs
    rw [finding]
    split_ifs
    · rintro r ⟨⟩
    · exact ih hs hv
  | _ =>
    rw [finding_of_isFlat rfl]
    exact wellFormed_of_mem_map_leaf _

end Shape

/-! ## Leaves of well-formed reports -/

namespace Report

/-- The keys of a leaf begin with the key of the child that it is in. -/
theorem exists_cons_of_mem_leavesOfChildren {children : List (String × Report)}
    {l : List String × Leaf} (h : l ∈ leavesOfChildren children) :
    ∃ key below, l.1 = key :: below ∧ key ∈ Record.keys children := by
  induction children with
  | nil => cases h
  | cons c rest ih =>
    obtain ⟨key, child⟩ := c
    rw [leavesOfChildren, List.mem_append, List.mem_map] at h
    rcases h with ⟨l, -, rfl⟩ | h
    · exact ⟨key, l.1, rfl, List.mem_cons_self⟩
    · obtain ⟨k, below, hl, hk⟩ := ih h
      exact ⟨k, below, hl, List.mem_cons_of_mem _ hk⟩

theorem nodup_keys_leavesOfChildren {children : List (String × Report)}
    (hd : Record.Distinct children) (h : ∀ c ∈ children, (c.2.leaves.map Prod.fst).Nodup) :
    ((leavesOfChildren children).map Prod.fst).Nodup := by
  induction children with
  | nil => exact List.nodup_nil
  | cons c rest ih =>
    obtain ⟨key, child⟩ := c
    obtain ⟨hkey, hrest⟩ := List.nodup_cons.mp hd
    rw [List.forall_mem_cons] at h
    have hhead : (child.leaves.map fun l => (key :: l.1, l.2)).map Prod.fst =
        (child.leaves.map Prod.fst).map (key :: ·) := by
      rw [List.map_map, List.map_map]
      rfl
    rw [leavesOfChildren, List.map_append, hhead]
    refine List.nodup_append.mpr ⟨h.1.map (List.cons_injective), ih hrest h.2, ?_⟩
    rintro _ ha b hb rfl
    obtain ⟨keys, -, rfl⟩ := List.mem_map.mp ha
    obtain ⟨l, hl, he⟩ := List.mem_map.mp hb
    obtain ⟨k, below, hcons, hk⟩ := exists_cons_of_mem_leavesOfChildren hl
    rw [hcons] at he
    cases he
    exact hkey hk

/-- No two leaves have the same keys. -/
theorem nodup_keys_leaves {r : Report} (h : r.WellFormed) : (r.leaves.map Prod.fst).Nodup := by
  induction r with
  | leaf l => exact List.nodup_singleton _
  | nested children ih =>
    rw [WellFormed] at h
    exact nodup_keys_leavesOfChildren h.1 fun c hc => ih c hc (h.2 c hc)

end Report

end Conformance
