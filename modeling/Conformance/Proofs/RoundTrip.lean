import Conformance.Proofs.CompactText
import Conformance.Proofs.Equality
import Conformance.Proofs.WholeNumbers
import Conformance.Value.Text

/-!
# Values through text

A value that JSON can hold survives its own one-line text: reading the text gives an equal value
with the keys of every record in their order. Two numbers change their form on the way, and neither
changes its value: a negative zero is written without its sign, and `2 ^ 63` is written as the
greatest signed integer of 64 bits, which rounds to it.

Results:
* `Value.Portable`: the values that JSON text can hold, nested at most so deep.
* `Value.Plain`: the values that a JSON tree can hold.
* `Json.exists_int_of_toInt?`: a whole number as the integer that is written for it.
* `Value.readable_toJson`, `Value.equalInOrder_ofJson_toJson`: there and back without text.
* `Value.ofText_preview`: there and back through text.
-/

namespace Conformance

/-- Records with the same keys in the same order, entry by entry. -/
theorem Record.forall₂_of_keys_eq {α β : Type} {R : α → β → Prop} {a : Record α} {b : Record β}
    (hkeys : a.keys = b.keys) (h : List.Forall₂ R (a.map Prod.snd) (b.map Prod.snd)) :
    List.Forall₂ (fun e f => e.1 = f.1 ∧ R e.2 f.2) a b := by
  induction a generalizing b with
  | nil =>
    cases b with
    | nil => exact .nil
    | cons f rest => cases h
  | cons e rest ih =>
    cases b with
    | nil => cases h
    | cons f others =>
      rw [keys, keys, List.map_cons, List.map_cons, List.cons.injEq] at hkeys
      rw [List.map_cons, List.map_cons, List.forall₂_cons] at h
      exact .cons ⟨hkeys.1, h.1⟩ (ih hkeys.2 h.2)

/-! ## Values that JSON can hold -/

namespace Value

/-- A value of nulls, booleans, strings, whole numbers up to `2 ^ 63`, arrays and records with
distinct keys, in which arrays and records nest at most so deep. -/
inductive Portable : Nat → Value → Prop
  | null {depth : Nat} : Portable depth null
  | bool {depth : Nat} (b : Bool) : Portable depth (bool b)
  | number {depth : Nat} {x : Binary64} {n : Int} :
      x.toInt? = some n → n.natAbs ≤ 2 ^ 63 → Portable depth (number x)
  | string {depth : Nat} (s : String) : Portable depth (string s)
  | array {depth : Nat} {items : List Value} :
      (∀ item ∈ items, Portable depth item) → Portable (depth + 1) (array items)
  | object {depth : Nat} {fields : Record Value} : fields.Distinct →
      (∀ f ∈ fields, Portable depth f.2) → Portable (depth + 1) (object fields)

/-- A value of nulls, booleans, strings, finite numbers, arrays and records with distinct keys, in
which nothing is undefined. -/
inductive Plain : Value → Prop
  | null : Plain null
  | bool (b : Bool) : Plain (bool b)
  | number {x : Binary64} : x.isFinite = true → Plain (number x)
  | string (s : String) : Plain (string s)
  | array {items : List Value} : (∀ item ∈ items, Plain item) → Plain (array items)
  | object {fields : Record Value} : fields.Distinct → (∀ f ∈ fields, Plain f.2) →
      Plain (object fields)

/-- Equality place by place, with the keys of every record in the same order. -/
inductive EqualInOrder : Value → Value → Prop
  | null : EqualInOrder null null
  | bool (b : Bool) : EqualInOrder (bool b) (bool b)
  | number {x y : Binary64} : (x == y) = true → EqualInOrder (number x) (number y)
  | string (s : String) : EqualInOrder (string s) (string s)
  | array {a b : List Value} : List.Forall₂ EqualInOrder a b → EqualInOrder (array a) (array b)
  | object {a b : Record Value} : Record.keys a = Record.keys b →
      List.Forall₂ EqualInOrder (a.map Prod.snd) (b.map Prod.snd) →
      EqualInOrder (object a) (object b)

theorem Plain.isUndefined {v : Value} (h : v.Plain) : v.isUndefined = false := by
  cases h <;> rfl

theorem Portable.plain {depth : Nat} {v : Value} (h : v.Portable depth) : v.Plain := by
  induction h with
  | null => exact .null
  | bool b => exact .bool b
  | number hx _ => exact .number (Binary64.spec_of_toInt? hx).1
  | string s => exact .string s
  | array _ ih => exact .array ih
  | object hdistinct _ ih => exact .object hdistinct ih

theorem Portable.isUndefined {depth : Nat} {v : Value} (h : v.Portable depth) :
    v.isUndefined = false :=
  h.plain.isUndefined

end Value

/-! ## Numbers -/

/-- The integer that is written for a whole number is one of 64 bits and rounds to the number. -/
theorem Json.exists_int_of_toInt? {x : Binary64} {n : Int} (h : x.toInt? = some n)
    (hn : n.natAbs ≤ 2 ^ 63) :
    ∃ i : Int, Json.ofBinary64 x = .number (.int i) ∧ -(2 : Int) ^ 63 ≤ i ∧ i < (2 : Int) ^ 64 ∧
      (Binary64.ofInt i == x) = true := by
  have hmax : Json.maxInteger = 2 ^ 63 - 1 := rfl
  have hrange : -Json.maxInteger - 1 ≤ n ∧ n ≤ Json.maxInteger + 1 := by omega
  have hwritten : Json.ofBinary64 x = .number (.int (min n Json.maxInteger)) := by
    simp only [Json.ofBinary64, h, if_pos hrange]
  refine ⟨min n Json.maxInteger, hwritten, by omega, by omega, ?_⟩
  have hround := Binary64.ofInt_beq_of_toInt? h
  by_cases hlast : n = 2 ^ 63
  · -- the one number that is written one less, and rounds up again
    have hclamp : Binary64.ofInt (min n Json.maxInteger) = Binary64.ofInt n := by
      subst hlast
      decide +kernel
    rwa [hclamp]
  · rwa [Int.min_eq_left (by omega)]

/-- A finite number is written as a number, and what is written for it is equal to it. -/
theorem Json.exists_number_of_isFinite {x : Binary64} (h : x.isFinite = true) :
    ∃ n : Json.Number, Json.ofBinary64 x = .number n ∧ (n.toBinary64 == x) = true := by
  have hself : (x == x) = true := (Binary64.beq_self_iff x).mpr (Binary64.isNaN_of_isFinite h)
  cases hx : x.toInt? with
  | none => exact ⟨.float x, by simp only [Json.ofBinary64, hx, h, if_true], hself⟩
  | some n =>
    by_cases hn : n.natAbs ≤ 2 ^ 63
    · obtain ⟨i, hi, -, -, hround⟩ := Json.exists_int_of_toInt? hx hn
      exact ⟨.int i, hi, hround⟩
    · have hmax : Json.maxInteger = 2 ^ 63 - 1 := rfl
      have hrange : ¬ (-Json.maxInteger - 1 ≤ n ∧ n ≤ Json.maxInteger + 1) := by omega
      exact ⟨.float x, by simp only [Json.ofBinary64, hx, if_neg hrange], hself⟩

/-! ## There and back without text -/

namespace Value

theorem toJsonItems_eq_map (items : List Value) : toJsonItems items = items.map toJson := by
  induction items with
  | nil => rfl
  | cons item rest ih => rw [toJsonItems, ih, List.map_cons]

/-- The fields that are not undefined are written, in their order. -/
theorem toJsonFields_eq_map_filter (fields : Record Value) : toJsonFields fields =
    (fields.filter fun f => !f.2.isUndefined).map fun f => (f.1, f.2.toJson) := by
  induction fields with
  | nil => rfl
  | cons f rest ih =>
    obtain ⟨key, v⟩ := f
    rw [toJsonFields, List.filter_cons, ih]
    cases v.isUndefined <;> rfl

theorem toJsonFields_eq_map {fields : Record Value} (h : ∀ f ∈ fields, f.2.isUndefined = false) :
    toJsonFields fields = fields.map fun f => (f.1, f.2.toJson) := by
  have hall : ∀ f ∈ fields, (!f.2.isUndefined) = true := fun f hf => by rw [h f hf, Bool.not_false]
  rw [toJsonFields_eq_map_filter, List.filter_eq_self.mpr hall]

theorem ofJsonItems_eq_map (items : List Json) : ofJsonItems items = items.map ofJson := by
  induction items with
  | nil => rfl
  | cons item rest ih => rw [ofJsonItems, ih, List.map_cons]

theorem ofJsonFields_eq_map (fields : Record Json) :
    ofJsonFields fields = fields.map fun f => (f.1, ofJson f.2) := by
  induction fields with
  | nil => rfl
  | cons f rest ih =>
    obtain ⟨key, v⟩ := f
    rw [ofJsonFields, ih, List.map_cons]

/-- The tree of a value that JSON can hold is one that text can hold. -/
theorem readable_toJson {depth : Nat} {v : Value} (h : v.Portable depth) :
    v.toJson.Readable depth := by
  induction h with
  | null => exact .null
  | bool b => exact .bool b
  | number hx hn =>
    obtain ⟨i, hi, hlow, hhigh, -⟩ := Json.exists_int_of_toInt? hx hn
    rw [toJson, hi]
    exact .number hlow hhigh
  | string s => exact .string s
  | array _ ih =>
    rw [toJson, toJsonItems_eq_map]
    exact .array (List.forall_mem_map.mpr ih)
  | object hdistinct hfields ih =>
    rw [toJson, toJsonFields_eq_map fun f hf => (hfields f hf).isUndefined]
    exact .object (Record.distinct_map hdistinct) (List.forall_mem_map.mpr ih)

/-- A plain value is equal to what its tree stands for. -/
theorem equalInOrder_ofJson_toJson {v : Value} (h : v.Plain) :
    (ofJson v.toJson).EqualInOrder v := by
  induction h with
  | null => exact .null
  | bool b => exact .bool b
  | number hx =>
    obtain ⟨n, hn, hround⟩ := Json.exists_number_of_isFinite hx
    rw [toJson, hn]
    exact .number hround
  | string s => exact .string s
  | @array items _ ih =>
    rw [toJson, ofJson, toJsonItems_eq_map, ofJsonItems_eq_map, List.map_map]
    refine .array (List.forall₂_map_left_iff.mpr ?_)
    exact List.forall₂_same.mpr ih
  | @object fields _ hfields ih =>
    rw [toJson, ofJson, toJsonFields_eq_map fun f hf => (hfields f hf).isUndefined,
      ofJsonFields_eq_map, List.map_map]
    refine .object ?_ ?_
    · rw [Record.keys, List.map_map]
      rfl
    · rw [List.map_map, List.forall₂_map_left_iff, List.forall₂_map_right_iff]
      exact List.forall₂_same.mpr ih

/-- Values that are equal place by place are equal. -/
theorem alike_of_equalInOrder {v : Value} (h : v.Plain) :
    ∀ {w : Value}, w.EqualInOrder v → w.Alike Binary64.Equal v := by
  induction h with
  | null => rintro w ⟨⟩; exact .null
  | bool b => rintro w ⟨⟩; exact .bool b
  | number _ =>
    intro w hw
    cases hw with
    | number hround => exact .number hround
  | string s => rintro w ⟨⟩; exact .string s
  | array _ ih =>
    intro w hw
    cases hw with
    | array hitems => exact .array (forall₂_imp_of_mem hitems fun _ _ item hi hwi => ih item hi hwi)
  | object hdistinct _ ih =>
    intro w hw
    cases hw with
    | object hkeys hvalues =>
      have hentries := Record.forall₂_of_keys_eq hkeys hvalues
      refine alike_object_iff.mpr (Record.alike_of_perm ?_ (.refl _) ?_)
      · rwa [Record.Distinct, hkeys]
      · exact forall₂_imp_of_mem hentries fun e _ f hf hef => ⟨hef.1, ih f hf hef.2⟩

/-- **Values survive their text.** The text of a value that JSON can hold reads back as an equal
value, with the keys of every record in the same order. -/
theorem ofText_preview {v : Value} (h : v.Portable Json.maxNesting) :
    ∃ w, Value.ofText v.preview = .ok w ∧ (w == v) = true ∧ w.EqualInOrder v := by
  have htext : v.preview = v.toJson.compact := by
    rw [preview, h.isUndefined, if_neg Bool.false_ne_true]
  have hread : Value.ofText v.preview = .ok (ofJson v.toJson) := by
    rw [htext, Value.ofText, Json.ofText_compact (readable_toJson h)]
    rfl
  have horder := equalInOrder_ofJson_toJson h.plain
  exact ⟨ofJson v.toJson, hread, beq_of_alike (alike_of_equalInOrder h.plain horder), horder⟩

/-- Both ends of the integers, a negative zero, an empty record and a key that is escaped. -/
theorem ofText_preview_escaped :
    ∃ v w, v = object [("\"\\\n\u0001é", array [number ⟨0x43e0000000000000⟩,
        number ⟨0xc3e0000000000000⟩, number ⟨0x8000000000000000⟩]), ("", object [])] ∧
      v.Portable Json.maxNesting ∧ Value.ofText v.preview = .ok w ∧ (w == v) = true ∧
      w.EqualInOrder v := by
  have hlast : (⟨0x43e0000000000000⟩ : Binary64).toInt? = some (2 ^ 63) := by decide +kernel
  have hfirst : (⟨0xc3e0000000000000⟩ : Binary64).toInt? = some (-2 ^ 63) := by decide +kernel
  have hzero : (⟨0x8000000000000000⟩ : Binary64).toInt? = some 0 := by decide +kernel
  have hnumbers : (array [number ⟨0x43e0000000000000⟩, number ⟨0xc3e0000000000000⟩,
      number ⟨0x8000000000000000⟩]).Portable 126 := by
    refine .array ?_
    simp only [List.forall_mem_cons]
    exact ⟨.number hlast (by decide), .number hfirst (by decide), .number hzero (by decide),
      List.forall_mem_nil _⟩
  have hv : (object [("\"\\\n\u0001é", array [number ⟨0x43e0000000000000⟩,
      number ⟨0xc3e0000000000000⟩, number ⟨0x8000000000000000⟩]), ("", object [])]).Portable
        Json.maxNesting := by
    refine .object (by simp [Record.Distinct, Record.keys]) ?_
    simp only [List.forall_mem_cons]
    exact ⟨hnumbers, .object List.nodup_nil (List.forall_mem_nil _), List.forall_mem_nil _⟩
  obtain ⟨w, hw⟩ := ofText_preview hv
  exact ⟨_, w, rfl, hv, hw⟩

end Value

end Conformance
