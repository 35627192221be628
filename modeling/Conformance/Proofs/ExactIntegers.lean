import Conformance.Proofs.NormalForm
import Mathlib.Algebra.Order.Field.Rat
import Mathlib.Algebra.Order.Ring.Abs
import Mathlib.Data.Rat.Cast.Order

/-!
# Integers in the JSON of a value

The numbers in the JSON of a value are the finite numbers in the value, each at its own place. One
that is written as an integer has that value exactly, with one exception: `2 ^ 63`, for which the
greatest signed integer of 64 bits is written.

Results:
* `Binary64.toInt?_eq_some_iff`: the integer that a number is, by its exact value.
* `Value.Leads`, `Json.Leads`: what stands where some steps lead to, in a value and in a tree.
* `Value.leads_toJson_number_iff`: the numbers in the JSON of a value.
* `Value.written_integer_iff`: which integers are written, for which numbers, and where.
* `Value.written_integer_inexact`: the exception.
-/

namespace Conformance

/-! ## Exact values -/

namespace Binary64

/-- The exact value of a finite number. -/
def value (x : Binary64) : ℚ := (if x.negative then -1 else 1) * (x.units / 2 ^ 1074)

theorem cast_shiftLeft (m k : Nat) : ((m <<< k : Nat) : ℚ) = m * 2 ^ k := by
  rw [Nat.shiftLeft_eq, Nat.cast_mul, Nat.cast_pow, Nat.cast_ofNat]

theorem shiftLeft_mod (m k : Nat) : m <<< k % 1 <<< k = 0 := by
  rw [Nat.shiftLeft_eq, Nat.one_shiftLeft, Nat.mul_mod_left]

variable {x : Binary64} {m : Nat}

theorem value_of_units_eq (h : x.units = m <<< 1074) :
    x.value = ((if x.negative = true then -(m : Int) else (m : Int) : Int) : ℚ) := by
  have hpos : (2 : ℚ) ^ 1074 ≠ 0 := pow_ne_zero _ two_ne_zero
  rw [value, h, cast_shiftLeft, mul_div_cancel_right₀ _ hpos]
  split_ifs
  · rw [Int.cast_neg, Int.cast_natCast, neg_one_mul]
  · rw [Int.cast_natCast, one_mul]

theorem toInt?_of_units_eq (hfinite : x.isFinite = true) (h : x.units = m <<< 1074) :
    x.toInt? = some (if x.negative = true then -(m : Int) else (m : Int)) := by
  rw [toInt?, hfinite, h, shiftLeft_mod, Nat.shiftLeft_shiftRight]
  rfl

theorem units_of_value_eq {n : Int} (h : x.value = n) : x.units = n.natAbs <<< 1074 := by
  have hpos : (0 : ℚ) < 2 ^ 1074 := pow_pos two_pos _
  have hquotient : 0 ≤ (x.units : ℚ) / 2 ^ 1074 := div_nonneg (Nat.cast_nonneg _) hpos.le
  have habs : |x.value| = x.units / 2 ^ 1074 := by
    rw [value]
    split_ifs
    · rw [neg_one_mul, abs_neg, abs_of_nonneg hquotient]
    · rw [one_mul, abs_of_nonneg hquotient]
  rw [← Nat.cast_inj (R := ℚ), cast_shiftLeft, Nat.cast_natAbs, Int.cast_abs, ← h, habs,
    div_mul_cancel₀ _ hpos.ne']

/-- A number is an integer when it is finite and has the value of the integer. -/
theorem toInt?_eq_some_iff {n : Int} :
    x.toInt? = some n ↔ x.isFinite = true ∧ x.value = n := by
  constructor
  · intro h
    obtain ⟨hfinite, hunits, -⟩ := spec_of_toInt? h
    have hsigned := toInt?_of_units_eq hfinite hunits.symm
    rw [h, Option.some.injEq] at hsigned
    rw [value_of_units_eq hunits.symm, ← hsigned]
    exact ⟨hfinite, rfl⟩
  · rintro ⟨hfinite, hvalue⟩
    have hunits := units_of_value_eq hvalue
    rw [value_of_units_eq hunits, Int.cast_inj] at hvalue
    rw [toInt?_of_units_eq hfinite hunits, hvalue]

end Binary64

namespace Json

/-- The exact value of a number in JSON. -/
def Number.value : Number → ℚ
  | int n => n
  | float x => x.value

theorem ofBinary64_cases (x : Binary64) :
    (∃ n, ofBinary64 x = .number n) ∨ ofBinary64 x = .null := by
  by_cases hx : x.isFinite = true
  · obtain ⟨n, hn, -⟩ := exists_number_of_isFinite hx
    exact .inl ⟨n, hn⟩
  · exact .inr (ofBinary64_of_isFinite_eq_false (Bool.eq_false_iff.mpr hx))

theorem ofBinary64_eq_int_iff_toInt? {x : Binary64} {i : Int} :
    ofBinary64 x = .number (.int i) ↔
      ∃ n, x.toInt? = some n ∧ -2 ^ 63 ≤ n ∧ n ≤ 2 ^ 63 ∧ i = min n (2 ^ 63 - 1) := by
  have hmax : maxInteger = 2 ^ 63 - 1 := rfl
  rw [ofBinary64]
  cases x.toInt? with
  | none => split_ifs <;> simp
  | some n =>
    dsimp only
    split_ifs with hrange
    · simp only [number.injEq, Number.int.injEq, Option.some.injEq, exists_eq_left']
      omega
    · simp only [number.injEq, reduceCtorEq, Option.some.injEq, exists_eq_left', false_iff]
      omega

/-- The numbers that are written as integers: those of the 64-bit range as they are, and the one
just above it as one less. -/
theorem ofBinary64_eq_int_iff {x : Binary64} {i : Int} :
    ofBinary64 x = .number (.int i) ↔ x.isFinite = true ∧
      (x.value = i ∧ -2 ^ 63 ≤ i ∧ i < 2 ^ 63 ∨ x.value = 2 ^ 63 ∧ i = 2 ^ 63 - 1) := by
  have hlast : (2 ^ 63 : ℚ) = ((2 ^ 63 : Int) : ℚ) := by rw [Int.cast_pow, Int.cast_ofNat]
  rw [ofBinary64_eq_int_iff_toInt?, hlast]
  simp only [Binary64.toInt?_eq_some_iff]
  constructor
  · rintro ⟨n, ⟨hfinite, hvalue⟩, hlow, hhigh, rfl⟩
    refine ⟨hfinite, ?_⟩
    rcases hhigh.lt_or_eq with hlt | rfl
    · rw [min_eq_left (by omega)]
      exact .inl ⟨hvalue, hlow, hlt⟩
    · exact .inr ⟨hvalue, by omega⟩
  · rintro ⟨hfinite, ⟨hvalue, hlow, hhigh⟩ | ⟨hvalue, rfl⟩⟩
    · exact ⟨i, ⟨hfinite, hvalue⟩, hlow, by omega, by omega⟩
    · exact ⟨2 ^ 63, ⟨hfinite, hvalue⟩, by omega, by omega, by omega⟩

/-- A number keeps its value when it is written, but for the one that is written as one less. -/
theorem value_of_ofBinary64 {x : Binary64} {n : Number} (h : ofBinary64 x = .number n) :
    n.value = x.value ∨ x.value = 2 ^ 63 ∧ n = .int (2 ^ 63 - 1) := by
  cases n with
  | int i =>
    obtain ⟨-, ⟨hvalue, -⟩ | ⟨hvalue, rfl⟩⟩ := ofBinary64_eq_int_iff.mp h
    · exact .inl hvalue.symm
    · exact .inr ⟨hvalue, rfl⟩
  | float y =>
    have hxy : x = y := by
      rw [ofBinary64] at h
      split at h <;> split_ifs at h <;> cases h <;> rfl
    rw [hxy]
    exact .inl rfl

end Json

/-! ## Places -/

/-- One step into a tree: to an element by its index, or to what stands under a key. -/
inductive Step where
  | element (index : Nat)
  | property (key : String)

/-- Steps lead from a value to a part of it. -/
inductive Value.Leads : Value → List Step → Value → Prop
  | here (v : Value) : Leads v [] v
  | element {items : List Value} {index : Nat} {item w : Value} {steps : List Step} :
      items[index]? = some item → Leads item steps w →
      Leads (.array items) (.element index :: steps) w
  | property {v : Value} {fields : Record Value} {key : String} {u w : Value} {steps : List Step} :
      v.fields? = some fields → (key, u) ∈ fields → Leads u steps w →
      Leads v (.property key :: steps) w

/-- Steps lead from a JSON tree to a part of it. -/
inductive Json.Leads : Json → List Step → Json → Prop
  | here (j : Json) : Leads j [] j
  | element {items : List Json} {index : Nat} {item k : Json} {steps : List Step} :
      items[index]? = some item → Leads item steps k →
      Leads (.array items) (.element index :: steps) k
  | property {fields : Record Json} {key : String} {u k : Json} {steps : List Step} :
      (key, u) ∈ fields → Leads u steps k → Leads (.object fields) (.property key :: steps) k

namespace Value

/-! ## Kinds of trees -/

variable {v w : Value}

theorem exists_items_of_toJson {items : List Json} (h : v.toJson = .array items) :
    ∃ values, v = array values ∧ items = values.map toJson := by
  cases v with
  | array values =>
    rw [toJson, toJsonItems_eq_map, Json.array.injEq] at h
    exact ⟨values, rfl, h.symm⟩
  | number x => rcases Json.ofBinary64_cases x with ⟨n, hx⟩ | hx <;> simp [toJson, hx] at h
  | _ => simp [toJson] at h

theorem exists_fields_of_toJson {fields : Record Json} (h : v.toJson = .object fields) :
    ∃ own, v.fields? = some own ∧ fields = toJsonFields own := by
  cases v with
  | object own =>
    rw [toJson, Json.object.injEq] at h
    exact ⟨own, rfl, h.symm⟩
  | instanceOf c own =>
    rw [toJson, Json.object.injEq] at h
    exact ⟨own, rfl, h.symm⟩
  | number x => rcases Json.ofBinary64_cases x with ⟨n, hx⟩ | hx <;> simp [toJson, hx] at h
  | _ => simp [toJson] at h

theorem exists_number_of_toJson {n : Json.Number} (h : v.toJson = .number n) :
    ∃ x, v = number x ∧ Json.ofBinary64 x = .number n := by
  cases v with
  | number x => exact ⟨x, rfl, h⟩
  | _ => simp [toJson] at h

theorem toJson_of_fields? {fields : Record Value} (h : v.fields? = some fields) :
    v.toJson = .object (toJsonFields fields) := by
  cases v with
  | object => cases h; rfl
  | instanceOf => cases h; rfl
  | _ => cases h

theorem mem_toJsonFields_iff {fields : Record Value} {key : String} {j : Json} :
    (key, j) ∈ toJsonFields fields ↔
      ∃ u, (key, u) ∈ fields ∧ u.isUndefined = false ∧ u.toJson = j := by
  rw [toJsonFields_eq_map_filter, List.mem_map]
  constructor
  · rintro ⟨⟨k, u⟩, hu, he⟩
    obtain ⟨hmem, hdefined⟩ := List.mem_filter.mp hu
    cases he
    exact ⟨u, hmem, by simpa using hdefined, rfl⟩
  · rintro ⟨u, hmem, hdefined, rfl⟩
    exact ⟨(key, u), List.mem_filter.mpr ⟨hmem, by simpa using hdefined⟩, rfl⟩

/-! ## Places in a value and in its JSON -/

/-- What stands somewhere in the JSON of a value is the JSON of what stands there in the value. -/
theorem exists_leads_of_leads_toJson {tree j : Json} {steps : List Step}
    (h : tree.Leads steps j) :
    ∀ {v : Value}, v.toJson = tree → ∃ w, v.Leads steps w ∧ w.toJson = j := by
  induction h with
  | here j => exact fun {v} hv => ⟨v, .here v, hv⟩
  | element hitem _ ih =>
    intro v hv
    obtain ⟨values, rfl, rfl⟩ := exists_items_of_toJson hv
    rw [List.getElem?_map, Option.map_eq_some_iff] at hitem
    obtain ⟨u, hu, hitem⟩ := hitem
    obtain ⟨w, hw, hj⟩ := ih hitem
    exact ⟨w, .element hu hw, hj⟩
  | property hmem _ ih =>
    intro v hv
    obtain ⟨own, hown, rfl⟩ := exists_fields_of_toJson hv
    obtain ⟨u, hu, -, hitem⟩ := mem_toJsonFields_iff.mp hmem
    obtain ⟨w, hw, hj⟩ := ih hitem
    exact ⟨w, .property hown hu hw, hj⟩

theorem Leads.isUndefined {steps : List Step} (h : v.Leads steps w) (hw : w.isUndefined = false) :
    v.isUndefined = false := by
  cases h with
  | here => exact hw
  | element => rfl
  | property hfields =>
    cases v with
    | undefined => cases hfields
    | _ => rfl

/-- What is not undefined stands at its place in the JSON too. -/
theorem leads_toJson {steps : List Step} (h : v.Leads steps w) (hw : w.isUndefined = false) :
    v.toJson.Leads steps w.toJson := by
  induction h with
  | here v => exact .here _
  | element hitem _ ih =>
    rw [toJson, toJsonItems_eq_map]
    refine .element ?_ (ih hw)
    rw [List.getElem?_map, hitem, Option.map_some]
  | property hfields hmem hrest ih =>
    rw [toJson_of_fields? hfields]
    exact .property (mem_toJsonFields_iff.mpr ⟨_, hmem, hrest.isUndefined hw, rfl⟩) (ih hw)

/-- The numbers in the JSON of a value are written for the numbers in the value, place by place. -/
theorem leads_toJson_number_iff {steps : List Step} {n : Json.Number} :
    v.toJson.Leads steps (.number n) ↔
      ∃ x, v.Leads steps (.number x) ∧ Json.ofBinary64 x = .number n := by
  constructor
  · intro h
    obtain ⟨w, hw, hn⟩ := exists_leads_of_leads_toJson h rfl
    obtain ⟨x, rfl, hx⟩ := exists_number_of_toJson hn
    exact ⟨x, hw, hx⟩
  · rintro ⟨x, hx, hn⟩
    rw [← hn]
    exact leads_toJson hx rfl

/-- **Which integers are written.** The JSON of a value has an integer at a place exactly when the
value has a number there of which it is the exact value, in the 64-bit range; or when the value has
`2 ^ 63` there and the integer is one less. So where a value has a finite number, the JSON has a
number of the same value, unless that is `2 ^ 63`. -/
theorem written_integer_iff (v : Value) (steps : List Step) :
    (∀ i : Int, v.toJson.Leads steps (.number (.int i)) ↔
      ∃ x, v.Leads steps (.number x) ∧ x.isFinite = true ∧
        (x.value = i ∧ -2 ^ 63 ≤ i ∧ i < 2 ^ 63 ∨ x.value = 2 ^ 63 ∧ i = 2 ^ 63 - 1)) ∧
      ∀ x, v.Leads steps (.number x) → x.isFinite = true →
        ∃ n, v.toJson.Leads steps (.number n) ∧
          (n.value = x.value ∨ x.value = 2 ^ 63 ∧ n = .int (2 ^ 63 - 1)) := by
  refine ⟨fun i => ?_, fun x hx hfinite => ?_⟩
  · rw [leads_toJson_number_iff]
    exact exists_congr fun x => and_congr_right fun _ => Json.ofBinary64_eq_int_iff
  · obtain ⟨n, hn, -⟩ := Json.exists_number_of_isFinite hfinite
    refine ⟨n, leads_toJson_number_iff.mpr ⟨x, hx, hn⟩, ?_⟩
    exact Json.value_of_ofBinary64 hn

/-- An integer below a key that is exact, and one in an array that is the exception. -/
theorem written_integer_iff_nested :
    let v := instanceOf (.root 1 "Row") [("gone", undefined), ("kept", array
      [number ⟨0xc3e0000000000000⟩, number ⟨0x43e0000000000000⟩])]
    let last : Binary64 := ⟨0x43e0000000000000⟩
    v.Leads [.property "kept", .element 1] (number last) ∧ last.isFinite = true ∧
      v.toJson.Leads [.property "kept", .element 1] (.number (.int (2 ^ 63 - 1))) ∧
      ∃ n, v.toJson.Leads [.property "kept", .element 0] (.number n) ∧
        (n.value = -2 ^ 63 ∨ n = .int (2 ^ 63 - 1)) := by
  intro v last
  have hlast : v.Leads [.property "kept", .element 1] (number last) :=
    .property rfl (List.mem_cons_of_mem _ List.mem_cons_self) (.element rfl (.here _))
  have hfirst : v.Leads [.property "kept", .element 0] (number ⟨0xc3e0000000000000⟩) :=
    .property rfl (List.mem_cons_of_mem _ List.mem_cons_self) (.element rfl (.here _))
  have hlastValue : last.isFinite = true ∧ last.value = ((2 ^ 63 : Int) : ℚ) :=
    Binary64.toInt?_eq_some_iff.mp (by decide +kernel)
  have hfirstValue : (⟨0xc3e0000000000000⟩ : Binary64).isFinite = true ∧
      (⟨0xc3e0000000000000⟩ : Binary64).value = ((-2 ^ 63 : Int) : ℚ) :=
    Binary64.toInt?_eq_some_iff.mp (by decide +kernel)
  rw [Int.cast_pow, Int.cast_ofNat] at hlastValue
  rw [Int.cast_neg, Int.cast_pow, Int.cast_ofNat] at hfirstValue
  refine ⟨hlast, hlastValue.1, ?_, ?_⟩
  · exact ((written_integer_iff v _).1 _).mpr ⟨last, hlast, hlastValue.1, .inr ⟨hlastValue.2, rfl⟩⟩
  · obtain ⟨n, hn, hvalue⟩ := (written_integer_iff v _).2 _ hfirst hfirstValue.1
    rw [hfirstValue.2] at hvalue
    exact ⟨n, hn, hvalue.imp_right And.right⟩

/-- The number `2 ^ 63` is written as an integer that is not equal to it. -/
theorem written_integer_inexact :
    (number ⟨0x43e0000000000000⟩).Leads [] (number ⟨0x43e0000000000000⟩) ∧
      (number ⟨0x43e0000000000000⟩).toJson.Leads [] (.number (.int 9223372036854775807)) ∧
      (⟨0x43e0000000000000⟩ : Binary64).isFinite = true ∧
      (⟨0x43e0000000000000⟩ : Binary64).value ≠ (9223372036854775807 : Int) := by
  have hinteger : (⟨0x43e0000000000000⟩ : Binary64).toInt? = some 9223372036854775808 := by
    decide +kernel
  obtain ⟨hfinite, hvalue⟩ := Binary64.toInt?_eq_some_iff.mp hinteger
  refine ⟨.here _, ?_, hfinite, ?_⟩
  · have hwritten : Json.ofBinary64 ⟨0x43e0000000000000⟩ = .number (.int 9223372036854775807) :=
      Json.ofBinary64_eq_int_iff_toInt?.mpr ⟨_, hinteger, by decide⟩
    exact leads_toJson_number_iff.mpr ⟨_, .here _, hwritten⟩
  · rw [hvalue, ne_eq, Int.cast_inj]
    decide

end Value

end Conformance
