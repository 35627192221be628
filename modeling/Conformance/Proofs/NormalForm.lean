import Conformance.Proofs.RoundTrip

/-!
# The JSON of a value as a normal form

Much is lost when a value is written as JSON: undefined properties are left out, undefined elements
and numbers that are not finite become null, instances become records, and what JSON has no kind
for becomes a string. Nothing more is lost the second time: what the tree stands for is written as
the same tree, number by number and key by key. A plain value loses nothing at all.

Results:
* `Json.ofBinary64_eq_of_beq`: equal numbers are written alike.
* `Value.toJson_ofJson_array`, `Value.toJson_ofJson_object`: a tree read and written again, part by
  part.
* `Value.toJson_ofJson_toJson`: writing a value twice, by induction on the value.
* `Value.rendering_normal`: the normal form, and the values that come back.
-/

namespace Conformance

/-! ## Numbers -/

theorem Binary64.toInt?_of_isZero {x : Binary64} (h : x.isZero = true) : x.toInt? = some 0 := by
  have hmagnitude : x.magnitude = 0 := of_decide_eq_true h
  simp [toInt?, isFinite, units, significand, exponentField, fraction, hmagnitude,
    infinityMagnitude]

/-- Both zeros are written as the integer. -/
theorem Json.ofBinary64_of_isZero {x : Binary64} (h : x.isZero = true) :
    Json.ofBinary64 x = .number (.int 0) := by
  have hrange : -maxInteger - 1 ≤ 0 ∧ 0 ≤ maxInteger + 1 := by decide
  simp only [Json.ofBinary64, Binary64.toInt?_of_isZero h, if_pos hrange]
  rfl

/-- Equal numbers are written alike. -/
theorem Json.ofBinary64_eq_of_beq {x y : Binary64} (h : (x == y) = true) :
    Json.ofBinary64 x = Json.ofBinary64 y := by
  obtain ⟨-, -, hbits | ⟨hx, hy⟩⟩ := (Binary64.beq_iff x y).mp h
  · cases x
    cases y
    cases hbits
    rfl
  · rw [Json.ofBinary64_of_isZero hx, Json.ofBinary64_of_isZero hy]

/-- A number that is not finite is written as null. -/
theorem Json.ofBinary64_of_isFinite_eq_false {x : Binary64} (h : x.isFinite = false) :
    Json.ofBinary64 x = .null := by
  have hx : x.toInt? = none := by simp [Binary64.toInt?, h]
  simp only [Json.ofBinary64, hx, h, Bool.false_eq_true, if_false]

/-! ## Trees read and written again -/

namespace Value

theorem isUndefined_ofJson (j : Json) : (ofJson j).isUndefined = false := by
  cases j <;> rfl

theorem toJson_ofJson_array (items : List Json) :
    (ofJson (.array items)).toJson = .array (items.map fun item => (ofJson item).toJson) := by
  rw [ofJson, toJson, ofJsonItems_eq_map, toJsonItems_eq_map, List.map_map]
  rfl

theorem toJson_ofJson_object (fields : Record Json) : (ofJson (.object fields)).toJson =
    .object (fields.map fun f => (f.1, (ofJson f.2).toJson)) := by
  rw [ofJson, toJson, ofJsonFields_eq_map, toJsonFields_eq_map, List.map_map]
  · rfl
  · exact List.forall_mem_map.mpr fun f _ => isUndefined_ofJson f.2

theorem toJson_ofJson_ofBinary64 (x : Binary64) :
    (ofJson (Json.ofBinary64 x)).toJson = Json.ofBinary64 x := by
  by_cases hx : x.isFinite = true
  · obtain ⟨n, hn, hround⟩ := Json.exists_number_of_isFinite hx
    rw [hn, ofJson, toJson, Json.ofBinary64_eq_of_beq hround, hn]
  · rw [Json.ofBinary64_of_isFinite_eq_false (Bool.eq_false_iff.mpr hx)]
    rfl

/-- What a record of fields is written as is written alike again when each of the fields is. -/
theorem toJson_ofJson_toJsonFields {fields : Record Value}
    (h : ∀ f ∈ fields, (ofJson f.2.toJson).toJson = f.2.toJson) :
    (ofJson (.object (toJsonFields fields))).toJson = .object (toJsonFields fields) := by
  rw [toJson_ofJson_object, toJsonFields_eq_map_filter, List.map_map]
  refine congrArg Json.object (List.map_congr_left fun f hf => ?_)
  exact Prod.ext rfl (h f (List.mem_filter.mp hf).1)

/-- What a value is written as is written alike again. -/
theorem toJson_ofJson_toJson (v : Value) : (ofJson v.toJson).toJson = v.toJson := by
  induction v with
  | number x => exact toJson_ofJson_ofBinary64 x
  | array items ih =>
    rw [toJson, toJson_ofJson_array, toJsonItems_eq_map, List.map_map]
    exact congrArg Json.array (List.map_congr_left ih)
  | object fields ih => exact toJson_ofJson_toJsonFields ih
  | instanceOf c fields ih => exact toJson_ofJson_toJsonFields ih
  | _ => rfl

/-- **The JSON of a value is a normal form.** Whatever the value, what its JSON stands for has the
same JSON, with integers as integers, other numbers as they are and keys in their order. And what
the JSON of a plain value stands for is the value, with its keys in their order. -/
theorem rendering_normal (v : Value) :
    (ofJson v.toJson).toJson = v.toJson ∧
      (v.Plain → (ofJson v.toJson == v) = true ∧ (ofJson v.toJson).EqualInOrder v) := by
  refine ⟨toJson_ofJson_toJson v, fun h => ?_⟩
  have horder := equalInOrder_ofJson_toJson h
  exact ⟨beq_of_alike (alike_of_equalInOrder h horder), horder⟩

/-- The last integer is written as one less, a negative zero without its sign and `0.1` as it is:
all of them come back. What is undefined does not, and the tree stays the same. -/
theorem rendering_normal_extremes :
    let plain := object [("b", array [number ⟨0x43e0000000000000⟩, number ⟨0x8000000000000000⟩]),
      ("a", number ⟨0x3fb999999999999a⟩)]
    let lossy := instanceOf (.root 1 "Row")
      [("gone", undefined), ("kept", array [undefined, number ⟨0x7ff0000000000000⟩, bigint 7])]
    plain.Plain ∧ (ofJson plain.toJson == plain) = true ∧
      (ofJson plain.toJson).toJson = plain.toJson ∧
      (ofJson lossy.toJson).toJson = lossy.toJson ∧
      lossy.toJson = .object [("kept", .array [.null, .null, .string "7"])] := by
  intro plain lossy
  have hplain : plain.Plain := by
    refine .object (by simp [Record.Distinct, Record.keys]) ?_
    simp only [List.forall_mem_cons]
    refine ⟨.array ?_, .number (by decide), List.forall_mem_nil _⟩
    simp only [List.forall_mem_cons]
    exact ⟨.number (by decide), .number (by decide), List.forall_mem_nil _⟩
  refine ⟨hplain, ((rendering_normal plain).2 hplain).1, (rendering_normal plain).1,
    (rendering_normal lossy).1, ?_⟩
  have hinfinite : Json.ofBinary64 ⟨0x7ff0000000000000⟩ = .null :=
    Json.ofBinary64_of_isFinite_eq_false (by decide)
  simp only [lossy, toJson, toJsonFields, toJsonItems, isUndefined, hinfinite, if_true,
    Bool.false_eq_true, if_false]
  rfl

end Value

end Conformance
