import Conformance.Proofs.Leaves

/-!
# The two names of a mismatch

A mismatch of kinds names the kind that was met and the kind that was expected. Three tables bear on
whether the names differ: those of values, those of markers, and the predicates of the markers.
They agree wherever no class interferes. An instance goes by the name of its class, which may be
any: when that is the name that a shape expects, the report reads `expected X, got X`.

Results:
* `Marker.accepts_iff_typeName_eq`: a marker accepts the values that have its name, instances apart.
* `Shape.Namesake`: the shapes that turn down an instance in spite of the name of its class.
* `Shape.typeName_eq_iff_namesake`: when the two names of a mismatch are one.
* `Shape.reportWith_sameName`: when a report names one kind twice.
-/

namespace Conformance

/-! ## Values, markers and their names -/

def Value.isInstance : Value → Bool
  | instanceOf _ _ => true
  | _ => false

theorem Value.isInstance_iff {v : Value} :
    v.isInstance = true ↔ ∃ c fields, v = .instanceOf c fields := by
  cases v <;> simp [isInstance]

/-- A marker knows the values of its kind by their name. Only instances can deceive it: they may
have the name, and it accepts none. -/
theorem Marker.accepts_iff_typeName_eq {m : Marker} {v : Value} :
    m.accepts v = true ↔ v.isInstance = false ∧ v.typeName = m.name := by
  cases m <;> cases v <;> simp [name, Value.isInstance, Value.typeName] <;> rfl

/-- Every marker is for some value. -/
theorem Marker.exists_accepts (m : Marker) : ∃ v, m.accepts v = true := by
  cases m with
  | boolean => exact ⟨.bool true, rfl⟩
  | number => exact ⟨.number default, rfl⟩
  | string => exact ⟨.string "", rfl⟩
  | object => exact ⟨.object [], rfl⟩
  | array => exact ⟨.array [], rfl⟩
  | date => exact ⟨.date ⟨0, 0⟩, rfl⟩
  | bigint => exact ⟨.bigint 0, rfl⟩
  | symbol => exact ⟨.symbol ⟨0, ""⟩, rfl⟩
  | function => exact ⟨.function ⟨0, ""⟩, rfl⟩

namespace Shape

/-- The shape expects the name of the class and still turns its instances down. -/
inductive Namesake (c : Class) : Shape → Prop
  | marker {m : Marker} : c.name = m.name → Namesake c (marker m)
  | null : c.name = "Null" → Namesake c null
  | undefined : c.name = "Undefined" → Namesake c undefined
  | array (element : Shape) : c.name = "Array" → Namesake c (array element)

variable {t : Shape} {w : Value} {c : Class} {actual expected : String} {value : Option Value}

/-! ## One position -/

/-- A rule that objects with the names of two kinds looks for a kind and has met the value's. -/
theorem eq_wrongKind_of_objection?
    (h : t.objection? w = some (.mismatch (.kind actual) (.kind expected) value)) :
    actual = w.typeName ∧ value = some w ∧ t.objection? w = some (.wrongKind w expected) := by
  cases t with
  | wrapped => cases h
  | literal l =>
    rw [objection?] at h
    split at h <;> cases h
  | _ =>
    rw [objection?] at h ⊢
    split_ifs at h ⊢
    cases h
    exact ⟨rfl, rfl, rfl⟩

/-- Without a class in between the names differ: a value with the expected name is accepted. -/
theorem typeName_ne_of_objection? (h : t.objection? w = some (.wrongKind w expected))
    (hw : w.isInstance = false) : w.typeName ≠ expected := by
  cases t with
  | wrapped => cases h
  | literal l =>
    rw [objection?] at h
    split at h <;> cases h
  | any =>
    rw [objection?] at h
    split_ifs at h with hundefined
    cases h
    cases w <;> simp [Value.isUndefined] at hundefined
    decide
  | undefined =>
    rw [objection?] at h
    split_ifs at h with hundefined
    cases h
    cases w <;> simp [Value.isUndefined, Value.isInstance, Value.typeName] at hundefined hw ⊢
  | null =>
    rw [objection?] at h
    split_ifs at h with hnull
    cases h
    cases w <;> simp [Value.isNull, Value.isInstance, Value.typeName] at hnull hw ⊢
  | marker m =>
    rw [objection?] at h
    split_ifs at h with hm
    cases h
    exact fun hname => hm (Marker.accepts_iff_typeName_eq.mpr ⟨hw, hname⟩)
  | ofClass c =>
    rw [objection?] at h
    split_ifs at h with hc
    cases h
    intro hname
    simp [Class.hasMember, hname] at hc
  | array element =>
    -- the rule of an array pattern is that of the marker for arrays
    rw [objection?] at h
    split_ifs at h with harray
    cases h
    exact fun hname => harray (Marker.accepts_iff_typeName_eq (m := .array).mpr ⟨hw, hname⟩)
  | object pattern =>
    rw [objection?] at h
    split_ifs at h with hfields
    cases h
    cases w <;> simp [Value.fields?, Value.isInstance, Value.typeName] at hfields hw ⊢

/-- Among the rules that object to an instance, four kinds may have expected the name of its
class. -/
theorem name_eq_iff_namesake {fields : Record Value}
    (h : t.objection? (.instanceOf c fields) = some (.wrongKind (.instanceOf c fields) expected)) :
    c.name = expected ↔ Namesake c t := by
  cases t with
  | any => cases h
  | object => cases h
  | wrapped => cases h
  | literal l =>
    rw [objection?] at h
    split at h <;> cases h
  | undefined =>
    cases h
    refine ⟨.undefined, fun hc => ?_⟩
    cases hc with
    | undefined hname => exact hname
  | null =>
    cases h
    refine ⟨.null, fun hc => ?_⟩
    cases hc with
    | null hname => exact hname
  | marker m =>
    rw [objection?] at h
    split_ifs at h
    cases h
    refine ⟨.marker, fun hc => ?_⟩
    cases hc with
    | marker hname => exact hname
  | array element =>
    cases h
    refine ⟨.array element, fun hc => ?_⟩
    cases hc with
    | array _ hname => exact hname
  | ofClass d =>
    rw [objection?] at h
    split_ifs at h with hd
    cases h
    refine iff_of_false (fun hname => ?_) (by rintro ⟨⟩)
    simp [Class.hasMember, Value.typeName, hname] at hd

theorem typeName_eq_iff_namesake (h : t.objection? w = some (.wrongKind w expected)) :
    w.typeName = expected ↔ ∃ c fields, w = .instanceOf c fields ∧ Namesake c t := by
  cases hw : w.isInstance with
  | true =>
    obtain ⟨c, fields, rfl⟩ := Value.isInstance_iff.mp hw
    simp [Value.typeName, name_eq_iff_namesake h]
  | false =>
    refine iff_of_false (typeName_ne_of_objection? h hw) ?_
    rintro ⟨c, fields, rfl, -⟩
    cases hw

/-- The name in question is that of a built-in kind. -/
theorem Namesake.exists_typeName_eq (h : Namesake c t) :
    ∃ v : Value, v.isInstance = false ∧ v.typeName = c.name := by
  cases h with
  | marker hname =>
    obtain ⟨v, hv⟩ := Marker.exists_accepts _
    obtain ⟨hplain, hv⟩ := Marker.accepts_iff_typeName_eq.mp hv
    exact ⟨v, hplain, hv.trans hname.symm⟩
  | null hname => exact ⟨.null, rfl, hname.symm⟩
  | undefined hname => exact ⟨.undefined, rfl, hname.symm⟩
  | array _ hname => exact ⟨.array [], rfl, hname.symm⟩

/-- Such an instance is turned down, and its name is given twice. -/
theorem Namesake.objection?_eq (h : Namesake c t) (fields : Record Value) :
    t.objection? (.instanceOf c fields) = some (.mismatch (.kind c.name) (.kind c.name)
      (some (.instanceOf c fields))) := by
  cases h with
  | @marker m hname =>
    have hm : m.accepts (.instanceOf c fields) ≠ true :=
      fun hm => nomatch (Marker.accepts_iff_typeName_eq.mp hm).1
    rw [objection?, if_neg hm, hname]
    simp [Leaf.wrongKind, Value.typeName, hname]
  | null hname => simp [objection?, Value.isNull, Leaf.wrongKind, Value.typeName, hname]
  | undefined hname => simp [objection?, Value.isUndefined, Leaf.wrongKind, Value.typeName, hname]
  | array _ hname => simp [objection?, Marker.isArray, Leaf.wrongKind, Value.typeName, hname]

/-! ## Whole reports -/

theorem mismatch_mem_leavesOf_finding_iff {subset : Bool} {s : Shape} {v : Value}
    {keys : List String} {actual expected : Label} :
    (keys, Leaf.mismatch actual expected value) ∈ leavesOf (finding subset s v) ↔
      ∃ t w, Reaches s v keys t w ∧ t.objection? w = some (.mismatch actual expected value) := by
  rw [mem_leavesOf_finding_iff]
  refine or_iff_left ?_
  rintro ⟨-, above, key, pattern, w, fields, x, -, -, -, -, -, h⟩
  cases h

/-- **Two names that coincide.** A mismatch of kinds stands where the rule of a shape objects to a
value, which it keeps. It reads `expected X, got X` just where the value is an instance of a class
that is named like a built-in kind, and the rule is the one of the marker of that name, of null, of
undefined or of an array pattern. So a report has such a leaf exactly when one of these rules meets
such an instance somewhere. -/
theorem reportWith_sameName (s : Shape) (v : Value) (subset : Bool) :
    ∃ r, s.reportWith v ⟨subset, none⟩ = .ok r ∧
      (∀ keys actual expected value,
        (keys, Leaf.mismatch (.kind actual) (.kind expected) value) ∈ leavesOf r ↔
          ∃ t w, Reaches s v keys t w ∧
            t.objection? w = some (.mismatch (.kind actual) (.kind expected) value)) ∧
      (∀ t w actual expected value,
        t.objection? w = some (.mismatch (.kind actual) (.kind expected) value) →
          value = some w ∧
          ((Label.kind actual).text = (Label.kind expected).text ↔
            ∃ c fields, w = .instanceOf c fields ∧ Namesake c t)) ∧
      (∀ c t, Namesake c t → ∃ v : Value, v.isInstance = false ∧ v.typeName = c.name) ∧
      ((∃ keys name value, (keys, Leaf.mismatch (.kind name) (.kind name) value) ∈ leavesOf r) ↔
        ∃ keys t c fields, Reaches s v keys t (.instanceOf c fields) ∧ Namesake c t) := by
  refine ⟨finding subset s v, reportWith_unlimited s v subset,
    fun keys actual expected value => mismatch_mem_leavesOf_finding_iff, ?_,
    fun c t h => h.exists_typeName_eq, ?_, ?_⟩
  · intro t w actual expected value h
    obtain ⟨rfl, hvalue, hkind⟩ := eq_wrongKind_of_objection? h
    exact ⟨hvalue, typeName_eq_iff_namesake hkind⟩
  · rintro ⟨keys, name, value, h⟩
    obtain ⟨t, w, hr, ho⟩ := mismatch_mem_leavesOf_finding_iff.mp h
    obtain ⟨hname, -, hkind⟩ := eq_wrongKind_of_objection? ho
    obtain ⟨c, fields, rfl, hc⟩ := (typeName_eq_iff_namesake hkind).mp hname.symm
    exact ⟨keys, t, c, fields, hr, hc⟩
  · rintro ⟨keys, t, c, fields, hr, hc⟩
    exact ⟨keys, _, _, mismatch_mem_leavesOf_finding_iff.mpr ⟨t, _, hr, hc.objection?_eq fields⟩⟩

/-- In an array of dates, an instance of a class that is called `Date`. -/
theorem reportWith_sameName_date :
    (marker .date).objection? (.instanceOf (.root 1 "Date") []) =
        some (.mismatch (.kind "Date") (.kind "Date") (some (.instanceOf (.root 1 "Date") []))) ∧
      Namesake (.root 1 "Date") (marker .date) ∧
      ∃ r, (object [("at", array (marker .date))]).reportWith
          (.object [("at", .array [.instanceOf (.root 1 "Date") []])]) ⟨false, none⟩ = .ok r ∧
        (["at", "0"], Leaf.mismatch (.kind "Date") (.kind "Date")
          (some (.instanceOf (.root 1 "Date") []))) ∈ leavesOf r := by
  have hc : Namesake (.root 1 "Date") (marker .date) := .marker rfl
  have ho := hc.objection?_eq []
  obtain ⟨r, hr, hleaf, -⟩ := reportWith_sameName (object [("at", array (marker .date))])
    (.object [("at", .array [.instanceOf (.root 1 "Date") []])]) false
  refine ⟨ho, hc, r, hr, (hleaf _ _ _ _).mpr ⟨marker .date, _, ?_, ho⟩⟩
  exact .step (.property rfl List.mem_cons_self) (.step (@Child.element _ _ 0 _ rfl) (.root _ _))

end Shape

end Conformance
