import Conformance.Examination
import Conformance.Proofs.Induction
import Conformance.Proofs.Lookup
import Mathlib.Data.List.Forall2

/-!
# What a tolerant examination can see

With undeclared keys tolerated an examination sees of a record no more than what the declared keys
read as. Two values that agree in this at every depth are told apart by neither walk, under any
guard.

Results:
* `Shape.AgreeAt`: two values agree at a shape.
* `Shape.AgreeAt.of_readings`: two records that read alike under the declared keys agree.
* `Shape.examine_eq_of_agreeAt`, `Shape.accepts_eq_of_agreeAt`: the walks are the same.
* `Shape.answers_eq_of_agreeAt`: so are the answers, and what cannot be seen of a record.
-/

namespace Conformance

namespace Shape

/-! ## Agreement -/

/-- Two values agree at a shape: they are the same; or neither is the value that a modifier admits
and they agree below it; or they are arrays that agree element by element; or they are records or
instances, and what each declared key reads as agrees. -/
inductive AgreeAt : Shape → Value → Value → Prop
  | same (s : Shape) (v : Value) : AgreeAt s v v
  | wrapped {m : Modifier} {inner : Shape} {v w : Value} :
      m.admits v = false → m.admits w = false → AgreeAt inner v w → AgreeAt (wrapped m inner) v w
  | array {element : Shape} {items others : List Value} :
      items.length = others.length →
      (∀ {v w}, (v, w) ∈ items.zip others → AgreeAt element v w) →
      AgreeAt (array element) (.array items) (.array others)
  | object {pattern : Record Shape} {v w : Value} {fields others : Record Value} :
      v.fields? = some fields → w.fields? = some others →
      (∀ f ∈ pattern, AgreeAt f.2 (Value.read fields f.1) (Value.read others f.1)) →
      AgreeAt (object pattern) v w

/-! ## The walks -/

theorem examineItems_eq_of_forall₂ {visit : Value → Walk Finding} {items others : List Value}
    (h : List.Forall₂ (fun v w => visit v = visit w) items others) :
    ∀ index, examineItems visit index items = examineItems visit index others := by
  induction h with
  | nil => intro index; rfl
  | cons hitem _ ih =>
    intro index
    rw [examineItems, examineItems, hitem, ih]

theorem acceptsItems_eq_of_forall₂ {visit : Value → Walk Bool} {items others : List Value}
    (h : List.Forall₂ (fun v w => visit v = visit w) items others) :
    ∀ index, acceptsItems visit index items = acceptsItems visit index others := by
  induction h with
  | nil => intro index; rfl
  | cons hitem _ ih =>
    intro index
    rw [acceptsItems, acceptsItems, hitem, ih]

theorem examineFields_eq_of_readings {subset : Bool} {fields others : Record Value}
    {pattern : Record Shape}
    (h : ∀ f ∈ pattern, examine subset f.2 (Value.read fields f.1) =
      examine subset f.2 (Value.read others f.1)) :
    examineFields subset pattern fields = examineFields subset pattern others := by
  induction pattern with
  | nil => rfl
  | cons f rest ih =>
    obtain ⟨key, shape⟩ := f
    rw [List.forall_mem_cons] at h
    rw [examineFields, examineFields, h.1, ih h.2]

theorem acceptsFields_eq_of_readings {subset : Bool} {fields others : Record Value}
    {pattern : Record Shape}
    (h : ∀ f ∈ pattern, accepts subset f.2 (Value.read fields f.1) =
      accepts subset f.2 (Value.read others f.1)) :
    acceptsFields subset pattern fields = acceptsFields subset pattern others := by
  induction pattern with
  | nil => rfl
  | cons f rest ih =>
    obtain ⟨key, shape⟩ := f
    rw [List.forall_mem_cons] at h
    rw [acceptsFields, acceptsFields, h.1, ih h.2]

/-- The exhaustive walk of two values that agree is the same walk. -/
theorem examine_eq_of_agreeAt {s : Shape} {v w : Value} (h : AgreeAt s v w) :
    examine true s v = examine true s w := by
  induction s generalizing v w with
  | array element ih =>
    cases h with
    | same => rfl
    | array hlength hitems =>
      have hvisit := List.forall₂_iff_zip.mpr ⟨hlength, fun hzip => ih (hitems hzip)⟩
      show Report.nested? <$> examineItems _ 0 _ = Report.nested? <$> examineItems _ 0 _
      rw [examineItems_eq_of_forall₂ hvisit]
  | object pattern ih =>
    cases h with
    | same => rfl
    | object hv hw hread =>
      have hfields := examineFields_eq_of_readings fun f hf => ih f hf (hread f hf)
      simp only [examine, isIdentical, hv, hw, hfields, if_true]
  | wrapped m inner ih =>
    cases h with
    | same => rfl
    | wrapped hv hw hinner => simp [examine, isIdentical, hv, hw, ih hinner]
  | _ =>
    cases h
    rfl

/-- The short walk of two values that agree is the same walk. -/
theorem accepts_eq_of_agreeAt {s : Shape} {v w : Value} (h : AgreeAt s v w) :
    accepts true s v = accepts true s w := by
  induction s generalizing v w with
  | array element ih =>
    cases h with
    | same => rfl
    | array hlength hitems =>
      have hvisit := List.forall₂_iff_zip.mpr ⟨hlength, fun hzip => ih (hitems hzip)⟩
      exact acceptsItems_eq_of_forall₂ hvisit 0
  | object pattern ih =>
    cases h with
    | same => rfl
    | object hv hw hread =>
      have hfields := acceptsFields_eq_of_readings fun f hf => ih f hf (hread f hf)
      simp only [accepts, isIdentical, hv, hw, hfields, Bool.not_true, Bool.false_and]
  | wrapped m inner ih =>
    cases h with
    | same => rfl
    | wrapped hv hw hinner => simp [accepts, isIdentical, hv, hw, ih hinner]
  | _ =>
    cases h
    rfl

/-! ## What a pattern does not see -/

section Unseen

variable {pattern : Record Shape} {v w : Value} {fields others : Record Value}

/-- Two records that read alike under every declared key agree. -/
theorem AgreeAt.of_readings (hv : v.fields? = some fields) (hw : w.fields? = some others)
    (h : ∀ key ∈ Record.keys pattern, Value.read fields key = Value.read others key) :
    AgreeAt (.object pattern) v w := by
  refine .object hv hw fun f hf => ?_
  rw [h f.1 (List.mem_map_of_mem hf)]
  exact .same _ _

theorem AgreeAt.insert_undeclared {key : String} (hkey : key ∉ Record.keys pattern) (x : Value) :
    AgreeAt (.object pattern) (.object fields) (.object (Record.insert fields key x)) := by
  refine .of_readings rfl rfl fun other hother => ?_
  have hne : other ≠ key := by
    rintro rfl
    exact hkey hother
  rw [Value.read, Value.read, Record.get?_insert, if_neg hne]

theorem AgreeAt.insert_undefined {key : String} (hkey : key ∉ Record.keys fields) :
    AgreeAt (.object pattern) (.object fields) (.object (Record.insert fields key .undefined)) := by
  refine .of_readings rfl rfl fun other _ => ?_
  rw [Value.read, Value.read, Record.get?_insert]
  split_ifs with h
  · rw [h, Record.get?_eq_none_iff.mpr hkey]
    rfl
  · rfl

theorem AgreeAt.of_perm (hfields : Record.Distinct fields) (h : fields.Perm others) :
    AgreeAt (.object pattern) (.object fields) (.object others) := by
  refine .of_readings rfl rfl fun key _ => ?_
  rw [Value.read, Value.read, Record.get?_eq_of_perm hfields h]

theorem AgreeAt.instanceOf (c : Class) :
    AgreeAt (.object pattern) (.object fields) (.instanceOf c fields) :=
  .of_readings rfl rfl fun _ _ => rfl

end Unseen

/-! ## The answers -/

/-- **Noninterference.** With undeclared keys tolerated, two values that agree at a shape get the
same report, the same verdict or the same refusal, under any limit. So a pattern cannot tell a
record from an instance, nor from the record with one more undeclared key, with an absent key made
undefined, or with its keys in another order. -/
theorem answers_eq_of_agreeAt {s : Shape} {v w : Value} (h : AgreeAt s v w)
    (limit : Option Nat) :
    s.reportWith v ⟨true, limit⟩ = s.reportWith w ⟨true, limit⟩ ∧
      s.conformsWith v ⟨true, limit⟩ = s.conformsWith w ⟨true, limit⟩ ∧
      ∀ (pattern : Record Shape) (fields : Record Value),
        (∀ c, AgreeAt (.object pattern) (.object fields) (.instanceOf c fields)) ∧
        (∀ key x, key ∉ Record.keys pattern →
          AgreeAt (.object pattern) (.object fields) (.object (Record.insert fields key x))) ∧
        (∀ key, key ∉ Record.keys fields →
          AgreeAt (.object pattern) (.object fields)
            (.object (Record.insert fields key .undefined))) ∧
        ∀ others, Record.Distinct fields → fields.Perm others →
          AgreeAt (.object pattern) (.object fields) (.object others) := by
  refine ⟨?_, ?_, fun pattern fields => ⟨?_, ?_, ?_, ?_⟩⟩
  · rw [reportWith, reportWith, examine_eq_of_agreeAt h]
  · rw [conformsWith, conformsWith, accepts_eq_of_agreeAt h]
  · exact fun c => AgreeAt.instanceOf c
  · exact fun key x hkey => AgreeAt.insert_undeclared hkey x
  · exact fun key hkey => AgreeAt.insert_undefined hkey
  · exact fun others hfields hperm => AgreeAt.of_perm hfields hperm

/-- A record and an instance that agree: an absent key is undefined in the other, and each of them
has keys of its own, at the root or in the element of the array. -/
theorem answers_eq_of_agreeAt_instance :
    let rows := object
      [("note", wrapped .optional (marker .string)), ("rows", array (object [("x", any)]))]
    let v := Value.object [("rows", .array [.object [("y", .null)]])]
    let w := Value.instanceOf (.root 1 "Table")
      [("id", .bool true), ("rows", .array [.object []]), ("note", .undefined)]
    AgreeAt rows v w ∧ rows.reportWith v ⟨true, some 3⟩ = rows.reportWith w ⟨true, some 3⟩ ∧
      rows.reportWith w ⟨true, some 3⟩ = .ok (some (.nested
        [("rows", .nested [("0", .nested [("x", .leaf (.wrongKind .undefined "Any"))])])])) := by
  intro rows v w
  have hitem : AgreeAt (object [("x", any)]) (.object [("y", .null)]) (.object []) :=
    .of_readings rfl rfl fun key hkey => by
      rw [List.mem_singleton.mp hkey]
      rfl
  have hrows : AgreeAt (array (object [("x", any)])) (.array [.object [("y", .null)]])
      (.array [.object []]) :=
    .array rfl fun hzip => by
      cases List.mem_singleton.mp hzip
      exact hitem
  have h : AgreeAt rows v w := by
    refine .object rfl rfl fun f hf => ?_
    rcases List.mem_cons.mp hf with rfl | hf
    · exact .same _ _
    · cases List.mem_singleton.mp hf
      exact hrows
  exact ⟨h, (answers_eq_of_agreeAt h (some 3)).1, rfl⟩

end Shape

end Conformance
