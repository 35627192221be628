import Conformance.Proofs.Documents
import Conformance.Proofs.Verdicts

/-!
# Distinct keys in all that is built and read

Records are entered key by key, by whoever builds a value, a shape or a report and by the reader of
JSON. So what is built has distinct keys at every level, and whatever has them can be built. A text
may repeat a key, but what is read from it does not. So the reports of a run have distinct keys at
every node, and no two leaves of one of them have the same keys.

Results:
* `Record.distinct_iff_exists_ofList`: the records that are entered key by key.
* `Value.wellFormed_iff_built`, `Shape.wellFormed_iff_built`, `Report.wellFormed_iff_built`: the
  values, shapes and reports that are built.
* `Json.wellFormed_readValue`: every tree that is read, by induction on how deep brackets may nest.
* `Value.wellFormed_of_ofText`, `Fixture.wellFormed_of_ofBytes`: values and files of fixtures.
* `Runner.nodup_keys_of_gathers`: the reports on the cases of a run.
-/

namespace Conformance

/-! ## Building -/

/-- The records with distinct keys are those that are entered key by key. -/
theorem Record.distinct_iff_exists_ofList {α : Type} {r : Record α} :
    r.Distinct ↔ ∃ entries, ofList entries = r :=
  ⟨fun h => ⟨r, ofList_eq_self h⟩, fun ⟨entries, h⟩ => h ▸ distinct_ofList entries⟩

/-- A value that is built from its parts, its records by entering. -/
inductive Value.Built : Value → Prop
  | scalar {v : Value} : (∀ items, v ≠ .array items) → v.fields? = none → Built v
  | array {items : List Value} : (∀ item ∈ items, Built item) → Built (.array items)
  | object {entries : List (String × Value)} : (∀ e ∈ entries, Built e.2) →
    Built (.object (Record.ofList entries))
  | instanceOf (c : Class) {entries : List (String × Value)} : (∀ e ∈ entries, Built e.2) →
    Built (.instanceOf c (Record.ofList entries))

/-- A shape that is built from its parts, its patterns by entering. -/
inductive Shape.Built : Shape → Prop
  | flat {s : Shape} : s.isFlat = true → Built s
  | array {element : Shape} : Built element → Built (.array element)
  | object {entries : List (String × Shape)} : (∀ e ∈ entries, Built e.2) →
    Built (.object (Record.ofList entries))
  | wrapped (m : Modifier) {inner : Shape} : Built inner → Built (.wrapped m inner)

/-- A report that is built from its parts, by hand or not, its nodes by entering. -/
inductive Report.Built : Report → Prop
  | leaf (l : Leaf) : Built (.leaf l)
  | nested {entries : List (String × Report)} : (∀ e ∈ entries, Built e.2) →
    Built (.nested (Record.ofList entries))

theorem Value.wellFormed_iff_built {v : Value} : v.WellFormed ↔ v.Built := by
  constructor
  · intro h
    induction v with
    | array items ih =>
      rw [WellFormed] at h
      exact .array fun item hi => ih item hi (h item hi)
    | object fields ih =>
      rw [WellFormed] at h
      rw [← Record.ofList_eq_self h.1]
      exact .object fun f hf => ih f hf (h.2 f hf)
    | instanceOf c fields ih =>
      rw [WellFormed] at h
      rw [← Record.ofList_eq_self h.1]
      exact .instanceOf c fun f hf => ih f hf (h.2 f hf)
    | _ => exact .scalar (by rintro _ ⟨⟩) rfl
  · intro h
    induction h with
    | @scalar v harray hfields =>
      cases v with
      | array items => exact absurd rfl (harray items)
      | object => cases hfields
      | instanceOf => cases hfields
      | _ => simp [WellFormed]
    | array _ ih =>
      rw [WellFormed]
      exact ih
    | object _ ih =>
      rw [WellFormed]
      exact Record.distinct_and_forall_ofList ih
    | instanceOf c _ ih =>
      rw [WellFormed]
      exact Record.distinct_and_forall_ofList ih

theorem Shape.wellFormed_iff_built {s : Shape} : s.WellFormed ↔ s.Built := by
  constructor
  · intro h
    induction s with
    | array element ih =>
      rw [WellFormed] at h
      exact .array (ih h)
    | object pattern ih =>
      rw [WellFormed] at h
      rw [← Record.ofList_eq_self h.1]
      exact .object fun f hf => ih f hf (h.2 f hf)
    | wrapped m inner ih =>
      rw [WellFormed] at h
      exact .wrapped m (ih h)
    | _ => exact .flat rfl
  · intro h
    induction h with
    | @flat s hflat =>
      cases s with
      | array => cases hflat
      | object => cases hflat
      | wrapped => cases hflat
      | _ => simp [WellFormed]
    | array _ ih =>
      rw [WellFormed]
      exact ih
    | object _ ih =>
      rw [WellFormed]
      exact Record.distinct_and_forall_ofList ih
    | wrapped m _ ih =>
      rw [WellFormed]
      exact ih

theorem Report.wellFormed_iff_built {r : Report} : r.WellFormed ↔ r.Built := by
  constructor
  · intro h
    induction r with
    | leaf l => exact .leaf l
    | nested children ih =>
      rw [WellFormed] at h
      rw [← Record.ofList_eq_self h.1]
      exact .nested fun c hc => ih c hc (h.2 c hc)
  · intro h
    induction h with
    | leaf l => simp [WellFormed]
    | nested _ ih =>
      rw [WellFormed]
      exact Record.distinct_and_forall_ofList ih

/-! ## Reading trees -/

namespace Json

variable {α : Type}

/-- What the reader answers has the property, whatever the bytes. -/
def Gives (P : α → Prop) (reader : Reader α) : Prop :=
  ∀ ⦃bytes a rest⦄, reader bytes = .ok (a, rest) → P a

/-- By induction on the number of elements that there may be. -/
theorem gives_readElements {P : α → Prop} {element : Reader α} (h : Gives P element) (fuel : Nat) :
    ∀ index, Gives (fun xs => ∀ x ∈ xs, P x) (readElements element fuel index) := by
  induction fuel with
  | zero =>
    intro index bytes xs rest hread
    cases hread
  | succ fuel ih =>
    intro index bytes xs rest hread
    rw [readElements] at hread
    obtain ⟨⟨more, _⟩, -, hparts⟩ := bind_eq_ok_iff.mp hread
    cases more with
    | false =>
      cases hparts
      exact List.forall_mem_nil _
    | true =>
      obtain ⟨⟨x, _⟩, hx, hothers⟩ := bind_eq_ok_iff.mp hparts
      obtain ⟨⟨others, _⟩, hxs, ⟨⟩⟩ := bind_eq_ok_iff.mp hothers
      exact List.forall_mem_cons.mpr ⟨h (mapError_eq_ok_iff.mp hx), ih _ hxs⟩

/-- By induction on the number of fields that there may be. -/
theorem gives_readFields {P : α → Prop} {value : Reader α} (h : Gives P value) (fuel : Nat) :
    ∀ first, Gives (fun fields => ∀ f ∈ fields, P f.2) (readFields value fuel first) := by
  induction fuel with
  | zero =>
    intro first bytes fields rest hread
    cases hread
  | succ fuel ih =>
    intro first bytes fields rest hread
    rw [readFields] at hread
    obtain ⟨⟨key?, _⟩, -, hparts⟩ := bind_eq_ok_iff.mp hread
    cases key? with
    | none =>
      cases hparts
      exact List.forall_mem_nil _
    | some key =>
      obtain ⟨⟨⟨⟩, _⟩, -, hvalued⟩ := bind_eq_ok_iff.mp hparts
      obtain ⟨⟨x, _⟩, hx, hothers⟩ := bind_eq_ok_iff.mp hvalued
      obtain ⟨⟨others, _⟩, hxs, ⟨⟩⟩ := bind_eq_ok_iff.mp hothers
      exact List.forall_mem_cons.mpr ⟨h (mapError_eq_ok_iff.mp hx), ih _ hxs⟩

theorem wellFormed_readScalar : Gives WellFormed readScalar := by
  intro bytes j rest h
  unfold readScalar at h
  split at h
  next => cases h
  next b after =>
    split_ifs at h
    iterate 6
      obtain ⟨_, -, ⟨⟩⟩ := map_eq_ok_iff.mp h
      simp [WellFormed]

/-- Every tree that is read has distinct keys at every level, also where the text repeats one. -/
theorem wellFormed_readValue (fuel depth : Nat) : Gives WellFormed (readValue fuel depth) := by
  induction depth with
  | zero =>
    intro bytes j rest h
    rw [readValue] at h
    split at h
    next => cases h
    next => exact wellFormed_readScalar h
  | succ depth ih =>
    intro bytes j rest h
    rw [readValue] at h
    cases hblanks : skipBlanks bytes with
    | nil =>
      rw [hblanks] at h
      cases h
    | cons b after =>
      rw [hblanks] at h
      dsimp only at h
      split_ifs at h
      · obtain ⟨⟨items, _⟩, hitems, ⟨⟩⟩ := map_eq_ok_iff.mp h
        rw [WellFormed]
        exact gives_readElements ih fuel 0 hitems
      · obtain ⟨⟨fields, _⟩, hfields, ⟨⟩⟩ := map_eq_ok_iff.mp h
        rw [WellFormed]
        exact Record.distinct_and_forall_ofList (gives_readFields ih fuel true hfields)
      · exact wellFormed_readScalar h

end Json

namespace Value

theorem wellFormed_of_ofBytes {bytes : List UInt8} {v : Value} (h : ofBytes bytes = .ok v) :
    v.WellFormed := by
  obtain ⟨j, hread, rfl⟩ := map_eq_ok_iff.mp h
  obtain ⟨rest, hvalue⟩ := Json.read_eq_ok_iff.mp hread
  exact Json.wellFormed_ofJson_iff.mpr (Json.wellFormed_readValue _ _ hvalue)

theorem wellFormed_of_ofText {text : String} {v : Value} (h : ofText text = .ok v) :
    v.WellFormed := wellFormed_of_ofBytes h

/-- A repeated key keeps its first place and its last value. -/
example : (ofText "\x7b\"b\":null,\"a\":null,\"b\":true\x7d").toOption.map preview =
    some "\x7b\"b\":true,\"a\":null\x7d" := by
  decide +kernel

end Value

/-! ## Reading fixtures -/

namespace Fixture

open Json

/-- The trees that a draft holds by now have distinct keys. -/
structure Draft.WellFormed (d : Draft) : Prop where
  value : ∀ j ∈ d.value, j.WellFormed
  expect : ∀ j ∈ d.expect, j.WellFormed

/-- The trees of a fixture have distinct keys. -/
structure WellFormed (f : Fixture) : Prop where
  value : f.value.WellFormed
  expect : f.expect.WellFormed

theorem Draft.wellFormed_empty : WellFormed {} :=
  ⟨by rintro _ ⟨⟩, by rintro _ ⟨⟩⟩

theorem Draft.WellFormed.finish {d : Draft} (h : d.WellFormed) {f : Fixture}
    (hf : d.finish = .ok f) : f.WellFormed := by
  obtain ⟨name, shape, value, subset, expect⟩ := d
  -- a draft that misses one of the four is refused
  cases name <;> cases shape <;> cases value <;> cases expect <;> cases hf
  exact ⟨h.value _ rfl, h.expect _ rfl⟩

theorem wellFormed_readField {d : Draft} (h : d.WellFormed) (fuel : Nat) (field : Field) :
    Gives Draft.WellFormed (readField fuel d field) := by
  intro bytes d' rest hread
  cases field with
  | name | shape | subset =>
    obtain ⟨_, -, ⟨⟩⟩ := map_eq_ok_iff.mp hread
    exact ⟨h.value, h.expect⟩
  | value =>
    obtain ⟨⟨j, _⟩, hj, ⟨⟩⟩ := map_eq_ok_iff.mp hread
    exact ⟨by rintro _ ⟨⟩; exact wellFormed_readValue _ _ hj, h.expect⟩
  | expect =>
    obtain ⟨⟨j, _⟩, hj, ⟨⟩⟩ := map_eq_ok_iff.mp hread
    exact ⟨h.value, by rintro _ ⟨⟩; exact wellFormed_readValue _ _ hj⟩

/-- By induction on the number of fields that there may be. -/
theorem wellFormed_readObject (fuel count : Nat) : ∀ {first : Bool} {d : Draft}, d.WellFormed →
    Gives WellFormed (readObject fuel count first d) := by
  induction count with
  | zero =>
    intro first d _ bytes f rest hread
    cases hread
  | succ count ih =>
    intro first d h bytes f rest hread
    rw [readObject] at hread
    obtain ⟨⟨key?, _⟩, -, hparts⟩ := bind_eq_ok_iff.mp hread
    cases key? with
    | none =>
      dsimp only at hparts
      split at hparts
      next fixture hfinish =>
        cases hparts
        exact h.finish hfinish
      next => cases hparts
    | some key =>
      dsimp only at hparts
      split at hparts
      next field _ =>
        split_ifs at hparts
        obtain ⟨⟨⟨⟩, _⟩, -, hvalued⟩ := bind_eq_ok_iff.mp hparts
        obtain ⟨⟨d', _⟩, hfield, hothers⟩ := bind_eq_ok_iff.mp hvalued
        exact ih (wellFormed_readField h fuel field (mapError_eq_ok_iff.mp hfield)) hothers
      next =>
        obtain ⟨⟨⟨⟩, _⟩, -, hvalued⟩ := bind_eq_ok_iff.mp hparts
        obtain ⟨⟨⟨⟩, _⟩, -, hothers⟩ := bind_eq_ok_iff.mp hvalued
        exact ih h hothers

/-- By induction on the fields that are still to be read. -/
theorem wellFormed_readTuple (fuel : Nat) (fields : List Field) : ∀ {index : Nat} {d : Draft},
    d.WellFormed → Gives WellFormed (readTuple fuel fields index d) := by
  induction fields with
  | nil =>
    intro index d h bytes f rest hread
    rw [readTuple] at hread
    obtain ⟨⟨⟨⟩, _⟩, -, hend⟩ := bind_eq_ok_iff.mp hread
    dsimp only at hend
    split at hend
    next fixture hfinish =>
      cases hend
      exact h.finish hfinish
    next => cases hend
  | cons field fields ih =>
    intro index d h bytes f rest hread
    rw [readTuple] at hread
    obtain ⟨⟨more, _⟩, -, hparts⟩ := bind_eq_ok_iff.mp hread
    cases more with
    | true =>
      obtain ⟨⟨d', _⟩, hfield, hothers⟩ := bind_eq_ok_iff.mp hparts
      exact ih (wellFormed_readField h fuel field (mapError_eq_ok_iff.mp hfield)) hothers
    | false =>
      dsimp only at hparts
      rw [if_neg Bool.false_ne_true] at hparts
      split_ifs at hparts
      exact ih h hparts

/-- A value of another kind is refused, so that nothing is read from it. -/
theorem gives_rejectValue {α : Type} (P : α → Prop) (expected : String) :
    Gives P (rejectValue expected) := by
  intro bytes a rest hread
  unfold rejectValue at hread
  split_ifs at hread
  obtain ⟨_, -, hnone⟩ := bind_eq_ok_iff.mp hread
  cases hnone

theorem wellFormed_readFixture (fuel : Nat) : Gives WellFormed (readFixture fuel) := by
  intro bytes f rest hread
  unfold readFixture at hread
  dsimp only at hread
  split_ifs at hread
  · exact wellFormed_readTuple fuel Field.all Draft.wellFormed_empty hread
  · exact wellFormed_readObject fuel fuel Draft.wellFormed_empty hread
  · exact gives_rejectValue WellFormed _ hread

/-- The trees in a file of fixtures have distinct keys at every level. -/
theorem wellFormed_of_ofBytes {bytes : List UInt8} {cases : List Fixture}
    (h : ofBytes bytes = .ok cases) : ∀ f ∈ cases, f.WellFormed := by
  unfold ofBytes runReader at h
  split at h
  next found rest hread =>
    injection h with h
    subst h
    unfold readFixtures at hread
    dsimp only at hread
    split_ifs at hread
    · exact gives_readElements (wellFormed_readFixture _) _ 0 hread
    · exact gives_rejectValue (fun found => ∀ f ∈ found, f.WellFormed) _ hread
  next => cases h

/-- The report that a fixture fails with has distinct keys at every node. -/
theorem WellFormed.report_of_run {f : Fixture} (hf : f.WellFormed) {base : Options} {actual : Json}
    {r : Report} (h : f.run base = .fail actual (some r)) : r.WellFormed := by
  cases hlookup : Catalogue.lookup f.shape with
  | none =>
    rw [run_of_lookup_eq_none hlookup] at h
    cases h
  | some s =>
    cases hr : s.reportWith (.ofJson f.value) (f.options base) with
    | error e =>
      rw [run_of_reportWith_error hlookup hr] at h
      cases h
    | ok found =>
      rw [run_of_reportWith_ok hlookup hr] at h
      split_ifs at h
      cases h
      exact Shape.wellFormed_of_mem_finding (Catalogue.wellFormed_of_lookup hlookup)
        (wellFormed_ofJson_iff.mpr hf.value) r (Shape.reportWith_ok_iff.mp hr).2

end Fixture

/-! ## Runs -/

namespace Runner

variable {files : Files}

theorem wellFormed_of_loads {paths : List String} {found : List (List Fixture)}
    (h : List.Forall₂ (Loads files) paths found) : ∀ f ∈ found.flatten, f.WellFormed := by
  induction h with
  | nil => exact List.forall_mem_nil _
  | cons hload _ ih =>
    obtain ⟨bytes, -, hbytes⟩ := hload
    exact List.forall_mem_append.mpr ⟨Fixture.wellFormed_of_ofBytes hbytes, ih⟩

theorem wellFormed_of_gathers {inputs : List String} {cases : List Fixture}
    (h : Gathers files inputs cases) : ∀ f ∈ cases, f.WellFormed := by
  induction h with
  | nil => exact List.forall_mem_nil _
  | cons _ hloads _ ih => exact List.forall_mem_append.mpr ⟨wellFormed_of_loads hloads, ih⟩

/-- No two leaves that a run reports on one case have the same keys. -/
theorem nodup_keys_of_gathers {inputs : List String} {cases : List Fixture}
    (h : Gathers files inputs cases) {f : Fixture} (hf : f ∈ cases) {base : Options}
    {actual : Json} {r : Report} (hrun : f.run base = .fail actual (some r)) :
    (r.leaves.map Prod.fst).Nodup :=
  Report.nodup_keys_leaves ((wellFormed_of_gathers h f hf).report_of_run hrun)

end Runner

end Conformance
