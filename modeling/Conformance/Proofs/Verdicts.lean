import Conformance.Proofs.Pruning
import Conformance.Proofs.Reordering
import Conformance.Proofs.Runs

/-!
# Verdicts of fixtures

A fixture is run in four stages: its JSON becomes a value, the shape of its entry reports on it, the
report becomes JSON again, and that is compared with what is expected. None of the stages sees the
order of keys, so the verdict does not either. Only an empty report is shown by null, so a fixture
that expects null passes exactly when its value conforms.

Results:
* `Catalogue.wellFormed_of_lookup`: the shapes of the catalogue have distinct keys.
* `Shape.reportWith_reordered`: the answers of a shape on reordered values.
* `Fixture.reportJson_beq_null`: what is shown by null.
* `Fixture.run_verdict`: what the verdict depends on.
-/

namespace Conformance

/-! ## Shapes of the catalogue -/

theorem Catalogue.wellFormed_pattern {fields : List (String × Shape)}
    (h : ∀ f ∈ fields, f.2.WellFormed) : (pattern fields).WellFormed := by
  rw [pattern, Shape.WellFormed]
  exact Record.distinct_and_forall_ofList h

theorem Catalogue.wellFormed_entries : ∀ e ∈ entries, e.2.WellFormed := by
  have hpet : pet.WellFormed := wellFormed_pattern (by simp [Shape.WellFormed])
  simp [entries, hpet, wellFormed_pattern, Shape.WellFormed]

theorem Catalogue.wellFormed_of_lookup {name : String} {s : Shape} (h : lookup name = some s) :
    s.WellFormed :=
  wellFormed_entries _ (Record.mem_of_get? h)

/-! ## Answers on reordered values -/

namespace Shape

/-- A limit refuses both of two reordered values or none, and the reports are reordered. -/
theorem reportWith_reordered {s : Shape} (hs : s.WellFormed) {j k : Json} (h : j.Reordered k)
    (o : Options) : SameOutcome (Option.Rel Report.Reordered) (s.reportWith (.ofJson j) o)
      (s.reportWith (.ofJson k) o) := by
  have hsame := ((Alike.refl hs).answers Binary64.congruent_eq h.alike_ofJson hs hs
    h.wellFormed_ofJson h.symm.wellFormed_ofJson).1 o
  cases hr : s.reportWith (.ofJson j) o <;> cases hq : s.reportWith (.ofJson k) o <;>
    rw [hr, hq] at hsame
  · trivial
  · exact hsame
  · exact hsame
  · obtain ⟨-, rfl⟩ := reportWith_ok_iff.mp hr
    obtain ⟨-, rfl⟩ := reportWith_ok_iff.mp hq
    exact finding_reordered o.subset hs (.ofJson h)

end Shape

/-! ## Outcomes -/

/-- Both pass, both fail or both cannot be run. -/
structure Outcome.SameKind (o o' : Outcome) : Prop where
  isPass : o.isPass = o'.isPass
  isFail : o.isFail = o'.isFail
  isError : o.isError = o'.isError

namespace Fixture

theorem reportJson_reordered {r q : Option Report} (h : Option.Rel Report.Reordered r q) :
    (reportJson r).Reordered (reportJson q) := by
  cases h with
  | none => exact .null
  | some h => exact h

/-- Only no report is shown by null. -/
theorem reportJson_beq_null (r : Option Report) : (reportJson r == .null) = r.isNone := by
  cases r with
  | none => rfl
  | some r =>
    obtain ⟨fields, hfields, -⟩ := r.exists_fields_toJson
    rw [reportJson, hfields]
    rfl

section Run

variable {f g : Fixture} {base : Options} {s : Shape}

theorem run_of_lookup_eq_none (h : Catalogue.lookup f.shape = none) :
    f.run base = .error (.unknownShape f.shape) := by
  simp only [run, h]

theorem run_of_reportWith_error {e : DepthExceeded} (h : Catalogue.lookup f.shape = some s)
    (he : s.reportWith (.ofJson f.value) (f.options base) = .error e) :
    f.run base = .error (.depthExceeded e) := by
  simp only [run, h, he]

theorem run_of_reportWith_ok {r : Option Report} (h : Catalogue.lookup f.shape = some s)
    (hr : s.reportWith (.ofJson f.value) (f.options base) = .ok r) :
    f.run base = if reportJson r == f.expect then .pass else .fail (reportJson r) r := by
  simp only [run, h, hr]

/-- Fixtures of one shape and tolerance, with the value and the expected report reordered. -/
theorem sameKind_run (hshape : g.shape = f.shape) (hsubset : g.subset = f.subset)
    (hvalue : f.value.Reordered g.value) (hexpect : f.expect.Reordered g.expect) :
    (f.run base).SameKind (g.run base) := by
  have hoptions : g.options base = f.options base := by rw [options, options, hsubset]
  cases hf : Catalogue.lookup f.shape with
  | none =>
    have hg : Catalogue.lookup g.shape = none := by rw [hshape, hf]
    rw [run_of_lookup_eq_none hf, run_of_lookup_eq_none hg]
    exact ⟨rfl, rfl, rfl⟩
  | some s =>
    have hg : Catalogue.lookup g.shape = some s := by rw [hshape, hf]
    have hsame := s.reportWith_reordered (Catalogue.wellFormed_of_lookup hf) hvalue
      (f.options base)
    cases hr : s.reportWith (.ofJson f.value) (f.options base) <;>
      cases hq : s.reportWith (.ofJson g.value) (f.options base) <;> rw [hr, hq] at hsame <;>
      rw [← hoptions] at hq
    · rw [run_of_reportWith_error hf hr, run_of_reportWith_error hg hq]
      exact ⟨rfl, rfl, rfl⟩
    · exact absurd hsame id
    · exact absurd hsame id
    · rw [run_of_reportWith_ok hf hr, run_of_reportWith_ok hg hq,
        (reportJson_reordered hsame).beq_eq hexpect]
      split_ifs <;> exact ⟨rfl, rfl, rfl⟩

/-- A fixture that expects null passes exactly when there is nothing to report. -/
theorem isPass_run_iff (h : f.expect = .null) :
    (f.run base).isPass = true ↔ ∃ s, Catalogue.lookup f.shape = some s ∧
      s.reportWith (.ofJson f.value) (f.options base) = .ok none := by
  cases hlookup : Catalogue.lookup f.shape with
  | none => simp [run_of_lookup_eq_none hlookup, Outcome.isPass]
  | some s =>
    cases hr : s.reportWith (.ofJson f.value) (f.options base) with
    | error e => simp [run_of_reportWith_error hlookup hr, hr, Outcome.isPass]
    | ok r =>
      rw [run_of_reportWith_ok hlookup hr, h, reportJson_beq_null]
      cases r <;> simp [hr, Outcome.isPass]

end Run

/-- **What the verdict of a fixture depends on.** Keys of the value and of the expected report put
in another order, at every level, leave the verdict as it is. When no report is expected, a fixture
passes exactly when the catalogue has its shape and its value conforms, under the limit of the run,
with undeclared keys tolerated if the run or the fixture says so. -/
theorem run_verdict (f : Fixture) (base : Options) :
    (∀ value expect, f.value.Reordered value → f.expect.Reordered expect →
      (f.run base).SameKind ({ f with value := value, expect := expect }.run base)) ∧
    (f.expect = .null → ((f.run base).isPass = true ↔
      ∃ s, Catalogue.lookup f.shape = some s ∧
        s.conformsWith (.ofJson f.value) ⟨base.subset || f.subset, base.maxDepth⟩ = .ok true)) := by
  constructor
  · intro value expect hvalue hexpect
    exact sameKind_run (f := f) (g := { f with value := value, expect := expect }) rfl rfl hvalue
      hexpect
  · intro h
    rw [isPass_run_iff h]
    exact exists_congr fun s => and_congr_right fun _ => Shape.conformsWith_eq_true_iff.symm

/-- Keys of the value and of the expected report in another order, at two levels of each; and a
value that conforms because the fixture tolerates undeclared keys. -/
theorem run_verdict_reordered :
    let pet := Json.object [("name", .string "Rex"), ("weight", .null)]
    let pet' := Json.object [("weight", .null), ("name", .string "Rex")]
    let value := Json.object [("age", .null), ("name", .string "Ada"), ("pets", .array [pet])]
    let value' := Json.object [("pets", .array [pet']), ("name", .string "Ada"), ("age", .null)]
    let age := Json.object [("unexpected", .string "Null"), ("value", .null)]
    let age' := Json.object [("value", .null), ("unexpected", .string "Null")]
    let weight := Json.object
      [("actual", .string "Null"), ("expected", .string "Number"), ("value", .null)]
    let pets := Json.object [("0", .object [("weight", weight)])]
    let expect := Json.object [("age", age), ("pets", pets)]
    let expect' := Json.object [("pets", pets), ("age", age')]
    let f : Fixture := ⟨"owner with an age", "owner", value, false, expect⟩
    let g : Fixture := ⟨"named with an age", "named", value, true, .null⟩
    (value.Reordered value' ∧ expect.Reordered expect' ∧
      (f.run ⟨false, some 3⟩).isPass = true ∧
      ({ f with value := value', expect := expect' }.run ⟨false, some 3⟩).isPass = true) ∧
    g.expect = .null ∧
      ∃ s, Catalogue.lookup "named" = some s ∧
        s.conformsWith (.ofJson value) ⟨true, some 1⟩ = .ok true ∧
        (g.run ⟨false, some 1⟩).isPass = true := by
  intro pet pet' value value' age age' weight pets expect expect' f g
  have hpet : pet.Reordered pet' :=
    .object (by simp [Record.Distinct, Record.keys]) (List.reverse_perm _).symm rfl
      (.cons .null (.cons (.string _) .nil))
  have hvalue : value.Reordered value' :=
    .object (by simp [Record.Distinct, Record.keys]) (List.reverse_perm _).symm rfl
      (.cons (.array (.cons hpet .nil)) (.cons (.string _) (.cons .null .nil)))
  have hage : age.Reordered age' :=
    .object (by simp [Record.Distinct, Record.keys]) (List.reverse_perm _).symm rfl
      (.cons .null (.cons (.string _) .nil))
  have hpets : pets.Reordered pets := Json.WellFormed.reordered_refl
    (by simp [pets, weight, Json.WellFormed, Record.Distinct, Record.keys])
  have hexpect : expect.Reordered expect' :=
    .object (by simp [Record.Distinct, Record.keys]) (List.reverse_perm _).symm rfl
      (.cons hpets (.cons hage .nil))
  have hpass : (f.run ⟨false, some 3⟩).isPass = true := by decide +kernel
  have hsame := (run_verdict f ⟨false, some 3⟩).1 value' expect' hvalue hexpect
  have hlookup : Catalogue.lookup "named" = some (.object [("name", .marker .string)]) := rfl
  have hconforms : (Shape.object [("name", .marker .string)]).conformsWith (.ofJson value)
      ⟨true, some 1⟩ = .ok true := rfl
  have hnull := (run_verdict g ⟨false, some 1⟩).2 rfl
  exact ⟨⟨hvalue, hexpect, hpass, hsame.isPass ▸ hpass⟩, rfl, _, hlookup, hconforms,
    hnull.mpr ⟨_, hlookup, hconforms⟩⟩

end Fixture

end Conformance
