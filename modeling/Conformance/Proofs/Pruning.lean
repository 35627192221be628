import Conformance.Proofs.Agreement
import Conformance.Proofs.Leaves

/-!
# Undeclared keys pruned from a report

Tolerating undeclared keys changes nothing but the report: the same steps are taken, the same step
is refused, and what is reported is the strict report without its undeclared keys and without the
nodes that are left empty by that.

Results:
* `Report.prune`: a report without its undeclared keys.
* `Report.leavesOf_prune`: what is left are the other leaves, with their keys and in their order.
* `Shape.bind_prune_finding`: the strict report pruned is the tolerant one.
* `Shape.reportWith_prune`: the same under any limit, and what it means for conformance.
-/

namespace Conformance

/-! ## Pruning -/

namespace Report

mutual

/-- The report without its undeclared keys and, from the leaves up, without the nodes that have no
children then; nothing when nothing is left. -/
def prune : Report → Option Report
  | leaf l => if l.isUnexpected then none else some (leaf l)
  | nested children => nested? (pruneChildren children)

/-- The entries of the children of which something is left. -/
def pruneChildren : List (String × Report) → List (String × Report)
  | [] => []
  | (key, child) :: rest => Shape.entry key child.prune ++ pruneChildren rest

end

theorem pruneChildren_append (a b : List (String × Report)) :
    pruneChildren (a ++ b) = pruneChildren a ++ pruneChildren b := by
  induction a with
  | nil => rfl
  | cons c rest ih =>
    obtain ⟨key, child⟩ := c
    rw [List.cons_append, pruneChildren, pruneChildren, ih, List.append_assoc]

theorem pruneChildren_entry (key : String) (found : Shape.Finding) :
    pruneChildren (Shape.entry key found) = Shape.entry key (found.bind prune) := by
  cases found with
  | none => rfl
  | some r => exact List.append_nil _

theorem bind_prune_nested? (children : List (String × Report)) :
    (nested? children).bind prune = nested? (pruneChildren children) := by
  cases children with
  | nil => rfl
  | cons c rest => rfl

/-- Pruning keeps the leaves that are not undeclared keys. -/
theorem leavesOf_prune (r : Report) :
    Shape.leavesOf r.prune = r.leaves.filter fun l => !l.2.isUnexpected := by
  induction r with
  | leaf l =>
    unfold prune leaves
    cases h : l.isUnexpected <;> simp [h, Shape.leavesOf, leaves]
  | nested children ih =>
    rw [prune, Shape.leavesOf_nested?, leaves]
    induction children with
    | nil => rfl
    | cons c rest ihrest =>
      obtain ⟨key, child⟩ := c
      have hchild := ih (key, child) List.mem_cons_self
      have hrest := ihrest fun c hc => ih c (List.mem_cons_of_mem _ hc)
      rw [pruneChildren, Shape.leavesOfChildren_append, Shape.leavesOfChildren_entry, hchild,
        hrest, leavesOfChildren, List.filter_append, List.filter_map]
      rfl

end Report

/-! ## The two readings of a shape -/

namespace Shape

theorem bind_prune_map_leaf {s : Shape} {v : Value} :
    ((s.objection? v).map Report.leaf).bind Report.prune = (s.objection? v).map Report.leaf := by
  cases h : s.objection? v with
  | none => rfl
  | some l =>
    have hl := isUnexpected_of_objection? h
    simp [Report.prune, hl]

theorem pruneChildren_undeclaredEntries (pattern : Record Shape) (fields : Record Value) :
    Report.pruneChildren (undeclaredEntries false pattern fields) = [] := by
  rw [undeclaredEntries, if_neg Bool.false_ne_true]
  induction undeclaredFields pattern fields with
  | nil => rfl
  | cons f rest ih =>
    rw [List.map_cons, Report.pruneChildren, ih]
    rfl

theorem pruneChildren_entriesOfItems {found found' : Value → Finding} {items : List Value}
    (h : ∀ item ∈ items, (found item).bind Report.prune = found' item) :
    ∀ index, Report.pruneChildren (entriesOfItems found index items) =
      entriesOfItems found' index items := by
  induction items with
  | nil => exact fun _ => rfl
  | cons item rest ih =>
    intro index
    rw [List.forall_mem_cons] at h
    rw [entriesOfItems, entriesOfItems, Report.pruneChildren_append, Report.pruneChildren_entry,
      h.1, ih h.2]

theorem pruneChildren_entriesOfFields {fields : Record Value} {pattern : Record Shape}
    (h : ∀ f ∈ pattern, ∀ v, (finding false f.2 v).bind Report.prune = finding true f.2 v) :
    Report.pruneChildren (entriesOfFields false pattern fields) =
      entriesOfFields true pattern fields := by
  induction pattern with
  | nil => rfl
  | cons f rest ih =>
    obtain ⟨key, shape⟩ := f
    rw [List.forall_mem_cons] at h
    rw [entriesOfFields, entriesOfFields, Report.pruneChildren_append,
      Report.pruneChildren_entry, h.1, ih h.2]

/-- The strict report pruned is the one that tolerates undeclared keys. -/
theorem bind_prune_finding (s : Shape) (v : Value) :
    (finding false s v).bind Report.prune = finding true s v := by
  induction s generalizing v with
  | array element ih =>
    cases v with
    | array items =>
      rw [finding, finding, Report.bind_prune_nested?,
        pruneChildren_entriesOfItems fun item _ => ih item]
    | _ => rfl
  | object pattern ih =>
    rw [finding, finding]
    cases v.fields? with
    | none => rfl
    | some fields =>
      show (Report.nested? _).bind _ = Report.nested? _
      rw [Report.bind_prune_nested?, Report.pruneChildren_append,
        pruneChildren_undeclaredEntries, pruneChildren_entriesOfFields ih]
      rfl
  | wrapped m inner ih =>
    rw [finding, finding]
    split_ifs
    · rfl
    · exact ih v
  | _ =>
    rw [finding_of_isFlat rfl, finding_of_isFlat rfl]
    exact bind_prune_map_leaf

/-- The leaves of the report that tolerates undeclared keys are the other ones of the strict
report. -/
theorem leavesOf_finding_true (s : Shape) (v : Value) :
    leavesOf (finding true s v) =
      (leavesOf (finding false s v)).filter fun l => !l.2.isUnexpected := by
  rw [← bind_prune_finding]
  cases finding false s v with
  | none => rfl
  | some r => exact Report.leavesOf_prune r

/-- With undeclared keys tolerated there is nothing to report exactly when the strict report has no
other leaves than them. -/
theorem finding_true_eq_none_iff {s : Shape} {v : Value} :
    finding true s v = none ↔ ∀ l ∈ leavesOf (finding false s v), l.2.isUnexpected = true := by
  rw [← leavesOf_finding_eq_nil_iff, leavesOf_finding_true, List.filter_eq_nil_iff]
  refine forall₂_congr fun l _ => ?_
  rw [Bool.not_eq_true', Bool.not_eq_false]

/-- A value conforms exactly when the report on it is empty. -/
theorem conformsWith_eq_true_iff {s : Shape} {v : Value} {o : Options} :
    s.conformsWith v o = .ok true ↔ s.reportWith v o = .ok none := by
  rcases s.walks_cases v o with ⟨r, hr, hc⟩ | ⟨e, hr, hc⟩ | ⟨e, hr, hc⟩
  · rw [hr, hc]
    cases r <;> simp
  · rw [hr, hc]
    simp
  · rw [hr, hc]
    simp

/-- **Tolerance prunes the report.** Under any limit the two readings are refused the same step, or
both answer and the tolerant report is the strict one pruned. So a value that conforms strictly
conforms with undeclared keys tolerated, and a value that conforms with them tolerated departs from
the strict reading by undeclared keys only. -/
theorem reportWith_prune (s : Shape) (v : Value) (limit : Option Nat) :
    s.reportWith v ⟨true, limit⟩ =
        (s.reportWith v ⟨false, limit⟩).map (fun found => found.bind Report.prune) ∧
      (s.conformsWith v ⟨false, limit⟩ = .ok true → s.conformsWith v ⟨true, limit⟩ = .ok true) ∧
      (s.conformsWith v ⟨true, limit⟩ = .ok true ↔ ∃ r, s.reportWith v ⟨false, limit⟩ = .ok r ∧
        ∀ l ∈ leavesOf r, l.2.isUnexpected = true) := by
  have hpruned : s.reportWith v ⟨true, limit⟩ =
      (s.reportWith v ⟨false, limit⟩).map (fun found => found.bind Report.prune) := by
    rw [reportWith_eq, reportWith_eq, ← bind_prune_finding]
    cases (Guard.ofLimit limit).firstRefusal? (visited s v) <;> rfl
  have htolerant : s.conformsWith v ⟨true, limit⟩ = .ok true ↔
      ∃ r, s.reportWith v ⟨false, limit⟩ = .ok r ∧ ∀ l ∈ leavesOf r, l.2.isUnexpected = true := by
    rw [conformsWith_eq_true_iff, reportWith_eq, reportWith_eq]
    cases (Guard.ofLimit limit).firstRefusal? (visited s v) with
    | some e => simp
    | none => simp [finding_true_eq_none_iff]
  refine ⟨hpruned, fun hstrict => ?_, htolerant⟩
  have hnone := conformsWith_eq_true_iff.mp hstrict
  exact htolerant.mpr ⟨none, hnone, fun l hl => by cases hl⟩

/-- Of two records in an array, the one that departs by an undeclared key only vanishes from the
report, and the one with an absent key stays without its undeclared key. -/
theorem reportWith_prune_nested :
    (array (object [("a", any)])).reportWith
        (.array [.object [("a", .null), ("b", .null)], .object [("b", .null)]]) ⟨true, some 2⟩ =
      .ok (some (.nested [("1", .nested [("a", .leaf (.wrongKind .undefined "Any"))])])) ∧
    (array any).conformsWith (.array [.null]) ⟨false, some 1⟩ = .ok true ∧
    (array any).conformsWith (.array [.null]) ⟨true, some 1⟩ = .ok true := by
  have hstrict : (array any).conformsWith (.array [.null]) ⟨false, some 1⟩ = .ok true := rfl
  refine ⟨?_, hstrict, (reportWith_prune _ _ _).2.1 hstrict⟩
  rw [(reportWith_prune _ _ _).1]
  rfl

end Shape

end Conformance
