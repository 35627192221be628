import Conformance.Proofs.Edit
import Conformance.Proofs.Pruning
import Mathlib.Logic.Relation

/-!
# Loosened shapes

A shape evolves by edits, each of them anywhere inside it: a part is wrapped in a modifier, or,
where undeclared keys are tolerated, a pattern gives up a declared key. No edit makes an examination
step further or find more, so that a shape that was loosened any number of times reports a part of
what it reported before.

Results:
* `Shape.Loosening`, `Shape.Loosens`: one edit, and any number of them.
* `Shape.Relaxes`: whatever the value, a shape finds no more than another and steps no further.
* `Shape.Loosening.relaxes`: what one edit preserves, a case for each kind.
* `Shape.Loosens.relaxes`: what any number of edits preserve.
* `Shape.Loosens.reportWith_sublist`: the two reports under any limit.
-/

namespace Conformance.Shape

/-! ## Edits -/

/-- One edit that loosens a shape. A declared key is given up only where undeclared keys are
tolerated. -/
inductive Loosening (subset : Bool) : Shape → Shape → Prop
  | wrap (m : Modifier) (s : Shape) : Loosening subset s (wrapped m s)
  | drop (before after : Record Shape) (key : String) (shape : Shape) : subset = true →
      Loosening subset (object (before ++ (key, shape) :: after)) (object (before ++ after))
  | element {s t : Shape} : Loosening subset s t → Loosening subset (array s) (array t)
  | field (before after : Record Shape) (key : String) {s t : Shape} : Loosening subset s t →
      Loosening subset (object (before ++ (key, s) :: after)) (object (before ++ (key, t) :: after))
  | inner (m : Modifier) {s t : Shape} : Loosening subset s t →
      Loosening subset (wrapped m s) (wrapped m t)

/-- Any number of edits, one after the other. -/
def Loosens (subset : Bool) : Shape → Shape → Prop := Relation.ReflTransGen (Loosening subset)

/-- Whatever the value, `t` finds no more than `s` and steps no further. -/
structure Relaxes (subset : Bool) (s t : Shape) : Prop where
  leaves_sublist : ∀ v, (leavesOf (finding subset t v)).Sublist (leavesOf (finding subset s v))
  visited_sublist : ∀ v, (visited t v).Sublist (visited s v)

namespace Relaxes

variable {subset : Bool} {s t u : Shape}

theorem refl (subset : Bool) (s : Shape) : Relaxes subset s s :=
  ⟨fun _ => List.Sublist.refl _, fun _ => List.Sublist.refl _⟩

theorem trans (h : Relaxes subset s t) (h' : Relaxes subset t u) : Relaxes subset s u :=
  ⟨fun v => (h'.leaves_sublist v).trans (h.leaves_sublist v),
    fun v => (h'.visited_sublist v).trans (h.visited_sublist v)⟩

/-! ## Modifiers -/

theorem wrap (subset : Bool) (m : Modifier) (s : Shape) : Relaxes subset s (wrapped m s) := by
  constructor
  · intro v
    rw [finding]
    split_ifs
    · exact List.nil_sublist _
    · exact List.Sublist.refl _
  · intro v
    rw [visited_wrapped]
    split_ifs
    · exact List.nil_sublist _
    · exact List.Sublist.refl _

theorem inner (m : Modifier) (h : Relaxes subset s t) :
    Relaxes subset (wrapped m s) (wrapped m t) := by
  constructor
  · intro v
    rw [finding, finding]
    split_ifs
    · exact List.Sublist.refl _
    · exact h.leaves_sublist v
  · intro v
    rw [visited_wrapped, visited_wrapped]
    split_ifs
    · exact List.Sublist.refl _
    · exact h.visited_sublist v

/-! ## Arrays -/

theorem into_sublist (key : String) {trace trace' : List (List String)}
    (h : trace.Sublist trace') : (Walk.into key trace).Sublist (Walk.into key trace') :=
  (h.map (key :: ·)).cons_cons [key]

theorem leavesOfChildren_entry_sublist (key : String) {found found' : Finding}
    (h : (leavesOf found).Sublist (leavesOf found')) :
    (Report.leavesOfChildren (entry key found)).Sublist
      (Report.leavesOfChildren (entry key found')) := by
  rw [leavesOfChildren_entry, leavesOfChildren_entry]
  exact h.map _

theorem leaves_items (h : Relaxes subset s t) (items : List Value) :
    ∀ index, (Report.leavesOfChildren (entriesOfItems (finding subset t) index items)).Sublist
      (Report.leavesOfChildren (entriesOfItems (finding subset s) index items)) := by
  induction items with
  | nil => exact fun _ => List.Sublist.refl _
  | cons item rest ih =>
    intro index
    rw [entriesOfItems, entriesOfItems, leavesOfChildren_append, leavesOfChildren_append]
    exact (leavesOfChildren_entry_sublist _ (h.leaves_sublist item)).append (ih (index + 1))

theorem visited_items (h : Relaxes subset s t) (items : List Value) :
    ∀ index, ((positionsOfItems (positions t) index items).map Position.keys).Sublist
      ((positionsOfItems (positions s) index items).map Position.keys) := by
  induction items with
  | nil => exact fun _ => List.Sublist.refl _
  | cons item rest ih =>
    intro index
    rw [keys_positionsOfItems_cons, keys_positionsOfItems_cons]
    exact (into_sublist _ (h.visited_sublist item)).append (ih (index + 1))

theorem element (h : Relaxes subset s t) : Relaxes subset (array s) (array t) := by
  constructor
  · intro v
    cases v with
    | array items =>
      rw [finding, finding, leavesOf_nested?, leavesOf_nested?]
      exact h.leaves_items items 0
    | _ => exact List.Sublist.refl _
  · intro v
    cases v with
    | array items =>
      rw [visited_array, visited_array]
      exact h.visited_items items 0
    | _ => exact List.Sublist.refl _

/-! ## Records -/

theorem positionsOfFields_append (before after : Record Shape) (fields : Record Value) :
    positionsOfFields (before ++ after) fields =
      positionsOfFields before fields ++ positionsOfFields after fields := by
  induction before with
  | nil => rfl
  | cons f rest ih =>
    obtain ⟨key, shape⟩ := f
    rw [List.cons_append, positionsOfFields, positionsOfFields, ih, List.append_assoc]

/-- A pattern relaxes another where its declared keys find no more in any record, and neither do its
undeclared ones. -/
theorem of_fields {pattern pattern' : Record Shape}
    (hundeclared : ∀ fields,
      undeclaredEntries subset pattern' fields = undeclaredEntries subset pattern fields)
    (hleaves : ∀ fields, (Report.leavesOfChildren (entriesOfFields subset pattern' fields)).Sublist
      (Report.leavesOfChildren (entriesOfFields subset pattern fields)))
    (hvisited : ∀ fields, ((positionsOfFields pattern' fields).map Position.keys).Sublist
      ((positionsOfFields pattern fields).map Position.keys)) :
    Relaxes subset (object pattern) (object pattern') := by
  constructor
  · intro v
    cases hv : v.fields? with
    | none =>
      rw [finding, finding, hv]
    | some fields =>
      rw [finding_object hv, finding_object hv, leavesOf_nested?, leavesOf_nested?,
        leavesOfChildren_append, leavesOfChildren_append, hundeclared]
      exact (List.Sublist.refl _).append (hleaves fields)
  · intro v
    cases hv : v.fields? with
    | none => simp [Shape.visited, positions, hv]
    | some fields =>
      rw [visited_object _ hv, visited_object _ hv]
      exact hvisited fields

theorem drop (before after : Record Shape) (key : String) (shape : Shape) :
    Relaxes true (object (before ++ (key, shape) :: after)) (object (before ++ after)) := by
  refine of_fields (fun _ => rfl) (fun fields => ?_) fun fields => ?_
  · rw [entriesOfFields_append, entriesOfFields_append, entriesOfFields]
    simp only [leavesOfChildren_append]
    exact (List.Sublist.refl _).append (List.sublist_append_right _ _)
  · rw [positionsOfFields_append, positionsOfFields_append, positionsOfFields]
    simp only [List.map_append]
    exact (List.Sublist.refl _).append (List.sublist_append_right _ _)

theorem field (before after : Record Shape) (key : String) (h : Relaxes subset s t) :
    Relaxes subset (object (before ++ (key, s) :: after))
      (object (before ++ (key, t) :: after)) := by
  refine of_fields (fun fields => ?_) (fun fields => ?_) fun fields => ?_
  · rw [undeclaredEntries, undeclaredEntries,
      undeclaredFields_congr (keys_field before after key s t)]
  · rw [entriesOfFields_append, entriesOfFields_append, entriesOfFields, entriesOfFields]
    simp only [leavesOfChildren_append]
    refine (List.Sublist.refl _).append (List.Sublist.append ?_ (List.Sublist.refl _))
    exact leavesOfChildren_entry_sublist key (h.leaves_sublist _)
  · rw [positionsOfFields_append, positionsOfFields_append, List.map_append, List.map_append,
      keys_positionsOfFields_cons, keys_positionsOfFields_cons]
    refine (List.Sublist.refl _).append (List.Sublist.append ?_ (List.Sublist.refl _))
    exact into_sublist key (h.visited_sublist _)

end Relaxes

/-! ## Runs of edits -/

section Runs

variable {subset : Bool} {s t : Shape}

/-- One edit makes an examination find no more and step no further. -/
theorem Loosening.relaxes (h : Loosening subset s t) : Relaxes subset s t := by
  induction h with
  | wrap m s => exact .wrap subset m s
  | drop before after key shape hsubset =>
    subst hsubset
    exact .drop before after key shape
  | element _ ih => exact ih.element
  | field before after key _ ih => exact .field before after key ih
  | inner m _ ih => exact .inner m ih

/-- Neither do any number of edits. -/
theorem Loosens.relaxes (h : Loosens subset s t) : Relaxes subset s t := by
  induction h with
  | refl => exact .refl subset s
  | tail _ hstep ih => exact ih.trans hstep.relaxes

/-- A guard that lets every step of a trace pass lets those of a part of it pass. -/
theorem firstRefusal?_eq_none_of_sublist {g : Guard} {trace trace' : List (List String)}
    (h : trace'.Sublist trace) (hpass : g.firstRefusal? trace = none) :
    g.firstRefusal? trace' = none := by
  rw [Guard.firstRefusal?, List.findSome?_eq_none_iff] at hpass ⊢
  exact fun keys hk => hpass keys (h.subset hk)

/-- Where `s` has an answer under some options, so has a shape that relaxes it. -/
theorem Relaxes.reportWith {o : Options} {v : Value} {r : Finding}
    (h : Relaxes o.subset s t) (hr : s.reportWith v o = .ok r) :
    t.reportWith v o = .ok (finding o.subset t v) := by
  have hpass := (reportWith_ok_iff.mp hr).1
  exact reportWith_ok_iff.mpr
    ⟨firstRefusal?_eq_none_of_sublist (h.visited_sublist v) hpass, rfl⟩

end Runs

/-- **Loosening a shape is monotone.** Where a shape has a report under some options, every
loosening of it has one under the same options, and the leaves of that report are among those of the
first, with their keys and in their order. So what conforms to a shape conforms to every loosening
of it. -/
theorem Loosens.reportWith_sublist {s t : Shape} {o : Options} (h : Loosens o.subset s t)
    (v : Value) :
    (∀ r, s.reportWith v o = .ok r → ∃ r', t.reportWith v o = .ok r' ∧
      (leavesOf r').Sublist (leavesOf r)) ∧
      (s.conformsWith v o = .ok true → t.conformsWith v o = .ok true) := by
  have hreports : ∀ r, s.reportWith v o = .ok r → ∃ r', t.reportWith v o = .ok r' ∧
      (leavesOf r').Sublist (leavesOf r) := by
    intro r hr
    have ht := h.relaxes.reportWith hr
    obtain ⟨-, rfl⟩ := reportWith_ok_iff.mp hr
    exact ⟨_, ht, h.relaxes.leaves_sublist v⟩
  refine ⟨hreports, fun hs => ?_⟩
  obtain ⟨r', hr', hsublist⟩ := hreports none (conformsWith_eq_true_iff.mp hs)
  have hempty : leavesOf r' = [] := List.sublist_nil.mp hsublist
  obtain ⟨-, rfl⟩ := reportWith_ok_iff.mp hr'
  rw [conformsWith_eq_true_iff, hr', leavesOf_finding_eq_nil_iff.mp hempty]

/-- A string that may be null and a key that is given up: of three leaves the one on the other
element is left. -/
theorem Loosens.reportWith_sublist_tags :
    Loosens true (object [("tags", array (marker .string)), ("size", any)])
        (object [("tags", array (wrapped .nullable (marker .string)))]) ∧
      ∃ r', (object [("tags", array (wrapped .nullable (marker .string)))]).reportWith
          (.object [("tags", .array [.null, .bool true])]) ⟨true, some 2⟩ = .ok r' ∧
        (leavesOf r').Sublist [(["tags", "0"], .wrongKind .null "String"),
          (["tags", "1"], .wrongKind (.bool true) "String"),
          (["size"], .wrongKind .undefined "Any")] := by
  have hwrap : Loosening true (object [("tags", array (marker .string)), ("size", any)])
      (object [("tags", array (wrapped .nullable (marker .string))), ("size", any)]) :=
    .field [] [("size", any)] "tags" (.element (.wrap .nullable (marker .string)))
  have hdrop : Loosening true
      (object [("tags", array (wrapped .nullable (marker .string))), ("size", any)])
      (object [("tags", array (wrapped .nullable (marker .string)))]) :=
    .drop [("tags", array (wrapped .nullable (marker .string)))] [] "size" any rfl
  have hloosens := (Relation.ReflTransGen.single hwrap).tail hdrop
  refine ⟨hloosens, ?_⟩
  exact (reportWith_sublist (o := ⟨true, some 2⟩) hloosens
    (.object [("tags", .array [.null, .bool true])])).1 _ rfl

end Conformance.Shape
