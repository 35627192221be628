import Conformance.Proofs.Edit
import Mathlib.Data.List.Forall2

/-!
# Repairs

A report says exactly what to mend. A wrong value is replaced by one that conforms to the shape
that is declared for its place, an undeclared key is taken out, and the leaf is gone; every other
leaf stays where it was. This is so because the keys of one leaf are never the beginning of those
of another, so that no repair reaches into what another leaf is about.

Results:
* `Shape.subshape?`: the shape that is declared at the end of a path of keys.
* `Shape.Reaches.exists_split`: a change at a position moves the leaves there, and no others.
* `Shape.leavesOf_apply`: one repair takes out its own leaf.
* `Shape.leavesOf_repair`: many repairs take out theirs, by induction on the repairs.
* `Shape.report_repair`: what is left to report after repairs, and when nothing is.
-/

namespace Conformance

/-! ## Repairs -/

/-- What mends a value in one place. -/
inductive Repair where
  /-- puts another value at the end of a path of keys -/
  | replace (keys : List String) (x : Value)
  /-- takes a key out of the record at the end of a path of keys -/
  | delete (above : List String) (key : String)

def Repair.apply : Repair → Value → Value
  | replace keys x, v => v.modifyAt (fun _ => x) keys
  | delete above key, v => v.modifyAt (Value.erase key) above

/-- The value after repairs, one after the other. -/
def Value.repair (v : Value) (repairs : List Repair) : Value :=
  repairs.foldl (fun v repair => repair.apply v) v

namespace Shape

/-- The shape below all modifiers in front. -/
def core : Shape → Shape
  | wrapped _ inner => core inner
  | s => s

/-- The shape that is declared at the end of a path of keys, with its modifiers. -/
def subshape? : List String → Shape → Option Shape
  | [], s => some s
  | key :: keys, s =>
    match s.core with
    | array element => subshape? keys element
    | object pattern => (Record.get? pattern key).bind (subshape? keys)
    | _ => none

end Shape

/-- A repair that mends the leaf of a report: a value that conforms to the shape declared at its
keys, in place of a wrong one; or the undeclared key itself, taken out. -/
inductive Repair.Fixes (s : Shape) : List String × Leaf → Repair → Prop
  | replace {keys : List String} {l : Leaf} {t : Shape} {x : Value} :
      l.isUnexpected = false → s.subshape? keys = some t → t.conforms x = true →
      Fixes s (keys, l) (.replace keys x)
  | delete (above : List String) (key : String) {kind : String} {x : Value} :
      Fixes s (above ++ [key], .unexpected kind x) (.delete above key)

namespace Shape

/-! ## Declared shapes -/

theorem core_strip (s : Shape) (v : Value) : (s.strip v).core = s.core := by
  induction s with
  | wrapped m inner ih =>
    rw [strip_wrapped]
    split_ifs
    · rfl
    · exact ih
  | _ => rfl

theorem Child.wellFormed {s t : Shape} {v w : Value} {key : String} (h : Child s v key t w)
    (hs : s.WellFormed) : t.WellFormed := by
  cases h with
  | element _ => rwa [WellFormed] at hs
  | property _ hmem =>
    rw [WellFormed] at hs
    exact hs.2 _ hmem

theorem Child.subshape?_cons {s t : Shape} {v w : Value} {key : String}
    (h : Child (s.strip v) v key t w) (hs : s.WellFormed) (keys : List String) :
    s.subshape? (key :: keys) = t.subshape? keys := by
  have hwf := wellFormed_strip hs v
  rw [subshape?, ← core_strip s v]
  cases hstrip : s.strip v with
  | array element =>
    rw [hstrip] at h
    cases h
    rfl
  | object pattern =>
    rw [hstrip] at h hwf
    rw [WellFormed] at hwf
    cases h with
    | property _ hmem =>
      show (Record.get? pattern key).bind _ = _
      rw [(Record.get?_eq_some_iff hwf.1).mpr hmem, Option.bind_some]
  | _ =>
    rw [hstrip] at h
    cases h

/-- What conforms without the modifiers in front conforms with them. -/
theorem conforms_of_conforms_strip {s : Shape} {v x : Value} (h : (s.strip v).conforms x = true) :
    s.conforms x = true := by
  induction s with
  | wrapped m inner ih =>
    rw [strip_wrapped] at h
    split_ifs at h
    · exact h
    · rw [conforms_iff, finding]
      split_ifs
      · rfl
      · exact conforms_iff.mp (ih h)
  | _ => exact h

/-! ## One place -/

/-- The keys of a leaf as they are seen from further up. -/
def under (keys : List String) (l : List String × Leaf) : List String × Leaf := (keys ++ l.1, l.2)

theorem map_under_nil (ls : List (List String × Leaf)) : ls.map (under []) = ls :=
  List.map_id ls

theorem map_under_cons (key : String) (keys : List String) (ls : List (List String × Leaf)) :
    (ls.map (under keys)).map (under [key]) = ls.map (under (key :: keys)) := by
  rw [List.map_map]
  rfl

theorem leavesOf_nested?_split (before after : List (String × Report)) (key : String)
    (found : Finding) : leavesOf (Report.nested? (before ++ entry key found ++ after)) =
      Report.leavesOfChildren before ++ (leavesOf found).map (under [key]) ++
        Report.leavesOfChildren after := by
  rw [leavesOf_nested?, leavesOfChildren_append, leavesOfChildren_append, leavesOfChildren_entry]
  rfl

theorem not_prefix_of_mem_leavesOfChildren {children : List (String × Report)} {key : String}
    (hkey : key ∉ Record.keys children) (keys : List String) :
    ∀ l ∈ Report.leavesOfChildren children, ¬ key :: keys <+: l.1 := by
  intro l hl hbegins
  obtain ⟨k, below, hcons, hk⟩ := Report.exists_cons_of_mem_leavesOfChildren hl
  rw [hcons, List.cons_prefix_cons] at hbegins
  rw [hbegins.1] at hkey
  exact hkey hk

theorem not_prefix_of_mem_map_under {ls : List (List String × Leaf)} {keys : List String}
    (h : ∀ l ∈ ls, ¬ keys <+: l.1) (key : String) :
    ∀ l ∈ ls.map (under [key]), ¬ key :: keys <+: l.1 := by
  intro l hl hbegins
  obtain ⟨l', hl', rfl⟩ := List.mem_map.mp hl
  exact h l' hl' (List.cons_prefix_cons.mp hbegins).2

/-- A change at a position moves the leaves there, and no others: the leaves before and after it
stay, and their keys do not pass through the position. -/
theorem Reaches.exists_split {s t : Shape} {v w : Value} {keys : List String}
    (h : Reaches s v keys t w) (hs : s.WellFormed) :
    ∃ u before after, s.subshape? keys = some u ∧ u.strip w = t ∧
      leavesOf (finding false s v) =
        before ++ (leavesOf (finding false u w)).map (under keys) ++ after ∧
      (∀ change, leavesOf (finding false s (v.modifyAt change keys)) =
        before ++ (leavesOf (finding false u (change w))).map (under keys) ++ after) ∧
      (∀ l ∈ before, ¬ keys <+: l.1) ∧ ∀ l ∈ after, ¬ keys <+: l.1 := by
  -- along the path: the leaves of a child stand between those of its siblings
  induction h with
  | root s v =>
    refine ⟨s, [], [], rfl, rfl, ?_, fun change => ?_, by simp, by simp⟩
    · rw [map_under_nil, List.nil_append, List.append_nil]
    · rw [map_under_nil, List.nil_append, List.append_nil, Value.modifyAt]
  | @step s t t' v w w' key keys hchild _ ih =>
    have hstrip := wellFormed_strip hs v
    obtain ⟨u, before, after, hu, hut, hfound, hchanged, hbefore, hafter⟩ :=
      ih (hchild.wellFormed hstrip)
    obtain ⟨first, last, hfirst, hlast, hfound', hchanged'⟩ := hchild.exists_split hstrip false
    refine ⟨u, Report.leavesOfChildren first ++ before.map (under [key]),
      after.map (under [key]) ++ Report.leavesOfChildren last, ?_, hut, ?_, ?_, ?_, ?_⟩
    · rw [hchild.subshape?_cons hs, hu]
    · rw [← finding_strip, hfound', leavesOf_nested?_split, hfound]
      simp only [List.map_append, map_under_cons, List.append_assoc]
    · intro change
      rw [Value.modifyAt, ← finding_strip, strip_modify, hchanged', leavesOf_nested?_split,
        hchanged]
      simp only [List.map_append, map_under_cons, List.append_assoc]
    · exact List.forall_mem_append.mpr ⟨not_prefix_of_mem_leavesOfChildren hfirst keys,
        not_prefix_of_mem_map_under hbefore key⟩
    · exact List.forall_mem_append.mpr ⟨not_prefix_of_mem_map_under hafter key,
        not_prefix_of_mem_leavesOfChildren hlast keys⟩

/-- Taking out a leaf at a position leaves what is elsewhere. -/
theorem filter_split {before after : List (List String × Leaf)} {keys : List String}
    (hbefore : ∀ l ∈ before, ¬ keys <+: l.1) (hafter : ∀ l ∈ after, ¬ keys <+: l.1)
    (ls : List (List String × Leaf)) (below : List String) :
    (before ++ ls.map (under keys) ++ after).filter (·.1 != keys ++ below) =
      before ++ (ls.filter (·.1 != below)).map (under keys) ++ after := by
  have elsewhere {others : List (List String × Leaf)} (h : ∀ l ∈ others, ¬ keys <+: l.1) :
      others.filter (·.1 != keys ++ below) = others := by
    refine List.filter_eq_self.mpr fun l hl => bne_iff_ne.mpr fun he => h l hl ?_
    rw [he]
    exact List.prefix_append keys below
  have there : (ls.map (under keys)).filter (·.1 != keys ++ below) =
      (ls.filter (·.1 != below)).map (under keys) := by
    rw [List.filter_map]
    refine congrArg _ (List.filter_congr fun l _ => ?_)
    rw [Bool.eq_iff_iff]
    simp [under]
  rw [List.filter_append, List.filter_append, elsewhere hbefore, elsewhere hafter, there]

/-- A repair takes out the leaf that it mends, and no other leaf. -/
theorem leavesOf_apply {s : Shape} {v : Value} {l : List String × Leaf} {repair : Repair}
    (hs : s.WellFormed) (hl : l ∈ leavesOf (finding false s v)) (h : repair.Fixes s l) :
    leavesOf (finding false s (repair.apply v)) =
      (leavesOf (finding false s v)).filter (·.1 != l.1) := by
  cases h with
  | @replace keys l t x hwrong ht hx =>
    rcases mem_leavesOf_finding_iff.mp hl with ⟨t', w, hreach, hobjection⟩ |
      ⟨-, _, _, _, _, _, _, -, -, -, -, -, rfl⟩
    · obtain ⟨u, before, after, hu, rfl, hfound, hchanged, hbefore, hafter⟩ :=
        hreach.exists_split hs
      -- the shape declared at the leaf is the one that the repair was made for
      cases ht.symm.trans hu
      have hthere : finding false t w = some (.leaf l) := by
        rw [← finding_strip, finding_of_objection? hobjection]
      have hmended : finding false t x = none := conforms_iff.mp hx
      have htaken := filter_split hbefore hafter (leavesOf (finding false t w)) []
      rw [List.append_nil] at htaken
      rw [Repair.apply, hchanged, hfound, htaken, hmended, hthere]
      rfl
    · cases hwrong
  | delete above key =>
    rcases mem_leavesOf_finding_iff.mp hl with ⟨t, w, -, hobjection⟩ |
      ⟨-, above', key', pattern, w, fields, -, hkeys, hreach, hfields, -, hundeclared, -⟩
    · cases isUnexpected_of_objection? hobjection
    · obtain ⟨rfl, hlast⟩ := List.append_inj' hkeys rfl
      cases hlast
      obtain ⟨u, before, after, -, hstrip, hfound, hchanged, hbefore, hafter⟩ :=
        hreach.exists_split hs
      have hthere : finding false u w = finding false (object pattern) w := by
        rw [← finding_strip, hstrip]
      have herased : finding false u (w.erase key) =
          finding false (object pattern) (w.erase key) := by
        rw [← finding_strip, strip_erase, hstrip]
      rw [Repair.apply, hchanged, hfound, filter_split hbefore hafter, herased, hthere,
        leavesOf_finding_erase hfields hundeclared]

/-! ## All places -/

/-- Repairs take out the leaves that they mend, and no others. -/
theorem leavesOf_repair {s : Shape} {v : Value} {fixed : List (List String × Leaf)}
    {repairs : List Repair} (hs : s.WellFormed) (hfixed : fixed ⊆ leavesOf (finding false s v))
    (hnodup : (fixed.map Prod.fst).Nodup)
    (h : List.Forall₂ (fun l repair => repair.Fixes s l) fixed repairs) :
    leavesOf (finding false s (v.repair repairs)) =
      (leavesOf (finding false s v)).filter (·.1 ∉ fixed.map Prod.fst) := by
  induction h generalizing v with
  | nil => simp [Value.repair]
  | @cons l repair fixed repairs hfix _ ih =>
    rw [List.cons_subset] at hfixed
    rw [List.map_cons, List.nodup_cons] at hnodup
    have hstep := leavesOf_apply hs hfixed.1 hfix
    -- the other leaves to mend are still there, since their keys differ from those of the first
    have hrest : fixed ⊆ leavesOf (finding false s (repair.apply v)) := by
      intro l' hl'
      rw [hstep, List.mem_filter, bne_iff_ne]
      refine ⟨hfixed.2 hl', fun he => hnodup.1 ?_⟩
      rw [← he]
      exact List.mem_map_of_mem hl'
    have hrun := ih hrest hnodup.2
    show leavesOf (finding false s ((repair.apply v).repair repairs)) = _
    rw [hrun, hstep, List.filter_filter]
    refine List.filter_congr fun l' _ => ?_
    rw [Bool.eq_iff_iff]
    simp [and_comm]

/-- **The repair law.** Let repairs mend some leaves of the strict report, no two with the same
keys: a value that conforms to the declared shape replaces a wrong one, and an undeclared key is
taken out. Then the report on the mended value has the other leaves, with their keys and contents
and in their order; so the value conforms exactly when every leaf was mended. Every wrong value
has a declared shape at its keys, and what conforms to the shape that rejects it there conforms to
the declared one. -/
theorem report_repair {s : Shape} {v : Value} {fixed : List (List String × Leaf)}
    {repairs : List Repair} (hs : s.WellFormed) (hfixed : fixed ⊆ leavesOf (s.report v))
    (hnodup : (fixed.map Prod.fst).Nodup)
    (hrepairs : List.Forall₂ (fun l repair => repair.Fixes s l) fixed repairs) :
    leavesOf (s.report (v.repair repairs)) =
        (leavesOf (s.report v)).filter (·.1 ∉ fixed.map Prod.fst) ∧
      (s.conforms (v.repair repairs) = true ↔
        ∀ l ∈ leavesOf (s.report v), l.1 ∈ fixed.map Prod.fst) ∧
      ∀ keys l, (keys, l) ∈ leavesOf (s.report v) → l.isUnexpected = false →
        ∃ t w, s.subshape? keys = some t ∧ Reaches s v keys (t.strip w) w ∧
          ∀ x, (t.strip w).conforms x = true → t.conforms x = true := by
  rw [report_eq_finding] at hfixed
  rw [report_eq_finding, report_eq_finding]
  have hleft := leavesOf_repair hs hfixed hnodup hrepairs
  refine ⟨hleft, ?_, fun keys l hl hwrong => ?_⟩
  · rw [conforms_iff, ← leavesOf_finding_eq_nil_iff, hleft, List.filter_eq_nil_iff]
    simp
  · rcases mem_leavesOf_finding_iff.mp hl with ⟨t, w, hreach, -⟩ |
      ⟨-, _, _, _, _, _, _, -, -, -, -, -, rfl⟩
    · obtain ⟨u, -, -, hu, rfl, -⟩ := hreach.exists_split hs
      exact ⟨u, w, hu, hreach, fun x => conforms_of_conforms_strip⟩
    · cases hwrong

/-- An element, an absent key and an undeclared key are mended, in an order that is not the one of
the report, and one absent key is left. -/
theorem report_repair_record :
    let s := object [("id", marker .number), ("tags", wrapped .optional (array (marker .string))),
      ("name", marker .string)]
    let v := Value.object [("tags", .array [.string "a", .null]), ("more", .bool true)]
    let fixed := [(["tags", "1"], Leaf.wrongKind .null "String"),
      (["more"], .undeclared (.bool true)), (["id"], .wrongKind .undefined "Number")]
    let repairs : List Repair := [.replace ["tags", "1"] (.string "b"), .delete [] "more",
      .replace ["id"] (.number ⟨0⟩)]
    (s.WellFormed ∧ fixed ⊆ leavesOf (s.report v) ∧ (fixed.map Prod.fst).Nodup ∧
        List.Forall₂ (fun l repair => repair.Fixes s l) fixed repairs) ∧
      leavesOf (s.report (v.repair repairs)) = [(["name"], .wrongKind .undefined "String")] ∧
      s.conforms (v.repair repairs) = false := by
  intro s v fixed repairs
  have hs : s.WellFormed := by simp [s, WellFormed, Record.Distinct, Record.keys]
  have hleaves : leavesOf (s.report v) =
      [(["more"], .undeclared (.bool true)), (["id"], .wrongKind .undefined "Number"),
        (["tags", "1"], .wrongKind .null "String"), (["name"], .wrongKind .undefined "String")] :=
    rfl
  have hfixed : fixed ⊆ leavesOf (s.report v) := by simp [fixed, hleaves]
  have hnodup : (fixed.map Prod.fst).Nodup := by simp [fixed]
  have hrepairs : List.Forall₂ (fun l repair => repair.Fixes s l) fixed repairs :=
    .cons (.replace rfl rfl rfl) (.cons (.delete [] "more") (.cons (.replace rfl rfl rfl) .nil))
  obtain ⟨hleft, hconforms, -⟩ := report_repair hs hfixed hnodup hrepairs
  refine ⟨⟨hs, hfixed, hnodup, hrepairs⟩, ?_, ?_⟩
  · rw [hleft, hleaves]
    rfl
  · rw [← Bool.not_eq_true, hconforms, hleaves]
    decide

end Shape

end Conformance
