import Conformance.Proofs.DottedPaths

/-!
# Paths that can be followed back

Where no key is empty or holds a point, a listed path says which leaf it stands for: split at its
points it gives the keys back, and following these from the root leads to the leaf. So no path is
listed twice, every leaf is listed, and the leaves come in the order in which their keys part: a
leaf in an earlier child of a node comes before a leaf in a later one.

Results:
* `segments`: the keys that a path names; `intercalate_segments`, `segments_dotted`.
* `Report.Segmented`: no key of the report is empty or holds a point.
* `Report.Precedes`: one key sequence parts from another into an earlier child.
* `Report.pairwise_precedes_leaves`: the leaves are in that order.
* `Report.paths_followed`: what the listed paths of such a report are.
-/

namespace Conformance

/-! ## Keys that a path names -/

/-- The keys that a dotted path names: none for the empty path, otherwise what stands between its
points. -/
def segments (path : String) : List String :=
  if path.isEmpty then [] else (path.toList.splitOn '.').map String.ofList

/-- A key that stands in a path as one segment. -/
def IsSegment (key : String) : Prop := key ≠ "" ∧ '.' ∉ key.toList

/-- The keys that a path names, joined by points, are the path. -/
theorem intercalate_segments (path : String) : ".".intercalate (segments path) = path := by
  rw [segments]
  split_ifs with hempty
  · rw [String.isEmpty_iff.mp hempty, String.intercalate_nil]
  · apply String.toList_injective
    have hsplit : ['.'].intercalate (path.toList.splitOn '.') = path.toList :=
      List.intercalate_splitOn '.'
    rw [String.toList_intercalate, List.map_map]
    simp [Function.comp_def, hsplit]

theorem segments_intercalate {keys : List String} (h : ∀ key ∈ keys, IsSegment key) :
    segments (".".intercalate keys) = keys := by
  rcases eq_or_ne keys [] with rfl | hne
  · rfl
  · have hempty : (".".intercalate keys).isEmpty ≠ true := by
      rw [ne_eq, String.isEmpty_iff, intercalate_eq_empty_iff]
      rintro (rfl | rfl)
      · exact hne rfl
      · exact (h "" (List.mem_singleton_self _)).1 rfl
    have hpoints : ∀ cs ∈ keys.map String.toList, '.' ∉ cs :=
      List.forall_mem_map.mpr fun key hkey => (h key hkey).2
    have hpoint : ".".toList = ['.'] := rfl
    rw [segments, if_neg hempty, String.toList_intercalate, hpoint,
      List.splitOn_intercalate '.' hpoints (by simpa using hne), List.map_map]
    simp [Function.comp_def]

/-- Where no key is empty, a listing joins all keys. -/
theorem dotted_eq_of_isSegment {keys : List String} (h : ∀ key ∈ keys, IsSegment key) :
    Report.dotted keys = ".".intercalate keys := by
  rw [Report.dotted_eq_intercalate, intercalate_dropWhile_eq_iff]
  refine .inl fun hhead => ?_
  exact (h "" (List.mem_of_head? hhead)).1 rfl

theorem segments_dotted {keys : List String} (h : ∀ key ∈ keys, IsSegment key) :
    segments (Report.dotted keys) = keys := by
  rw [dotted_eq_of_isSegment h, segments_intercalate h]

namespace Report

/-- No key of the report is empty or holds a point. -/
def Segmented : Report → Prop
  | leaf _ => True
  | nested children => ∀ c ∈ children, IsSegment c.1 ∧ c.2.Segmented
decreasing_by
  have := Record.sizeOf_snd_lt_of_mem ‹c ∈ children›
  simp only [nested.sizeOf_spec]
  omega

theorem isSegment_of_mem_leaves {keys : List String} {l : Leaf} :
    ∀ {r : Report}, r.Segmented → (keys, l) ∈ r.leaves → ∀ key ∈ keys, IsSegment key := by
  induction keys with
  | nil => exact fun _ _ => nofun
  | cons key keys ih =>
    intro r hr hl
    cases r with
    | leaf k => cases List.mem_singleton.mp hl
    | nested children =>
      rw [Segmented] at hr
      obtain ⟨child, hchild, hmem⟩ := cons_mem_leavesOfChildren_iff.mp hl
      exact List.forall_mem_cons.mpr ⟨(hr _ hchild).1, ih (hr _ hchild).2 hmem⟩

/-! ## The order of the leaves -/

/-- At some node the two key sequences part, the first into a child that stands before that of the
second. -/
def Precedes (r : Report) (keys keys' : List String) : Prop :=
  ∃ above children a b, r.at? above = some (nested children) ∧
    [a, b].Sublist (Record.keys children) ∧ above ++ [a] <+: keys ∧ above ++ [b] <+: keys'

theorem Precedes.under {children : List (String × Report)} {key : String} {child : Report}
    (h : Record.get? children key = some child) {keys keys' : List String}
    (hp : child.Precedes keys keys') : (nested children).Precedes (key :: keys) (key :: keys') := by
  obtain ⟨above, siblings, a, b, hat, horder, hkeys, hkeys'⟩ := hp
  refine ⟨key :: above, siblings, a, b, ?_, horder, ?_, ?_⟩
  · rw [at?_nested_cons, h]
    exact hat
  · exact List.cons_prefix_cons.mpr ⟨rfl, hkeys⟩
  · exact List.cons_prefix_cons.mpr ⟨rfl, hkeys'⟩

theorem precedes_of_sublist {children : List (String × Report)} {a b : String}
    (h : [a, b].Sublist (Record.keys children)) (keys keys' : List String) :
    (nested children).Precedes (a :: keys) (b :: keys') :=
  ⟨[], children, a, b, rfl, h, ⟨keys, rfl⟩, ⟨keys', rfl⟩⟩

theorem leavesOfChildren_eq_flatMap (children : List (String × Report)) :
    leavesOfChildren children =
      children.flatMap fun c => c.2.leaves.map fun l => (c.1 :: l.1, l.2) := by
  induction children with
  | nil => rfl
  | cons c rest ih =>
    obtain ⟨key, child⟩ := c
    rw [leavesOfChildren, List.flatMap_cons, ih]

/-- The leaves come in the order in which their keys part. -/
theorem pairwise_precedes_leaves {r : Report} (h : r.WellFormed) :
    r.leaves.Pairwise fun x y => r.Precedes x.1 y.1 := by
  induction r with
  | leaf l => exact List.pairwise_singleton _ _
  | nested children ih =>
    rw [WellFormed] at h
    rw [leaves, leavesOfChildren_eq_flatMap, List.pairwise_flatMap]
    refine ⟨fun c hc => ?_, List.pairwise_iff_forall_sublist.mpr fun horder x hx y hy => ?_⟩
    · -- within one child the order is that of the child
      have hchild : Record.get? children c.1 = some c.2 := (Record.get?_eq_some_iff h.1).mpr hc
      exact List.pairwise_map.mpr ((ih c hc (h.2 c hc)).imp fun hp => hp.under hchild)
    · -- leaves in two children part at this node
      obtain ⟨x, -, rfl⟩ := List.mem_map.mp hx
      obtain ⟨y, -, rfl⟩ := List.mem_map.mp hy
      exact precedes_of_sublist (horder.map Prod.fst) x.1 y.1

/-! ## Listed paths -/

section Followed

variable {r : Report} (hr : r.WellFormed) (hs : r.Segmented)

include hr hs

/-- Listed paths are distinct, as the keys of leaves are and can be read off them. -/
theorem nodup_paths : (r.paths.map Prod.fst).Nodup := by
  have hpaths : r.paths.map Prod.fst = (r.leaves.map Prod.fst).map dotted := by
    rw [paths, List.map_map, List.map_map]
    rfl
  have hback : ∀ keys ∈ r.leaves.map Prod.fst, segments (dotted keys) = keys := by
    refine List.forall_mem_map.mpr fun l hl => ?_
    exact segments_dotted (isSegment_of_mem_leaves hs hl)
  rw [hpaths]
  refine (nodup_keys_leaves hr).map_on fun keys hkeys keys' hkeys' heq => ?_
  rw [← hback keys hkeys, ← hback keys' hkeys', heq]

/-- Following the keys that a path names leads to the leaf listed with it, and to no other. -/
theorem mem_paths_iff_at? {path : String} {l : Leaf} :
    (path, l) ∈ r.paths ↔ r.at? (segments path) = some (leaf l) := by
  rw [mem_paths_iff]
  constructor
  · rintro ⟨keys, hl, rfl⟩
    rw [segments_dotted (isSegment_of_mem_leaves hs hl)]
    exact (mem_leaves_iff_at? hr).mp hl
  · intro hat
    have hl := mem_leaves_of_at? hat
    refine ⟨segments path, hl, ?_⟩
    rw [dotted_eq_of_isSegment (isSegment_of_mem_leaves hs hl), intercalate_segments]

/-- A leaf that keys lead to is listed once, under the keys joined by points. -/
theorem existsUnique_getElem?_paths {keys : List String} {l : Leaf}
    (h : r.at? keys = some (leaf l)) :
    ∃! i : Nat, r.paths[i]? = some (".".intercalate keys, l) := by
  have hkeys := isSegment_of_mem_leaves hs (mem_leaves_of_at? h)
  have hmem : (".".intercalate keys, l) ∈ r.paths :=
    (mem_paths_iff_at? hr hs).mpr (by rwa [segments_intercalate hkeys])
  obtain ⟨i, hi⟩ := List.mem_iff_getElem?.mp hmem
  refine ⟨i, hi, fun j hj => ?_⟩
  have hlt : j < r.paths.length := (List.getElem?_eq_some_iff.mp hj).1
  exact (List.getElem?_inj hlt (nodup_paths hr hs).of_map).mp (hj.trans hi.symm)

theorem pairwise_precedes_paths :
    r.paths.Pairwise fun p q => r.Precedes (segments p.1) (segments q.1) := by
  rw [paths, List.pairwise_map]
  refine (pairwise_precedes_leaves hr).imp_of_mem fun hx hy hp => ?_
  rw [segments_dotted (isSegment_of_mem_leaves hs hx),
    segments_dotted (isSegment_of_mem_leaves hs hy)]
  exact hp

/-- **Paths can be followed back.** In a report whose keys are not empty and hold no point, no path
is listed twice; splitting a listed path and following its keys leads to the leaf listed with it,
and so does no other path; every leaf that keys lead to is listed once, in the order in which keys
part; and there are as many paths as leaves. -/
theorem paths_followed :
    (r.paths.map Prod.fst).Nodup ∧
      (∀ path l, (path, l) ∈ r.paths ↔ r.at? (segments path) = some (leaf l)) ∧
      (∀ keys l, r.at? keys = some (leaf l) →
        ∃! i : Nat, r.paths[i]? = some (".".intercalate keys, l)) ∧
      (r.paths.Pairwise fun p q => r.Precedes (segments p.1) (segments q.1)) ∧
      r.paths.length = r.leafCount := by
  refine ⟨nodup_paths hr hs, fun _ _ => mem_paths_iff_at? hr hs,
    fun _ _ => existsUnique_getElem?_paths hr hs, pairwise_precedes_paths hr hs,
    r.length_paths⟩

end Followed

/-- A leaf two keys down beside an empty node, and a leaf behind both. -/
theorem paths_followed_emptyNode :
    let r := nested [("a", nested [("0", leaf (.undeclared .null)), ("b", nested [])]),
      ("c", leaf (.wrongKind .null "Number"))]
    r.WellFormed ∧ r.Segmented ∧ ("a.0", .undeclared .null) ∈ r.paths ∧
      r.at? (segments "a.0") = some (leaf (.undeclared .null)) ∧
      (∃! i : Nat, r.paths[i]? = some ("c", .wrongKind .null "Number")) ∧
      (r.paths.map Prod.fst).Nodup ∧ r.paths.length = 2 := by
  intro r
  have hr : r.WellFormed := by simp [r, WellFormed, Record.Distinct, Record.keys]
  have hs : r.Segmented := by simp [r, Segmented, IsSegment]
  obtain ⟨hnodup, hfollow, honce, -, hlength⟩ := paths_followed hr hs
  have hlisted : ("a.0", .undeclared .null) ∈ r.paths := List.mem_cons_self
  exact ⟨hr, hs, hlisted, (hfollow _ _).mp hlisted, honce ["c"] _ rfl, hnodup, hlength⟩

end Report

end Conformance
