import Conformance.Assertion
import Conformance.Proofs.Decodability
import Conformance.Proofs.DepthLimit
import Mathlib.Data.List.TakeWhile

/-!
# Dotted paths

Keys are printed with points between them in two places: a leaf is listed under its keys, and a
refused step names the keys that it would have opened. Both put no point behind an empty text
rather than at the root, and an empty text is also what empty keys print as. So the listing loses
every empty key in front, a refusal loses a single one, and a leaf below nothing but empty keys is
listed as the root. Where the first key is not empty both print all keys, joined by points.

Results:
* `Report.dotted_eq_intercalate`: the listed text; that of a refusal is `DepthExceeded.path_mk`.
* `Report.mem_leaves_iff_at?`: the leaves are what following keys leads to.
* `Report.getElem?_paths`: under which text a leaf is listed.
* `Guard.exists_refused`: a guard that has entered as many keys as it may.
* `printed_paths_iff`: when each text is the joined keys, and when the two agree.
* `Shape.rootPath_iff`: which reports list a leaf as the root.
-/

namespace Conformance

/-! ## Joined keys -/

/-- Empty keys in front only make the joined text longer. -/
theorem length_intercalate_dropWhile_le (keys : List String) :
    (".".intercalate (keys.dropWhile (· = ""))).length ≤ (".".intercalate keys).length := by
  induction keys with
  | nil => exact Nat.le_refl _
  | cons key rest ih =>
    by_cases hkey : key = ""
    · rw [List.dropWhile_cons_of_pos (by simpa using hkey)]
      cases rest with
      | nil => simp
      | cons next rest =>
        rw [String.intercalate_cons_cons, String.length_append]
        omega
    · exact Nat.le_of_eq (by rw [List.dropWhile_cons_of_neg (by simpa using hkey)])

/-- An empty key in front of others is a point of the joined text. -/
theorem intercalate_dropWhile_eq_iff {keys : List String} :
    ".".intercalate (keys.dropWhile (· = "")) = ".".intercalate keys ↔
      keys.head? ≠ some "" ∨ keys = [""] := by
  match keys with
  | [] => simp
  | [key] => by_cases hkey : key = "" <;> simp [hkey]
  | key :: next :: rest =>
    by_cases hkey : key = ""
    · subst hkey
      have hle := length_intercalate_dropWhile_le (next :: rest)
      have hpoint : (".".intercalate ("" :: next :: rest)).length =
          1 + (".".intercalate (next :: rest)).length := by
        rw [String.intercalate_cons_cons, String.length_append]
        rfl
      rw [List.dropWhile_cons_of_pos (by simp)]
      refine iff_of_false (fun heq => ?_) (by simp)
      rw [heq] at hle
      omega
    · rw [List.dropWhile_cons_of_neg (by simpa using hkey)]
      simp [hkey]

/-! ## The text of a leaf -/

namespace Report

/-- Behind a text that is not empty every key has a point in front. -/
theorem foldl_dotted_of_ne_empty {path : String} (h : path ≠ "") (keys : List String) :
    keys.foldl (fun path key => if path.isEmpty then key else path ++ "." ++ key) path =
      ".".intercalate (path :: keys) := by
  induction keys generalizing path with
  | nil => exact String.intercalate_singleton.symm
  | cons key rest ih =>
    have hpath : path.isEmpty = false := by simpa using h
    have hnext : path ++ "." ++ key ≠ "" := by simp
    rw [List.foldl_cons, hpath, if_neg Bool.false_ne_true, ih hnext,
      String.intercalate_cons_append, String.intercalate_cons_cons]

/-- The listing joins the keys behind the empty ones in front. -/
theorem dotted_eq_intercalate (keys : List String) :
    dotted keys = ".".intercalate (keys.dropWhile (· = "")) := by
  induction keys with
  | nil => rfl
  | cons key rest ih =>
    by_cases hkey : key = ""
    · subst hkey
      rw [List.dropWhile_cons_of_pos (by simp)]
      exact ih
    · rw [List.dropWhile_cons_of_neg (by simpa using hkey)]
      exact foldl_dotted_of_ne_empty hkey rest

theorem dotted_eq_empty_iff {keys : List String} : dotted keys = "" ↔ ∀ key ∈ keys, key = "" := by
  have hfront : keys.dropWhile (· = "") ≠ [""] := by
    intro h
    have hhead := List.head?_dropWhile_not (fun key : String => decide (key = "")) keys
    rw [h] at hhead
    simp at hhead
  rw [dotted_eq_intercalate, intercalate_eq_empty_iff, or_iff_left hfront]
  simp [List.dropWhile_eq_nil_iff]

/-! ## Leaves and the keys that lead to them -/

theorem mem_leaves_of_at? {keys : List String} {l : Leaf} :
    ∀ {r : Report}, r.at? keys = some (leaf l) → (keys, l) ∈ r.leaves := by
  induction keys with
  | nil =>
    rintro r ⟨⟩
    exact List.mem_singleton_self _
  | cons key keys ih =>
    intro r h
    cases r with
    | leaf k => cases h
    | nested children =>
      rw [at?_nested_cons, Option.bind_eq_some_iff] at h
      obtain ⟨child, hchild, hat⟩ := h
      exact cons_mem_leavesOfChildren_iff.mpr ⟨child, Record.mem_of_get? hchild, ih hat⟩

/-- The leaves are what following keys from the root leads to. -/
theorem mem_leaves_iff_at? {r : Report} (h : r.WellFormed) {keys : List String} {l : Leaf} :
    (keys, l) ∈ r.leaves ↔ r.at? keys = some (leaf l) :=
  ⟨at?_of_mem_leaves h, mem_leaves_of_at?⟩

theorem getElem?_paths (r : Report) (i : Nat) :
    r.paths[i]? = r.leaves[i]?.map fun l => (dotted l.1, l.2) := List.getElem?_map

theorem mem_paths_iff {r : Report} {path : String} {l : Leaf} :
    (path, l) ∈ r.paths ↔ ∃ keys, (keys, l) ∈ r.leaves ∧ dotted keys = path := by
  simp [paths]

end Report

/-! ## The text of a refusal -/

/-- A guard that has entered as many keys as it may refuses the next one. -/
theorem Guard.exists_refused (above : List String) (key : String) :
    ∃ g, above.foldlM enter (ofLimit (some above.length)) = .ok g ∧
      g.enter key = .error ⟨above.length, above, key⟩ := by
  have hroom : (ofLimit (some above.length)).refusal? above = none :=
    (refusal?_eq_none_iff rfl (Nat.zero_le _)).mpr (Nat.le_of_eq (Nat.zero_add _))
  have hrefusal : (ofLimit (some above.length)).refusal? (above ++ [key]) =
      some ⟨above.length, above, key⟩ := by
    rw [refusal?_eq rfl (Nat.zero_le _)]
    simp [ofLimit]
  have hway := foldlM_enter_of_refusal? hrefusal
  simp only [List.foldlM_append, List.foldlM_cons, List.foldlM_nil, bind_pure] at hway
  cases hg : above.foldlM enter (ofLimit (some above.length)) with
  | error e =>
    rw [refusal?, hg] at hroom
    cases hroom
  | ok g =>
    rw [hg] at hway
    exact ⟨g, rfl, hway⟩

/-! ## Both texts -/

/-- The listing joins all keys unless the first of several is empty. -/
theorem dotted_append_eq_intercalate_iff {above : List String} {key : String} :
    Report.dotted (above ++ [key]) = ".".intercalate (above ++ [key]) ↔
      above.head? ≠ some "" := by
  rw [Report.dotted_eq_intercalate, intercalate_dropWhile_eq_iff]
  cases above with
  | nil => by_cases hkey : key = "" <;> simp [hkey]
  | cons first rest => simp

/-- A refusal joins all keys unless the first of just two is empty. -/
theorem path_eq_intercalate_iff {limit : Nat} {above : List String} {key : String} :
    (DepthExceeded.mk limit above key).path = ".".intercalate (above ++ [key]) ↔
      above ≠ [""] := by
  rw [DepthExceeded.path_mk]
  split_ifs with habove
  · subst habove
    have hlength : ("" ++ "." ++ key).length = 1 + key.length := String.length_append _ _
    refine iff_of_false (fun heq => ?_) (by simp)
    rw [List.singleton_append, String.intercalate_cons_cons, String.intercalate_singleton] at heq
    rw [← heq] at hlength
    omega
  · simp [habove]

/-- Below a single empty key both print the key alone. -/
theorem dotted_append_eq_path_iff {limit : Nat} {above : List String} {key : String} :
    Report.dotted (above ++ [key]) = (DepthExceeded.mk limit above key).path ↔
      above.head? ≠ some "" ∨ above = [""] := by
  by_cases habove : above = [""]
  · subst habove
    simp [DepthExceeded.path_mk, Report.dotted]
  · rw [path_eq_intercalate_iff.mpr habove, dotted_append_eq_intercalate_iff,
      or_iff_left habove]

/-- **What printed paths say.** The leaf at the keys `above ++ [key]` is listed under their joined
text without the empty keys in front, which is the joined text exactly when the first of several
keys is not empty. A guard that has entered `above` and may enter no more refuses `key`, and names
the joined text exactly when the first of just two keys is not empty. So the two print the same
exactly when the first key is not empty or there are no more than two. -/
theorem printed_paths_iff (above : List String) (key : String) :
    (∀ (r : Report) (l : Leaf), r.at? (above ++ [key]) = some (.leaf l) → ∃ i : Nat,
        r.leaves[i]? = some (above ++ [key], l) ∧
          r.paths[i]? = some (Report.dotted (above ++ [key]), l)) ∧
      Report.dotted (above ++ [key]) = ".".intercalate ((above ++ [key]).dropWhile (· = "")) ∧
      (Report.dotted (above ++ [key]) = ".".intercalate (above ++ [key]) ↔
        above.head? ≠ some "") ∧
      ∃ g e, above.foldlM Guard.enter (Guard.ofLimit (some above.length)) = .ok g ∧
        g.enter key = .error e ∧ e.limit = above.length ∧
        (e.path = ".".intercalate (above ++ [key]) ↔ above ≠ [""]) ∧
        (Report.dotted (above ++ [key]) = e.path ↔ above.head? ≠ some "" ∨ above = [""]) := by
  refine ⟨fun r l hat => ?_, Report.dotted_eq_intercalate _, dotted_append_eq_intercalate_iff, ?_⟩
  · obtain ⟨i, hi⟩ := List.mem_iff_getElem?.mp (Report.mem_leaves_of_at? hat)
    exact ⟨i, hi, by rw [Report.getElem?_paths, hi, Option.map_some]⟩
  · obtain ⟨g, hg, he⟩ := Guard.exists_refused above key
    exact ⟨g, _, hg, he, rfl, path_eq_intercalate_iff, dotted_append_eq_path_iff⟩

/-- Two empty keys in front of a third key: the listing loses both, the refusal neither. -/
theorem printed_paths_iff_emptyFront :
    ∃ r l, r = Report.nested [("", .nested [("", .nested [("x", .leaf l)])])] ∧
      r.at? ["", "", "x"] = some (.leaf l) ∧ (∃ i : Nat, r.paths[i]? = some ("x", l)) ∧
      ∃ g e, ["", ""].foldlM Guard.enter (Guard.ofLimit (some 2)) = .ok g ∧
        g.enter "x" = .error e ∧ e.path = "..x" ∧ Report.dotted ["", "", "x"] ≠ e.path := by
  obtain ⟨hlisted, -, -, g, e, hg, he, -, hpath, hagree⟩ := printed_paths_iff ["", ""] "x"
  obtain ⟨i, -, hi⟩ := hlisted
    (.nested [("", .nested [("", .nested [("x", .leaf (.undeclared .null))])])]) _ rfl
  refine ⟨_, _, rfl, rfl, ⟨i, hi⟩, g, e, hg, he, hpath.mpr (by simp), fun heq => ?_⟩
  have hfront := hagree.mp heq
  simp at hfront

/-- The report on a record below two empty keys lists another text than the refusal there, and not
the joined keys. -/
theorem listed_path_ne_refused_path :
    ∃ r e l, (Shape.object [("", .object [("", .object [("x", .marker .number)])])]).reportWith
        (.object [("", .object [("", .object [("x", .string "1")])])]) ⟨false, none⟩ =
          .ok (some r) ∧
      (Shape.object [("", .object [("", .object [("x", .marker .number)])])]).reportWith
        (.object [("", .object [("", .object [("x", .string "1")])])]) ⟨false, some 2⟩ =
          .error e ∧
      r.at? ["", "", "x"] = some (.leaf l) ∧ e.opened ++ [e.key] = ["", "", "x"] ∧
      ".".intercalate ["", "", "x"] = "..x" ∧ e.path = "..x" ∧ r.paths = [("x", l)] := by
  exact ⟨_, _, _, rfl, rfl, rfl, rfl, rfl, rfl, rfl⟩

/-! ## Leaves that are listed as the root -/

/-- A leaf is listed with the empty path when all its keys are empty. -/
theorem Report.exists_rootPath_iff {r : Report} (h : r.WellFormed) :
    (∃ l, ("", l) ∈ r.paths) ↔
      r.isLeaf = true ∨ ∃ n l, r.at? (List.replicate (n + 1) "") = some (leaf l) := by
  have hkeys : (∃ l, ("", l) ∈ r.paths) ↔ ∃ n l, r.at? (List.replicate n "") = some (leaf l) := by
    simp only [mem_paths_iff, mem_leaves_iff_at? h, dotted_eq_empty_iff]
    constructor
    · rintro ⟨l, keys, hat, hempty⟩
      rw [List.eq_replicate_of_mem hempty] at hat
      exact ⟨_, l, hat⟩
    · rintro ⟨n, l, hat⟩
      exact ⟨l, _, hat, fun key hkey => List.eq_of_mem_replicate hkey⟩
  have hroot : (∃ l, r.at? [] = some (leaf l)) ↔ r.isLeaf = true := by
    cases r <;> simp [at?, isLeaf]
  rw [hkeys, ← hroot]
  constructor
  · rintro ⟨_ | n, l, hat⟩
    · exact .inl ⟨l, hat⟩
    · exact .inr ⟨n, l, hat⟩
  · rintro (⟨l, hat⟩ | ⟨n, l, hat⟩)
    · exact ⟨0, l, hat⟩
    · exact ⟨n + 1, l, hat⟩

/-- Every entry of the paths has its line in the listing. -/
theorem Report.exists_listing_eq {r : Report} {path : String} {l : Leaf} (h : (path, l) ∈ r.paths)
    (color : Bool) :
    ∃ before after, r.listing color = before ++ (line color path l ++ "\n") ++ after := by
  obtain ⟨front, back, hpaths⟩ := List.append_of_mem h
  refine ⟨String.join (front.map fun p => line color p.1 p.2 ++ "\n"),
    String.join (back.map fun p => line color p.1 p.2 ++ "\n"), ?_⟩
  rw [listing, hpaths, List.map_append, List.map_cons, String.join_append, String.join_cons,
    ← String.append_assoc]

namespace Shape

/-- **Which leaves are listed as the root.** A report lists a leaf with the empty path exactly when
it is a leaf itself or has a leaf below nothing but empty keys, and then prints it as the root. So
where nothing stands under an empty key of the root, only a root leaf is listed as the root. -/
theorem rootPath_iff {s : Shape} {v : Value} {o : Options} {r : Report} (hs : s.WellFormed)
    (hv : v.WellFormed) (h : s.reportWith v o = .ok (some r)) :
    ((∃ l, ("", l) ∈ r.paths) ↔
        r.isLeaf = true ∨ ∃ n l, r.at? (List.replicate (n + 1) "") = some (.leaf l)) ∧
      (r.get? "" = none → ((∃ l, ("", l) ∈ r.paths) ↔ r.isLeaf = true)) ∧
      ∀ l, ("", l) ∈ r.paths →
        ∃ before after, r.listing false = before ++ ("<root>: " ++ l.text ++ "\n") ++ after := by
  have hr : r.WellFormed := wellFormed_of_mem_finding hs hv r (reportWith_ok_iff.mp h).2
  have hroot := Report.exists_rootPath_iff hr
  refine ⟨hroot, fun hnone => ?_, fun l hl => Report.exists_listing_eq hl false⟩
  rw [hroot]
  refine or_iff_left ?_
  rintro ⟨n, l, hat⟩
  rw [List.replicate_succ, Report.at?, hnone] at hat
  cases hat

/-- A declared key below an empty one, both empty. -/
theorem rootPath_iff_emptyKeys :
    (object [("", object [("", marker .number)])]).WellFormed ∧
      (Value.object [("", .object [("", .null)])]).WellFormed ∧
      ∃ r, (object [("", object [("", marker .number)])]).reportWith
          (.object [("", .object [("", .null)])]) ⟨true, none⟩ = .ok (some r) ∧
        r.isLeaf = false ∧ r.at? ["", ""] = some (.leaf (.wrongKind .null "Number")) ∧
        ∃ l, ("", l) ∈ r.paths := by
  have hs : (object [("", object [("", marker .number)])]).WellFormed := by
    simp [WellFormed, Record.Distinct, Record.keys]
  have hv : (Value.object [("", .object [("", .null)])]).WellFormed := by
    simp [Value.WellFormed, Record.Distinct, Record.keys]
  have hreport := reportWith_unlimited (object [("", object [("", marker .number)])])
    (.object [("", .object [("", .null)])]) true
  exact ⟨hs, hv, _, hreport, rfl, rfl, (rootPath_iff hs hv hreport).1.mpr (.inr ⟨1, _, rfl⟩)⟩

/-- An undeclared empty key is listed as the root, and the report is no leaf. -/
theorem emptyKey_listed_as_root :
    ∃ r, (object []).reportWith (.object [("", .null)]) ⟨false, none⟩ = .ok (some r) ∧
      ("", .undeclared .null) ∈ r.paths ∧ r.isLeaf = false ∧
      r.listing false = "<root>: unexpected Null (null)\n" :=
  ⟨.nested [("", .leaf (.undeclared .null))], rfl, List.mem_singleton_self _, rfl,
    by decide +kernel⟩

end Shape

end Conformance
