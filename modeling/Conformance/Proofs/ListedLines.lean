import Conformance.Proofs.AssertionMessage
import Conformance.Proofs.CompactText
import Mathlib.Algebra.Order.BigOperators.Group.List
import Mathlib.Algebra.Order.Ring.Nat

/-!
# The lines of a listing

A listing ends the line of every leaf with a line feed. Values stand in it as JSON, where a line
feed is escaped, but keys and the names of kinds stand in it as they are, and the name of a class
may be any text. So a listing has as many lines as the report has leaves, and one more for each line
feed in a path or a name.

Results:
* `Text.lines_join`: lines without line feeds, each ended by one, are split as they were put
  together; `Text.length_lines_join` counts the others too.
* `Value.lineFeeds_preview`: a value on one line, by induction on its JSON.
* `Leaf.names`: the names that a leaf shows as they are; `Report.lineFeeds_line`.
* `Shape.listing_lines`: how many lines a listing has, and when it has one for each leaf.
-/

namespace Conformance

/-! ## Counting line feeds -/

namespace Text

/-- How many line feeds the text has. -/
def lineFeeds (s : String) : Nat := s.toList.count '\n'

@[simp] theorem lineFeeds_append (s t : String) :
    lineFeeds (s ++ t) = lineFeeds s + lineFeeds t := by
  rw [lineFeeds, String.toList_append, List.count_append]
  rfl

theorem lineFeeds_eq_zero_iff {s : String} : lineFeeds s = 0 ↔ '\n' ∉ s.toList :=
  List.count_eq_zero

theorem lineFeeds_intercalate {separator : String} (hseparator : lineFeeds separator = 0)
    {parts : List String} (h : ∀ part ∈ parts, lineFeeds part = 0) :
    lineFeeds (separator.intercalate parts) = 0 := by
  induction parts with
  | nil => rfl
  | cons part rest ih =>
    rw [List.forall_mem_cons] at h
    cases rest with
    | nil => rw [String.intercalate_singleton, h.1]
    | cons next rest =>
      rw [String.intercalate_cons_cons, lineFeeds_append, lineFeeds_append, h.1, hseparator,
        ih h.2]

/-! ## Splitting into lines -/

theorem toList_join_cons (part : String) (rest : List String) :
    (String.join ((part :: rest).map (· ++ "\n"))).toList =
      part.toList ++ '\n' :: (String.join (rest.map (· ++ "\n"))).toList := by
  rw [List.map_cons, String.join_cons, String.toList_append, String.toList_append,
    List.append_assoc]
  rfl

theorem splitLine_append_lineFeed {line : List Char} (h : '\n' ∉ line) (rest : List Char) :
    splitLine (line ++ '\n' :: rest) = (line, some rest) := by
  induction line with
  | nil => simp [splitLine]
  | cons c line ih =>
    rw [List.mem_cons, not_or] at h
    rw [List.cons_append, splitLine, if_neg (Ne.symm h.1), ih h.2]

theorem linesOf_append_lineFeed {line : List Char} (h : '\n' ∉ line) (rest : List Char) :
    linesOf (line ++ '\n' :: rest) = dropCarriageReturn line :: linesOf rest := by
  have hsplit := splitLine_append_lineFeed h rest
  rw [linesOf]
  split
  next line' after hs =>
    rw [hsplit] at hs
    cases hs
    rfl
  next line' hs =>
    rw [hsplit] at hs
    cases hs

theorem linesOf_nil : linesOf [] = [] := by
  rw [linesOf]
  rfl

/-- A text up to a line feed has a line for this one and for each of its own line feeds. -/
theorem length_linesOf_append (cs rest : List Char) :
    (linesOf (cs ++ '\n' :: rest)).length = cs.count '\n' + 1 + (linesOf rest).length := by
  by_cases h : '\n' ∈ cs
  · -- the first line ends in `cs`, and what is behind it is shorter
    obtain ⟨line, behind, rfl, hline⟩ := List.eq_append_cons_of_mem h
    have hbehind := length_linesOf_append behind rest
    rw [List.append_assoc, List.cons_append, linesOf_append_lineFeed hline, List.length_cons,
      hbehind, List.count_append, List.count_cons_self, List.count_eq_zero.mpr hline]
    omega
  · rw [linesOf_append_lineFeed h, List.length_cons, List.count_eq_zero.mpr h]
    omega
termination_by cs.length
decreasing_by
  subst_vars
  simp only [List.length_append, List.length_cons]
  omega

/-- Parts that are each ended by a line feed have a line for each part, and one more for every line
feed in a part. -/
theorem length_lines_join (parts : List String) :
    (lines (String.join (parts.map (· ++ "\n")))).length =
      parts.length + (parts.map lineFeeds).sum := by
  induction parts with
  | nil =>
    rw [lines, List.length_map]
    exact congrArg List.length linesOf_nil
  | cons part rest ih =>
    rw [lines, List.length_map] at ih ⊢
    rw [toList_join_cons, length_linesOf_append, ih, List.length_cons, List.map_cons,
      List.sum_cons, lineFeeds]
    omega

/-- Trimming a line of its carriage return leaves a visible end as it is. -/
theorem dropCarriageReturn_of_endsVisibly {s : String} (h : EndsVisibly s) :
    dropCarriageReturn s.toList = s.toList := by
  obtain ⟨c, hlast, hc⟩ := h
  rw [dropCarriageReturn, hlast, if_neg]
  rintro ⟨⟩
  cases hc

/-- Lines without line feeds, each ended by one, are split as they were put together. -/
theorem lines_join {parts : List String}
    (h : ∀ part ∈ parts, lineFeeds part = 0 ∧ EndsVisibly part) :
    lines (String.join (parts.map (· ++ "\n"))) = parts := by
  induction parts with
  | nil =>
    rw [lines]
    exact congrArg (List.map String.ofList) linesOf_nil
  | cons part rest ih =>
    rw [List.forall_mem_cons] at h
    obtain ⟨⟨hfeeds, hends⟩, hrest⟩ := h
    have hlines := ih hrest
    rw [lines] at hlines ⊢
    rw [toList_join_cons, linesOf_append_lineFeed (lineFeeds_eq_zero_iff.mp hfeeds),
      List.map_cons, hlines, dropCarriageReturn_of_endsVisibly hends, String.ofList_toList]

end Text

/-! ## Values on one line -/

open Text

theorem Text.Visible.lineFeeds {s : String} (h : Visible s.toList) : lineFeeds s = 0 := by
  refine lineFeeds_eq_zero_iff.mpr fun hmem => ?_
  have hfeed : isWhiteSpace '\n' = false := h _ hmem
  cases hfeed

theorem Json.lineFeeds_quoted (s : String) : lineFeeds (quoted s) = 0 :=
  lineFeeds_eq_zero_iff.mpr fun hmem => ne_lineFeed_of_mem_quoted hmem rfl

theorem Json.lineFeeds_compact (j : Json) : lineFeeds j.compact = 0 := by
  induction j with
  | null => rfl
  | bool b => cases b <;> rfl
  | number n => exact n.visible_text.1.lineFeeds
  | string s => exact lineFeeds_quoted s
  | array items ih =>
    have hparts : ∀ part ∈ compactItems items, lineFeeds part = 0 := by
      rw [compactItems_eq_map]
      exact List.forall_mem_map.mpr ih
    rw [compact, enclosed, lineFeeds_append, lineFeeds_append, lineFeeds_intercalate rfl hparts]
    rfl
  | object fields ih =>
    have hparts : ∀ part ∈ compactFields fields, lineFeeds part = 0 := by
      rw [compactFields_eq_map]
      refine List.forall_mem_map.mpr fun f hf => ?_
      rw [compactField, lineFeeds_append, lineFeeds_append, lineFeeds_quoted, ih f hf]
      rfl
    rw [compact, enclosed, lineFeeds_append, lineFeeds_append, lineFeeds_intercalate rfl hparts]
    rfl

/-- A value on one line is on one line, whatever texts it holds. -/
theorem Value.lineFeeds_preview (v : Value) : lineFeeds v.preview = 0 := by
  rw [preview]
  split
  · rfl
  · exact v.toJson.lineFeeds_compact

/-! ## Leaves and their names -/

/-- The name that a label shows as it is. -/
def Label.names : Label → List String
  | kind name => [name]
  | literal _ => []

/-- The names that a leaf shows as they are, beside values. -/
def Leaf.names : Leaf → List String
  | mismatch actual expected _ => expected.names ++ actual.names
  | unexpected kind _ => [kind]

theorem Label.lineFeeds_text (label : Label) :
    lineFeeds label.text = (label.names.map lineFeeds).sum := by
  cases label with
  | kind name => simp [text, names]
  | literal v => exact v.lineFeeds_preview

theorem Leaf.lineFeeds_text (l : Leaf) : lineFeeds l.text = (l.names.map lineFeeds).sum := by
  have hexpected : lineFeeds "expected " = 0 := rfl
  have hgot : lineFeeds ", got " = 0 := rfl
  have hunexpected : lineFeeds "unexpected " = 0 := rfl
  have hopening : lineFeeds " (" = 0 := rfl
  have hclosing : lineFeeds ")" = 0 := rfl
  cases l with
  | mismatch actual expected value =>
    rw [names, List.map_append, List.sum_append]
    cases value with
    | none =>
      show lineFeeds ("expected " ++ expected.text ++ ", got " ++ actual.text) = _
      simp only [lineFeeds_append, Label.lineFeeds_text, hexpected, hgot]
      omega
    | some v =>
      show lineFeeds ("expected " ++ expected.text ++ ", got " ++ actual.text ++ " (" ++
        v.preview ++ ")") = _
      simp only [lineFeeds_append, Label.lineFeeds_text, v.lineFeeds_preview, hexpected, hgot,
        hopening, hclosing]
      omega
  | unexpected kind v =>
    show lineFeeds ("unexpected " ++ kind ++ " (" ++ v.preview ++ ")") = _
    simp only [lineFeeds_append, v.lineFeeds_preview, hunexpected, hopening, hclosing]
    simp [names]

/-- The line feeds of a line are those of its path and its names. -/
theorem Report.lineFeeds_line (path : String) (l : Leaf) :
    lineFeeds (line false path l) = lineFeeds path + (l.names.map lineFeeds).sum := by
  have hcolon : lineFeeds ": " = 0 := rfl
  have hlabel : lineFeeds (pathLabel path) = lineFeeds path := by
    rw [pathLabel]
    split_ifs with hempty
    · rw [String.isEmpty_iff.mp hempty]
      rfl
    · rfl
  rw [line, if_neg Bool.false_ne_true, lineFeeds_append, lineFeeds_append, hlabel, hcolon,
    l.lineFeeds_text]
  rfl

theorem Report.lineFeeds_line_eq_zero_iff {path : String} {l : Leaf} :
    lineFeeds (line false path l) = 0 ↔
      '\n' ∉ path.toList ∧ ∀ name ∈ l.names, '\n' ∉ name.toList := by
  rw [lineFeeds_line, Nat.add_eq_zero_iff, List.sum_eq_zero_iff, List.forall_mem_map,
    lineFeeds_eq_zero_iff]
  simp only [lineFeeds_eq_zero_iff]

/-! ## Listings -/

namespace Report

theorem listing_eq_join (r : Report) (color : Bool) :
    r.listing color =
      String.join ((r.paths.map fun p => line color p.1 p.2).map (· ++ "\n")) := by
  rw [List.map_map]
  rfl

theorem length_lines_listing (r : Report) :
    (lines (r.listing false)).length = r.leafCount +
      (r.paths.map fun p => lineFeeds p.1 + (p.2.names.map lineFeeds).sum).sum := by
  have hlines : (r.paths.map fun p => line false p.1 p.2).map lineFeeds =
      r.paths.map fun p => lineFeeds p.1 + (p.2.names.map lineFeeds).sum := by
    rw [List.map_map]
    exact List.map_congr_left fun p _ => lineFeeds_line p.1 p.2
  rw [listing_eq_join, length_lines_join, hlines, List.length_map, length_paths]

/-- Where leaves end visibly, the lines of the listing are those of the leaves when none of these
has a line feed. -/
theorem lines_listing_eq_iff {r : Report} (hends : ∀ l ∈ r.leaves, EndsVisibly l.2.text) :
    lines (r.listing false) = (r.paths.map fun p => line false p.1 p.2) ↔
      ∀ p ∈ r.paths, lineFeeds (line false p.1 p.2) = 0 := by
  constructor
  · intro heq p hp
    have hlength := congrArg List.length heq
    rw [listing_eq_join, length_lines_join, Nat.add_eq_left, List.sum_eq_zero_iff] at hlength
    exact hlength _ (List.mem_map_of_mem (List.mem_map_of_mem hp))
  · intro hfeeds
    rw [listing_eq_join]
    refine lines_join (List.forall_mem_map.mpr fun p hp => ⟨hfeeds p hp, ?_⟩)
    obtain ⟨l, hl, rfl⟩ := List.mem_map.mp hp
    exact endsVisibly_line (hends l hl) false _

end Report

namespace Shape

/-- **The lines of a listing.** A listing is the line of each leaf, in the order of the paths, each
ended by a line feed: the path, or `<root>` where it is empty, and the text of the leaf. It splits
into as many lines as the report has leaves, and one more for every line feed in a path or in a
name that a leaf shows. So it splits into just the lines of the leaves exactly when no path and no
such name has a line feed; the values that are shown never matter. -/
theorem listing_lines {s : Shape} {v : Value} {o : Options} {r : Report}
    (h : s.reportWith v o = .ok (some r)) :
    r.paths.length = r.leafCount ∧
      r.listing false =
        String.join (r.paths.map fun p => Report.pathLabel p.1 ++ ": " ++ p.2.text ++ "\n") ∧
      (lines (r.listing false)).length = r.leafCount +
        (r.paths.map fun p => lineFeeds p.1 + (p.2.names.map lineFeeds).sum).sum ∧
      (lines (r.listing false) =
          (r.paths.map fun p => Report.pathLabel p.1 ++ ": " ++ p.2.text) ↔
        ∀ p ∈ r.paths, '\n' ∉ p.1.toList ∧ ∀ name ∈ p.2.names, '\n' ∉ name.toList) := by
  refine ⟨r.length_paths, rfl, r.length_lines_listing, ?_⟩
  have hfinding : leavesOf (finding o.subset s v) = r.leaves := by
    rw [(reportWith_ok_iff.mp h).2]
    rfl
  have hends : ∀ l ∈ r.leaves, EndsVisibly l.2.text := fun l hl =>
    endsVisibly_of_mem_leavesOf (hfinding ▸ hl)
  simp only [← Report.lineFeeds_line_eq_zero_iff]
  exact Report.lines_listing_eq_iff hends

/-- Values that hold line feeds, and a key that ends in a carriage return. -/
theorem listing_lines_hostileValues :
    ∃ r, (object [("a\r", literal (.string "\n"))]).reportWith
        (.object [("a\r", .string "b\nc\n"), ("d", .array [.string "\n\n"])]) ⟨false, none⟩ =
          .ok (some r) ∧
      r.leafCount = 2 ∧
      lines (r.listing false) = ["d: unexpected Array ([\"\\n\\n\"])",
        "a\r: expected \"\\n\", got \"b\\nc\\n\""] := by
  have hreport := reportWith_unlimited (object [("a\r", literal (.string "\n"))])
    (.object [("a\r", .string "b\nc\n"), ("d", .array [.string "\n\n"])]) false
  obtain ⟨-, -, -, hlines⟩ := listing_lines hreport
  refine ⟨_, hreport, rfl, (hlines.mpr ?_).trans ?_⟩
  · decide +kernel
  · decide +kernel

/-- An undeclared key that holds a line feed takes two lines for one leaf. -/
theorem listing_splits_key :
    ∃ r, (object []).reportWith (.object [("a\nb", .null)]) ⟨false, none⟩ = .ok (some r) ∧
      r.leafCount = 1 ∧ r.paths = [("a\nb", .undeclared .null)] ∧
      lines (r.listing false) = ["a", "b: unexpected Null (null)"] := by
  refine ⟨.nested [("a\nb", .leaf (.undeclared .null))], rfl, rfl, rfl, ?_⟩
  have hparts : (Report.nested [("a\nb", .leaf (.undeclared .null))]).listing false =
      String.join (["a", "b: unexpected Null (null)"].map (· ++ "\n")) := by decide +kernel
  rw [hparts]
  refine lines_join (List.forall_mem_cons.mpr ⟨⟨rfl, 'a', rfl, rfl⟩, ?_⟩)
  exact List.forall_mem_singleton.mpr ⟨rfl, ')', rfl, rfl⟩

end Shape

end Conformance
