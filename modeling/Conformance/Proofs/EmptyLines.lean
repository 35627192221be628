import Conformance.Proofs.Induction
import Conformance.Proofs.VisibleEnds

/-!
# JSON on lines has no empty line

In the layout on lines a line feed comes from the layout alone, since strings escape it, and behind
each one stands a space of the indentation or a closing bracket. So two line feeds never meet, and
none is the last character. A text made of such a front, an empty line and anything behind it splits
at its first empty line into just the front and what is behind.

Results:
* `Text.FirstSplit`: what stands before and behind the first occurrence of a separator.
* `Text.firstSplit_emptyLine`: the split at the first empty line.
* `Json.noEmptyLine_pretty`: the layout on lines, by induction on the tree.
-/

namespace Conformance

/-! ## Splitting at the first occurrence -/

namespace Text

/-- The separator first occurs in the text between `before` and `after`. -/
structure FirstSplit (separator text before after : String) : Prop where
  eq : text = before ++ separator ++ after
  first : ∀ before' after', text = before' ++ separator ++ after' →
    before.toList.length ≤ before'.toList.length

/-- Every line feed has a character behind it, and that is no line feed. -/
inductive NoEmptyLine : List Char → Prop
  | nil : NoEmptyLine []
  | cons {c : Char} {rest : List Char} : (c = '\n' → ∃ d after, rest = d :: after ∧ d ≠ '\n') →
    NoEmptyLine rest → NoEmptyLine (c :: rest)

theorem NoEmptyLine.append {a b : List Char} (ha : NoEmptyLine a) (hb : NoEmptyLine b) :
    NoEmptyLine (a ++ b) := by
  induction ha with
  | nil => exact hb
  | cons hc _ ih =>
    refine .cons (fun hfeed => ?_) ih
    obtain ⟨d, after, rfl, hd⟩ := hc hfeed
    exact ⟨d, after ++ b, rfl, hd⟩

theorem noEmptyLine_of_forall_ne {cs : List Char} (h : ∀ c ∈ cs, c ≠ '\n') : NoEmptyLine cs := by
  induction cs with
  | nil => exact .nil
  | cons c rest ih =>
    rw [List.forall_mem_cons] at h
    exact .cons (fun hfeed => absurd hfeed h.1) (ih h.2)

theorem Visible.noEmptyLine {cs : List Char} (h : Visible cs) : NoEmptyLine cs := by
  refine noEmptyLine_of_forall_ne fun c hc => ?_
  rintro rfl
  have hfeed : isWhiteSpace '\n' = false := h _ hc
  cases hfeed

/-- A line feed with further text on the next line. -/
theorem noEmptyLine_feed {before line : List Char} (hbefore : ∀ c ∈ before, c ≠ '\n')
    (hline : ∀ c ∈ line, c ≠ '\n') (hne : line ≠ []) : NoEmptyLine (before ++ '\n' :: line) := by
  obtain ⟨d, after, rfl⟩ := List.exists_cons_of_ne_nil hne
  have hfeed : NoEmptyLine ('\n' :: d :: after) :=
    .cons (fun _ => ⟨d, after, rfl, hline d List.mem_cons_self⟩) (noEmptyLine_of_forall_ne hline)
  exact (noEmptyLine_of_forall_ne hbefore).append hfeed

/-- A separator that cannot begin before the end of the front splits the text behind the front. -/
theorem firstSplit_emptyLine {a : String} (h : NoEmptyLine a.toList) (b : String) :
    FirstSplit "\n\n" (a ++ "\n\n" ++ b) a b := by
  -- along the front: where the separator would begin, a line feed would have one behind it
  have along : ∀ (a b x y : List Char), NoEmptyLine a →
      a ++ '\n' :: '\n' :: b = x ++ '\n' :: '\n' :: y → a.length ≤ x.length := by
    intro a b x y ha heq
    induction ha generalizing x with
    | nil => exact Nat.zero_le _
    | cons hc _ ih =>
      cases x with
      | nil =>
        obtain ⟨hfeed, htail⟩ := List.cons.inj heq
        obtain ⟨d, after, rfl, hd⟩ := hc hfeed
        exact absurd (List.cons.inj htail).1 hd
      | cons e x =>
        have := ih x (List.cons.inj heq).2
        simp only [List.length_cons]
        omega
  refine ⟨rfl, fun x y heq => along a.toList b.toList x.toList y.toList h ?_⟩
  have htoList := congrArg String.toList heq
  simpa using htoList

theorem firstSplit_lineFeed {a : String} (h : ∀ c ∈ a.toList, c ≠ '\n') (b : String) :
    FirstSplit "\n" (a ++ "\n" ++ b) a b := by
  refine ⟨rfl, fun x y heq => ?_⟩
  have htoList : a.toList ++ '\n' :: b.toList = x.toList ++ '\n' :: y.toList := by
    simpa using congrArg String.toList heq
  refine Nat.le_of_not_lt fun hshort => ?_
  -- a line feed in front of the first one would lie inside `a`
  have hat := congrArg (fun cs => cs[x.toList.length]?) htoList
  simp only [List.getElem?_append_left hshort, List.getElem?_append_right (Nat.le_refl _),
    Nat.sub_self, List.getElem?_cons_zero] at hat
  exact h _ (List.mem_of_getElem? hat) rfl

end Text

/-! ## The layout on lines -/

namespace Json

open Text

/-- An escape is a backslash and letters or digits behind it, and a character that stands for itself
is no line feed. -/
theorem ne_lineFeed_of_mem_escape {c d : Char} (h : d ∈ escape c) : d ≠ '\n' := by
  rintro rfl
  by_cases hfeed : c = '\n'
  · subst hfeed
    revert h
    decide
  · unfold escape at h
    repeat' split at h
    all_goals simp [Ne.symm hfeed] at h

theorem ne_lineFeed_of_mem_quoted {s : String} {c : Char} (h : c ∈ (quoted s).toList) :
    c ≠ '\n' := by
  have hmark : '"' ≠ '\n' := by decide
  have hquote : "\"".toList = ['"'] := rfl
  simp only [quoted, String.toList_append, hquote, String.toList_ofList, List.mem_append,
    List.mem_singleton, List.mem_flatMap] at h
  rcases h with (rfl | ⟨d, -, hd⟩) | rfl
  · exact hmark
  · exact ne_lineFeed_of_mem_escape hd
  · exact hmark

theorem ne_lineFeed_of_mem_indent {level : Nat} {c : Char} (h : c ∈ (indent level).toList) :
    c ≠ '\n' := by
  rw [indent, String.toList_ofList] at h
  rw [List.eq_of_mem_replicate h]
  decide

/-- An opening or a comma with its line feed, and then the indentation of a line inside brackets. -/
theorem noEmptyLine_indent {opening : String} {before : Char}
    (hopening : opening.toList = [before, '\n']) (hbefore : before ≠ '\n') (level : Nat) :
    NoEmptyLine (opening ++ indent (level + 1)).toList := by
  have hne : (indent (level + 1)).toList ≠ [] := by
    rw [indent, String.toList_ofList]
    simp
  have hfront : ∀ c ∈ [before], c ≠ '\n' := List.forall_mem_singleton.mpr hbefore
  have hfeed := noEmptyLine_feed hfront (fun c hc => ne_lineFeed_of_mem_indent hc) hne
  rw [String.toList_append, hopening]
  exact hfeed

/-- A closing bracket stands on a line of its own. -/
theorem noEmptyLine_closing (closing : String) (hclosing : ∀ c ∈ closing.toList, c ≠ '\n')
    (hne : closing.toList ≠ []) (level : Nat) :
    NoEmptyLine ("\n" ++ indent level ++ closing).toList := by
  have hline : ∀ c ∈ (indent level).toList ++ closing.toList, c ≠ '\n' :=
    List.forall_mem_append.mpr ⟨fun c hc => ne_lineFeed_of_mem_indent hc, hclosing⟩
  have hbefore : ∀ c ∈ [], c ≠ '\n' := nofun
  have hfeed := noEmptyLine_feed hbefore hline (by simp [hne])
  simpa using hfeed

/-- No part has an empty line. -/
def PartsHaveNoEmptyLine (parts : List String) : Prop := ∀ part ∈ parts, NoEmptyLine part.toList

/-- The parts of the tree have no empty line, at any indentation. -/
def LaidOut (j : Json) : Prop :=
  ∀ level after, PartsHaveNoEmptyLine after → PartsHaveNoEmptyLine (j.prettyParts level after)

theorem PartsHaveNoEmptyLine.cons {part : String} {parts : List String}
    (hpart : NoEmptyLine part.toList) (h : PartsHaveNoEmptyLine parts) :
    PartsHaveNoEmptyLine (part :: parts) := List.forall_mem_cons.mpr ⟨hpart, h⟩

theorem noEmptyLine_quoted (s : String) : NoEmptyLine (quoted s).toList :=
  noEmptyLine_of_forall_ne fun _ => ne_lineFeed_of_mem_quoted

theorem prettyItems_noEmptyLine {items : List Json} (h : ∀ item ∈ items, item.LaidOut)
    (level : Nat) {after : List String} (hafter : PartsHaveNoEmptyLine after) :
    PartsHaveNoEmptyLine (prettyItems items (level + 1) after) := by
  induction items with
  | nil => exact hafter
  | cons item rest ih =>
    have comma : ",\n".toList = [',', '\n'] := by simp
    rw [List.forall_mem_cons] at h
    rw [prettyItems]
    exact .cons (noEmptyLine_indent comma (by decide) level) (h.1 _ _ (ih h.2))

theorem prettyFields_noEmptyLine {fields : Record Json} (h : ∀ f ∈ fields, f.2.LaidOut)
    (level : Nat) {after : List String} (hafter : PartsHaveNoEmptyLine after) :
    PartsHaveNoEmptyLine (prettyFields fields (level + 1) after) := by
  induction fields with
  | nil => exact hafter
  | cons f rest ih =>
    obtain ⟨key, value⟩ := f
    have comma : ",\n".toList = [',', '\n'] := by simp
    rw [List.forall_mem_cons] at h
    rw [prettyFields]
    refine .cons (noEmptyLine_indent comma (by decide) level) ?_
    refine .cons (noEmptyLine_quoted key) (.cons ?_ (h.1 _ _ (ih h.2)))
    exact noEmptyLine_of_forall_ne (by simp)

theorem laidOut (j : Json) : j.LaidOut := by
  have hword {s : String} (hs : ∀ c ∈ s.toList, c ≠ '\n') {after : List String}
      (hafter : PartsHaveNoEmptyLine after) : PartsHaveNoEmptyLine (s :: after) :=
    .cons (noEmptyLine_of_forall_ne hs) hafter
  induction j with
  | null => exact fun level after hafter => hword (s := "null") (by simp) hafter
  | bool b =>
    cases b
    · exact fun level after hafter => hword (s := "false") (by simp) hafter
    · exact fun level after hafter => hword (s := "true") (by simp) hafter
  | number n => exact fun level after hafter => .cons n.visible_text.1.noEmptyLine hafter
  | string s => exact fun level after hafter => .cons (noEmptyLine_quoted s) hafter
  | array items ih =>
    intro level after hafter
    cases items with
    | nil => exact hword (s := "[]") (by simp) hafter
    | cons item rest =>
      have square : "[\n".toList = ['[', '\n'] := by simp
      rw [List.forall_mem_cons] at ih
      rw [prettyParts]
      refine .cons (noEmptyLine_indent square (by decide) level) (ih.1 _ _ ?_)
      refine prettyItems_noEmptyLine ih.2 level ?_
      exact .cons (noEmptyLine_closing "]" (by simp) (by simp) level) hafter
  | object fields ih =>
    intro level after hafter
    cases fields with
    | nil => exact hword (s := "\x7b\x7d") (by simp) hafter
    | cons f rest =>
      obtain ⟨key, value⟩ := f
      have curly : "\x7b\n".toList = ['\x7b', '\n'] := by simp
      rw [List.forall_mem_cons] at ih
      rw [prettyParts]
      refine .cons (noEmptyLine_indent curly (by decide) level) ?_
      refine .cons (noEmptyLine_quoted key) (hword (s := ": ") (by simp) (ih.1 _ _ ?_))
      refine prettyFields_noEmptyLine ih.2 level ?_
      exact .cons (noEmptyLine_closing "\x7d" (by simp) (by simp) level) hafter

/-- **JSON on lines has no empty line**, and it does not end in a line feed. -/
theorem noEmptyLine_pretty (j : Json) : NoEmptyLine j.pretty.toList := by
  have hjoin : ∀ parts, PartsHaveNoEmptyLine parts → NoEmptyLine (String.join parts).toList := by
    intro parts hparts
    induction parts with
    | nil => exact .nil
    | cons part rest ih =>
      rw [PartsHaveNoEmptyLine, List.forall_mem_cons] at hparts
      rw [String.join_cons, String.toList_append]
      exact hparts.1.append (ih hparts.2)
  exact hjoin _ (j.laidOut 0 [] nofun)

end Json

end Conformance
