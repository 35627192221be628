import Conformance.Assertion
import Conformance.Proofs.Numerals

/-!
# Texts that end visibly

A text whose last character is no white space loses just the line feed when it is trimmed behind
one. The text of a number holds no white space at all, and every other JSON text ends in a letter of
a word, a quote or a bracket. So a value on one line ends visibly, and so does the line of a leaf,
whatever the keys before it hold.

Results:
* `Text.trimEnd_append_lineFeed`: trimming takes one line feed and stops.
* `Json.Number.visible_text`: no character of a number is white space.
* `Value.endsVisibly_preview`: a value on one line, for every kind of value.
* `Report.endsVisibly_line`: the line of a leaf, in colour or not.
-/

namespace Conformance

/-! ## White space at the end -/

namespace Text

/-- No character is white space. -/
def Visible (cs : List Char) : Prop := ∀ c ∈ cs, isWhiteSpace c = false

/-- The last character is there and is no white space. -/
def EndsVisibly (s : String) : Prop := ∃ c, s.toList.getLast? = some c ∧ isWhiteSpace c = false

theorem isWhiteSpace_of_isDigit {c : Char} (h : c.isDigit = true) : isWhiteSpace c = false := by
  have hrange := Json.isDigit_iff.mp h
  unfold isWhiteSpace
  simp only [Bool.or_eq_false_iff, Bool.and_eq_false_iff, decide_eq_false_iff_not,
    beq_eq_false_iff_ne]
  omega

theorem Visible.append {a b : List Char} (ha : Visible a) (hb : Visible b) : Visible (a ++ b) :=
  List.forall_mem_append.mpr ⟨ha, hb⟩

theorem Visible.of_subset {a b : List Char} (hb : Visible b) (h : a ⊆ b) : Visible a :=
  fun c hc => hb c (h hc)

theorem Visible.endsVisibly {s : String} (h : Visible s.toList) (hne : s.toList ≠ []) :
    EndsVisibly s := by
  refine ⟨s.toList.getLast hne, List.getLast?_eq_some_getLast hne, ?_⟩
  exact h _ (List.getLast_mem hne)

theorem EndsVisibly.append {t : String} (h : EndsVisibly t) (s : String) :
    EndsVisibly (s ++ t) := by
  obtain ⟨c, hlast, hc⟩ := h
  refine ⟨c, ?_, hc⟩
  rw [String.toList_append, List.getLast?_append, hlast, Option.some_or]

/-- Trimming takes one line feed and stops at the visible character before it. -/
theorem trimEnd_append_lineFeed {s : String} (h : EndsVisibly s) : trimEnd (s ++ "\n") = s := by
  obtain ⟨c, hlast, hc⟩ := h
  obtain ⟨front, hfront⟩ := List.getLast?_eq_some_iff.mp hlast
  have hfeed : isWhiteSpace '\n' = true := rfl
  have hreverse : (s ++ "\n").toList.reverse = '\n' :: c :: front.reverse := by
    rw [String.toList_append, hfront]
    simp
  rw [trimEnd, hreverse, List.dropWhile_cons_of_pos hfeed,
    List.dropWhile_cons_of_neg (by simp [hc]), List.reverse_cons, List.reverse_reverse, ← hfront,
    String.ofList_toList]

end Text

/-! ## Numbers -/

open Text

theorem Decimal.visible_digitsOf (n : Nat) : Visible (digitsOf n) := fun c hc =>
  isWhiteSpace_of_isDigit (Json.isDigit_of_mem_digits c hc)

theorem Decimal.visible_text (x : Decimal) : Visible x.text.toList ∧ x.text.toList ≠ [] := by
  have hdigits := visible_digitsOf x.digits
  have hzeros (n : Nat) : Visible (List.replicate n '0') := by
    intro c hc
    rw [List.eq_of_mem_replicate hc]
    rfl
  have hmark {c : Char} (hc : isWhiteSpace c = false) {cs : List Char} (hcs : Visible cs) :
      Visible (c :: cs) := List.forall_mem_cons.mpr ⟨hc, hcs⟩
  have htake (n : Nat) : Visible ((digitsOf x.digits).take n) :=
    hdigits.of_subset (List.take_subset n _)
  have hdrop (n : Nat) : Visible ((digitsOf x.digits).drop n) :=
    hdigits.of_subset (List.drop_subset n _)
  unfold text
  simp only
  split
  · rw [String.toList_ofList]
    exact ⟨(hdigits.append (hzeros _)).append (hmark rfl (hmark rfl nofun)), by simp⟩
  · split
    · rw [String.toList_ofList]
      exact ⟨(htake _).append (hmark rfl (hdrop _)), by simp⟩
    · split
      · rw [String.toList_ofList]
        exact ⟨hmark rfl (hmark rfl ((hzeros _).append hdigits)), by simp⟩
      · rw [String.toList_ofList]
        refine ⟨Visible.append ?_ (hmark rfl (hmark ?_ (visible_digitsOf _))), by simp⟩
        · split
          · exact hdigits
          · exact (htake 1).append (hmark rfl (hdrop 1))
        · split <;> rfl

theorem Binary64.visible_text (x : Binary64) : Visible x.text.toList ∧ x.text.toList ≠ [] := by
  have hbody : Visible (if x.isZero then "0.0" else x.shortest.text).toList ∧
      (if x.isZero then "0.0" else x.shortest.text).toList ≠ [] := by
    split
    · exact ⟨by simp [Visible, isWhiteSpace], by simp⟩
    · exact x.shortest.visible_text
  unfold text
  simp only
  split
  · rw [String.toList_append]
    exact ⟨Visible.append (by simp [Visible, isWhiteSpace]) hbody.1, by simp⟩
  · exact hbody

/-- No character of a number is white space, and there is one. -/
theorem Json.Number.visible_text (n : Json.Number) :
    Visible n.text.toList ∧ n.text.toList ≠ [] := by
  have hnat (k : Nat) : Visible (toString k).toList ∧ (toString k).toList ≠ [] := by
    rw [Nat.toString_eq_ofList_toDigits, String.toList_ofList]
    exact ⟨Decimal.visible_digitsOf k, Nat.toDigits_ne_nil⟩
  cases n with
  | float x => exact x.visible_text
  | int i =>
    cases i with
    | ofNat k => exact hnat k
    | negSucc k =>
      show Visible ("-" ++ toString (k + 1)).toList ∧ ("-" ++ toString (k + 1)).toList ≠ []
      rw [String.toList_append]
      exact ⟨Visible.append (by simp [Visible, isWhiteSpace]) (hnat (k + 1)).1, by simp⟩

/-! ## JSON and values on one line -/

/-- Every compact text ends in a letter of a word, a character of a number, a quote or a bracket. -/
theorem Json.endsVisibly_compact (j : Json) : EndsVisibly j.compact := by
  cases j with
  | null => exact ⟨'l', rfl, rfl⟩
  | bool b => cases b <;> exact ⟨'e', rfl, rfl⟩
  | number n => exact n.visible_text.1.endsVisibly n.visible_text.2
  | string s => exact EndsVisibly.append ⟨'"', rfl, rfl⟩ _
  | array items => exact EndsVisibly.append ⟨']', rfl, rfl⟩ _
  | object fields => exact EndsVisibly.append ⟨'\x7d', rfl, rfl⟩ _

theorem Value.endsVisibly_preview (v : Value) : EndsVisibly v.preview := by
  unfold preview
  split
  · exact ⟨'d', rfl, rfl⟩
  · exact v.toJson.endsVisibly_compact

/-! ## Leaves -/

/-- A leaf ends with its value in brackets or, where it keeps none, with the value among its labels.
-/
theorem Leaf.endsVisibly_text {l : Leaf}
    (h : ∀ actual expected, l = .mismatch actual expected none → ∃ v, actual = .literal v) :
    EndsVisibly l.text := by
  cases l with
  | mismatch actual expected value =>
    cases value with
    | some v => exact EndsVisibly.append ⟨')', rfl, rfl⟩ _
    | none =>
      obtain ⟨v, rfl⟩ := h actual expected rfl
      exact v.endsVisibly_preview.append _
  | unexpected kind v => exact EndsVisibly.append ⟨')', rfl, rfl⟩ _

/-- Every style ends with the sequence that closes it. -/
theorem Text.Style.endsVisibly_apply (style : Text.Style) (s : String) :
    EndsVisibly (style.apply s) := by
  refine ⟨'m', ?_, rfl⟩
  rw [apply, String.toList_ofList, List.getLast?_append]
  rfl

theorem Report.endsVisibly_line {l : Leaf} (h : EndsVisibly l.text) (color : Bool)
    (path : String) : EndsVisibly (line color path l) := by
  cases color with
  | false => exact h.append _
  | true => exact (Text.Style.endsVisibly_apply _ _).append _

end Conformance
