import Conformance.Proofs.Decodability
import Conformance.Proofs.EmptyLines

/-!
# The message of a failed assertion

An assertion is the report with a message around it: it passes where there is no report, passes the
depth limit on, and otherwise fails with the report itself. The message can be taken apart again
whatever stands in keys, values and class names: its JSON has no empty line, so the first one ends
it, and the last leaf ends in a visible character, so that trimming takes one line feed.

Results:
* `Report.listing_eq_append`: the listing ends with the line of the last leaf.
* `Report.trimEnd_listing`: trimming the listing of a report takes just its last line feed.
* `Shape.assertWith_law`: what an assertion answers, and what its message splits into.
-/

namespace Conformance

open Text

/-! ## The listing -/

namespace Report

/-- The line of the last leaf ends the listing. -/
theorem listing_eq_append {r : Report} (h : r.leaves ≠ []) (color : Bool) :
    ∃ before path, ∃ l ∈ r.leaves, r.listing color = before ++ line color path l.2 ++ "\n" := by
  obtain ⟨front, last, hleaves⟩ : ∃ front last, r.leaves = front ++ [last] :=
    ⟨_, _, (List.dropLast_append_getLast h).symm⟩
  refine ⟨String.join (front.map fun l => line color (dotted l.1) l.2 ++ "\n"), dotted last.1, last,
    by simp [hleaves], ?_⟩
  simp [listing, paths, hleaves, String.append_assoc, Function.comp_def]

/-- A report whose leaves end visibly is listed with one line feed at the end. -/
theorem trimEnd_listing {r : Report} (hne : r.leaves ≠ [])
    (hends : ∀ l ∈ r.leaves, EndsVisibly l.2.text) (color : Bool) :
    r.listing color = trimEnd (r.listing color) ++ "\n" := by
  obtain ⟨before, path, l, hl, hlisting⟩ := listing_eq_append hne color
  have hline : EndsVisibly (line color path l.2) := endsVisibly_line (hends l hl) color path
  rw [hlisting, trimEnd_append_lineFeed (hline.append before)]

end Report

/-! ## Leaves of a finding -/

namespace Shape

/-- Only a literal leaves a mismatch without a value beside it, and then the labels are values. -/
theorem endsVisibly_of_mem_leavesOf {subset : Bool} {s : Shape} {v : Value} {keys : List String}
    {l : Leaf} (h : (keys, l) ∈ leavesOf (finding subset s v)) : EndsVisibly l.text := by
  refine Leaf.endsVisibly_text fun actual expected hl => ?_
  rcases mem_leavesOf_finding_cases h with ⟨t, w, -, hobjection⟩ | ⟨x, rfl⟩
  · rcases objection?_cases hobjection with ⟨k, -, rfl⟩ | ⟨-, name, rfl⟩
    · cases hl
      exact ⟨w, rfl⟩
    · cases hl
  · cases hl

theorem trimEnd_listing_of_finding {subset : Bool} {s : Shape} {v : Value} {r : Report}
    (h : finding subset s v = some r) (color : Bool) :
    r.listing color = trimEnd (r.listing color) ++ "\n" := by
  have hleaves : leavesOf (finding subset s v) = r.leaves := by rw [h]; rfl
  refine Report.trimEnd_listing ?_ (fun l hl => ?_) color
  · rw [← hleaves, ne_eq, leavesOf_finding_eq_nil_iff, h]
    exact Option.some_ne_none r
  · exact endsVisibly_of_mem_leavesOf (hleaves ▸ hl)

end Shape

/-! ## The message -/

/-- Behind the headline the first empty line stands between the report and the listing. -/
theorem AssertionFailure.message_splits (f : AssertionFailure) :
    ∃ body, FirstSplit "\n" f.message "Interface not as expected:" body ∧
      FirstSplit "\n\n" body f.reportText f.listing := by
  refine ⟨f.reportText ++ "\n\n" ++ f.listing, ?_, ?_⟩
  · have hheadline : "Interface not as expected:\n" = "Interface not as expected:" ++ "\n" := by
      decide
    have hmessage : f.message =
        "Interface not as expected:" ++ "\n" ++ (f.reportText ++ "\n\n" ++ f.listing) := by
      unfold message
      rw [hheadline]
      simp only [String.append_assoc]
    rw [hmessage]
    exact firstSplit_lineFeed (by simp) _
  · exact firstSplit_emptyLine f.report.toJson.noEmptyLine_pretty _

namespace Shape

variable {s : Shape} {v : Value} {o : Options} {color : Bool}

theorem assertWith_eq_ok_iff : s.assertWith v o color = .ok () ↔ s.reportWith v o = .ok none := by
  unfold assertWith
  rcases s.reportWith v o with e | _ | r <;> simp

theorem assertWith_eq_depthExceeded_iff {e : DepthExceeded} :
    s.assertWith v o color = .error (.depthExceeded e) ↔ s.reportWith v o = .error e := by
  unfold assertWith
  rcases s.reportWith v o with e | _ | r <;> simp

theorem assertWith_eq_failed_iff {f : AssertionFailure} :
    s.assertWith v o color = .error (.failed f) ↔
      s.reportWith v o = .ok (some f.report) ∧ color = f.color := by
  obtain ⟨report, c⟩ := f
  unfold assertWith
  rcases s.reportWith v o with e | _ | r <;> simp

theorem trimEnd_listing_of_reportWith {r : Report} (h : s.reportWith v o = .ok (some r)) :
    r.listing color = trimEnd (r.listing color) ++ "\n" := by
  rw [reportWith_eq] at h
  split at h
  · cases h
  · exact trimEnd_listing_of_finding (Except.ok.inj h) color

/-- **An assertion and its message.** An assertion passes exactly where there is no report, passes
the depth limit on, and otherwise fails with the report. The text of the report does not depend on
the colour, trimming takes just the last line feed of the listing, and behind the headline the
message splits at its first empty line into the two. -/
theorem assertWith_law (s : Shape) (v : Value) (o : Options) (color : Bool) :
    (s.assertWith v o color = .ok () ↔ s.reportWith v o = .ok none) ∧
      (∀ e, s.assertWith v o color = .error (.depthExceeded e) ↔ s.reportWith v o = .error e) ∧
      (∀ f, s.assertWith v o color = .error (.failed f) ↔
        s.reportWith v o = .ok (some f.report) ∧ color = f.color) ∧
      ∀ f, s.assertWith v o color = .error (.failed f) →
        (∀ c, ∃ g, s.assertWith v o c = .error (.failed g) ∧ g.reportText = f.reportText) ∧
          f.report.listing color = f.listing ++ "\n" ∧
          ∃ body, FirstSplit "\n" f.message "Interface not as expected:" body ∧
            FirstSplit "\n\n" body f.reportText f.listing := by
  refine ⟨assertWith_eq_ok_iff, fun e => assertWith_eq_depthExceeded_iff,
    fun f => assertWith_eq_failed_iff, fun f hfailed => ?_⟩
  obtain ⟨hreport, rfl⟩ := assertWith_eq_failed_iff.mp hfailed
  refine ⟨fun c => ⟨⟨f.report, c⟩, assertWith_eq_failed_iff.mpr ⟨hreport, rfl⟩, rfl⟩, ?_,
    f.message_splits⟩
  exact trimEnd_listing_of_reportWith hreport

/-- A key that holds empty lines and a string that ends in them, in colour. -/
theorem assertWith_law_blankLines :
    ∃ f, (object [("a\n\n", literal (.string "b"))]).assertWith
        (.object [("a\n\n", .string "\n\n")]) ⟨false, some 1⟩ true = .error (.failed f) ∧
      f.report.listing true = f.listing ++ "\n" ∧
      f.listing.toList.take 4 = ['\x1b', '[', '1', 'm'] ∧
      ∃ body, FirstSplit "\n" f.message "Interface not as expected:" body ∧
        FirstSplit "\n\n" body f.reportText f.listing := by
  have hfailed : (object [("a\n\n", literal (.string "b"))]).assertWith
      (.object [("a\n\n", .string "\n\n")]) ⟨false, some 1⟩ true =
        .error (.failed ⟨.nested [("a\n\n",
          .leaf (.wrongLiteral (.string "b") (.string "\n\n")))], true⟩) := rfl
  obtain ⟨-, hlisting, hsplit⟩ := (assertWith_law _ _ ⟨false, some 1⟩ true).2.2.2 _ hfailed
  exact ⟨_, hfailed, hlisting, by decide +kernel, hsplit⟩

end Shape

end Conformance
