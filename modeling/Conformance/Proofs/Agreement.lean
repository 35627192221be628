import Conformance.Proofs.Finding
import Mathlib.Tactic.Set

/-!
# The two walks agree

The exhaustive walk and the short walk are told apart by one thing only: the short walk may have
seen a failure, and stopped, before the exhaustive one is refused a step.

Results:
* `Shape.walks_cases`: the three ways in which the two walks end.
* `Shape.conformsWith_agrees_reportWith`: a value conforms when there is nothing to report, and a
  refusal of the short walk is the refusal of the exhaustive one.
-/

namespace Conformance

namespace Shape

/-- Both walks answer, both are refused the same step, or only the exhaustive one is refused. -/
theorem walks_cases (s : Shape) (v : Value) (o : Options) :
    (∃ r, s.reportWith v o = .ok r ∧ s.conformsWith v o = .ok r.isNone) ∨
      (∃ e, s.reportWith v o = .error e ∧ s.conformsWith v o = .error e) ∨
      (∃ e, s.reportWith v o = .error e ∧ s.conformsWith v o = .ok false) := by
  obtain ⟨seen, ⟨rest, hrest⟩, hall, hshort⟩ := s.conformsWith_eq v o
  have hlong := s.reportWith_eq v o
  set g := Guard.ofLimit o.maxDepth
  have hseen : g.firstRefusal? (visited s v) =
      (g.firstRefusal? seen).or (g.firstRefusal? rest) := by
    rw [← hrest, Guard.firstRefusal?_append]
  cases hs : g.firstRefusal? seen with
  | some e =>
    rw [hs] at hshort
    rw [hseen, hs] at hlong
    exact .inr (.inl ⟨e, hlong, hshort⟩)
  | none =>
    rw [hs] at hshort
    cases hv : g.firstRefusal? (visited s v) with
    | none =>
      rw [hv] at hlong
      exact .inl ⟨_, hlong, hshort⟩
    | some e =>
      rw [hv] at hlong
      -- a clean short walk has taken every step, and the refused one is among them
      have hfound : (finding o.subset s v).isNone = false := by
        rw [Bool.eq_false_iff]
        intro hclean
        rw [hall hclean, hv] at hs
        cases hs
      rw [hfound] at hshort
      exact .inr (.inr ⟨e, hlong, hshort⟩)

/-- **The walks agree.** A report decides whether the value conforms; a value that conforms has
nothing to report; a refusal of the short walk is that of the exhaustive one; so the answers differ
only where the short walk has found a failure before the exhaustive one is refused. Strictly and
without a limit a value conforms exactly when there is no report. -/
theorem conformsWith_agrees_reportWith (s : Shape) (v : Value) (o : Options) :
    (∀ r, s.reportWith v o = .ok r → s.conformsWith v o = .ok r.isNone) ∧
      (s.conformsWith v o = .ok true → s.reportWith v o = .ok none) ∧
      (∀ e, s.conformsWith v o = .error e → s.reportWith v o = .error e) ∧
      (s.conformsWith v o ≠ (s.reportWith v o).map Option.isNone →
        s.conformsWith v o = .ok false ∧ ∃ e, s.reportWith v o = .error e) ∧
      s.conforms v = (s.report v).isNone := by
  have hplain : s.conforms v = (s.report v).isNone := by
    rw [conforms, report, conformsWith_unlimited, reportWith_unlimited]
    rfl
  rcases s.walks_cases v o with ⟨r, hr, hc⟩ | ⟨e, hr, hc⟩ | ⟨e, hr, hc⟩
  · rw [hr, hc]
    refine ⟨?_, ?_, ?_, fun hne => absurd rfl hne, hplain⟩
    · rintro _ ⟨⟩
      rfl
    · intro h
      cases r with
      | none => rfl
      | some r => cases h
    · rintro _ ⟨⟩
  · rw [hr, hc]
    refine ⟨?_, ?_, ?_, fun hne => absurd rfl hne, hplain⟩
    · rintro _ ⟨⟩
    · rintro ⟨⟩
    · rintro _ ⟨⟩
      rfl
  · rw [hr, hc]
    refine ⟨?_, ?_, ?_, fun _ => ⟨rfl, e, rfl⟩, hplain⟩
    · rintro _ ⟨⟩
    · rintro ⟨⟩
    · rintro _ ⟨⟩

example : (object [("a", any)]).conformsWith (.object [("b", .null)]) ⟨false, some 0⟩ = .ok false ∧
    (object [("a", any)]).reportWith (.object [("b", .null)]) ⟨false, some 0⟩ =
      .error ⟨0, [], "a"⟩ := ⟨rfl, rfl⟩

end Shape

end Conformance
