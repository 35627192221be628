import Conformance.Proofs.Finding

/-!
# The meaning of a depth limit

A limit of `n` refuses the first step that has more than `n` keys. The steps grow one key at a
time, so that step has `n + 1` keys, and no limit matters that is as deep as every position.

Results:
* `Walk.Gradual`: the first key sequence past a length is one key longer; `Shape.visited_gradual`.
* `Guard.firstRefusal?_eq_some_iff`: what a fresh guard refuses along such a trace.
* `DepthExceeded.path_mk`: the path that a refusal prints.
* `Shape.reportWith_depthLimit`: when a limit makes a report fail, with which refusal, and what
  the report is otherwise.
-/

namespace Conformance

/-! ## Traces that grow one key at a time -/

namespace Walk

/-- The first key sequence past any length is just one key longer. -/
def Gradual (trace : List (List String)) : Prop :=
  ∀ n, trace.find? (fun keys => n < keys.length) = trace.find? (fun keys => keys.length = n + 1)

theorem Gradual.nil : Gradual [] := fun _ => rfl

theorem Gradual.append {t t' : List (List String)} (h : Gradual t) (h' : Gradual t') :
    Gradual (t ++ t') := by
  intro n
  rw [List.find?_append, List.find?_append, h n, h' n]

theorem Gradual.into {t : List (List String)} (key : String) (h : Gradual t) :
    Gradual (into key t) := by
  intro n
  cases n with
  | zero => rfl
  | succ n =>
    have below : (t.map (key :: ·)).find? (fun keys => n + 1 < keys.length) =
        (t.map (key :: ·)).find? (fun keys => keys.length = n + 1 + 1) := by
      rw [List.find?_map, List.find?_map]
      simpa [Function.comp_def] using congrArg (Option.map (key :: ·)) (h n)
    simpa [Walk.into] using below

end Walk

namespace Shape

theorem visited_gradual (s : Shape) (v : Value) : Walk.Gradual (visited s v) :=
  visited_induction Walk.Gradual.nil Walk.Gradual.append (fun key _ h => h.into key) s v

end Shape

/-! ## Refusals of a fresh guard -/

namespace Guard

theorem refusal?_ofLimit_eq_none_iff {n : Nat} {keys : List String} :
    (ofLimit (some n)).refusal? keys = none ↔ keys.length ≤ n := by
  rw [refusal?_eq_none_iff rfl (Nat.zero_le n), show (ofLimit (some n)).depth = 0 from rfl,
    Nat.zero_add]

theorem firstRefusal?_ofLimit_eq_none_iff {n : Nat} {trace : List (List String)} :
    (ofLimit (some n)).firstRefusal? trace = none ↔ ∀ keys ∈ trace, keys.length ≤ n := by
  rw [firstRefusal?, List.findSome?_eq_none_iff]
  exact forall₂_congr fun keys _ => refusal?_ofLimit_eq_none_iff

/-- The first refusal is that of the first key sequence past the limit. -/
theorem firstRefusal?_ofLimit (n : Nat) (trace : List (List String)) :
    (ofLimit (some n)).firstRefusal? trace =
      (trace.find? fun keys => n < keys.length).bind (ofLimit (some n)).refusal? := by
  induction trace with
  | nil => rfl
  | cons keys rest ih =>
    rw [firstRefusal?, List.findSome?_cons, List.find?_cons]
    by_cases h : n < keys.length
    · have hne : (ofLimit (some n)).refusal? keys ≠ none := by
        rw [ne_eq, refusal?_ofLimit_eq_none_iff]
        omega
      obtain ⟨e, he⟩ := Option.ne_none_iff_exists'.mp hne
      simp [h, he]
    · rw [refusal?_ofLimit_eq_none_iff.mpr (Nat.le_of_not_lt h)]
      simpa [h, firstRefusal?] using ih

/-- Along a gradual trace the refused key sequence has one key more than the limit. -/
theorem firstRefusal?_eq_some_iff {n : Nat} {trace : List (List String)} {e : DepthExceeded}
    (h : Walk.Gradual trace) : (ofLimit (some n)).firstRefusal? trace = some e ↔
      ∃ keys, trace.find? (fun keys => keys.length = n + 1) = some keys ∧
        (ofLimit (some n)).refusal? keys = some e := by
  rw [firstRefusal?_ofLimit, h n, Option.bind_eq_some_iff]

theorem foldlM_enter_of_refusal? {g : Guard} {keys : List String} {e : DepthExceeded}
    (h : g.refusal? keys = some e) : keys.foldlM enter g = .error e := by
  rw [refusal?] at h
  split at h
  next => cases h
  next e' he => rw [he, Option.some.inj h]

end Guard

/-! ## The text of a refusal -/

theorem intercalate_eq_empty_iff {keys : List String} :
    ".".intercalate keys = "" ↔ keys = [] ∨ keys = [""] := by
  match keys with
  | [] => simp
  | [key] => simp
  | key :: next :: rest =>
    rw [String.intercalate_cons_cons]
    simp

theorem intercalate_append_singleton {above : List String} (h : above ≠ []) (key : String) :
    ".".intercalate (above ++ [key]) = ".".intercalate above ++ "." ++ key := by
  rw [String.intercalate_append_of_ne_nil h (List.cons_ne_nil key []), String.intercalate_singleton]

/-- A refusal joins all keys, unless a single empty one was open. -/
theorem DepthExceeded.path_mk (limit : Nat) (above : List String) (key : String) :
    path ⟨limit, above, key⟩ =
      if above = [""] then key else ".".intercalate (above ++ [key]) := by
  have hparents : (".".intercalate above).isEmpty = true ↔ above = [] ∨ above = [""] := by
    rw [String.isEmpty_iff, intercalate_eq_empty_iff]
  by_cases hroot : above = []
  · subst hroot
    simp [path]
  · simp only [path, hparents, hroot, false_or]
    split_ifs
    · rfl
    · rw [intercalate_append_singleton hroot]

/-! ## Reports under a limit -/

namespace Shape

variable {s : Shape} {v : Value} {subset : Bool} {n : Nat}

theorem reportWith_eq_error_iff {e : DepthExceeded} :
    s.reportWith v ⟨subset, some n⟩ = .error e ↔
      (Guard.ofLimit (some n)).firstRefusal? (visited s v) = some e := by
  rw [reportWith_eq]
  cases (Guard.ofLimit (some n)).firstRefusal? (visited s v) <;> simp

theorem reportWith_eq_ok_iff {r : Finding} :
    s.reportWith v ⟨subset, some n⟩ = .ok r ↔
      (∀ keys ∈ visited s v, keys.length ≤ n) ∧ finding subset s v = r := by
  rw [reportWith_eq, ← Guard.firstRefusal?_ofLimit_eq_none_iff]
  cases (Guard.ofLimit (some n)).firstRefusal? (visited s v) <;> simp

theorem exists_reportWith_eq_error_iff :
    (∃ e, s.reportWith v ⟨subset, some n⟩ = .error e) ↔
      ∃ keys t w, Reaches s v keys t w ∧ n < keys.length := by
  simp only [reportWith_eq_error_iff]
  rw [← Option.ne_none_iff_exists', ne_eq, Guard.firstRefusal?_ofLimit_eq_none_iff]
  simp only [Classical.not_forall, Nat.not_le, exists_prop]
  constructor
  · rintro ⟨keys, hk, hlt⟩
    obtain ⟨-, t, w, hr⟩ := mem_visited_iff.mp hk
    exact ⟨keys, t, w, hr, hlt⟩
  · rintro ⟨keys, t, w, hr, hlt⟩
    have hne : keys ≠ [] := by
      rintro rfl
      exact Nat.not_lt_zero n hlt
    exact ⟨keys, mem_visited_iff.mpr ⟨hne, t, w, hr⟩, hlt⟩

/-- A refusal names the first position of `n + 1` keys. -/
theorem refused_of_reportWith_eq_error {e : DepthExceeded}
    (h : s.reportWith v ⟨subset, some n⟩ = .error e) :
    e.limit = n ∧ ∃ keys, (visited s v).find? (fun keys => keys.length = n + 1) = some keys ∧
      keys.foldlM Guard.enter (Guard.ofLimit (some n)) = .error e ∧ e.opened ++ [e.key] = keys ∧
      e.path = if e.opened = [""] then e.key else ".".intercalate keys := by
  obtain ⟨keys, hfind, he⟩ :=
    (Guard.firstRefusal?_eq_some_iff (visited_gradual s v)).mp (reportWith_eq_error_iff.mp h)
  have hlen : keys.length = n + 1 := by simpa using List.find?_some hfind
  obtain ⟨hlimit, hopened⟩ := Guard.opened_of_refusal? rfl (Nat.zero_le n) he
  have hkeys : e.opened ++ [e.key] = keys := by
    rw [hopened]
    exact List.take_of_length_le (Nat.le_of_eq hlen)
  refine ⟨hlimit, keys, hfind, Guard.foldlM_enter_of_refusal? he, hkeys, ?_⟩
  rw [← hkeys]
  exact DepthExceeded.path_mk e.limit e.opened e.key

/-- **The depth limit.** With a limit of `n` a report fails exactly when keys reach deeper than `n`.
The refusal holds the limit and the first position of `n + 1` keys in visiting order, as entering
those keys one after the other gives it, and its path is the text of these keys with points between
them; of just two keys, an empty first one is left out. Otherwise the report is the one without a
limit. So a limit that suffices can be raised, and neither success nor the refusal depends on
undeclared keys being tolerated. -/
theorem reportWith_depthLimit (s : Shape) (v : Value) (subset : Bool) (n : Nat) :
    ((∃ e, s.reportWith v ⟨subset, some n⟩ = .error e) ↔
        ∃ keys t w, Reaches s v keys t w ∧ n < keys.length) ∧
      (∀ e, s.reportWith v ⟨subset, some n⟩ = .error e → e.limit = n ∧
        ∃ keys, (visited s v).find? (fun keys => keys.length = n + 1) = some keys ∧
          keys.foldlM Guard.enter (Guard.ofLimit (some n)) = .error e ∧
          e.opened ++ [e.key] = keys ∧
          e.path = if e.opened = [""] then e.key else ".".intercalate keys) ∧
      (∀ r, s.reportWith v ⟨subset, some n⟩ = .ok r → s.reportWith v ⟨subset, none⟩ = .ok r) ∧
      (∀ m r, n ≤ m → s.reportWith v ⟨subset, some n⟩ = .ok r →
        s.reportWith v ⟨subset, some m⟩ = .ok r) ∧
      (∀ other, ((∃ r, s.reportWith v ⟨subset, some n⟩ = .ok r) ↔
          ∃ r, s.reportWith v ⟨other, some n⟩ = .ok r) ∧
        ∀ e, s.reportWith v ⟨subset, some n⟩ = .error e ↔
          s.reportWith v ⟨other, some n⟩ = .error e) := by
  refine ⟨exists_reportWith_eq_error_iff, fun e h => refused_of_reportWith_eq_error h,
    fun r h => ?_, fun m r hm h => ?_, fun other => ⟨?_, fun e => ?_⟩⟩
  · rw [reportWith_unlimited, (reportWith_eq_ok_iff.mp h).2]
  · obtain ⟨hdeep, hr⟩ := reportWith_eq_ok_iff.mp h
    exact reportWith_eq_ok_iff.mpr ⟨fun keys hk => Nat.le_trans (hdeep keys hk) hm, hr⟩
  · simp only [reportWith_eq_ok_iff, exists_and_left, exists_eq', and_true]
  · rw [reportWith_eq_error_iff, reportWith_eq_error_iff]

end Shape

end Conformance
