import Conformance.Record
import Mathlib.Data.List.Nodup

/-!
# Looking up keys of records

What a record reads as under a key, for records that are put together, filtered, mapped or
reordered.

Results:
* `Record.get?_eq_none_iff`, `Record.get?_eq_some_iff`: which keys are found, and with what.
* `Record.get?_append`, `Record.get?_filter`, `Record.get?_map`: composed records.
* `Record.distinct_map`: what is held under the keys does not make them less distinct.
* `Record.get?_eq_of_perm`: the order of distinct keys does not matter.
-/

namespace Conformance.Record

variable {α β : Type}

theorem get?_eq_none_iff {r : Record α} {key : String} : r.get? key = none ↔ key ∉ r.keys := by
  rw [← contains_iff_mem_keys, contains, Bool.not_eq_true, Option.isSome_eq_false_iff,
    Option.isNone_iff_eq_none]

theorem ne_of_notMem_keys {r : Record α} {key : String} (h : key ∉ r.keys) {e : String × α}
    (he : e ∈ r) : e.1 ≠ key := by
  rintro rfl
  exact h (List.mem_map_of_mem he)

theorem mem_of_get? {r : Record α} {key : String} {a : α} (h : r.get? key = some a) :
    (key, a) ∈ r := by
  induction r with
  | nil => cases h
  | cons e rest ih =>
    obtain ⟨k, b⟩ := e
    rw [get?_cons] at h
    split_ifs at h with hk
    · cases h
      rw [hk]
      exact List.mem_cons_self
    · exact List.mem_cons_of_mem _ (ih h)

/-- With distinct keys a look-up finds every entry. -/
theorem get?_eq_some_iff {r : Record α} (hr : r.Distinct) {key : String} {a : α} :
    r.get? key = some a ↔ (key, a) ∈ r := by
  refine ⟨mem_of_get?, fun h => ?_⟩
  induction r with
  | nil => cases h
  | cons e rest ih =>
    obtain ⟨k, b⟩ := e
    obtain ⟨hk, hrest⟩ := List.nodup_cons.mp hr
    rw [get?_cons]
    rcases List.mem_cons.mp h with he | hmem
    · cases he
      rw [if_pos rfl]
    · have hkey : key ∈ rest.map Prod.fst := List.mem_map.mpr ⟨(key, a), hmem, rfl⟩
      have hne : key ≠ k := by
        rintro rfl
        exact hk hkey
      rw [if_neg hne, ih hrest hmem]

theorem get?_append (r r' : Record α) (key : String) :
    get? (r ++ r') key = (r.get? key).or (r'.get? key) := by
  induction r with
  | nil => rfl
  | cons e rest ih =>
    obtain ⟨k, a⟩ := e
    rw [List.cons_append, get?_cons, get?_cons, ih]
    split_ifs <;> rfl

/-- Entries chosen by their keys. -/
theorem get?_filter (p : String → Bool) (r : Record α) (key : String) :
    get? (r.filter fun e => p e.1) key = if p key then r.get? key else none := by
  induction r with
  | nil => simp
  | cons e rest ih =>
    obtain ⟨k, a⟩ := e
    rw [List.filter_cons, get?_cons]
    by_cases hk : key = k
    · subst hk
      cases hp : p key <;> simp [hp, ih, get?_cons]
    · cases hp : p k <;> simp [ih, hk, get?_cons]

theorem get?_map (f : α → β) (r : Record α) (key : String) :
    get? (r.map fun e => (e.1, f e.2)) key = (r.get? key).map f := by
  induction r with
  | nil => rfl
  | cons e rest ih =>
    obtain ⟨k, a⟩ := e
    rw [List.map_cons, get?_cons, get?_cons, ih]
    split_ifs <;> rfl

theorem keys_map (f : α → β) (r : Record α) : keys (r.map fun e => (e.1, f e.2)) = r.keys := by
  rw [keys, List.map_map]
  rfl

theorem distinct_map {f : α → β} {r : Record α} (h : r.Distinct) :
    Distinct (r.map fun e => (e.1, f e.2)) := by
  rw [Distinct, keys_map]
  exact h

/-- The order of distinct keys does not matter. -/
theorem get?_eq_of_perm {r r' : Record α} (hr : r.Distinct) (h : r.Perm r') (key : String) :
    r.get? key = r'.get? key := by
  have hr' : r'.Distinct := (h.map Prod.fst).nodup_iff.mp hr
  refine Option.ext fun a => ?_
  rw [get?_eq_some_iff hr, get?_eq_some_iff hr']
  exact h.mem_iff

end Conformance.Record
