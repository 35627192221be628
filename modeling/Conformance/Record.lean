/-!
# Records

A record is a list of entries in insertion order. Entering a value under a key that is already
there keeps the key's position and replaces its value, so that a record built by entering has
distinct keys.

Results:
* `get?_insert`: entering changes what one key reads as, and nothing else.
* `keys_insert`: entering keeps the order of the keys and adds a new one at the end.
* `distinct_ofList`, `ofList_subset`: a record built from any list of entries has distinct keys, and
  holds nothing but what was entered.
-/

namespace Conformance

/-- Entries in insertion order. -/
abbrev Record (α : Type) := List (String × α)

namespace Record

variable {α : Type}

/-- The value under a key. -/
def get? : Record α → String → Option α
  | [], _ => none
  | (k, v) :: rest, key => if key = k then some v else get? rest key

def keys (r : Record α) : List String := r.map Prod.fst

def contains (r : Record α) (key : String) : Bool := (r.get? key).isSome

/-- Enters a value: in place when the key is there, at the end otherwise. -/
def insert : Record α → String → α → Record α
  | [], key, value => [(key, value)]
  | (k, v) :: rest, key, value =>
    if k = key then (k, value) :: rest else (k, v) :: insert rest key value

/-- The record that entering the given pairs one after the other builds. -/
def ofList (entries : List (String × α)) : Record α :=
  entries.foldl (fun r e => r.insert e.1 e.2) []

/-- No key occurs twice. -/
def Distinct (r : Record α) : Prop := r.keys.Nodup

@[simp] theorem get?_nil (key : String) : get? ([] : Record α) key = none := rfl

theorem get?_cons (k : String) (v : α) (rest : Record α) (key : String) :
    get? ((k, v) :: rest) key = if key = k then some v else get? rest key := rfl

theorem contains_iff_mem_keys (r : Record α) (key : String) :
    r.contains key = true ↔ key ∈ r.keys := by
  induction r with
  | nil => simp [contains, keys]
  | cons e rest ih =>
    obtain ⟨k, v⟩ := e
    simp only [contains, keys, get?_cons, List.map_cons, List.mem_cons] at ih ⊢
    by_cases h : key = k
    · simp [h]
    · simp [h, ih]

theorem get?_insert (r : Record α) (key : String) (value : α) (other : String) :
    (r.insert key value).get? other = if other = key then some value else r.get? other := by
  induction r with
  | nil => simp [insert, get?_cons]
  | cons e rest ih =>
    obtain ⟨k, v⟩ := e
    by_cases h : k = key
    · subst h
      by_cases ho : other = k <;> simp [insert, get?_cons, ho]
    · by_cases ho : other = k
      · subst ho
        simp [insert, get?_cons, h]
      · simp [insert, get?_cons, h, ho, ih]

theorem keys_insert (r : Record α) (key : String) (value : α) :
    (r.insert key value).keys = if key ∈ r.keys then r.keys else r.keys ++ [key] := by
  induction r with
  | nil => simp [insert, keys]
  | cons e rest ih =>
    obtain ⟨k, v⟩ := e
    by_cases h : k = key
    · simp [insert, keys, h]
    · have h' : key ≠ k := fun e => h e.symm
      simp only [keys] at ih
      simp only [insert, keys, h, h', if_false, List.map_cons, ih, List.mem_cons, false_or]
      by_cases hm : key ∈ rest.map Prod.fst <;> simp [hm]

theorem distinct_insert {r : Record α} (h : r.Distinct) (key : String) (value : α) :
    (r.insert key value).Distinct := by
  unfold Distinct at *
  rw [keys_insert]
  split
  · exact h
  · rename_i hk
    exact List.nodup_append.mpr ⟨h, by simp, by
      intro a ha b hb
      rw [List.mem_singleton.mp hb]
      rintro rfl
      exact hk ha⟩

/-- Entering changes one entry at most, and takes nothing from elsewhere. -/
theorem insert_subset (r : Record α) (key : String) (value : α) :
    r.insert key value ⊆ (key, value) :: r := by
  induction r with
  | nil => exact List.Subset.refl _
  | cons e rest ih =>
    obtain ⟨k, v⟩ := e
    by_cases h : k = key
    · subst h
      simp only [insert, if_true]
      exact List.cons_subset_cons _ (List.subset_cons_self _ _)
    · simp only [insert, h, if_false]
      refine List.cons_subset.mpr ⟨by simp, fun e he => ?_⟩
      rcases List.mem_cons.mp (ih he) with rfl | he
      · exact List.mem_cons_self
      · exact List.mem_cons_of_mem _ (List.mem_cons_of_mem _ he)

theorem distinct_ofList (entries : List (String × α)) : (ofList entries).Distinct :=
  List.foldlRecOn entries _ (by simp [Distinct, keys]) fun _ h e _ => distinct_insert h e.1 e.2

theorem ofList_subset (entries : List (String × α)) : ofList entries ⊆ entries :=
  List.foldlRecOn (motive := (· ⊆ entries)) entries _ (List.nil_subset _) fun r h e he =>
    List.Subset.trans (insert_subset r e.1 e.2) (List.cons_subset.mpr ⟨he, h⟩)

/-- A record that is built has distinct keys, and what holds of all that was entered holds of all
that it holds. -/
theorem distinct_and_forall_ofList {P : α → Prop} {entries : List (String × α)}
    (h : ∀ e ∈ entries, P e.2) : (ofList entries).Distinct ∧ ∀ e ∈ ofList entries, P e.2 :=
  ⟨distinct_ofList entries, fun e he => h e (ofList_subset entries he)⟩

end Record

end Conformance
