import Conformance.Examination
import Conformance.Proofs.Induction
import Conformance.Proofs.Walk
import Mathlib.Tactic.SplitIfs

/-!
# Positions

A shape and a value are compared place by place. A position is such a place: the keys that lead to
it, the shape that decides there, rid of the modifiers that do not admit the value, and the value.
From a position one step leads to an element of an array or to what a declared key reads as.

`Reaches` says which positions there are; `positions` lists them in the order of an examination,
parents before children, elements by index, declared keys in the order of the pattern.

Results:
* `mem_positions_iff`: the list holds the positions that are reached, and no others.
* `keys_positions`: it begins with the root, and `visited` lists the keys of the others.
* `keys_positionsOfItems_cons`, `keys_positionsOfFields_cons`: its keys, child by child.
* `visited_induction`: what holds of every trace that is put together as an examination does.
* `mem_visited_iff`: the key sequences that an examination steps into.
-/

namespace Conformance

/-- A place where a shape meets a value: the keys that lead there, the shape, and the value. -/
structure Position where
  keys : List String
  shape : Shape
  value : Value

/-- The position as it is seen from one key further up. -/
def Position.under (key : String) (p : Position) : Position := { p with keys := key :: p.keys }

/-- A modifier looks no further than whether the value is undefined or null. -/
theorem Modifier.admits_congr (m : Modifier) {v w : Value}
    (hundefined : v.isUndefined = w.isUndefined) (hnull : v.isNull = w.isNull) :
    m.admits v = m.admits w := by
  cases m
  · exact hundefined
  · exact hnull

namespace Shape

/-- The shape without the modifiers in front that do not admit the value. -/
def strip : Shape → Value → Shape
  | wrapped m inner, v => if m.admits v then wrapped m inner else strip inner v
  | s, _ => s

@[simp] theorem strip_array (element : Shape) (v : Value) :
    (array element).strip v = array element := rfl

@[simp] theorem strip_object (pattern : Record Shape) (v : Value) :
    (object pattern).strip v = object pattern := rfl

theorem strip_wrapped (m : Modifier) (inner : Shape) (v : Value) :
    (wrapped m inner).strip v = if m.admits v then wrapped m inner else inner.strip v := by
  rw [strip]

/-- One step: to an element of an array under its index, or to what a declared key reads as. -/
inductive Child : Shape → Value → String → Shape → Value → Prop
  | element {element : Shape} {items : List Value} {index : Nat} {item : Value} :
      items[index]? = some item → Child (array element) (.array items) (toString index) element item
  | property {pattern : Record Shape} {v : Value} {fields : Record Value} {key : String}
      {shape : Shape} : v.fields? = some fields → (key, shape) ∈ pattern →
      Child (object pattern) v key shape (Value.read fields key)

/-- From a shape and a value, keys lead to a stripped shape and the value that it meets. -/
inductive Reaches : Shape → Value → List String → Shape → Value → Prop
  | root (s : Shape) (v : Value) : Reaches s v [] (s.strip v) v
  | step {s t t' : Shape} {v w w' : Value} {key : String} {keys : List String} :
      Child (s.strip v) v key t w → Reaches t w keys t' w' → Reaches s v (key :: keys) t' w'

/-- The positions of the elements of an array from an index on. -/
def positionsOfItems (visit : Value → List Position) : Nat → List Value → List Position
  | _, [] => []
  | index, item :: rest =>
    (visit item).map (Position.under (toString index)) ++ positionsOfItems visit (index + 1) rest

mutual

/-- The positions of a shape and a value, in the order of an examination. -/
def positions : Shape → Value → List Position
  | wrapped m inner, v => if m.admits v then [⟨[], wrapped m inner, v⟩] else positions inner v
  | array element, .array items =>
    ⟨[], array element, .array items⟩ :: positionsOfItems (positions element) 0 items
  | object pattern, v =>
    ⟨[], object pattern, v⟩ ::
      match v.fields? with
      | some fields => positionsOfFields pattern fields
      | none => []
  | s, v => [⟨[], s, v⟩]

/-- The positions of the declared keys of a pattern. -/
def positionsOfFields : List (String × Shape) → Record Value → List Position
  | [], _ => []
  | (key, shape) :: rest, fields =>
    (positions shape (Value.read fields key)).map (Position.under key) ++
      positionsOfFields rest fields

end

/-- The keys of the positions below the root, in the order of an examination. -/
def visited (s : Shape) (v : Value) : List (List String) := ((positions s v).map Position.keys).tail

/-! ## The list holds what is reached -/

theorem mem_positionsOfItems {visit : Value → List Position} {p : Position} {items : List Value} :
    ∀ {index : Nat}, p ∈ positionsOfItems visit index items ↔
      ∃ i item, items[i]? = some item ∧
        ∃ q ∈ visit item, p = q.under (toString (index + i)) := by
  induction items with
  | nil => intro index; simp [positionsOfItems]
  | cons item rest ih =>
    intro index
    rw [positionsOfItems, List.mem_append, ih, List.mem_map]
    constructor
    · rintro (⟨q, hq, rfl⟩ | ⟨i, x, hx, q, hq, rfl⟩)
      · exact ⟨0, item, rfl, q, hq, rfl⟩
      · exact ⟨i + 1, x, hx, q, hq, by rw [Nat.add_right_comm, Nat.add_assoc]⟩
    · rintro ⟨i, x, hx, q, hq, rfl⟩
      cases i with
      | zero =>
        cases hx
        exact .inl ⟨q, hq, rfl⟩
      | succ i => exact .inr ⟨i, x, hx, q, hq, by rw [Nat.add_right_comm, Nat.add_assoc]⟩

theorem mem_positionsOfFields {p : Position} {fields : Record Value} {pattern : Record Shape} :
    p ∈ positionsOfFields pattern fields ↔
      ∃ key shape, (key, shape) ∈ pattern ∧
        ∃ q ∈ positions shape (Value.read fields key), p = q.under key := by
  induction pattern with
  | nil => simp [positionsOfFields]
  | cons f rest ih =>
    obtain ⟨k, t⟩ := f
    rw [positionsOfFields, List.mem_append, ih, List.mem_map]
    constructor
    · rintro (⟨q, hq, rfl⟩ | ⟨key, shape, hm, hq⟩)
      · exact ⟨k, t, List.mem_cons_self, q, hq, rfl⟩
      · exact ⟨key, shape, List.mem_cons_of_mem _ hm, hq⟩
    · rintro ⟨key, shape, hm, q, hq, rfl⟩
      rcases List.mem_cons.mp hm with he | hm
      · cases he
        exact .inl ⟨q, hq, rfl⟩
      · exact .inr ⟨key, shape, hm, q, hq, rfl⟩

/-- The list unfolds as the steps do. -/
theorem mem_positions_iff_child {s : Shape} {v : Value} {p : Position} :
    p ∈ positions s v ↔ p = ⟨[], s.strip v, v⟩ ∨
      ∃ key t w, Child (s.strip v) v key t w ∧ ∃ q ∈ positions t w, p = q.under key := by
  induction s with
  | wrapped m inner ih =>
    rw [positions, strip_wrapped]
    split_ifs
    · rw [List.mem_singleton]
      refine ⟨Or.inl, ?_⟩
      rintro (hp | ⟨key, t, w, hc, -⟩)
      · exact hp
      · cases hc
    · exact ih
  | array element =>
    cases v with
    | array items =>
      rw [positions, strip_array, List.mem_cons, mem_positionsOfItems]
      simp only [Nat.zero_add]
      refine or_congr_right ⟨?_, ?_⟩
      · rintro ⟨i, item, hi, hq⟩
        exact ⟨toString i, element, item, .element hi, hq⟩
      · rintro ⟨key, t, w, hc, hq⟩
        cases hc with
        | element hi => exact ⟨_, _, hi, hq⟩
    | _ =>
      simp only [positions, strip, List.mem_singleton]
      refine ⟨Or.inl, ?_⟩
      rintro (hp | ⟨key, t, w, hc, -⟩)
      · exact hp
      · cases hc
  | object pattern =>
    rw [positions, strip_object, List.mem_cons]
    refine or_congr_right ⟨fun hp => ?_, ?_⟩
    · split at hp
      next fields hf =>
        obtain ⟨key, shape, hm, hq⟩ := mem_positionsOfFields.mp hp
        exact ⟨key, shape, _, .property hf hm, hq⟩
      next => cases hp
    · rintro ⟨key, t, w, hc, hq⟩
      cases hc with
      | property hf hm =>
        rw [hf]
        exact mem_positionsOfFields.mpr ⟨_, _, hm, hq⟩
  | _ =>
    simp only [positions, strip, List.mem_singleton]
    refine ⟨Or.inl, ?_⟩
    rintro (hp | ⟨key, t, w, hc, -⟩)
    · exact hp
    · cases hc

/-- The listed positions are the ones that are reached. -/
theorem mem_positions_iff {s t : Shape} {v w : Value} {keys : List String} :
    ⟨keys, t, w⟩ ∈ positions s v ↔ Reaches s v keys t w := by
  induction keys generalizing s v with
  | nil =>
    rw [mem_positions_iff_child]
    constructor
    · rintro (hp | ⟨key, t', w', -, q, -, hp⟩)
      · cases hp
        exact .root s w
      · cases hp
    · rintro ⟨⟩
      exact .inl rfl
  | cons key keys ih =>
    rw [mem_positions_iff_child]
    constructor
    · rintro (hp | ⟨k, t', w', hc, q, hq, hp⟩)
      · cases hp
      · cases hp
        exact .step hc (ih.mp hq)
    · rintro (_ | ⟨hc, hr⟩)
      exact .inr ⟨key, _, _, hc, ⟨keys, t, w⟩, ih.mpr hr, rfl⟩

/-! ## The keys of the list -/

theorem keys_positions (s : Shape) (v : Value) :
    (positions s v).map Position.keys = [] :: visited s v := by
  have root : ∃ rest, (positions s v).map Position.keys = [] :: rest := by
    induction s with
    | wrapped m inner ih =>
      rw [positions]
      split_ifs
      · exact ⟨_, rfl⟩
      · exact ih
    | array element => cases v <;> exact ⟨_, rfl⟩
    | _ => exact ⟨_, rfl⟩
  obtain ⟨rest, hr⟩ := root
  rw [visited, hr, List.tail_cons]

/-- The keys of a child's positions are the trace of a step into the child and on from there. -/
theorem keys_positions_under (key : String) (s : Shape) (v : Value) :
    ((positions s v).map (Position.under key)).map Position.keys =
      Walk.into key (visited s v) := by
  have hmap : ((positions s v).map (Position.under key)).map Position.keys =
      ((positions s v).map Position.keys).map (key :: ·) := by
    rw [List.map_map, List.map_map]
    rfl
  rw [hmap, keys_positions]
  rfl

theorem keys_positionsOfItems_cons (element : Shape) (index : Nat) (item : Value)
    (rest : List Value) :
    (positionsOfItems (positions element) index (item :: rest)).map Position.keys =
      Walk.into (toString index) (visited element item) ++
        (positionsOfItems (positions element) (index + 1) rest).map Position.keys := by
  rw [positionsOfItems, List.map_append, keys_positions_under]

theorem keys_positionsOfFields_cons (key : String) (shape : Shape) (rest : Record Shape)
    (fields : Record Value) :
    (positionsOfFields ((key, shape) :: rest) fields).map Position.keys =
      Walk.into key (visited shape (Value.read fields key)) ++
        (positionsOfFields rest fields).map Position.keys := by
  rw [positionsOfFields, List.map_append, keys_positions_under]

theorem visited_array (element : Shape) (items : List Value) :
    visited (array element) (.array items) =
      (positionsOfItems (positions element) 0 items).map Position.keys := by
  rw [visited, positions, List.map_cons, List.tail_cons]

theorem visited_object {v : Value} {fields : Record Value} (pattern : Record Shape)
    (h : v.fields? = some fields) :
    visited (object pattern) v = (positionsOfFields pattern fields).map Position.keys := by
  rw [visited, positions, h, List.map_cons, List.tail_cons]

theorem visited_wrapped (m : Modifier) (inner : Shape) (v : Value) :
    visited (wrapped m inner) v = if m.admits v then [] else visited inner v := by
  rw [visited, positions]
  split_ifs <;> rfl

/-! ## Induction over what is visited -/

section Induction

variable {motive : List (List String) → Prop} (nil : motive [])
  (append : ∀ {t t'}, motive t → motive t' → motive (t ++ t'))
  (into : ∀ key t, motive t → motive (Walk.into key t))

include nil append into

theorem keys_positionsOfItems_induction {element : Shape} (h : ∀ v, motive (visited element v))
    (items : List Value) :
    ∀ index, motive ((positionsOfItems (positions element) index items).map Position.keys) := by
  induction items with
  | nil => exact fun _ => nil
  | cons item rest ih =>
    intro index
    rw [keys_positionsOfItems_cons]
    exact append (into (toString index) _ (h item)) (ih (index + 1))

theorem keys_positionsOfFields_induction {fields : Record Value} {pattern : Record Shape}
    (h : ∀ f ∈ pattern, ∀ v, motive (visited f.2 v)) :
    motive ((positionsOfFields pattern fields).map Position.keys) := by
  induction pattern with
  | nil => exact nil
  | cons f rest ih =>
    obtain ⟨key, shape⟩ := f
    rw [keys_positionsOfFields_cons]
    refine append (into key _ (h _ List.mem_cons_self _)) ?_
    exact ih fun f hf => h f (List.mem_cons_of_mem _ hf)

/-- What holds of no steps, of steps one after the other and of steps into a child holds of the
steps of an examination. -/
theorem visited_induction (s : Shape) (v : Value) : motive (visited s v) := by
  induction s generalizing v with
  | array element ih =>
    cases v with
    | array items =>
      rw [visited_array]
      exact keys_positionsOfItems_induction nil append into ih items 0
    | _ => exact nil
  | object pattern ih =>
    cases hf : v.fields? with
    | some fields =>
      rw [visited_object pattern hf]
      exact keys_positionsOfFields_induction nil append into ih
    | none =>
      rw [visited, positions, hf]
      exact nil
  | wrapped m inner ih =>
    rw [visited_wrapped]
    split_ifs
    · exact nil
    · exact ih v
  | _ => exact nil

end Induction

theorem ne_nil_of_mem_visited {s : Shape} {v : Value} :
    ∀ keys ∈ visited s v, keys ≠ [] := by
  refine visited_induction (motive := fun t => ∀ keys ∈ t, keys ≠ []) ?_ ?_ ?_ s v
  · exact fun keys h => by cases h
  · exact fun h h' => List.forall_mem_append.mpr ⟨h, h'⟩
  · intro key t _
    simp [Walk.into]

/-- Below the root an examination steps into exactly the key sequences that are reached. -/
theorem mem_visited_iff {s : Shape} {v : Value} {keys : List String} :
    keys ∈ visited s v ↔ keys ≠ [] ∧ ∃ t w, Reaches s v keys t w := by
  have hmem : keys = [] ∨ keys ∈ visited s v ↔ ∃ t w, Reaches s v keys t w := by
    rw [← List.mem_cons, ← keys_positions, List.mem_map]
    constructor
    · rintro ⟨p, hp, rfl⟩
      exact ⟨p.shape, p.value, mem_positions_iff.mp hp⟩
    · rintro ⟨t, w, hr⟩
      exact ⟨⟨keys, t, w⟩, mem_positions_iff.mpr hr, rfl⟩
  rw [← hmem]
  constructor
  · exact fun h => ⟨ne_nil_of_mem_visited keys h, .inr h⟩
  · rintro ⟨hne, h⟩
    exact h.resolve_left hne

end Shape

end Conformance
