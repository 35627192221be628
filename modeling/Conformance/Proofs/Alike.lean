import Conformance.Proofs.Finding
import Conformance.Proofs.Identities
import Conformance.Proofs.Lookup
import Mathlib.Data.List.Forall2
import Mathlib.Data.List.Perm.Subperm

/-!
# Alike up to the order of keys

Values, shapes and reports are alike when they differ in the order of keys only, at every level, and
in their numbers no more than a relation `N` on numbers allows. With the equality of the standard
for `N` this is equality itself; with identity for `N` it says that keys were put in another order.

Results:
* `Record.alike_iff`: with distinct keys, two records are alike when every key reads alike.
* `Value.alike_of_beq`, `Shape.alike_of_beq`: equal values and shapes are alike.
* `Value.beq_of_alike`, `Report.beq_of_alike`: values and reports that are alike are equal.
-/

namespace Conformance

/-! ## Records -/

/-- Two records have the same keys, and what they hold under each key is related. -/
structure Record.Alike {α β : Type} (R : α → β → Prop) (a : Record α) (b : Record β) : Prop where
  length_eq : a.length = b.length
  key_mem : ∀ e ∈ a, e.1 ∈ b.keys
  related : ∀ e ∈ a, ∀ y, b.get? e.1 = some y → R e.2 y

theorem forall₂_imp_of_mem {α β : Type} {R S : α → β → Prop} {l : List α} {u : List β}
    (h : List.Forall₂ R l u) (himp : ∀ a ∈ l, ∀ b ∈ u, R a b → S a b) : List.Forall₂ S l u := by
  rw [List.forall₂_iff_zip] at h ⊢
  refine ⟨h.1, fun hzip => ?_⟩
  obtain ⟨ha, hb⟩ := List.of_mem_zip hzip
  exact himp _ ha _ hb (h.2 hzip)

theorem isSome_eq_of_rel {α β : Type} {R : α → β → Prop} {x : Option α} {y : Option β}
    (h : Option.Rel R x y) : x.isSome = y.isSome := by
  cases h <;> rfl

namespace Record

variable {α β : Type} {R : α → β → Prop} {a : Record α} {b : Record β}

theorem Alike.keys_perm (ha : a.Distinct) (h : Alike R a b) : a.keys.Perm b.keys := by
  have hsubset : a.keys ⊆ b.keys := by
    intro key hkey
    obtain ⟨e, he, rfl⟩ := List.mem_map.mp hkey
    exact h.key_mem e he
  have hlength : b.keys.length ≤ a.keys.length := by
    simp only [keys, List.length_map, h.length_eq, Nat.le_refl]
  exact (List.subperm_of_subset ha hsubset).perm_of_length_le hlength

/-- With distinct keys, two records are alike exactly when every key reads alike. -/
theorem alike_iff (ha : a.Distinct) (hb : b.Distinct) :
    Alike R a b ↔ ∀ key, Option.Rel R (a.get? key) (b.get? key) := by
  constructor
  · intro h key
    have hkeys := (h.keys_perm ha).mem_iff (a := key)
    cases hx : a.get? key with
    | none =>
      rw [get?_eq_none_iff, hkeys, ← get?_eq_none_iff] at hx
      rw [hx]
      exact .none
    | some x =>
      have hmem := mem_of_get? hx
      cases hy : b.get? key with
      | none => exact absurd (h.key_mem _ hmem) (get?_eq_none_iff.mp hy)
      | some y => exact .some (h.related _ hmem y hy)
  · intro h
    have hkeys : ∀ key, key ∈ a.keys ↔ key ∈ b.keys := by
      intro key
      rw [← contains_iff_mem_keys, ← contains_iff_mem_keys, contains, contains,
        isSome_eq_of_rel (h key)]
    have hlength := ((List.perm_ext_iff_of_nodup ha hb).mpr hkeys).length_eq
    rw [keys, keys, List.length_map, List.length_map] at hlength
    refine ⟨hlength, fun e he => (hkeys e.1).mp (List.mem_map_of_mem he), fun e he y hy => ?_⟩
    have hread := h e.1
    rwa [(get?_eq_some_iff ha).mpr he, hy, Option.rel_some_some] at hread

/-- Entries that agree place by place read alike. -/
theorem get?_rel_of_forall₂ (h : List.Forall₂ (fun e f => e.1 = f.1 ∧ R e.2 f.2) a b)
    (key : String) : Option.Rel R (a.get? key) (b.get? key) := by
  induction h with
  | nil => exact .none
  | @cons e f _ _ he _ ih =>
    obtain ⟨k, x⟩ := e
    obtain ⟨k', y⟩ := f
    obtain ⟨rfl, hxy⟩ := he
    rw [get?_cons, get?_cons]
    split_ifs
    · exact .some hxy
    · exact ih

theorem Alike.imp {S : α → β → Prop} (h : Alike R a b)
    (himp : ∀ e ∈ a, ∀ f ∈ b, R e.2 f.2 → S e.2 f.2) : Alike S a b :=
  ⟨h.length_eq, h.key_mem, fun e he y hy => himp e he _ (mem_of_get? hy) (h.related e he y hy)⟩

/-- Does a record hold something under the key of an entry that passes the test against it? -/
def meets (test : α → β → Bool) (r : Record β) (e : String × α) : Bool :=
  match r.get? e.1 with
  | some y => test e.2 y
  | none => false

theorem meets_iff {test : α → β → Bool} {e : String × α} : meets test b e = true ↔
    e.1 ∈ b.keys ∧ ∀ y, b.get? e.1 = some y → test e.2 y = true := by
  rw [← contains_iff_mem_keys, contains, meets]
  cases b.get? e.1 <;> simp

/-- Likeness as it is tested, by the number of entries and entry by entry. -/
theorem alike_iff_meets {test : α → β → Bool} :
    (a.length == b.length && a.all (meets test b)) = true ↔
      Alike (fun x y => test x y = true) a b := by
  simp only [Bool.and_eq_true, beq_iff_eq, List.all_eq_true, meets_iff]
  constructor
  · exact fun h => ⟨h.1, fun e he => (h.2 e he).1, fun e he => (h.2 e he).2⟩
  · exact fun h => ⟨h.length_eq, fun e he => ⟨h.key_mem e he, h.related e he⟩⟩

end Record

/-! ## Values and shapes -/

/-- The same value up to the order of keys and up to `N` for numbers. -/
inductive Value.Alike (N : Binary64 → Binary64 → Prop) : Value → Value → Prop
  | undefined : Alike N .undefined .undefined
  | null : Alike N .null .null
  | bool (b : Bool) : Alike N (.bool b) (.bool b)
  | number {x y : Binary64} : N x y → Alike N (.number x) (.number y)
  | bigint (n : Int) : Alike N (.bigint n) (.bigint n)
  | string (s : String) : Alike N (.string s) (.string s)
  | symbol {a b : Symbol} : a.id = b.id → Alike N (.symbol a) (.symbol b)
  | array {a b : List Value} : List.Forall₂ (Alike N) a b → Alike N (.array a) (.array b)
  | object {a b : Record Value} : a.length = b.length → (∀ f ∈ a, f.1 ∈ Record.keys b) →
      (∀ f ∈ a, ∀ y, Record.get? b f.1 = some y → Alike N f.2 y) → Alike N (.object a) (.object b)
  | instanceOf (c : Class) {a b : Record Value} :
      a.length = b.length → (∀ f ∈ a, f.1 ∈ Record.keys b) →
      (∀ f ∈ a, ∀ y, Record.get? b f.1 = some y → Alike N f.2 y) →
      Alike N (.instanceOf c a) (.instanceOf c b)
  | date (t : Instant) : Alike N (.date t) (.date t)
  | function {f g : NamedFunction} : f.id = g.id → Alike N (.function f) (.function g)
  | constructor (c : Class) : Alike N (.constructor c) (.constructor c)

/-- The same shape up to the order of declared keys and up to `N` for the numbers of literals. -/
inductive Shape.Alike (N : Binary64 → Binary64 → Prop) : Shape → Shape → Prop
  | any : Alike N any any
  | undefined : Alike N undefined undefined
  | null : Alike N null null
  | literal {l k : Literal} : l.toValue.Alike N k.toValue → Alike N (literal l) (literal k)
  | marker (m : Marker) : Alike N (marker m) (marker m)
  | ofClass (c : Class) : Alike N (ofClass c) (ofClass c)
  | array {s t : Shape} : Alike N s t → Alike N (array s) (array t)
  | object {a b : Record Shape} : a.length = b.length → (∀ f ∈ a, f.1 ∈ Record.keys b) →
      (∀ f ∈ a, ∀ y, Record.get? b f.1 = some y → Alike N f.2 y) → Alike N (object a) (object b)
  | wrapped (m : Modifier) {s t : Shape} : Alike N s t → Alike N (wrapped m s) (wrapped m t)

/-! ## Reports -/

inductive Label.Alike (N : Binary64 → Binary64 → Prop) : Label → Label → Prop
  | kind (name : String) : Alike N (.kind name) (.kind name)
  | literal {v w : Value} : v.Alike N w → Alike N (.literal v) (.literal w)

inductive Leaf.Alike (N : Binary64 → Binary64 → Prop) : Leaf → Leaf → Prop
  | mismatch {actual actual' expected expected' : Label} {value value' : Option Value} :
      actual.Alike N actual' → expected.Alike N expected' →
      Option.Rel (Value.Alike N) value value' →
      Alike N (.mismatch actual expected value) (.mismatch actual' expected' value')
  | unexpected (kind : String) {v w : Value} :
      v.Alike N w → Alike N (.unexpected kind v) (.unexpected kind w)

/-- The same report up to the order of keys and up to `N` for numbers. -/
inductive Report.Alike (N : Binary64 → Binary64 → Prop) : Report → Report → Prop
  | leaf {l k : Leaf} : l.Alike N k → Alike N (leaf l) (leaf k)
  | nested {a b : List (String × Report)} : a.length = b.length →
      (∀ c ∈ a, c.1 ∈ Record.keys b) →
      (∀ c ∈ a, ∀ y, Record.get? b c.1 = some y → Alike N c.2 y) → Alike N (nested a) (nested b)

/-! ## Likeness of records inside -/

section Nested

variable {N : Binary64 → Binary64 → Prop}

theorem Value.alike_object_iff {a b : Record Value} :
    (Value.object a).Alike N (.object b) ↔ Record.Alike (Value.Alike N) a b := by
  constructor
  · rintro ⟨⟩
    constructor <;> assumption
  · exact fun h => .object h.length_eq h.key_mem h.related

theorem Value.alike_instanceOf_iff {c : Class} {a b : Record Value} :
    (Value.instanceOf c a).Alike N (.instanceOf c b) ↔ Record.Alike (Value.Alike N) a b := by
  constructor
  · rintro ⟨⟩
    constructor <;> assumption
  · exact fun h => .instanceOf c h.length_eq h.key_mem h.related

theorem Shape.alike_object_iff {a b : Record Shape} :
    (Shape.object a).Alike N (.object b) ↔ Record.Alike (Shape.Alike N) a b := by
  constructor
  · rintro ⟨⟩
    constructor <;> assumption
  · exact fun h => .object h.length_eq h.key_mem h.related

theorem Report.alike_nested_iff {a b : List (String × Report)} :
    (Report.nested a).Alike N (.nested b) ↔ Record.Alike (Report.Alike N) a b := by
  constructor
  · rintro ⟨⟩
    constructor <;> assumption
  · exact fun h => .nested h.length_eq h.key_mem h.related

end Nested

/-! ## Equality as likeness -/

/-- Equality of numbers in the sense of the standard. -/
def Binary64.Equal (x y : Binary64) : Prop := (x == y) = true

namespace Value

theorem beqItems_iff {a b : List Value} :
    beqItems a b = true ↔ List.Forall₂ (fun x y => beq x y = true) a b := by
  induction a generalizing b with
  | nil => cases b <;> simp [beqItems]
  | cons x rest ih => cases b <;> simp [beqItems, ih]

theorem beqFields_eq_all (a b : Record Value) : beqFields a b = a.all (Record.meets beq b) := by
  induction a with
  | nil => rfl
  | cons e rest ih =>
    rw [beqFields, List.all_cons, ih, Record.meets]
    cases Record.get? b e.1 <;> rfl

theorem beqRecord_iff {a b : Record Value} : (a.length == b.length && beqFields a b) = true ↔
    Record.Alike (fun x y => beq x y = true) a b := by
  rw [beqFields_eq_all, Record.alike_iff_meets]

/-- Values that are alike up to equality of numbers are equal. -/
theorem beq_of_alike {v w : Value} (h : v.Alike Binary64.Equal w) : (v == w) = true := by
  induction v generalizing w with
  | array items ih =>
    cases h with
    | array hitems =>
      refine beqItems_iff.mpr ?_
      exact forall₂_imp_of_mem hitems fun item hi _ _ h => ih item hi h
  | object fields ih =>
    cases h with
    | object hl hk hr =>
      exact beqRecord_iff.mpr (Record.Alike.imp ⟨hl, hk, hr⟩ fun e he _ _ => ih e he)
  | instanceOf c fields ih =>
    cases h with
    | instanceOf _ hl hk hr =>
      show (c == c && _ && _) = true
      rw [Bool.and_assoc, Bool.and_eq_true]
      exact ⟨Class.beq_iff_id_eq c c |>.mpr rfl,
        beqRecord_iff.mpr (Record.Alike.imp ⟨hl, hk, hr⟩ fun e he _ _ => ih e he)⟩
  | number x =>
    cases h with
    | number hxy => exact hxy
  | symbol s =>
    cases h with
    | symbol hid => exact (Symbol.beq_iff_id_eq s _).mpr hid
  | function f =>
    cases h with
    | function hid =>
      show (f.id == _) = true
      exact beq_iff_eq.mpr hid
  | _ =>
    cases h
    simp [BEq.beq, beq]

/-- Equal values over the classes of one supply are alike. -/
theorem alike_of_beq {supply : Supply} {made : List Class} (hmade : Supply.Made supply made)
    {v w : Value} (hv : v.ClassesIn made) (hw : w.ClassesIn made) (h : (v == w) = true) :
    v.Alike Binary64.Equal w := by
  change beq v w = true at h
  induction v generalizing w with
  | array items ih =>
    cases w with
    | array others =>
      rw [ClassesIn] at hv hw
      refine .array (forall₂_imp_of_mem (beqItems_iff.mp h) ?_)
      exact fun item hi other ho hbeq => ih item hi (hv item hi) (hw other ho) hbeq
    | _ => cases h
  | object fields ih =>
    cases w with
    | object others =>
      rw [ClassesIn] at hv hw
      refine alike_object_iff.mpr ((beqRecord_iff.mp h).imp ?_)
      exact fun e he f hf hef => ih e he (hv e he) (hw f hf) hef
    | _ => cases h
  | instanceOf c fields ih =>
    cases w with
    | instanceOf d others =>
      rw [ClassesIn] at hv hw
      rw [beq, Bool.and_assoc, Bool.and_eq_true, Class.beq_iff_id_eq] at h
      obtain ⟨hid, hfields⟩ := h
      obtain rfl := hmade.eq_of_id_eq c hv.1 d hw.1 hid
      refine alike_instanceOf_iff.mpr ((beqRecord_iff.mp hfields).imp ?_)
      exact fun e he f hf hef => ih e he (hv.2 e he) (hw.2 f hf) hef
    | _ => cases h
  | constructor c =>
    cases w with
    | constructor d =>
      rw [ClassesIn] at hv hw
      rw [beq, Class.beq_iff_id_eq] at h
      obtain rfl := hmade.eq_of_id_eq c hv d hw h
      exact .constructor c
    | _ => cases h
  | number x =>
    cases w with
    | number y => exact .number h
    | _ => cases h
  | symbol a =>
    cases w with
    | symbol b => exact .symbol ((Symbol.beq_iff_id_eq a b).mp h)
    | _ => cases h
  | function f =>
    cases w with
    | function g => exact .function (beq_iff_eq.mp (h : (f.id == g.id) = true))
    | _ => cases h
  | _ =>
    -- the other kinds compare by an equality that decides
    cases w <;> simp only [beq, beq_iff_eq, Bool.false_eq_true] at h
    subst_vars
    constructor

end Value

namespace Shape

theorem beqFields_eq_all (a b : Record Shape) : beqFields a b = a.all (Record.meets beq b) := by
  induction a with
  | nil => rfl
  | cons e rest ih =>
    rw [beqFields, List.all_cons, ih, Record.meets]
    cases Record.get? b e.1 <;> rfl

/-- Equal shapes over the classes of one supply are alike. -/
theorem alike_of_beq {supply : Supply} {made : List Class} (hmade : Supply.Made supply made)
    {s t : Shape} (hs : s.ClassesIn made) (ht : t.ClassesIn made) (h : (s == t) = true) :
    s.Alike Binary64.Equal t := by
  change beq s t = true at h
  induction s generalizing t with
  | literal l =>
    cases t with
    | literal k =>
      have hvalue : (l.toValue == k.toValue) = true := by
        cases l <;> cases k <;> exact h
      have hin (l : Literal) : l.toValue.ClassesIn made := by
        cases l <;> simp [Literal.toValue, Value.ClassesIn]
      exact .literal (Value.alike_of_beq hmade (hin l) (hin k) hvalue)
    | _ => cases h
  | ofClass c =>
    cases t with
    | ofClass d =>
      rw [ClassesIn] at hs ht
      rw [beq, Class.beq_iff_id_eq] at h
      obtain rfl := hmade.eq_of_id_eq c hs d ht h
      exact .ofClass c
    | _ => cases h
  | array element ih =>
    cases t with
    | array other =>
      rw [ClassesIn] at hs ht
      exact .array (ih hs ht h)
    | _ => cases h
  | object pattern ih =>
    cases t with
    | object other =>
      rw [ClassesIn] at hs ht
      rw [beq, beqFields_eq_all, Record.alike_iff_meets] at h
      refine alike_object_iff.mpr (h.imp ?_)
      exact fun e he f hf hef => ih e he (hs e he) (ht f hf) hef
    | _ => cases h
  | wrapped m inner ih =>
    cases t with
    | wrapped n other =>
      rw [ClassesIn] at hs ht
      rw [beq, Bool.and_eq_true, beq_iff_eq] at h
      obtain ⟨rfl, hinner⟩ := h
      exact .wrapped m (ih hs ht hinner)
    | _ => cases h
  | _ =>
    cases t <;> simp only [beq, beq_iff_eq, Bool.false_eq_true] at h
    subst_vars
    constructor

end Shape

theorem Label.beq_of_alike {a b : Label} (h : a.Alike Binary64.Equal b) : (a == b) = true := by
  cases h with
  | kind name => exact beq_self_eq_true name
  | literal hv => exact Value.beq_of_alike hv

theorem Leaf.beq_of_alike {l k : Leaf} (h : l.Alike Binary64.Equal k) : (l == k) = true := by
  cases h with
  | mismatch ha he hv =>
    show (_ && _ && _) = true
    rw [Label.beq_of_alike ha, Label.beq_of_alike he]
    cases hv with
    | none => rfl
    | some hv => exact Value.beq_of_alike hv
  | unexpected kind hv =>
    show (kind == kind && _) = true
    rw [beq_self_eq_true, Value.beq_of_alike hv]
    rfl

namespace Report

theorem beqChildren_eq_all (a b : List (String × Report)) :
    beqChildren a b = a.all (Record.meets beq b) := by
  induction a with
  | nil => rfl
  | cons c rest ih =>
    rw [beqChildren, List.all_cons, ih, Record.meets]
    cases Record.get? b c.1 <;> rfl

/-- Reports that are alike up to equality of numbers are equal. -/
theorem beq_of_alike {r q : Report} (h : r.Alike Binary64.Equal q) : (r == q) = true := by
  induction r generalizing q with
  | leaf l =>
    cases h with
    | leaf hl => exact Leaf.beq_of_alike hl
  | nested children ih =>
    cases q with
    | leaf => cases h
    | nested others =>
      show beq (nested children) (nested others) = true
      rw [beq, beqChildren_eq_all, Record.alike_iff_meets]
      exact (alike_nested_iff.mp h).imp fun c hc _ _ => ih c hc

end Report

end Conformance
