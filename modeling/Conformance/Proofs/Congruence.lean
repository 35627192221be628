import Conformance.Proofs.Alike
import Conformance.Proofs.WellFormed

/-!
# Examinations of what is alike

An examination sees no more of a shape and a value than what is alike: shapes that are alike report
values that are alike by reports that are alike, and step into the same keys, in whatever order.

Results:
* `Binary64.Congruent`: related numbers compare alike; equality of the standard is such a relation.
* `Shape.Alike.objection?_rel`: what the rule of a shape has against a value.
* `Shape.Alike.finding_rel`: the whole report, by induction over the shape.
* `Shape.Alike.mem_visited_iff`: the steps, so that a limit refuses both or none.
-/

namespace Conformance

variable {N : Binary64 → Binary64 → Prop}

/-! ## Numbers -/

namespace Binary64

/-- Related numbers compare alike. -/
def Congruent (N : Binary64 → Binary64 → Prop) : Prop :=
  ∀ ⦃x y⦄, N x y → ∀ ⦃x' y'⦄, N x' y' → (x == x') = (y == y')

theorem congruent_eq : Congruent Eq := by
  rintro x _ rfl x' _ rfl
  rfl

theorem beq_trans {x y z : Binary64} (h : (x == y) = true) (h' : (y == z) = true) :
    (x == z) = true := by
  rw [beq_iff] at h h' ⊢
  obtain ⟨hx, -, h⟩ := h
  obtain ⟨-, hz, h'⟩ := h'
  refine ⟨hx, hz, ?_⟩
  obtain ⟨a⟩ := x
  obtain ⟨b⟩ := y
  obtain ⟨c⟩ := z
  rcases h with rfl | ⟨hx0, hy0⟩
  · exact h'
  · rcases h' with rfl | ⟨-, hz0⟩
    · exact .inr ⟨hx0, hy0⟩
    · exact .inr ⟨hx0, hz0⟩

theorem congruent_equal : Congruent Equal := by
  intro x y h x' y' h'
  have hyx : (y == x) = true := by rwa [beq_comm]
  have hyx' : (y' == x') = true := by rwa [beq_comm]
  rw [Bool.eq_iff_iff]
  constructor
  · exact fun hx => beq_trans hyx (beq_trans hx h')
  · exact fun hy => beq_trans h (beq_trans hy hyx')

end Binary64

/-! ## Related optional results -/

section Rel

variable {α β γ δ : Type} {R : α → β → Prop} {S : γ → δ → Prop} {x x' : Option α} {y y' : Option β}

theorem rel_cases (h : Option.Rel R x y) :
    (x = none ∧ y = none) ∨ ∃ a b, x = some a ∧ y = some b ∧ R a b := by
  cases h with
  | none => exact .inl ⟨rfl, rfl⟩
  | some hxy => exact .inr ⟨_, _, rfl, rfl, hxy⟩

theorem rel_getD (h : Option.Rel R x y) {a : α} {b : β} (hd : R a b) :
    R (x.getD a) (y.getD b) := by
  cases h with
  | none => exact hd
  | some hxy => exact hxy

theorem rel_or (h : Option.Rel R x y) (h' : Option.Rel R x' y') :
    Option.Rel R (x.or x') (y.or y') := by
  cases h with
  | none => exact h'
  | some hxy => exact .some hxy

theorem rel_bind (h : Option.Rel R x y) {f : α → Option γ} {g : β → Option δ}
    (hfg : ∀ a ∈ x, ∀ b ∈ y, R a b → Option.Rel S (f a) (g b)) :
    Option.Rel S (x.bind f) (y.bind g) := by
  cases h with
  | none => exact .none
  | some hxy => exact hfg _ rfl _ rfl hxy

theorem rel_map (h : Option.Rel R x y) {f : α → γ} {g : β → δ}
    (hfg : ∀ a ∈ x, ∀ b ∈ y, R a b → S (f a) (g b)) : Option.Rel S (x.map f) (y.map g) := by
  cases h with
  | none => exact .none
  | some hxy => exact .some (hfg _ rfl _ rfl hxy)

theorem rel_imp_of_mem {S : α → β → Prop} (h : Option.Rel R x y)
    (himp : ∀ a ∈ x, ∀ b ∈ y, R a b → S a b) : Option.Rel S x y := by
  cases h with
  | none => exact .none
  | some hxy => exact .some (himp _ rfl _ rfl hxy)

theorem rel_flip (h : Option.Rel (fun b a => R a b) y x) : Option.Rel R x y := by
  cases h with
  | none => exact .none
  | some hxy => exact .some hxy

theorem exists_mem_congr_of_rel (h : Option.Rel R x y) {p : α → Prop} {q : β → Prop}
    (hpq : ∀ a ∈ x, ∀ b ∈ y, R a b → (p a ↔ q b)) : (∃ a ∈ x, p a) ↔ ∃ b ∈ y, q b := by
  cases h with
  | none => simp
  | @some a b hab => simpa using hpq a rfl b rfl hab

end Rel

/-! ## What is read off a value -/

namespace Value.Alike

variable {v w : Value}

theorem typeName_eq (h : v.Alike N w) : v.typeName = w.typeName := by
  cases h <;> rfl

theorem isUndefined_eq (h : v.Alike N w) : v.isUndefined = w.isUndefined := by
  cases h <;> rfl

theorem isNull_eq (h : v.Alike N w) : v.isNull = w.isNull := by
  cases h <;> rfl

theorem admits_eq (h : v.Alike N w) (m : Modifier) : m.admits v = m.admits w :=
  m.admits_congr h.isUndefined_eq h.isNull_eq

theorem accepts_eq (h : v.Alike N w) (m : Marker) : m.accepts v = m.accepts w := by
  cases h <;> cases m <;> rfl

theorem hasMember_eq (h : v.Alike N w) (c : Class) : c.hasMember v = c.hasMember w := by
  cases h <;> rfl

theorem isIdentical_ofClass_eq (h : v.Alike N w) (c : Class) :
    (Shape.ofClass c).isIdentical v = (Shape.ofClass c).isIdentical w := by
  cases h <;> rfl

theorem isIdentical_eq (hN : Binary64.Congruent N) {l k : Literal}
    (hl : l.toValue.Alike N k.toValue) (h : v.Alike N w) :
    l.isIdentical v = k.isIdentical w := by
  cases l with
  | number x =>
    cases k with
    | number y =>
      cases hl with
      | number hxy =>
        cases h with
        | number hx'y' => exact hN hxy hx'y'
        | _ => rfl
    | _ => cases hl
  | symbol a =>
    cases k with
    | symbol b =>
      cases hl with
      | symbol hab =>
        cases h with
        | @symbol c d hcd =>
          show (a.id == c.id) = (b.id == d.id)
          rw [hab, hcd]
        | _ => rfl
    | _ => cases hl
  | _ =>
    -- a literal of another kind is the same on both sides
    cases k <;> cases hl
    cases h <;> rfl

theorem fields?_rel (h : v.Alike N w) :
    Option.Rel (Record.Alike (Value.Alike N)) v.fields? w.fields? := by
  cases h with
  | object hl hk hr => exact .some ⟨hl, hk, hr⟩
  | instanceOf c hl hk hr => exact .some ⟨hl, hk, hr⟩
  | _ => exact .none

theorem read {a b : Record Value} (ha : Record.Distinct a) (hb : Record.Distinct b)
    (h : Record.Alike (Value.Alike N) a b) (key : String) :
    (Value.read a key).Alike N (Value.read b key) :=
  rel_getD ((Record.alike_iff ha hb).mp h key) .undefined

end Value.Alike

/-! ## What a shape has against a value -/

theorem Leaf.wrongKind_alike {v w : Value} (h : v.Alike N w) (expected : String) :
    (Leaf.wrongKind v expected).Alike N (Leaf.wrongKind w expected) := by
  rw [wrongKind, wrongKind, h.typeName_eq]
  exact .mismatch (.kind _) (.kind _) (.some h)

theorem Leaf.wrongLiteral_alike {l k : Literal} {v w : Value}
    (hl : l.toValue.Alike N k.toValue) (h : v.Alike N w) :
    (Leaf.wrongLiteral l v).Alike N (Leaf.wrongLiteral k w) :=
  .mismatch (.literal h) (.literal hl) .none

theorem Leaf.undeclared_alike {v w : Value} (h : v.Alike N w) :
    (Leaf.undeclared v).Alike N (Leaf.undeclared w) := by
  rw [undeclared, undeclared, h.typeName_eq]
  exact .unexpected _ h

namespace Shape

variable {s t : Shape} {v w : Value}

/-- A rule that passes both values or objects to both. -/
theorem rel_objection {R : Leaf → Leaf → Prop} {passes : Prop} [Decidable passes] {l k : Leaf}
    (h : R l k) :
    Option.Rel R (if passes then none else some l) (if passes then none else some k) := by
  split_ifs
  · exact .none
  · exact .some h

/-- Shapes that are alike object to values that are alike by leaves that are related, when leaves of
the wrong kind are, and those against two literals where the shapes are such. -/
theorem Alike.objection?_rel_of {R : Leaf → Leaf → Prop} (hN : Binary64.Congruent N)
    (hs : s.Alike N t) (hv : v.Alike N w)
    (hkind : ∀ name, R (.wrongKind v name) (.wrongKind w name))
    (hliteral : ∀ l k, s = .literal l → t = .literal k →
      R (.wrongLiteral l v) (.wrongLiteral k w)) :
    Option.Rel R (s.objection? v) (t.objection? w) := by
  cases hs with
  | any =>
    rw [objection?, objection?, hv.isUndefined_eq, ← ite_not, ← ite_not w.isUndefined]
    exact rel_objection (hkind _)
  | undefined =>
    rw [objection?, objection?, hv.isUndefined_eq]
    exact rel_objection (hkind _)
  | null =>
    rw [objection?, objection?, hv.isNull_eq]
    exact rel_objection (hkind _)
  | literal hl =>
    rw [objection?, objection?, Value.Alike.isIdentical_eq hN hl hv]
    exact rel_objection (hliteral _ _ rfl rfl)
  | marker m =>
    rw [objection?, objection?, hv.accepts_eq]
    exact rel_objection (hkind _)
  | ofClass c =>
    rw [objection?, objection?, hv.isIdentical_ofClass_eq, hv.hasMember_eq]
    exact rel_objection (hkind _)
  | array _ =>
    have haccepts : Marker.isArray v = Marker.isArray w := hv.accepts_eq .array
    rw [objection?, objection?, haccepts]
    exact rel_objection (hkind _)
  | object =>
    rw [objection?, objection?, isSome_eq_of_rel hv.fields?_rel]
    exact rel_objection (hkind _)
  | wrapped => exact .none

/-- Shapes that are alike have alike objections against values that are alike. -/
theorem Alike.objection?_rel (hN : Binary64.Congruent N) (hs : s.Alike N t) (hv : v.Alike N w) :
    Option.Rel (Leaf.Alike N) (s.objection? v) (t.objection? w) := by
  refine hs.objection?_rel_of hN hv (Leaf.wrongKind_alike hv) ?_
  rintro l k rfl rfl
  cases hs with
  | literal hl => exact Leaf.wrongLiteral_alike hl hv

/-! ## Nodes -/

theorem nested?_rel {R : Report → Report → Prop} {a b : List (String × Report)}
    (hlength : a.length = b.length) (h : R (.nested a) (.nested b)) :
    Option.Rel R (Report.nested? a) (Report.nested? b) := by
  cases a with
  | nil =>
    rw [List.length_eq_zero_iff.mp hlength.symm]
    exact .none
  | cons c rest =>
    cases b with
    | nil => cases hlength
    | cons c' rest' => exact .some h

theorem nested?_alike {a b : List (String × Report)} (h : Record.Alike (Report.Alike N) a b) :
    Option.Rel (Report.Alike N) (Report.nested? a) (Report.nested? b) :=
  nested?_rel h.length_eq (Report.alike_nested_iff.mpr h)

theorem entry_rel {R : Report → Report → Prop} {found found' : Finding}
    (h : Option.Rel R found found') (key : String) :
    List.Forall₂ (fun c c' => c.1 = c'.1 ∧ R c.2 c'.2) (entry key found) (entry key found') := by
  cases h with
  | none => exact .nil
  | some hr => exact .cons ⟨rfl, hr⟩ .nil

theorem entriesOfItems_rel {R : Report → Report → Prop} {found found' : Value → Finding}
    {items others : List Value}
    (h : List.Forall₂ (fun x y => Option.Rel R (found x) (found' y)) items others) :
    ∀ index, List.Forall₂ (fun c c' => c.1 = c'.1 ∧ R c.2 c'.2)
      (entriesOfItems found index items) (entriesOfItems found' index others) := by
  induction h with
  | nil => exact fun _ => .nil
  | cons hxy _ ih =>
    intro index
    rw [entriesOfItems, entriesOfItems]
    exact List.rel_append (entry_rel hxy (toString index)) (ih (index + 1))

theorem get?_entry (key : String) (found : Finding) (other : String) :
    Record.get? (entry key found) other = if other = key then found else none := by
  cases found with
  | none => simp [entry]
  | some r => rw [entry, Record.get?_cons, Record.get?_nil]

/-- The entry on a declared key is the report on what it reads as. -/
theorem get?_entriesOfFields {subset : Bool} {fields : Record Value} {pattern : Record Shape}
    (h : Record.Distinct pattern) (key : String) :
    Record.get? (entriesOfFields subset pattern fields) key =
      (Record.get? pattern key).bind fun shape =>
        finding subset shape (Value.read fields key) := by
  induction pattern with
  | nil => rfl
  | cons f rest ih =>
    obtain ⟨k, shape⟩ := f
    obtain ⟨hk, hrest⟩ := List.nodup_cons.mp h
    rw [entriesOfFields, Record.get?_append, get?_entry, ih hrest, Record.get?_cons]
    split_ifs with hkey
    · subst hkey
      have habsent : Record.get? rest key = none := Record.get?_eq_none_iff.mpr hk
      rw [habsent, Option.bind_none, Option.or_none, Option.bind_some]
    · rw [Option.none_or]

/-- The entry on an undeclared key is the leaf with its value. -/
theorem get?_undeclaredEntries (subset : Bool) (pattern : Record Shape) (fields : Record Value)
    (key : String) :
    Record.get? (undeclaredEntries subset pattern fields) key =
      if subset || pattern.contains key then none
      else (Record.get? fields key).map fun v => .leaf (.undeclared v) := by
  cases subset with
  | true => rfl
  | false =>
    rw [undeclaredEntries, if_neg Bool.false_ne_true, Bool.false_or, undeclaredFields,
      Record.get?_map (fun v => Report.leaf (.undeclared v)),
      Record.get?_filter (fun k => !Record.contains pattern k)]
    cases Record.contains pattern key <;> rfl

/-- The entries on two records under two patterns with the same keys, key by key. -/
theorem get?_objectEntries_rel {R : Report → Report → Prop} {subset : Bool}
    {pattern pattern' : Record Shape} {fields fields' : Record Value}
    (hp : Record.Distinct pattern) (hp' : Record.Distinct pattern') {key : String}
    (hcontains : pattern.contains key = pattern'.contains key)
    (hundeclared : Option.Rel (fun v w => R (.leaf (.undeclared v)) (.leaf (.undeclared w)))
      (Record.get? fields key) (Record.get? fields' key))
    (hdeclared : Option.Rel R
      ((Record.get? pattern key).bind fun s => finding subset s (Value.read fields key))
      ((Record.get? pattern' key).bind fun t => finding subset t (Value.read fields' key))) :
    Option.Rel R
      (Record.get?
        (undeclaredEntries subset pattern fields ++ entriesOfFields subset pattern fields) key)
      (Record.get?
        (undeclaredEntries subset pattern' fields' ++ entriesOfFields subset pattern' fields')
        key) := by
  rw [Record.get?_append, Record.get?_append, get?_entriesOfFields hp, get?_entriesOfFields hp']
  refine rel_or ?_ hdeclared
  rw [get?_undeclaredEntries, get?_undeclaredEntries, hcontains]
  split_ifs
  · exact .none
  · exact rel_map hundeclared fun _ _ _ _ h => h

/-- The entries on records that are alike, under patterns that are alike. -/
theorem objectEntries_rel {subset : Bool} {pattern pattern' : Record Shape}
    {fields fields' : Record Value} (hp : Record.Distinct pattern)
    (hp' : Record.Distinct pattern') (hf : Record.Distinct fields)
    (hf' : Record.Distinct fields') (hpattern : Record.Alike (Shape.Alike N) pattern pattern')
    (hfields : Record.Alike (Value.Alike N) fields fields')
    (h : ∀ key, ∀ s ∈ Record.get? pattern key, ∀ t ∈ Record.get? pattern' key, s.Alike N t →
      Option.Rel (Report.Alike N) (finding subset s (Value.read fields key))
        (finding subset t (Value.read fields' key))) :
    Record.Alike (Report.Alike N)
      (undeclaredEntries subset pattern fields ++ entriesOfFields subset pattern fields)
      (undeclaredEntries subset pattern' fields' ++ entriesOfFields subset pattern' fields') := by
  -- undeclared and declared entries are in different orders, so they are compared key by key
  rw [Record.alike_iff (distinct_object_entries hp hf) (distinct_object_entries hp' hf')]
  intro key
  have hshape := (Record.alike_iff hp hp').mp hpattern key
  have hvalue := (Record.alike_iff hf hf').mp hfields key
  refine get?_objectEntries_rel hp hp' (isSome_eq_of_rel hshape) ?_ (rel_bind hshape (h key))
  exact rel_imp_of_mem hvalue fun _ _ _ _ hab => .leaf (Leaf.undeclared_alike hab)

/-! ## Reports -/

/-- Shapes that are alike report values that are alike by reports that are alike. -/
theorem Alike.finding_rel (hN : Binary64.Congruent N) (subset : Bool) (hs : s.Alike N t)
    (hv : v.Alike N w) (hsw : s.WellFormed) (htw : t.WellFormed) (hvw : v.WellFormed)
    (hww : w.WellFormed) :
    Option.Rel (Report.Alike N) (finding subset s v) (finding subset t w) := by
  induction s generalizing t v w with
  | array element ih =>
    cases hs with
    | array helement =>
      rw [WellFormed] at hsw htw
      have hleaf := Leaf.wrongKind_alike hv "Array"
      cases hv with
      | array hitems =>
        rw [Value.WellFormed] at hvw hww
        apply nested?_alike
        rw [Record.alike_iff (distinct_entriesOfItems _ _ 0) (distinct_entriesOfItems _ _ 0)]
        refine Record.get?_rel_of_forall₂ (entriesOfItems_rel (forall₂_imp_of_mem hitems ?_) 0)
        exact fun x hx y hy hxy => ih helement hxy hsw htw (hvw x hx) (hww y hy)
      | _ => exact .some (.leaf hleaf)
  | object pattern ih =>
    cases t with
    | object pattern' =>
      have hpattern := alike_object_iff.mp hs
      rw [WellFormed] at hsw htw
      rw [finding, finding]
      rcases rel_cases hv.fields?_rel with ⟨hf, hf'⟩ | ⟨fields, fields', hf, hf', hfields⟩
      · rw [hf, hf']
        exact .some (.leaf (Leaf.wrongKind_alike hv "Object"))
      · obtain ⟨hd, hin⟩ := Value.wellFormed_of_fields? hvw hf
        obtain ⟨hd', hin'⟩ := Value.wellFormed_of_fields? hww hf'
        rw [hf, hf']
        refine nested?_alike (objectEntries_rel hsw.1 htw.1 hd hd' hpattern hfields ?_)
        intro key s hs t ht hst
        have hsmem := Record.mem_of_get? hs
        have htmem := Record.mem_of_get? ht
        exact ih _ hsmem hst (Value.Alike.read hd hd' hfields key) (hsw.2 _ hsmem) (htw.2 _ htmem)
          (Value.wellFormed_read hin key) (Value.wellFormed_read hin' key)
    | _ => cases hs
  | wrapped m inner ih =>
    cases hs with
    | wrapped _ hinner =>
      rw [WellFormed] at hsw htw
      rw [finding, finding, hv.admits_eq]
      split_ifs
      · exact .none
      · exact ih hinner hv hsw htw hvw hww
  | _ =>
    have hobjection := hs.objection?_rel hN hv
    cases hs
    all_goals
      rw [finding_of_isFlat rfl, finding_of_isFlat rfl]
      exact rel_map hobjection fun _ _ _ _ h => .leaf h

/-! ## Steps -/

theorem mem_into_congr {t t' : List (List String)} (h : ∀ keys, keys ∈ t ↔ keys ∈ t')
    (key : String) (keys : List String) :
    keys ∈ Walk.into key t ↔ keys ∈ Walk.into key t' := by
  simp only [Walk.into, List.mem_cons, List.mem_map, h]

theorem mem_keys_positionsOfFields {pattern : Record Shape} {fields : Record Value}
    {keys : List String} :
    keys ∈ (positionsOfFields pattern fields).map Position.keys ↔
      ∃ key, ∃ shape, (key, shape) ∈ pattern ∧
        keys ∈ Walk.into key (visited shape (Value.read fields key)) := by
  induction pattern with
  | nil => simp [positionsOfFields]
  | cons f rest ih =>
    obtain ⟨k, t⟩ := f
    rw [keys_positionsOfFields_cons, List.mem_append, ih]
    constructor
    · rintro (h | ⟨key, shape, hm, h⟩)
      · exact ⟨k, t, List.mem_cons_self, h⟩
      · exact ⟨key, shape, List.mem_cons_of_mem _ hm, h⟩
    · rintro ⟨key, shape, hm, h⟩
      rcases List.mem_cons.mp hm with he | hm
      · cases he
        exact .inl h
      · exact .inr ⟨key, shape, hm, h⟩

theorem mem_keys_positionsOfItems_congr {element other : Shape} {items others : List Value}
    (h : List.Forall₂ (fun x y => ∀ keys, keys ∈ visited element x ↔ keys ∈ visited other y)
      items others) (keys : List String) :
    ∀ index, keys ∈ (positionsOfItems (positions element) index items).map Position.keys ↔
      keys ∈ (positionsOfItems (positions other) index others).map Position.keys := by
  induction h with
  | nil => exact fun _ => Iff.rfl
  | cons hxy _ ih =>
    intro index
    rw [keys_positionsOfItems_cons, keys_positionsOfItems_cons, List.mem_append, List.mem_append,
      mem_into_congr hxy, ih]

/-- Shapes that are alike step into the same keys of values that are alike. -/
theorem Alike.mem_visited_iff (hs : s.Alike N t) (hv : v.Alike N w) (hsw : s.WellFormed)
    (htw : t.WellFormed) (hvw : v.WellFormed) (hww : w.WellFormed) (keys : List String) :
    keys ∈ visited s v ↔ keys ∈ visited t w := by
  induction s generalizing t v w keys with
  | array element ih =>
    cases hs with
    | array helement =>
      rw [WellFormed] at hsw htw
      cases hv with
      | array hitems =>
        rw [Value.WellFormed] at hvw hww
        rw [visited_array, visited_array]
        refine mem_keys_positionsOfItems_congr (forall₂_imp_of_mem hitems ?_) keys 0
        exact fun x hx y hy hxy => ih helement hxy hsw htw (hvw x hx) (hww y hy)
      | _ => exact Iff.rfl
  | object pattern ih =>
    cases t with
    | object pattern' =>
      have hpattern := alike_object_iff.mp hs
      rw [WellFormed] at hsw htw
      rcases rel_cases hv.fields?_rel with ⟨hf, hf'⟩ | ⟨fields, fields', hf, hf', hfields⟩
      · rw [visited, visited, positions, positions, hf, hf']
        rfl
      · obtain ⟨hd, hin⟩ := Value.wellFormed_of_fields? hvw hf
        obtain ⟨hd', hin'⟩ := Value.wellFormed_of_fields? hww hf'
        rw [visited_object pattern hf, visited_object pattern' hf', mem_keys_positionsOfFields,
          mem_keys_positionsOfFields]
        refine exists_congr fun key => ?_
        simp only [← Record.get?_eq_some_iff hsw.1, ← Record.get?_eq_some_iff htw.1]
        refine exists_mem_congr_of_rel ((Record.alike_iff hsw.1 htw.1).mp hpattern key) ?_
        intro s hs t ht hst
        have hsmem := Record.mem_of_get? hs
        have htmem := Record.mem_of_get? ht
        refine mem_into_congr (fun below => ?_) key keys
        exact ih _ hsmem hst (Value.Alike.read hd hd' hfields key) (hsw.2 _ hsmem) (htw.2 _ htmem)
          (Value.wellFormed_read hin key) (Value.wellFormed_read hin' key) below
    | _ => cases hs
  | wrapped m inner ih =>
    cases hs with
    | wrapped _ hinner =>
      rw [WellFormed] at hsw htw
      rw [visited_wrapped, visited_wrapped, hv.admits_eq]
      split_ifs
      · exact Iff.rfl
      · exact ih hinner hv hsw htw hvw hww keys
  | _ =>
    cases hs
    all_goals rw [visited_of_isFlat rfl, visited_of_isFlat rfl]

end Shape

end Conformance
