import Conformance.Proofs.Decodability
import Conformance.Proofs.NormalForm

/-!
# Keys in another order

A tree is put in another order by permuting the keys of its objects at every level. What the keys
read as is all that this leaves, and all that equality of JSON and an examination look at: trees in
another order stand for values on which a shape reports by trees in another order.

Results:
* `Json.Reordered`: a tree with the keys of its objects permuted, at every level.
* `Json.reordered_object_iff`: the same, as what the keys read as.
* `Json.Reordered.induction`: induction over two trees that differ so.
* `Json.Reordered.beq_eq`: equality does not see the order of keys.
* `Json.Reordered.wellFormed`, `Json.WellFormed.reordered_refl`: the trees that have an order.
* `Shape.finding_reordered`: a report does not see more of it than the order of its own keys.
-/

namespace Conformance

/-! ## Records -/

/-- Records whose keys read alike are permutations of each other, up to what they hold. -/
theorem Record.exists_perm_of_rel {α β : Type} {R : α → β → Prop} {a : Record α} {b : Record β}
    (ha : a.Distinct) (hb : b.Distinct) (h : ∀ key, Option.Rel R (a.get? key) (b.get? key)) :
    ∃ c, a.Perm c ∧ List.Forall₂ (fun e f => e.1 = f.1 ∧ R e.2 f.2) c b := by
  have hkeys : b.keys.Perm a.keys := (((alike_iff ha hb).mpr h).keys_perm ha).symm
  have hself : List.Forall₂ (fun key e => e.1 = key) a.keys a :=
    List.forall₂_map_left_iff.mpr (List.forall₂_same.mpr fun _ _ => rfl)
  -- the entries of the one record in the order of the keys of the other
  obtain ⟨c, hc, hperm⟩ := List.perm_comp_forall₂ hkeys hself
  have hentries : List.Forall₂ (fun e f => e.1 = f.1) c b :=
    (List.forall₂_map_left_iff.mp hc).flip
  refine ⟨c, hperm.symm, forall₂_imp_of_mem hentries fun e he f hf hef => ⟨hef, ?_⟩⟩
  have hread := h e.1
  rw [(get?_eq_some_iff ha).mpr (hperm.mem_iff.mp he), hef,
    (get?_eq_some_iff hb).mpr hf, Option.rel_some_some] at hread
  exact hread

section Rel

variable {α β γ δ : Type} {R : α → β → Prop} {S : γ → δ → Prop} {A : α → γ → Prop}
  {B : β → δ → Prop}

theorem rel_congr {x : Option α} {y : Option β} {x' : Option γ} {y' : Option δ}
    (h : Option.Rel R x y) (h' : Option.Rel S x' y')
    (hAB : ∀ {a b c d}, R a b → S c d → (A a c ↔ B b d)) :
    Option.Rel A x x' ↔ Option.Rel B y y' := by
  cases h with
  | none => cases h' <;> simp
  | some hab =>
    cases h' with
    | none => simp
    | some hcd => simpa using hAB hab hcd

theorem forall₂_congr_of_forall₂ {l : List α} {u : List β} {l' : List γ} {u' : List δ}
    (h : List.Forall₂ R l u) (h' : List.Forall₂ S l' u')
    (hAB : ∀ {a b c d}, R a b → S c d → (A a c ↔ B b d)) :
    List.Forall₂ A l l' ↔ List.Forall₂ B u u' := by
  induction h generalizing l' u' with
  | nil => cases h' <;> simp
  | cons hab _ ih =>
    cases h' with
    | nil => simp
    | cons hcd hrest => rw [List.forall₂_cons, List.forall₂_cons, hAB hab hcd, ih hrest]

end Rel

/-! ## Trees -/

namespace Json

/-- A tree with the keys of its objects, which are distinct, put in another order at every level. -/
inductive Reordered : Json → Json → Prop
  | null : Reordered null null
  | bool (b : Bool) : Reordered (bool b) (bool b)
  | number (n : Number) : Reordered (number n) (number n)
  | string (s : String) : Reordered (string s) (string s)
  | array {a b : List Json} : List.Forall₂ Reordered a b → Reordered (array a) (array b)
  | object {a c b : Record Json} : Record.Distinct a → a.Perm c → Record.keys c = Record.keys b →
      List.Forall₂ Reordered (c.map Prod.snd) (b.map Prod.snd) → Reordered (object a) (object b)

/-- A permutation of an object, with what it holds put in another order. -/
theorem Reordered.of_perm {a c b : Record Json} (ha : Record.Distinct a) (hperm : a.Perm c)
    (h : List.Forall₂ (fun e f => e.1 = f.1 ∧ e.2.Reordered f.2) c b) :
    (Json.object a).Reordered (.object b) := by
  refine .object ha hperm (Record.keys_eq_of_forall₂ h) ?_
  rw [List.forall₂_map_left_iff, List.forall₂_map_right_iff]
  exact h.imp fun _ _ h => h.2

/-- Two objects are the same up to the order of keys exactly when the keys read alike. -/
theorem reordered_object_iff {a b : Record Json} : (object a).Reordered (object b) ↔
    Record.Distinct a ∧ Record.Distinct b ∧
      ∀ key, Option.Rel Reordered (Record.get? a key) (Record.get? b key) := by
  constructor
  · rintro ⟨⟩
    rename_i c ha hperm hkeys hvalues
    have hentries := Record.forall₂_of_keys_eq hkeys hvalues
    have hb : Record.Distinct b := Record.distinct_of_perm ha hperm hentries
    exact ⟨ha, hb, (Record.alike_iff ha hb).mp (Record.alike_of_perm ha hperm hentries)⟩
  · rintro ⟨ha, hb, hread⟩
    obtain ⟨c, hperm, hentries⟩ := Record.exists_perm_of_rel ha hb hread
    exact .of_perm ha hperm hentries

/-- Objects mapped field by field. -/
theorem reordered_map {α β : Type} (f : α → Json) (g : β → Json) {a : Record α} {b : Record β}
    (ha : a.Distinct) (hb : b.Distinct)
    (h : ∀ key, Option.Rel (fun x y => (f x).Reordered (g y)) (a.get? key) (b.get? key)) :
    (object (a.map fun e => (e.1, f e.2))).Reordered (object (b.map fun e => (e.1, g e.2))) := by
  refine reordered_object_iff.mpr ⟨Record.distinct_map ha, Record.distinct_map hb, fun key => ?_⟩
  rw [Record.get?_map, Record.get?_map]
  exact rel_map (h key) fun _ _ _ _ h => h

/-- Induction over two trees that differ in the order of keys, with what the keys read as. -/
theorem Reordered.induction {motive : Json → Json → Prop} (null : motive .null .null)
    (bool : ∀ b, motive (.bool b) (.bool b)) (number : ∀ n, motive (.number n) (.number n))
    (string : ∀ s, motive (.string s) (.string s))
    (array : ∀ a b, List.Forall₂ motive a b → motive (.array a) (.array b))
    (object : ∀ a b, Record.Distinct a → Record.Distinct b →
      (∀ key, Option.Rel motive (Record.get? a key) (Record.get? b key)) →
      motive (.object a) (.object b)) {j k : Json} (h : j.Reordered k) : motive j k := by
  induction j generalizing k with
  | null =>
    cases h
    exact null
  | bool b =>
    cases h
    exact bool b
  | number n =>
    cases h
    exact number n
  | string s =>
    cases h
    exact string s
  | array items ih =>
    cases h with
    | array hitems =>
      exact array _ _ (forall₂_imp_of_mem hitems fun item hi _ _ => ih item hi)
  | object fields ih =>
    cases k with
    | object others =>
      obtain ⟨ha, hb, hread⟩ := reordered_object_iff.mp h
      refine object _ _ ha hb fun key => ?_
      exact rel_imp_of_mem (hread key) fun x hx _ _ => ih _ (Record.mem_of_get? hx)
    | _ => cases h

theorem Reordered.symm {j k : Json} (h : j.Reordered k) : k.Reordered j := by
  refine h.induction (motive := fun j k => k.Reordered j) .null .bool .number .string ?_ ?_
  · exact fun a b hitems => .array hitems.flip
  · intro a b ha hb hread
    exact reordered_object_iff.mpr ⟨hb, ha, fun key => rel_flip (hread key)⟩

theorem reordered_ofBinary64 (x : Binary64) : (ofBinary64 x).Reordered (ofBinary64 x) := by
  rw [ofBinary64]
  split <;> split_ifs <;> constructor

/-! ## Equality -/

theorem beqItems_iff {a b : List Json} :
    beqItems a b = true ↔ List.Forall₂ (fun x y => (x == y) = true) a b := by
  induction a generalizing b with
  | nil => cases b <;> simp [beqItems]
  | cons x rest ih =>
    cases b with
    | nil => simp [beqItems]
    | cons y others =>
      rw [beqItems, Bool.and_eq_true, ih, List.forall₂_cons]
      rfl

theorem beq_array_iff {a b : List Json} : (array a == array b) = true ↔
    List.Forall₂ (fun x y => (x == y) = true) a b := beqItems_iff

/-- Equality does not see the order of keys on either side. -/
theorem Reordered.beq_eq {j k : Json} (h : j.Reordered k) :
    ∀ {j' k' : Json}, j'.Reordered k' → (j == j') = (k == k') := by
  refine h.induction
    (motive := fun j k => ∀ {j' k' : Json}, j'.Reordered k' → (j == j') = (k == k')) ?_ ?_ ?_ ?_
    ?_ ?_
  -- null, booleans, numbers and strings
  iterate 4
    intros
    rename_i h'
    cases h' <;> rfl
  · intro a b hitems j' k' h'
    cases h' with
    | array hothers =>
      rw [Bool.eq_iff_iff, beq_array_iff, beq_array_iff]
      exact forall₂_congr_of_forall₂ hitems hothers fun hab hcd => by rw [hab hcd]
    | _ => rfl
  · intro a b ha hb hread j' k' h'
    cases j' with
    | object others =>
      cases k' with
      | object others' =>
        obtain ⟨ha', hb', hread'⟩ := reordered_object_iff.mp h'
        rw [Bool.eq_iff_iff, beq_object_iff, beq_object_iff, Record.alike_iff ha ha',
          Record.alike_iff hb hb']
        exact forall_congr' fun key =>
          rel_congr (hread key) (hread' key) fun hab hcd => by rw [hab hcd]
      | _ => cases h'
    | _ =>
      cases h'
      rfl

/-! ## What the trees stand for -/

variable {j k : Json}

/-- The value has the keys of the tree at every level. -/
theorem wellFormed_ofJson_iff : (Value.ofJson j).WellFormed ↔ j.WellFormed := by
  induction j with
  | array items ih =>
    rw [Value.ofJson, Value.ofJsonItems_eq_map, Value.WellFormed, WellFormed, List.forall_mem_map]
    exact forall₂_congr ih
  | object fields ih =>
    rw [Value.ofJson, Value.ofJsonFields_eq_map, Value.WellFormed, WellFormed, Record.Distinct,
      Record.keys_map, List.forall_mem_map]
    exact and_congr_right fun _ => forall₂_congr ih
  | _ => simp [Value.ofJson, Value.WellFormed, WellFormed]

/-- Only trees with distinct keys are put in another order. -/
theorem Reordered.wellFormed (h : j.Reordered k) : j.WellFormed := by
  refine h.induction (motive := fun j _ => j.WellFormed) ?_ ?_ ?_ ?_ ?_ ?_
  iterate 4
    intros
    simp [WellFormed]
  · intro a b hitems
    rw [WellFormed]
    have hboth : List.Forall₂ (fun item _ => item.WellFormed ∧ True) a b :=
      hitems.imp fun _ _ h => ⟨h, trivial⟩
    exact ((List.forall₂_and_left a b).mp hboth).1
  · intro a b ha _ hread
    rw [WellFormed]
    refine ⟨ha, fun f hf => ?_⟩
    rcases rel_cases (hread f.1) with ⟨hx, -⟩ | ⟨x, -, hx, -, hxy⟩
    · rw [(Record.get?_eq_some_iff ha).mpr hf] at hx
      cases hx
    · rw [(Record.get?_eq_some_iff ha).mpr hf] at hx
      cases hx
      exact hxy

/-- A tree with distinct keys may also be left as it is. -/
theorem WellFormed.reordered_refl (h : j.WellFormed) : j.Reordered j := by
  induction j with
  | array items ih =>
    rw [WellFormed] at h
    exact .array (List.forall₂_same.mpr fun item hi => ih item hi (h item hi))
  | object fields ih =>
    rw [WellFormed] at h
    refine .object h.1 (.refl _) rfl (List.forall₂_same.mpr ?_)
    exact List.forall_mem_map.mpr fun f hf => ih f hf (h.2 f hf)
  | _ => constructor

theorem Reordered.wellFormed_ofJson (h : j.Reordered k) : (Value.ofJson j).WellFormed :=
  wellFormed_ofJson_iff.mpr h.wellFormed

theorem Reordered.alike_ofJson (h : j.Reordered k) :
    (Value.ofJson j).Alike Eq (Value.ofJson k) := by
  refine h.induction (motive := fun j k => (Value.ofJson j).Alike Eq (Value.ofJson k))
    .null .bool (fun _ => .number rfl) .string ?_ ?_
  · intro a b hitems
    rw [Value.ofJson, Value.ofJson, Value.ofJsonItems_eq_map, Value.ofJsonItems_eq_map]
    refine .array ?_
    rwa [List.forall₂_map_left_iff, List.forall₂_map_right_iff]
  · intro a b ha hb hread
    rw [Value.ofJson, Value.ofJson, Value.ofJsonFields_eq_map, Value.ofJsonFields_eq_map,
      Value.alike_object_iff, Record.alike_iff (Record.distinct_map ha) (Record.distinct_map hb)]
    intro key
    rw [Record.get?_map, Record.get?_map]
    exact rel_map (hread key) fun _ _ _ _ h => h

theorem Reordered.toJson_ofJson (h : j.Reordered k) :
    (Value.ofJson j).toJson.Reordered (Value.ofJson k).toJson := by
  refine h.induction
    (motive := fun j k => (Value.ofJson j).toJson.Reordered (Value.ofJson k).toJson)
    .null .bool (fun n => reordered_ofBinary64 n.toBinary64) .string ?_ ?_
  · intro a b hitems
    rw [Value.toJson_ofJson_array, Value.toJson_ofJson_array]
    refine .array ?_
    rwa [List.forall₂_map_left_iff, List.forall₂_map_right_iff]
  · intro a b ha hb hread
    rw [Value.toJson_ofJson_object, Value.toJson_ofJson_object]
    exact reordered_map (fun x => (Value.ofJson x).toJson) (fun y => (Value.ofJson y).toJson) ha hb
      hread

end Json

/-! ## Values -/

namespace Value

/-- The values of two trees that differ in the order of keys only, or nothing twice. -/
inductive Reordered : Value → Value → Prop
  | undefined : Reordered undefined undefined
  | ofJson {j k : Json} : j.Reordered k → Reordered (ofJson j) (ofJson k)

namespace Reordered

variable {v w : Value}

theorem alike (h : v.Reordered w) : v.Alike Eq w := by
  cases h with
  | undefined => exact .undefined
  | ofJson hjk => exact hjk.alike_ofJson

theorem toJson (h : v.Reordered w) : v.toJson.Reordered w.toJson := by
  cases h with
  | undefined => exact .null
  | ofJson hjk => exact hjk.toJson_ofJson

/-- The properties of two reordered values: nothing twice, or records that read alike. -/
theorem fields?_rel (h : v.Reordered w) :
    Option.Rel (fun a b => Record.Distinct a ∧ Record.Distinct b ∧
      ∀ key, Option.Rel Reordered (Record.get? a key) (Record.get? b key)) v.fields? w.fields? := by
  cases h with
  | undefined => exact .none
  | @ofJson j k hjk =>
    cases j with
    | object fields =>
      cases k with
      | object others =>
        obtain ⟨ha, hb, hread⟩ := Json.reordered_object_iff.mp hjk
        rw [Value.ofJson, Value.ofJson, ofJsonFields_eq_map, ofJsonFields_eq_map]
        refine .some ⟨Record.distinct_map ha, Record.distinct_map hb, fun key => ?_⟩
        rw [Record.get?_map, Record.get?_map]
        exact rel_map (hread key) fun _ _ _ _ => .ofJson
      | _ => cases hjk
    | _ =>
      cases hjk
      exact .none

end Reordered

end Value

/-! ## Reports -/

/-- A literal has no keys. -/
theorem Literal.reordered_toJson (l : Literal) :
    l.toValue.toJson.Reordered l.toValue.toJson := by
  cases l with
  | number x => exact Json.reordered_ofBinary64 x
  | _ => constructor

/-- Leaves whose JSON differs in the order of keys only. -/
def Leaf.Reordered (l k : Leaf) : Prop := l.toJson.Reordered k.toJson

/-- Reports whose JSON differs in the order of keys only. -/
def Report.Reordered (r q : Report) : Prop := r.toJson.Reordered q.toJson

namespace Leaf

variable {v w : Value}

theorem distinct_of_toJson_eq {l : Leaf} {fields : Record Json} (h : l.toJson = .object fields) :
    Record.Distinct fields := by
  obtain ⟨others, hothers, hdistinct⟩ := (Report.leaf l).exists_fields_toJson
  cases h.symm.trans hothers
  exact hdistinct (by simp [Report.WellFormed])

theorem reordered_mismatch {actual actual' expected : Label} {value value' : Option Value}
    (hundefined : actual.isUndefined = actual'.isUndefined)
    (hactual : actual.toJson.Reordered actual'.toJson)
    (hexpected : expected.toJson.Reordered expected.toJson)
    (hvalue : Option.Rel Value.Reordered value value') :
    (mismatch actual expected value).Reordered (mismatch actual' expected value') := by
  have hdistinct := distinct_of_toJson_eq (l := mismatch actual expected value) rfl
  refine Json.Reordered.of_perm hdistinct (.refl _) (List.rel_append ?_ (.cons ⟨rfl, hexpected⟩ ?_))
  · rw [hundefined]
    split_ifs
    · exact .nil
    · exact .cons ⟨rfl, hactual⟩ .nil
  · cases hvalue with
    | none => exact .nil
    | some h =>
      dsimp only
      rw [h.alike.isUndefined_eq]
      split_ifs
      · exact .nil
      · exact .cons ⟨rfl, h.toJson⟩ .nil

theorem reordered_wrongKind (h : v.Reordered w) (name : String) :
    (wrongKind v name).Reordered (wrongKind w name) := by
  rw [wrongKind, wrongKind, h.alike.typeName_eq]
  exact reordered_mismatch rfl (.string _) (.string _) (.some h)

theorem reordered_wrongLiteral (h : v.Reordered w) (l : Literal) :
    (wrongLiteral l v).Reordered (wrongLiteral l w) :=
  reordered_mismatch h.alike.isUndefined_eq h.toJson l.reordered_toJson .none

theorem reordered_undeclared (h : v.Reordered w) : (undeclared v).Reordered (undeclared w) := by
  rw [undeclared, undeclared, h.alike.typeName_eq]
  refine Json.Reordered.of_perm (by simp [Record.Distinct, Record.keys]) (.refl _) ?_
  exact .cons ⟨rfl, .string _⟩ (.cons ⟨rfl, h.toJson⟩ .nil)

end Leaf

namespace Report

theorem reordered_nested {a b : List (String × Report)} (ha : Record.Distinct a)
    (hb : Record.Distinct b)
    (h : ∀ key, Option.Rel Reordered (Record.get? a key) (Record.get? b key)) :
    (nested a).Reordered (nested b) := by
  rw [Reordered, toJson, toJson, toJsonOfChildren_eq_map, toJsonOfChildren_eq_map]
  exact Json.reordered_map toJson toJson ha hb h

theorem reordered_nested? {a b : List (String × Report)} (ha : Record.Distinct a)
    (hb : Record.Distinct b)
    (h : ∀ key, Option.Rel Reordered (Record.get? a key) (Record.get? b key)) :
    Option.Rel Reordered (nested? a) (nested? b) :=
  Shape.nested?_rel ((Record.alike_iff ha hb).mpr h).length_eq (reordered_nested ha hb h)

end Report

namespace Shape

variable {s : Shape} {v w : Value}

/-- Against reordered values a rule has the same, with the values reordered. -/
theorem objection?_reordered (hs : s.WellFormed) (h : v.Reordered w) :
    Option.Rel Leaf.Reordered (s.objection? v) (s.objection? w) := by
  refine (Shape.Alike.refl hs).objection?_rel_of Binary64.congruent_eq h.alike
    (Leaf.reordered_wrongKind h) ?_
  rintro l k rfl ⟨⟩
  exact Leaf.reordered_wrongLiteral h l

/-- A shape reports on reordered values by reordered reports. -/
theorem finding_reordered (subset : Bool) (hs : s.WellFormed) (h : v.Reordered w) :
    Option.Rel Report.Reordered (finding subset s v) (finding subset s w) := by
  induction s generalizing v w with
  | array element ih =>
    rw [WellFormed] at hs
    have hleaf := Leaf.reordered_wrongKind h "Array"
    cases h with
    | undefined => exact .some hleaf
    | ofJson hjk =>
      cases hjk with
      | array hitems =>
        rw [Value.ofJson, Value.ofJson, Value.ofJsonItems_eq_map, Value.ofJsonItems_eq_map]
        refine Report.reordered_nested? (distinct_entriesOfItems _ _ 0)
          (distinct_entriesOfItems _ _ 0) (Record.get?_rel_of_forall₂ (entriesOfItems_rel ?_ 0))
        rw [List.forall₂_map_left_iff, List.forall₂_map_right_iff]
        exact hitems.imp fun _ _ hitem => ih hs (.ofJson hitem)
      | _ => exact .some hleaf
  | object pattern ih =>
    rw [WellFormed] at hs
    rw [finding, finding]
    rcases rel_cases h.fields?_rel with ⟨hf, hf'⟩ | ⟨fields, fields', hf, hf', hd, hd', hread⟩
    · rw [hf, hf']
      exact .some (Leaf.reordered_wrongKind h "Object")
    · rw [hf, hf']
      refine Report.reordered_nested? (distinct_object_entries hs.1 hd)
        (distinct_object_entries hs.1 hd') fun key => get?_objectEntries_rel hs.1 hs.1 rfl ?_ ?_
      · exact rel_imp_of_mem (hread key) fun _ _ _ _ => Leaf.reordered_undeclared
      · cases hshape : Record.get? pattern key with
        | none => exact .none
        | some shape =>
          have hmem := Record.mem_of_get? hshape
          exact ih _ hmem (hs.2 _ hmem) (rel_getD (hread key) .undefined)
  | wrapped m inner ih =>
    rw [WellFormed] at hs
    rw [finding, finding, h.alike.admits_eq]
    split_ifs
    · exact .none
    · exact ih hs h
  | _ =>
    rw [finding_of_isFlat rfl, finding_of_isFlat rfl]
    exact rel_map (objection?_reordered hs h) fun _ _ _ _ hl => hl

end Shape

end Conformance
