import Conformance.Fixture
import Conformance.Proofs.Congruence
import Conformance.Proofs.Nodes
import Conformance.Proofs.Repair

/-!
# What can be read off the JSON of a report

The JSON of a report does not name the kinds of its parts, and keys of values may have the names of
the fields of a leaf. It is unambiguous all the same: below a node every key holds an object, while
a mismatch holds something else under `expected`, and an undeclared key under `unexpected`. Two
reports with the same JSON up to the order of keys have the same tree. When they are by the same
shape, the JSON also tells a missing value from one that is there.

Results:
* `Json.beq_object_iff`: equality of objects as likeness of records.
* `Json.reportKind`: the kind of a part, read off its JSON; `Report.reportKind_toJson`.
* `Report.at?_rel`: equal JSON at the root is equal JSON at every key sequence.
* `Shape.isMissing_eq_of_objection?`: equal JSON of two leaves by one rule.
* `Shape.reportWith_unambiguous`: what equal JSON says of two reports.
-/

namespace Conformance

/-! ## Equality of JSON -/

namespace Json

theorem beqFields_eq_all (a b : Record Json) : beqFields a b = a.all (Record.meets beq b) := by
  induction a with
  | nil => rfl
  | cons e rest ih =>
    rw [beqFields, List.all_cons, ih, Record.meets]
    cases Record.get? b e.1 <;> rfl

theorem beq_object_iff {a b : Record Json} : (object a == object b) = true ↔
    Record.Alike (fun x y => (x == y) = true) a b := by
  show beq (object a) (object b) = true ↔ _
  rw [beq, beqFields_eq_all]
  exact Record.alike_iff_meets

theorem isNone_fields?_eq_of_beq {x y : Json} (h : (x == y) = true) :
    x.fields?.isNone = y.fields?.isNone := by
  cases x with
  | object a =>
    cases y with
    | object b => rfl
    | _ => cases h
  | _ =>
    cases y with
    | object b => cases h
    | _ => rfl

def isNull : Json → Bool
  | null => true
  | _ => false

theorem isNull_eq_of_beq {x y : Json} (h : (x == y) = true) : x.isNull = y.isNull := by
  cases x with
  | null =>
    cases y with
    | null => rfl
    | _ => cases h
  | _ =>
    cases y with
    | null => cases h
    | _ => rfl

/-- Does an object hold anything but an object under the key? -/
def holdsPlain (key : String) (j : Json) : Bool :=
  match j with
  | object fields => (Record.get? fields key).any fun x => x.fields?.isNone
  | _ => false

theorem holdsPlain_eq_of_beq {a b : Record Json} (ha : Record.Distinct a)
    (hb : Record.Distinct b) (h : (object a == object b) = true) (key : String) :
    holdsPlain key (object a) = holdsPlain key (object b) := by
  have hread := (Record.alike_iff ha hb).mp (beq_object_iff.mp h) key
  rcases rel_cases hread with ⟨hx, hy⟩ | ⟨x, y, hx, hy, hxy⟩
  · simp [holdsPlain, hx, hy]
  · simp [holdsPlain, hx, hy, isNone_fields?_eq_of_beq hxy]

end Json

/-! ## Kinds -/

/-- The kinds of the parts of a report. -/
inductive Report.Kind where
  | mismatch
  | unexpected
  | nested
  deriving DecidableEq, Repr

def Report.kind : Report → Kind
  | leaf (.mismatch _ _ _) => .mismatch
  | leaf (.unexpected _ _) => .unexpected
  | nested _ => .nested

/-- The kind of a part of a report, read off its JSON. -/
def Json.reportKind (j : Json) : Report.Kind :=
  if j.holdsPlain "expected" then .mismatch
  else if j.holdsPlain "unexpected" then .unexpected
  else .nested

/-- What is expected is shown by something other than an object. -/
def Leaf.Legible : Leaf → Prop
  | mismatch _ expected _ => expected.toJson.fields? = none
  | unexpected _ _ => True

namespace Report

/-- Keys are distinct, and no leaf expects an object. -/
structure Legible (r : Report) : Prop where
  wellFormed : r.WellFormed
  leaves : ∀ l ∈ r.leaves, l.2.Legible

/-- The leaves below a key are those of a child under it. -/
theorem cons_mem_leavesOfChildren_iff {children : List (String × Report)} {key : String}
    {keys : List String} {l : Leaf} : (key :: keys, l) ∈ leavesOfChildren children ↔
      ∃ child, (key, child) ∈ children ∧ (keys, l) ∈ child.leaves := by
  induction children with
  | nil => simp [leavesOfChildren]
  | cons c rest ih =>
    obtain ⟨k, d⟩ := c
    rw [leavesOfChildren, List.mem_append, ih, List.mem_map]
    constructor
    · rintro (⟨m, hm, he⟩ | ⟨child, hchild, hmem⟩)
      · cases he
        exact ⟨d, List.mem_cons_self, hm⟩
      · exact ⟨child, List.mem_cons_of_mem _ hchild, hmem⟩
    · rintro ⟨child, hchild, hmem⟩
      rcases List.mem_cons.mp hchild with he | hrest
      · cases he
        exact .inl ⟨(keys, l), hmem, rfl⟩
      · exact .inr ⟨child, hrest, hmem⟩

theorem Legible.child {children : List (String × Report)} {key : String} {child : Report}
    (h : (nested children).Legible) (hc : (key, child) ∈ children) : child.Legible := by
  have hwf := h.wellFormed
  rw [WellFormed] at hwf
  refine ⟨hwf.2 _ hc, fun l hl => h.leaves (key :: l.1, l.2) ?_⟩
  exact cons_mem_leavesOfChildren_iff.mpr ⟨child, hc, hl⟩

theorem toJsonOfChildren_eq_map (children : List (String × Report)) :
    toJsonOfChildren children = children.map fun c => (c.1, c.2.toJson) := by
  induction children with
  | nil => rfl
  | cons c rest ih =>
    obtain ⟨key, child⟩ := c
    rw [toJsonOfChildren, List.map_cons, ih]

theorem get?_toJsonOfChildren (children : List (String × Report)) (key : String) :
    Record.get? (toJsonOfChildren children) key = (Record.get? children key).map toJson := by
  rw [toJsonOfChildren_eq_map, Record.get?_map]

theorem exists_fields_toJson (r : Report) :
    ∃ fields, r.toJson = .object fields ∧ (r.WellFormed → Record.Distinct fields) := by
  cases r with
  | leaf l =>
    cases l with
    | mismatch actual expected value =>
      refine ⟨_, rfl, fun _ => ?_⟩
      cases value with
      | none => split_ifs <;> simp [Record.Distinct, Record.keys]
      | some v => dsimp only; split_ifs <;> simp [Record.Distinct, Record.keys]
    | unexpected kind v => exact ⟨_, rfl, fun _ => by simp [Record.Distinct, Record.keys]⟩
  | nested children =>
    refine ⟨_, rfl, fun h => ?_⟩
    rw [WellFormed] at h
    rw [toJsonOfChildren_eq_map]
    exact Record.distinct_map h.1

/-- Below a node every key holds an object. -/
theorem holdsPlain_toJson_nested (children : List (String × Report)) (key : String) :
    (nested children).toJson.holdsPlain key = false := by
  show ((Record.get? (toJsonOfChildren children) key).any fun x => x.fields?.isNone) = false
  rw [get?_toJsonOfChildren]
  cases Record.get? children key with
  | none => rfl
  | some child =>
    obtain ⟨fields, hfields, -⟩ := child.exists_fields_toJson
    simp [hfields, Json.fields?]

/-- The kind of a part can be read off its JSON. -/
theorem reportKind_toJson {r : Report} (h : r.Legible) : r.toJson.reportKind = r.kind := by
  cases r with
  | leaf l =>
    have hl : l.Legible := h.leaves ([], l) List.mem_cons_self
    cases l with
    | mismatch actual expected value =>
      have hplain : expected.toJson.fields? = none := hl
      have hexpected : (leaf (.mismatch actual expected value)).toJson.holdsPlain "expected" =
          true := by
        simp only [toJson, Leaf.toJson, Json.holdsPlain]
        split_ifs <;> simp [Record.get?_cons, hplain]
      rw [Json.reportKind, if_pos hexpected, kind]
    | unexpected kind v => rfl
  | nested children =>
    rw [Json.reportKind, holdsPlain_toJson_nested, holdsPlain_toJson_nested]
    rfl

theorem reportKind_eq_of_beq {r q : Report} (hr : r.WellFormed) (hq : q.WellFormed)
    (h : (r.toJson == q.toJson) = true) : r.toJson.reportKind = q.toJson.reportKind := by
  obtain ⟨a, ha, hda⟩ := r.exists_fields_toJson
  obtain ⟨b, hb, hdb⟩ := q.exists_fields_toJson
  rw [ha, hb] at h ⊢
  have hplain := Json.holdsPlain_eq_of_beq (hda hr) (hdb hq) h
  rw [Json.reportKind, Json.reportKind, hplain, hplain]

/-! ## Equal JSON at every key sequence -/

/-- Two legible parts with the same JSON up to the order of keys. -/
structure SameJson (r q : Report) : Prop where
  left : r.Legible
  right : q.Legible
  beq : (r.toJson == q.toJson) = true

theorem SameJson.kind_eq {r q : Report} (h : SameJson r q) : r.kind = q.kind := by
  rw [← reportKind_toJson h.left, ← reportKind_toJson h.right]
  exact reportKind_eq_of_beq h.left.wellFormed h.right.wellFormed h.beq

theorem SameJson.children {a b : List (String × Report)} (h : SameJson (nested a) (nested b)) :
    Record.Distinct a ∧ Record.Alike SameJson a b := by
  have hwfa := h.left.wellFormed
  have hwfb := h.right.wellFormed
  rw [WellFormed] at hwfa hwfb
  obtain ⟨ja, hja, hda⟩ := (nested a).exists_fields_toJson
  obtain ⟨jb, hjb, hdb⟩ := (nested b).exists_fields_toJson
  have hbeq := h.beq
  rw [hja, hjb, Json.beq_object_iff] at hbeq
  refine ⟨hwfa.1, (Record.alike_iff hwfa.1 hwfb.1).mpr fun key => ?_⟩
  have hread := (Record.alike_iff (hda h.left.wellFormed) (hdb h.right.wellFormed)).mp hbeq key
  cases hja
  cases hjb
  rw [get?_toJsonOfChildren, get?_toJsonOfChildren] at hread
  rcases rel_cases hread with ⟨hx, hy⟩ | ⟨x, y, hx, hy, hxy⟩
  · rw [Option.map_eq_none_iff] at hx hy
    rw [hx, hy]
    exact .none
  · obtain ⟨c, hc, rfl⟩ := Option.map_eq_some_iff.mp hx
    obtain ⟨d, hd, rfl⟩ := Option.map_eq_some_iff.mp hy
    rw [hc, hd]
    exact .some ⟨h.left.child (Record.mem_of_get? hc), h.right.child (Record.mem_of_get? hd), hxy⟩

/-- Equal JSON at the root is equal JSON at every key sequence. -/
theorem at?_rel {keys : List String} :
    ∀ {r q : Report}, SameJson r q → Option.Rel SameJson (r.at? keys) (q.at? keys) := by
  induction keys with
  | nil => exact fun h => .some h
  | cons key keys ih =>
    intro r q h
    have hkind := h.kind_eq
    cases r with
    | leaf l =>
      cases q with
      | leaf k => exact .none
      | nested b => cases l <;> cases hkind
    | nested a =>
      cases q with
      | leaf k => cases k <;> cases hkind
      | nested b =>
        obtain ⟨hda, halike⟩ := h.children
        have hdb := h.right.wellFormed
        rw [WellFormed] at hdb
        rw [at?_nested_cons, at?_nested_cons]
        have hread := (Record.alike_iff hda hdb.1).mp halike key
        rcases rel_cases hread with ⟨hx, hy⟩ | ⟨x, y, hx, hy, hxy⟩
        · rw [hx, hy]
          exact .none
        · rw [hx, hy]
          exact ih hxy

/-- A leaf stands at its keys. -/
theorem at?_of_mem_leaves {r : Report} (h : r.WellFormed) {keys : List String} {l : Leaf}
    (hl : (keys, l) ∈ r.leaves) : r.at? keys = some (leaf l) := by
  induction keys generalizing r with
  | nil =>
    cases r with
    | leaf k =>
      cases List.mem_singleton.mp hl
      rfl
    | nested children =>
      obtain ⟨key, below, hcons, -⟩ := exists_cons_of_mem_leavesOfChildren hl
      cases hcons
  | cons key keys ih =>
    cases r with
    | leaf k => cases List.mem_singleton.mp hl
    | nested children =>
      rw [WellFormed] at h
      obtain ⟨child, hchild, hmem⟩ := cons_mem_leavesOfChildren_iff.mp hl
      rw [at?_nested_cons, (Record.get?_eq_some_iff h.1).mpr hchild, Option.bind_some]
      exact ih (h.2 _ hchild) hmem

end Report

/-! ## Missing values -/

/-- Was the offending value undefined? A mismatch with a literal has it among its labels. -/
def Leaf.isMissing : Leaf → Bool
  | mismatch actual _ none => actual.isUndefined
  | mismatch _ _ (some v) => v.isUndefined
  | unexpected _ v => v.isUndefined

/-- Undefined is the only value of its name whose JSON is null. -/
theorem Value.isUndefined_eq_decide (v : Value) :
    v.isUndefined = (decide (v.typeName = "Undefined") && v.toJson.isNull) := by
  cases v with
  | undefined => rfl
  | instanceOf c fields => simp [isUndefined, toJson, Json.isNull]
  | _ => simp [isUndefined, typeName]

namespace Leaf

theorem isUndefined_eq_of_wrongKind {v w : Value} {name other : String}
    (h : ((wrongKind v name).toJson == (wrongKind w other).toJson) = true) :
    v.isUndefined = w.isUndefined := by
  have hlength := (Json.beq_object_iff.mp h).length_eq
  cases hv : v.isUndefined <;> cases hw : w.isUndefined <;>
    simp [hv, hw, Label.isUndefined] at hlength ⊢

theorem isUndefined_eq_of_wrongLiteral {v w : Value} {l k : Literal}
    (h : ((wrongLiteral l v).toJson == (wrongLiteral k w).toJson) = true) :
    v.isUndefined = w.isUndefined := by
  have hlength := (Json.beq_object_iff.mp h).length_eq
  cases hv : v.isUndefined <;> cases hw : w.isUndefined <;>
    simp [hv, hw, Label.isUndefined] at hlength ⊢

theorem isUndefined_eq_of_undeclared {v w : Value}
    (h : ((undeclared v).toJson == (undeclared w).toJson) = true) :
    v.isUndefined = w.isUndefined := by
  have halike := Json.beq_object_iff.mp h
  have hname : (Json.string v.typeName == Json.string w.typeName) = true :=
    halike.related ("unexpected", _) (by simp) _ rfl
  have hvalue : (v.toJson == w.toJson) = true := halike.related ("value", _) (by simp) _ rfl
  have htypeName : v.typeName = w.typeName := beq_iff_eq.mp hname
  rw [v.isUndefined_eq_decide, w.isUndefined_eq_decide, htypeName, Json.isNull_eq_of_beq hvalue]

end Leaf

/-- A literal is shown by something other than an object. -/
theorem Literal.fields?_toJson_toValue (l : Literal) : l.toValue.toJson.fields? = none := by
  cases l with
  | number x =>
    show (Json.ofBinary64 x).fields? = none
    rw [Json.ofBinary64]
    split <;> split_ifs <;> rfl
  | _ => rfl

namespace Shape

/-- A rule objects by naming kinds, or, when it is a literal, by the two values. -/
theorem objection?_cases {s : Shape} {v : Value} {l : Leaf} (h : s.objection? v = some l) :
    (∃ k, s = literal k ∧ l = .wrongLiteral k v) ∨
      ((∀ k, s ≠ literal k) ∧ ∃ name, l = .wrongKind v name) := by
  cases s with
  | literal k =>
    rw [objection?] at h
    split_ifs at h
    cases h
    exact .inl ⟨k, rfl, rfl⟩
  | wrapped => cases h
  | _ =>
    simp only [objection?] at h
    split_ifs at h
    cases h
    refine .inr ⟨fun k hk => ?_, _, rfl⟩
    cases hk

theorem isMissing_of_objection? {s : Shape} {v : Value} {l : Leaf} (h : s.objection? v = some l) :
    l.isMissing = v.isUndefined := by
  rcases objection?_cases h with ⟨k, -, rfl⟩ | ⟨-, name, rfl⟩ <;> rfl

/-- Under one rule the JSON of a leaf tells a missing value from one that is there. -/
theorem isMissing_eq_of_objection? {s : Shape} {v w : Value} {l k : Leaf}
    (hl : s.objection? v = some l) (hk : s.objection? w = some k)
    (h : (l.toJson == k.toJson) = true) : l.isMissing = k.isMissing := by
  rw [isMissing_of_objection? hl, isMissing_of_objection? hk]
  rcases objection?_cases hl with ⟨a, rfl, rfl⟩ | ⟨hs, name, rfl⟩
  · rcases objection?_cases hk with ⟨b, -, rfl⟩ | ⟨ht, -⟩
    · exact Leaf.isUndefined_eq_of_wrongLiteral h
    · exact absurd rfl (ht a)
  · rcases objection?_cases hk with ⟨b, rfl, -⟩ | ⟨-, other, rfl⟩
    · exact absurd rfl (hs b)
    · exact Leaf.isUndefined_eq_of_wrongKind h

/-- A rule that objects has no modifiers in front. -/
theorem core_of_objection? {s : Shape} {v : Value} {l : Leaf} (h : s.objection? v = some l) :
    s.core = s := by
  cases s with
  | wrapped => cases h
  | _ => rfl

/-- The keys say which rule decides. -/
theorem core_of_reaches {s t : Shape} {v w : Value} {keys : List String}
    (h : Reaches s v keys t w) (hs : s.WellFormed) :
    (s.subshape? keys).map core = some t.core := by
  induction h with
  | root s v => rw [subshape?, Option.map_some, core_strip]
  | step hc _ ih =>
    rw [hc.subshape?_cons hs]
    exact ih (hc.wellFormed (wellFormed_strip hs _))

/-! ## Reports -/

/-- A leaf is what a rule has against a value, or an undeclared key. -/
theorem mem_leavesOf_finding_cases {subset : Bool} {s : Shape} {v : Value} {keys : List String}
    {l : Leaf} (h : (keys, l) ∈ leavesOf (finding subset s v)) :
    (∃ t w, Reaches s v keys t w ∧ t.objection? w = some l) ∨ ∃ x, l = .undeclared x := by
  rcases mem_leavesOf_finding_iff.mp h with hrule | ⟨-, _, _, _, _, _, x, -, -, -, -, -, rfl⟩
  · exact .inl hrule
  · exact .inr ⟨x, rfl⟩

theorem legible_of_finding {subset : Bool} {s : Shape} {v : Value} {r : Report}
    (hs : s.WellFormed) (hv : v.WellFormed) (h : finding subset s v = some r) : r.Legible := by
  refine ⟨wellFormed_of_mem_finding hs hv r h, ?_⟩
  rintro ⟨keys, l⟩ hl
  have hmem : (keys, l) ∈ leavesOf (finding subset s v) := by rwa [h]
  rcases mem_leavesOf_finding_cases hmem with ⟨t, w, -, hobjection⟩ | ⟨x, rfl⟩
  · rcases objection?_cases hobjection with ⟨k, -, rfl⟩ | ⟨-, name, rfl⟩
    · exact k.fields?_toJson_toValue
    · rfl
  · trivial

/-- By the same shape, equal JSON at the same keys is of values that are both missing or both
there. -/
theorem isMissing_eq_of_mem_leaves {a b : Bool} {s : Shape} {v w : Value} {keys : List String}
    {l k : Leaf} (hs : s.WellFormed) (hl : (keys, l) ∈ leavesOf (finding a s v))
    (hk : (keys, k) ∈ leavesOf (finding b s w))
    (hkind : (Report.leaf l).kind = (Report.leaf k).kind)
    (h : (l.toJson == k.toJson) = true) : l.isMissing = k.isMissing := by
  rcases mem_leavesOf_finding_cases hl with ⟨t, x, hreach, hobjection⟩ | ⟨x, rfl⟩
  · rcases mem_leavesOf_finding_cases hk with ⟨u, y, hreach', hobjection'⟩ | ⟨y, rfl⟩
    · have hrule : some t.core = some u.core := by
        rw [← core_of_reaches hreach hs, ← core_of_reaches hreach' hs]
      rw [core_of_objection? hobjection, core_of_objection? hobjection'] at hrule
      cases hrule
      exact isMissing_eq_of_objection? hobjection hobjection' h
    · rcases objection?_cases hobjection with ⟨_, -, rfl⟩ | ⟨-, _, rfl⟩ <;> cases hkind
  · rcases mem_leavesOf_finding_cases hk with ⟨u, y, hreach', hobjection'⟩ | ⟨y, rfl⟩
    · rcases objection?_cases hobjection' with ⟨_, -, rfl⟩ | ⟨-, _, rfl⟩ <;> cases hkind
    · exact Leaf.isUndefined_eq_of_undeclared h

theorem at?_of_mem_leavesOf {found : Finding} (h : ∀ r ∈ found, r.WellFormed) {keys : List String}
    {l : Leaf} (hl : (keys, l) ∈ leavesOf found) :
    found.bind (·.at? keys) = some (.leaf l) := by
  cases found with
  | none => cases hl
  | some r => exact Report.at?_of_mem_leaves (h r rfl) hl

/-- The JSON of a report is an object, that of no report is not. -/
theorem sameJson_of_beq {r₁ r₂ : Finding} (h₁ : ∀ r ∈ r₁, r.Legible) (h₂ : ∀ r ∈ r₂, r.Legible)
    (h : (Fixture.reportJson r₁ == Fixture.reportJson r₂) = true) :
    Option.Rel Report.SameJson r₁ r₂ := by
  cases r₁ with
  | none =>
    cases r₂ with
    | none => exact .none
    | some r =>
      obtain ⟨fields, hfields, -⟩ := r.exists_fields_toJson
      rw [Fixture.reportJson, Fixture.reportJson, hfields] at h
      cases h
  | some r =>
    cases r₂ with
    | none =>
      obtain ⟨fields, hfields, -⟩ := r.exists_fields_toJson
      rw [Fixture.reportJson, Fixture.reportJson, hfields] at h
      cases h
    | some q => exact .some ⟨h₁ r rfl, h₂ q rfl, h⟩

/-- **The JSON of a report is unambiguous.** Take two reports, on any values by any shapes, whose
JSON is the same up to the order of keys. Then both are empty or neither is, both have parts of the
same kind at the same keys, and the same keys below every node, whatever the keys are called. When
the reports are by the same shape, two leaves at the same keys are both about a missing value or
both about one that is there. -/
theorem reportWith_unambiguous {s₁ s₂ : Shape} {v₁ v₂ : Value} {o₁ o₂ : Options} {r₁ r₂ : Finding}
    (hs₁ : s₁.WellFormed) (hs₂ : s₂.WellFormed) (hv₁ : v₁.WellFormed) (hv₂ : v₂.WellFormed)
    (h₁ : s₁.reportWith v₁ o₁ = .ok r₁) (h₂ : s₂.reportWith v₂ o₂ = .ok r₂)
    (h : (Fixture.reportJson r₁ == Fixture.reportJson r₂) = true) :
    (r₁ = none ↔ r₂ = none) ∧
      (∀ keys, (r₁.bind (·.at? keys)).map Report.kind = (r₂.bind (·.at? keys)).map Report.kind) ∧
      (∀ keys a b, r₁.bind (·.at? keys) = some (.nested a) →
        r₂.bind (·.at? keys) = some (.nested b) → (Record.keys a).Perm (Record.keys b)) ∧
      (s₁ = s₂ → ∀ keys l k, (keys, l) ∈ leavesOf r₁ → (keys, k) ∈ leavesOf r₂ →
        l.isMissing = k.isMissing) := by
  obtain ⟨-, rfl⟩ := reportWith_ok_iff.mp h₁
  obtain ⟨-, rfl⟩ := reportWith_ok_iff.mp h₂
  have hroot : Option.Rel Report.SameJson (finding o₁.subset s₁ v₁) (finding o₂.subset s₂ v₂) :=
    sameJson_of_beq (fun _ => legible_of_finding hs₁ hv₁) (fun _ => legible_of_finding hs₂ hv₂) h
  have hparts (keys : List String) : Option.Rel Report.SameJson
      ((finding o₁.subset s₁ v₁).bind (·.at? keys)) ((finding o₂.subset s₂ v₂).bind (·.at? keys)) :=
    rel_bind hroot fun _ _ _ _ hrq => Report.at?_rel hrq
  refine ⟨?_, fun keys => ?_, fun keys a b ha hb => ?_, ?_⟩
  · rcases rel_cases hroot with ⟨hr, hq⟩ | ⟨r, q, hr, hq, -⟩ <;> simp [hr, hq]
  · rcases rel_cases (hparts keys) with ⟨hr, hq⟩ | ⟨r, q, hr, hq, hrq⟩
    · rw [hr, hq]
    · rw [hr, hq, Option.map_some, Option.map_some, hrq.kind_eq]
  · have hnodes := hparts keys
    rw [ha, hb, Option.rel_some_some] at hnodes
    obtain ⟨hdistinct, halike⟩ := hnodes.children
    exact halike.keys_perm hdistinct
  · rintro rfl keys l k hl hk
    have hleaves := hparts keys
    rw [at?_of_mem_leavesOf (wellFormed_of_mem_finding hs₁ hv₁) hl,
      at?_of_mem_leavesOf (wellFormed_of_mem_finding hs₂ hv₂) hk, Option.rel_some_some] at hleaves
    exact isMissing_eq_of_mem_leaves hs₁ hl hk hleaves.kind_eq hleaves.beq

/-- Keys that have the names of the fields of a leaf, in two orders. -/
theorem reportWith_unambiguous_reordered :
    (object [("actual", literal (.string "x")), ("expected", marker .string)]).WellFormed ∧
      (Value.object [("unexpected", .null), ("value", .bool true)]).WellFormed ∧
      (Value.object [("value", .bool true), ("unexpected", .null)]).WellFormed ∧
      ∃ r₁ r₂,
        (object [("actual", literal (.string "x")), ("expected", marker .string)]).reportWith
          (.object [("unexpected", .null), ("value", .bool true)]) ⟨false, none⟩ = .ok r₁ ∧
        (object [("actual", literal (.string "x")), ("expected", marker .string)]).reportWith
          (.object [("value", .bool true), ("unexpected", .null)]) ⟨false, none⟩ = .ok r₂ ∧
        (Fixture.reportJson r₁ == Fixture.reportJson r₂) = true ∧
        (∀ keys, (r₁.bind (·.at? keys)).map Report.kind =
          (r₂.bind (·.at? keys)).map Report.kind) ∧
        ∀ keys l k, (keys, l) ∈ leavesOf r₁ → (keys, k) ∈ leavesOf r₂ →
          l.isMissing = k.isMissing := by
  have hs : (object [("actual", literal (.string "x")), ("expected", marker .string)]).WellFormed :=
    by simp [WellFormed, Record.Distinct, Record.keys]
  have hv : (Value.object [("unexpected", .null), ("value", .bool true)]).WellFormed := by
    simp [Value.WellFormed, Record.Distinct, Record.keys]
  have hw : (Value.object [("value", .bool true), ("unexpected", .null)]).WellFormed := by
    simp [Value.WellFormed, Record.Distinct, Record.keys]
  have hv' := reportWith_unlimited (object [("actual", literal (.string "x")),
    ("expected", marker .string)]) (.object [("unexpected", .null), ("value", .bool true)]) false
  have hw' := reportWith_unlimited (object [("actual", literal (.string "x")),
    ("expected", marker .string)]) (.object [("value", .bool true), ("unexpected", .null)]) false
  refine ⟨hs, hv, hw, _, _, hv', hw', by decide +kernel, ?_⟩
  obtain ⟨-, hkinds, -, hmissing⟩ := reportWith_unambiguous hs hs hv hw hv' hw' (by decide +kernel)
  exact ⟨hkinds, hmissing rfl⟩

end Shape

end Conformance
