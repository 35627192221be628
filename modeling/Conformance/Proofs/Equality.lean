import Conformance.Proofs.Congruence

/-!
# Equal inputs, equal answers

Equality ignores the order of keys, in patterns as in records, and takes the two zeros for the same
number. Equal shapes give equal answers on equal values. A NaN equals nothing, so that what is said
of keys in another order does not follow from equality alone.

Results:
* `Record.alike_of_perm`: the keys of a record permuted, and those of records inside.
* `Value.Alike.refl`, `Shape.Alike.refl`: nothing permuted.
* `Shape.Alike.answers`: shapes that are alike answer alike on values that are alike.
* `Shape.answers_eq_of_beq`: equal shapes answer equally on equal values.
-/

namespace Conformance

/-! ## Keys in another order -/

theorem Record.keys_eq_of_forall₂ {α β : Type} {R : α → β → Prop} {a : Record α} {b : Record β}
    (h : List.Forall₂ (fun e f => e.1 = f.1 ∧ R e.2 f.2) a b) : a.keys = b.keys := by
  induction h with
  | nil => rfl
  | cons he _ ih =>
    simp only [keys, List.map_cons] at ih ⊢
    rw [he.1, ih]

theorem Record.distinct_of_perm {α β : Type} {R : α → β → Prop} {a c : Record α} {b : Record β}
    (ha : a.Distinct) (hperm : a.Perm c)
    (h : List.Forall₂ (fun e f => e.1 = f.1 ∧ R e.2 f.2) c b) : b.Distinct := by
  rw [Distinct, ← keys_eq_of_forall₂ h]
  exact (hperm.map Prod.fst).nodup_iff.mp ha

/-- Entries put in another order, with what they hold replaced by what is related to it. -/
theorem Record.alike_of_perm {α β : Type} {R : α → β → Prop} {a c : Record α} {b : Record β}
    (ha : a.Distinct) (hperm : a.Perm c)
    (h : List.Forall₂ (fun e f => e.1 = f.1 ∧ R e.2 f.2) c b) : Record.Alike R a b := by
  have hb : b.Distinct := distinct_of_perm ha hperm h
  rw [alike_iff ha hb]
  intro key
  rw [get?_eq_of_perm ha hperm]
  exact get?_rel_of_forall₂ h key

theorem Record.alike_refl {α : Type} {R : α → α → Prop} {a : Record α} (ha : a.Distinct)
    (hR : ∀ e ∈ a, R e.2 e.2) : Record.Alike R a a :=
  alike_of_perm ha (.refl a) (List.forall₂_same.mpr fun e he => ⟨rfl, hR e he⟩)

theorem Value.Alike.refl {v : Value} (h : v.WellFormed) : v.Alike Eq v := by
  induction v with
  | array items ih =>
    rw [WellFormed] at h
    exact .array (List.forall₂_same.mpr fun item hi => ih item hi (h item hi))
  | object fields ih =>
    rw [WellFormed] at h
    exact alike_object_iff.mpr (Record.alike_refl h.1 fun f hf => ih f hf (h.2 f hf))
  | instanceOf c fields ih =>
    rw [WellFormed] at h
    exact alike_instanceOf_iff.mpr (Record.alike_refl h.1 fun f hf => ih f hf (h.2 f hf))
  | number x => exact .number rfl
  | symbol s => exact .symbol rfl
  | function f => exact .function rfl
  | _ => constructor

theorem Shape.Alike.refl {s : Shape} (h : s.WellFormed) : s.Alike Eq s := by
  induction s with
  | literal l =>
    have hl : l.toValue.WellFormed := by
      cases l <;> simp [Literal.toValue, Value.WellFormed]
    exact .literal (Value.Alike.refl hl)
  | array element ih =>
    rw [WellFormed] at h
    exact .array (ih h)
  | object pattern ih =>
    rw [WellFormed] at h
    exact alike_object_iff.mpr (Record.alike_refl h.1 fun f hf => ih f hf (h.2 f hf))
  | wrapped m inner ih =>
    rw [WellFormed] at h
    exact .wrapped m (ih h)
  | _ => constructor

/-! ## Answers -/

namespace Shape

variable {N : Binary64 → Binary64 → Prop} {s t : Shape} {v w : Value}

/-- Two answers of which both are refusals, or both are reports and related. -/
def SameOutcome (R : Finding → Finding → Prop) :
    Except DepthExceeded Finding → Except DepthExceeded Finding → Prop
  | .ok r, .ok q => R r q
  | .error _, .error _ => True
  | _, _ => False

theorem firstRefusal?_isSome_congr {trace trace' : List (List String)}
    (h : ∀ keys, keys ∈ trace ↔ keys ∈ trace') (g : Guard) :
    (g.firstRefusal? trace).isSome = (g.firstRefusal? trace').isSome := by
  rw [Bool.eq_iff_iff, Guard.firstRefusal?, Guard.firstRefusal?, List.isSome_findSome?,
    List.isSome_findSome?, List.any_eq_true, List.any_eq_true]
  exact exists_congr fun keys => and_congr_left fun _ => h keys

/-- Shapes that are alike answer alike on values that are alike. -/
theorem Alike.answers (hN : Binary64.Congruent N) (hs : s.Alike N t) (hv : v.Alike N w)
    (hsw : s.WellFormed) (htw : t.WellFormed) (hvw : v.WellFormed) (hww : w.WellFormed) :
    (∀ o, SameOutcome (Option.Rel (Report.Alike N)) (s.reportWith v o) (t.reportWith w o)) ∧
      ∀ subset, s.conformsWith v ⟨subset, none⟩ = t.conformsWith w ⟨subset, none⟩ := by
  have hfinding := fun subset => hs.finding_rel hN subset hv hsw htw hvw hww
  constructor
  · intro o
    have hrefusal := firstRefusal?_isSome_congr (hs.mem_visited_iff hv hsw htw hvw hww)
      (Guard.ofLimit o.maxDepth)
    rw [reportWith_eq, reportWith_eq]
    cases hr : (Guard.ofLimit o.maxDepth).firstRefusal? (visited s v) <;>
      cases hr' : (Guard.ofLimit o.maxDepth).firstRefusal? (visited t w) <;>
      rw [hr, hr'] at hrefusal
    · exact hfinding o.subset
    · cases hrefusal
    · cases hrefusal
    · exact trivial
  · intro subset
    rw [conformsWith_unlimited, conformsWith_unlimited, ← Option.not_isSome, ← Option.not_isSome,
      isSome_eq_of_rel (hfinding subset)]

theorem SameOutcome.imp {R S : Finding → Finding → Prop}
    {answer answer' : Except DepthExceeded Finding} (h : SameOutcome R answer answer')
    (himp : ∀ r q, R r q → S r q) : SameOutcome S answer answer' := by
  cases answer <;> cases answer'
  · exact trivial
  · exact h
  · exact h
  · exact himp _ _ h

theorem beq_of_rel {r q : Finding} (h : Option.Rel (Report.Alike Binary64.Equal) r q) :
    (r == q) = true := by
  cases h with
  | none => rfl
  | some h => exact Report.beq_of_alike h

end Shape

/-- A value as it can be built when the given classes exist: with distinct keys in its records. -/
structure Value.BuiltFrom (made : List Class) (v : Value) : Prop where
  wellFormed : v.WellFormed
  classesIn : v.ClassesIn made

/-- A shape as it can be built when the given classes exist: with distinct keys in its patterns. -/
structure Shape.BuiltFrom (made : List Class) (s : Shape) : Prop where
  wellFormed : s.WellFormed
  classesIn : s.ClassesIn made

namespace Shape

/-- **Equal inputs, equal answers.** Let two shapes and two values be built over the classes of one
supply. When the shapes are equal and the values are equal, a limit refuses both or none, the
reports are equal, and without a limit so are the verdicts. When they differ in the order of keys
only, so do the reports, NaNs included; nothing permuted is such a difference, and so is a
permutation of the keys of a pattern, a record or an instance with such differences inside. -/
theorem answers_eq_of_beq {supply : Supply} {made : List Class} (hmade : Supply.Made supply made)
    {s t : Shape} {v w : Value} (hs : s.BuiltFrom made) (ht : t.BuiltFrom made)
    (hv : v.BuiltFrom made) (hw : w.BuiltFrom made) :
    ((s == t) = true → (v == w) = true →
      (∀ o, SameOutcome (fun r q => (r == q) = true) (s.reportWith v o) (t.reportWith w o)) ∧
      ∀ subset, ∃ b, s.conformsWith v ⟨subset, none⟩ = .ok b ∧
        t.conformsWith w ⟨subset, none⟩ = .ok b) ∧
    (s.Alike Eq t → v.Alike Eq w →
      (∀ o, SameOutcome (Option.Rel (Report.Alike Eq)) (s.reportWith v o) (t.reportWith w o)) ∧
      ∀ subset, ∃ b, s.conformsWith v ⟨subset, none⟩ = .ok b ∧
        t.conformsWith w ⟨subset, none⟩ = .ok b) ∧
    (s.Alike Eq s ∧ v.Alike Eq v) ∧
    (∀ pattern permuted others, s = object pattern → pattern.Perm permuted →
      List.Forall₂ (fun e f => e.1 = f.1 ∧ e.2.Alike Eq f.2) permuted others →
      s.Alike Eq (object others)) ∧
    ∀ fields permuted others, fields.Perm permuted →
      List.Forall₂ (fun e f => e.1 = f.1 ∧ e.2.Alike Eq f.2) permuted others →
      (v = .object fields → v.Alike Eq (.object others)) ∧
      ∀ c, v = .instanceOf c fields → v.Alike Eq (.instanceOf c others) := by
  have hverdict {subset : Bool}
      (h : s.conformsWith v ⟨subset, none⟩ = t.conformsWith w ⟨subset, none⟩) :
      ∃ b, s.conformsWith v ⟨subset, none⟩ = .ok b ∧ t.conformsWith w ⟨subset, none⟩ = .ok b := by
    have hok := conformsWith_unlimited s v subset
    exact ⟨_, hok, h ▸ hok⟩
  refine ⟨fun hst hvw => ?_, fun hst hvw => ?_, ⟨.refl hs.wellFormed, .refl hv.wellFormed⟩, ?_,
    fun fields permuted others hperm hinside => ⟨?_, ?_⟩⟩
  · have hst := alike_of_beq hmade hs.classesIn ht.classesIn hst
    have hvw := Value.alike_of_beq hmade hv.classesIn hw.classesIn hvw
    obtain ⟨hreport, hconforms⟩ := hst.answers Binary64.congruent_equal hvw hs.wellFormed
      ht.wellFormed hv.wellFormed hw.wellFormed
    constructor
    · exact fun o => (hreport o).imp fun _ _ => beq_of_rel
    · exact fun subset => hverdict (hconforms subset)
  · obtain ⟨hreport, hconforms⟩ := hst.answers Binary64.congruent_eq hvw hs.wellFormed
      ht.wellFormed hv.wellFormed hw.wellFormed
    exact ⟨hreport, fun subset => hverdict (hconforms subset)⟩
  · rintro pattern permuted others rfl hperm hinside
    have hpattern := hs.wellFormed
    rw [WellFormed] at hpattern
    exact alike_object_iff.mpr (Record.alike_of_perm hpattern.1 hperm hinside)
  · rintro rfl
    have hfields := (Value.wellFormed_of_fields? hv.wellFormed rfl).1
    exact Value.alike_object_iff.mpr (Record.alike_of_perm hfields hperm hinside)
  · rintro c rfl
    have hfields := (Value.wellFormed_of_fields? hv.wellFormed rfl).1
    exact Value.alike_instanceOf_iff.mpr (Record.alike_of_perm hfields hperm hinside)

/-- Keys in another order at two levels, zeros of opposite signs, and a class made on the way. -/
theorem answers_eq_of_beq_reordered :
    let point := (Supply.initial.rootClass "Point").1
    let made := [point, Catalogue.moneyClass]
    let s := object [("x", literal (.number ⟨0⟩)), ("at", object [("a", any), ("b", any)])]
    let t := object
      [("at", object [("b", any), ("a", any)]), ("x", literal (.number (Binary64.neg ⟨0⟩)))]
    let v := Value.object
      [("x", .null), ("at", .instanceOf point [("c", .number ⟨0⟩), ("a", .constructor point)])]
    let w := Value.object
      [("at", .instanceOf point
          [("a", .constructor point), ("c", .number (Binary64.neg ⟨0⟩))]), ("x", .null)]
    Supply.Made (Supply.initial.rootClass "Point").2 made ∧
      (s.BuiltFrom made ∧ t.BuiltFrom made ∧ v.BuiltFrom made ∧ w.BuiltFrom made) ∧
      (s == t) = true ∧ (v == w) = true ∧
      ∃ r q, s.reportWith v ⟨false, some 2⟩ = .ok (some r) ∧
        t.reportWith w ⟨false, some 2⟩ = .ok (some q) ∧ (r == q) = true := by
  intro point made s t v w
  have hmade : Supply.Made (Supply.initial.rootClass "Point").2 made :=
    Supply.Made.initial.rootClass "Point"
  have hs : s.BuiltFrom made := by
    constructor <;> simp [s, made, WellFormed, ClassesIn, Record.Distinct, Record.keys]
  have ht : t.BuiltFrom made := by
    constructor <;> simp [t, made, WellFormed, ClassesIn, Record.Distinct, Record.keys]
  have hv : v.BuiltFrom made := by
    constructor <;> simp [v, made, Value.WellFormed, Value.ClassesIn, Record.Distinct, Record.keys]
  have hw : w.BuiltFrom made := by
    constructor <;> simp [w, made, Value.WellFormed, Value.ClassesIn, Record.Distinct, Record.keys]
  have hst : (s == t) = true := by decide
  have hvw : (v == w) = true := by decide
  have h := ((answers_eq_of_beq hmade hs ht hv hw).1 hst hvw).1 ⟨false, some 2⟩
  exact ⟨hmade, ⟨hs, ht, hv, hw⟩, hst, hvw, _, _, rfl, rfl, h⟩

end Shape

end Conformance
