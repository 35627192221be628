import Conformance.Proofs.Finding
import Mathlib.Data.List.Induction
import Mathlib.Logic.Relation

/-!
# Classes form a forest

A class is defined on its own or below a class that was defined before it. So definitions, taken one
after the other, lay down a forest: a class is below at most one other, which is older. The chain of
superclasses climbs that forest from a class to its root. Names play no part in it, and later
definitions add classes to it without touching the ones that are there.

The forest is read off the definitions alone, in which a class goes by the number of its definition.

Results:
* `Class.define_eq_some_iff`: all that one definition does.
* `Class.Laid.define`: what a definition preserves; `Class.exists_laid_of_grounded`: so does a run.
* `Class.Laid.induction`: induction from the roots of the forest to the class of a number.
* `Class.Laid.descendsFrom_iff`: descent is being defined below, in any number of steps.
* `Class.definitions_forest`: the chains of superclasses, and what it is to be an instance.
-/

namespace Conformance

namespace Class

/-! ## Definitions -/

/-- A definition of a class: on its own, or below the class that the definition of a number made. -/
inductive Definition where
  | root (name : String)
  | extending (base : Nat) (name : String)

/-- Makes the class of a definition and puts it after those made so far. Nothing is made below a
class that is not there yet. -/
def define (state : Supply × List Class) : Definition → Option (Supply × List Class)
  | .root name => some ((state.1.rootClass name).2, state.2 ++ [(state.1.rootClass name).1])
  | .extending base name => state.2[base]?.map fun parent =>
    ((state.1.subclass parent name).2, state.2 ++ [(state.1.subclass parent name).1])

/-- The classes that definitions make, in their order. -/
def defineAll (supply : Supply) (defs : List Definition) : Option (List Class) :=
  (defs.foldlM define (supply, [])).map Prod.snd

/-- Every class is defined below an earlier one, if below any. -/
def Grounded (defs : List Definition) : Prop :=
  ∀ i base name, defs[i]? = some (Definition.extending base name) → base < i

/-- The class of the first number is defined directly below that of the second. -/
def Extends (defs : List Definition) (i j : Nat) : Prop :=
  ∃ name, defs[i]? = some (Definition.extending j name)

/-- The class that a definition makes with an identity, out of the classes that are there. -/
inductive Makes (id : Nat) (made : List Class) : Definition → Class → Prop
  | root (name : String) : Makes id made (.root name) (.root id name)
  | extending {base : Nat} {parent : Class} (name : String) : made[base]? = some parent →
      Makes id made (.extending base name) (.extending parent id name)

/-- A definition takes the next identity and adds one class, which it makes out of the others. -/
theorem define_eq_some_iff {state state' : Supply × List Class} {d : Definition} :
    define state d = some state' ↔ ∃ c, Makes state.1.next state.2 d c ∧
      state' = (⟨state.1.next + 1⟩, state.2 ++ [c]) := by
  cases d with
  | root name =>
    simp only [define, Option.some.injEq]
    constructor
    · intro h
      exact ⟨_, .root name, h.symm⟩
    · rintro ⟨c, ⟨⟩, rfl⟩
      rfl
  | extending base name =>
    simp only [define, Option.map_eq_some_iff]
    constructor
    · rintro ⟨parent, hp, h⟩
      exact ⟨_, .extending name hp, h.symm⟩
    · rintro ⟨c, hc, rfl⟩
      cases hc with
      | extending _ hp => exact ⟨_, hp, rfl⟩

/-! ## What a run of definitions preserves -/

/-- The classes are those of the definitions: each was made with the identity that its number gives
it, out of the ones before it. -/
structure Laid (supply : Supply) (defs : List Definition) (state : Supply × List Class) : Prop where
  next_eq : state.1.next = supply.next + defs.length
  length_eq : state.2.length = defs.length
  makes : ∀ {i : Nat} {c : Class}, state.2[i]? = some c →
    ∃ d, defs[i]? = some d ∧ Makes (supply.next + i) (state.2.take i) d c

section Runs

variable {supply : Supply} {defs more : List Definition} {state state' : Supply × List Class}

theorem Grounded.of_append (h : Grounded (defs ++ more)) : Grounded defs := by
  intro i base name hi
  have hlt : i < defs.length := (List.getElem?_eq_some_iff.mp hi).1
  exact h i base name (by rw [List.getElem?_append_left hlt, hi])

theorem Laid.start (supply : Supply) : Laid supply [] (supply, []) :=
  ⟨rfl, rfl, fun h => by simp at h⟩

theorem Laid.define {d : Definition} (h : Laid supply defs state)
    (hd : define state d = some state') : Laid supply (defs ++ [d]) state' := by
  obtain ⟨c, hc, rfl⟩ := define_eq_some_iff.mp hd
  refine ⟨by simp [h.next_eq, Nat.add_assoc], by simp [h.length_eq], ?_⟩
  intro i x hx
  have hlen := h.length_eq
  -- a class made before, the new one, or none
  rcases Nat.lt_trichotomy i defs.length with hi | rfl | hi
  · simp only [List.getElem?_append_left (hlen ▸ hi)] at hx
    obtain ⟨e, he, hm⟩ := h.makes hx
    exact ⟨e, by rw [List.getElem?_append_left hi, he],
      by rwa [List.take_append_of_le_length (by omega)]⟩
  · rw [← hlen, List.getElem?_concat_length] at hx
    cases hx
    refine ⟨d, List.getElem?_concat_length, ?_⟩
    rwa [← h.next_eq, ← hlen, List.take_left]
  · rw [List.getElem?_eq_none (by simp; omega)] at hx
    cases hx

/-- Definitions add classes after those that are there. -/
theorem prefix_of_foldlM (hm : more.foldlM define state = some state') : state.2 <+: state'.2 := by
  induction more generalizing state with
  | nil =>
    cases hm
    exact List.prefix_rfl
  | cons d more ih =>
    rw [List.foldlM_cons, Option.bind_eq_bind, Option.bind_eq_some_iff] at hm
    obtain ⟨next, hd, hm⟩ := hm
    obtain ⟨c, -, rfl⟩ := define_eq_some_iff.mp hd
    exact (List.prefix_append state.2 [c]).trans (ih hm)

/-- Definitions that name earlier classes only all make their class. -/
theorem exists_laid_of_grounded (supply : Supply) (h : Grounded defs) :
    ∃ state, defs.foldlM define (supply, []) = some state ∧ Laid supply defs state := by
  induction defs using List.reverseRecOn with
  | nil => exact ⟨(supply, []), rfl, .start supply⟩
  | append_singleton defs d ih =>
    obtain ⟨state, hs, hlaid⟩ := ih h.of_append
    have hmakes : ∃ c, Makes state.1.next state.2 d c := by
      cases d with
      | root name => exact ⟨_, .root name⟩
      | extending base name =>
        have hbase := h defs.length base name List.getElem?_concat_length
        rw [← hlaid.length_eq] at hbase
        exact ⟨_, .extending name (List.getElem?_eq_getElem hbase)⟩
    obtain ⟨c, hc⟩ := hmakes
    have hd := define_eq_some_iff.mpr ⟨c, hc, rfl⟩
    refine ⟨_, ?_, hlaid.define hd⟩
    rw [List.foldlM_append, hs]
    show List.foldlM define state [d] = _
    rw [List.foldlM_cons, hd]
    rfl

end Runs

/-! ## From the roots upwards -/

section Forest

variable {supply : Supply} {defs : List Definition} {state : Supply × List Class}

/-- What holds of the classes defined on their own, and of a class whenever it holds of the one that
it extends, holds of the class of every number. -/
theorem Laid.induction {motive : Nat → Class → Prop} (h : Laid supply defs state)
    (root : ∀ i name, defs[i]? = some (Definition.root name) →
      state.2[i]? = some (.root (supply.next + i) name) →
      motive i (.root (supply.next + i) name))
    (extending : ∀ i j name parent, j < i → defs[i]? = some (Definition.extending j name) →
      state.2[i]? = some (.extending parent (supply.next + i) name) →
      state.2[j]? = some parent → motive j parent →
      motive i (.extending parent (supply.next + i) name)) :
    ∀ i a, state.2[i]? = some a → motive i a := by
  intro i
  induction i using Nat.strongRecOn with
  | ind i ih =>
    intro a ha
    obtain ⟨d, hd, hm⟩ := h.makes ha
    cases hm with
    | root name => exact root i name hd ha
    | @extending j parent name hp =>
      rw [List.getElem?_take] at hp
      split_ifs at hp with hlt
      exact extending i j name parent hlt hd ha hp (ih j hlt parent hp)

variable {i j : Nat} {a b : Class}

/-- The number of a class is read off its identity. -/
theorem Laid.id_eq (h : Laid supply defs state) (ha : state.2[i]? = some a) :
    a.id = supply.next + i := by
  obtain ⟨d, -, hm⟩ := h.makes ha
  cases hm <;> rfl

/-! ## Chains of superclasses -/

theorem getElem?_ancestry_zero (a : Class) : a.ancestry[0]? = some a := by
  cases a <;> rfl

/-- Each class of the chain is followed by its parent, and one without parent by nothing. -/
theorem getElem?_ancestry_succ (a : Class) (n : Nat) :
    a.ancestry[n + 1]? = a.ancestry[n]?.bind parent? := by
  induction a generalizing n with
  | root => cases n <;> rfl
  | extending parent id name ih =>
    cases n with
    | zero => exact getElem?_ancestry_zero parent
    | succ n => exact ih n

theorem getLast?_ancestry_extending (parent : Class) (id : Nat) (name : String) :
    (extending parent id name).ancestry.getLast? = parent.ancestry.getLast? := by
  cases parent <;> rfl

/-- The classes of a chain were all made, and none after the one where it begins. -/
theorem Laid.exists_le_of_mem_ancestry (h : Laid supply defs state) :
    ∀ (i : Nat) (a : Class), state.2[i]? = some a →
      ∀ c ∈ a.ancestry, ∃ k ≤ i, state.2[k]? = some c := by
  refine h.induction ?_ ?_
  · intro i name _ hi c hc
    exact ⟨i, Nat.le_refl i, by rw [List.mem_singleton.mp hc, hi]⟩
  · intro i j name parent hlt _ hi _ ih c hc
    rcases List.mem_cons.mp hc with rfl | hc
    · exact ⟨i, Nat.le_refl i, hi⟩
    · obtain ⟨k, hk, hkc⟩ := ih c hc
      exact ⟨k, by omega, hkc⟩

theorem Laid.pairwise_ancestry (h : Laid supply defs state) :
    ∀ (i : Nat) (a : Class), state.2[i]? = some a →
      a.ancestry.Pairwise fun c d => (c == d) = false := by
  refine h.induction (fun _ _ _ _ => List.pairwise_singleton _ _) ?_
  intro i j name parent hlt _ hi hj ih
  refine List.pairwise_cons.mpr ⟨fun c hc => ?_, ih⟩
  obtain ⟨k, hk, hkc⟩ := h.exists_le_of_mem_ancestry j parent hj c hc
  have := h.id_eq hi
  have := h.id_eq hkc
  rw [← Bool.not_eq_true, beq_iff_id_eq]
  omega

theorem Laid.length_ancestry_le (h : Laid supply defs state) :
    ∀ (i : Nat) (a : Class), state.2[i]? = some a → a.ancestry.length ≤ i + 1 := by
  refine h.induction (fun i _ _ _ => Nat.succ_le_succ (Nat.zero_le i)) ?_
  intro i j name parent hlt _ _ _ ih
  show parent.ancestry.length + 1 ≤ i + 1
  omega

theorem Laid.getLast?_ancestry (h : Laid supply defs state) :
    ∀ (i : Nat) (a : Class), state.2[i]? = some a → ∃ last, ∃ k : Nat, ∃ name,
      a.ancestry.getLast? = some last ∧ state.2[k]? = some last ∧
        defs[k]? = some (Definition.root name) := by
  refine h.induction ?_ ?_
  · intro i name hd hi
    exact ⟨_, i, name, rfl, hi, hd⟩
  · intro i j name parent _ _ _ _ ih
    rwa [getLast?_ancestry_extending]

/-! ## Descent -/

theorem extends_iff {k : Nat} {name : String}
    (hd : defs[i]? = some (Definition.extending k name)) : Extends defs i j ↔ j = k := by
  constructor
  · rintro ⟨other, ho⟩
    rw [hd] at ho
    cases ho
    rfl
  · rintro rfl
    exact ⟨name, hd⟩

theorem not_extends {name : String} (hd : defs[i]? = some (Definition.root name)) :
    ¬ Extends defs i j := by
  rintro ⟨other, ho⟩
  rw [hd] at ho
  cases ho

theorem descendsFrom_root_iff {id : Nat} {name : String} :
    (root id name).descendsFrom b = true ↔ id = b.id := by
  rw [descendsFrom, ancestry, List.any_cons, List.any_nil, Bool.or_false, beq_iff_id_eq]
  rfl

theorem descendsFrom_extending_iff {parent : Class} {id : Nat} {name : String} :
    (extending parent id name).descendsFrom b = true ↔
      id = b.id ∨ parent.descendsFrom b = true := by
  rw [descendsFrom, ancestry, List.any_cons, Bool.or_eq_true, beq_iff_id_eq]
  rfl

/-- Equality of identities finds a class among the superclasses exactly when it is above in the
forest. -/
theorem Laid.descendsFrom_iff (h : Laid supply defs state) (hb : state.2[j]? = some b) :
    ∀ (i : Nat) (a : Class), state.2[i]? = some a →
      (a.descendsFrom b = true ↔ Relation.ReflTransGen (Extends defs) i j) := by
  have hid := h.id_eq hb
  refine h.induction ?_ ?_
  · intro i name hd _
    rw [Relation.ReflTransGen.cases_head_iff, descendsFrom_root_iff, hid]
    simp [not_extends hd]
  · intro i k name parent _ hd _ _ ih
    rw [Relation.ReflTransGen.cases_head_iff, descendsFrom_extending_iff, hid, ih]
    simp [extends_iff hd]

end Forest

/-! ## Older and newer definitions -/

section Growth

variable {defs more : List Definition} {i j : Nat}

theorem Grounded.lt_of_extends (h : Grounded defs) (he : Extends defs i j) : j < i := by
  obtain ⟨name, hd⟩ := he
  exact h i j name hd

/-- Whatever is above a class in the forest is older. -/
theorem Grounded.le_of_reflTransGen (h : Grounded defs)
    (hr : Relation.ReflTransGen (Extends defs) i j) : j ≤ i := by
  induction hr with
  | refl => exact Nat.le_refl i
  | tail _ he ih =>
    have := h.lt_of_extends he
    omega

/-- What is above a class is settled by the definitions up to its own. -/
theorem Grounded.reflTransGen_imp {defs' : List Definition} (h : Grounded defs)
    (hsame : ∀ k ≤ i, ∀ l, Extends defs k l → Extends defs' k l)
    (hr : Relation.ReflTransGen (Extends defs) i j) :
    Relation.ReflTransGen (Extends defs') i j := by
  induction hr with
  | refl => exact .refl
  | @tail k l hk he ih => exact ih.tail (hsame k (h.le_of_reflTransGen hk) l he)

theorem extends_append_iff (hi : i < defs.length) :
    Extends (defs ++ more) i j ↔ Extends defs i j := by
  unfold Extends
  rw [List.getElem?_append_left hi]

theorem Grounded.reflTransGen_append_iff (h : Grounded (defs ++ more)) (hi : i < defs.length) :
    Relation.ReflTransGen (Extends (defs ++ more)) i j ↔
      Relation.ReflTransGen (Extends defs) i j := by
  constructor
  · exact h.reflTransGen_imp fun k hk l => (extends_append_iff (by omega)).mp
  · exact h.of_append.reflTransGen_imp fun k hk l => (extends_append_iff (by omega)).mpr

end Growth

/-! ## The forest -/

/-- The chain of superclasses of the class of a number: it begins with the class, follows the
parents, is no longer than there are older classes, holds no class twice, and ends at a class that
was defined on its own. -/
structure HasChain (defs : List Definition) (made : List Class) (i : Nat) (a : Class) : Prop where
  begins : a.ancestry[0]? = some a
  climbs : ∀ n, a.ancestry[n + 1]? = a.ancestry[n]?.bind parent?
  length_le : a.ancestry.length ≤ i + 1
  distinct : a.ancestry.Pairwise fun c d => (c == d) = false
  ends : ∃ last, ∃ k : Nat, ∃ name, a.ancestry.getLast? = some last ∧ made[k]? = some last ∧
    defs[k]? = some (Definition.root name)

theorem Laid.hasChain {supply : Supply} {defs : List Definition} {state : Supply × List Class}
    {i : Nat} {a : Class} (h : Laid supply defs state) (ha : state.2[i]? = some a) :
    HasChain defs state.2 i a where
  begins := getElem?_ancestry_zero a
  climbs := getElem?_ancestry_succ a
  length_le := h.length_ancestry_le i a ha
  distinct := h.pairwise_ancestry i a ha
  ends := h.getLast?_ancestry i a ha

/-- Every instance of the first class is an instance of the second. -/
def SubclassOf (a b : Class) : Prop :=
  ∀ fields, (Value.instanceOf a fields).isInstanceOf b = true

theorem subclassOf_iff {a b : Class} : SubclassOf a b ↔ a.descendsFrom b = true :=
  ⟨fun h => h [], fun h _ => h⟩

/-- The rule of a class accepts an instance by descent, and by the name of its class alone. -/
theorem finding_ofClass_instanceOf (subset : Bool) (a b : Class) (fields : Record Value) :
    Shape.finding subset (.ofClass b) (.instanceOf a fields) = none ↔
      SubclassOf a b ∨ a.name = b.name := by
  have hmember : ((Shape.ofClass b).isIdentical (.instanceOf a fields) ||
      b.hasMember (.instanceOf a fields)) = true ↔ SubclassOf a b ∨ a.name = b.name := by
    simp [Shape.isIdentical, hasMember, Value.isInstanceOf, Value.typeName, subclassOf_iff]
  rw [Shape.finding_of_isFlat rfl, Option.map_eq_none_iff, Shape.objection?, ← hmember]
  split_ifs with h <;> simp [h]

theorem reportWith_ofClass_instanceOf (a b : Class) (fields : Record Value) (o : Options) :
    (Shape.ofClass b).reportWith (.instanceOf a fields) o = .ok none ↔
      SubclassOf a b ∨ a.name = b.name := by
  rw [Shape.reportWith, Shape.examine_of_isFlat rfl,
    ← finding_ofClass_instanceOf o.subset a b fields]
  show Except.ok _ = Except.ok none ↔ _
  rw [Except.ok.injEq]

theorem conformsWith_ofClass_instanceOf (a b : Class) (fields : Record Value) (o : Options) :
    (Shape.ofClass b).conformsWith (.instanceOf a fields) o = .ok true ↔
      SubclassOf a b ∨ a.name = b.name := by
  rw [Shape.conformsWith, Shape.accepts_of_isFlat rfl,
    ← finding_ofClass_instanceOf o.subset a b fields, ← Option.isNone_iff_eq_none]
  show Except.ok _ = Except.ok true ↔ _
  rw [Except.ok.injEq]

/-- **The forest of classes.** Definitions that extend earlier classes only all make their class,
and later ones leave the classes that are there. A chain of superclasses climbs to a class that was
defined on its own and holds none twice. Being an instance of a class is reflexive, transitive and
antisymmetric; it is being defined below the class in any number of steps, whatever the names, and
later definitions do not change it. The rule of a class accepts all instances of the classes that
descend from it, and, by name, those of its namesakes. -/
theorem definitions_forest (supply : Supply) (defs more : List Definition)
    (hdefs : Grounded (defs ++ more)) :
    ∃ made made', defineAll supply defs = some made ∧
      defineAll supply (defs ++ more) = some made' ∧ made <+: made' ∧
      made.length = defs.length ∧
      (∀ (i : Nat) (a : Class), made[i]? = some a → HasChain defs made i a ∧ SubclassOf a a) ∧
      ∀ (i j : Nat) (a b : Class), made[i]? = some a → made[j]? = some b →
        (SubclassOf a b ↔ Relation.ReflTransGen (Extends defs) i j) ∧
        (SubclassOf a b ↔ Relation.ReflTransGen (Extends (defs ++ more)) i j) ∧
        (SubclassOf a b → SubclassOf b a → a = b) ∧
        (∀ (k : Nat) (c : Class), made[k]? = some c →
          SubclassOf a b → SubclassOf b c → SubclassOf a c) ∧
        ∀ fields o,
          ((Shape.ofClass b).reportWith (.instanceOf a fields) o = .ok none ↔
            SubclassOf a b ∨ a.name = b.name) ∧
          ((Shape.ofClass b).conformsWith (.instanceOf a fields) o = .ok true ↔
            SubclassOf a b ∨ a.name = b.name) := by
  obtain ⟨state, hs, hlaid⟩ := exists_laid_of_grounded supply hdefs.of_append
  obtain ⟨state', hs', -⟩ := exists_laid_of_grounded supply hdefs
  have hmore : more.foldlM define state = some state' := by
    rwa [List.foldlM_append, hs] at hs'
  have hsubclass : ∀ (i j : Nat) (a b : Class), state.2[i]? = some a → state.2[j]? = some b →
      (SubclassOf a b ↔ Relation.ReflTransGen (Extends defs) i j) := by
    intro i j a b ha hb
    rw [subclassOf_iff]
    exact hlaid.descendsFrom_iff hb i a ha
  refine ⟨state.2, state'.2, by simp [defineAll, hs], by simp [defineAll, hs'],
    prefix_of_foldlM hmore, hlaid.length_eq, ?_, ?_⟩
  · intro i a ha
    exact ⟨hlaid.hasChain ha, (hsubclass i i a a ha ha).mpr .refl⟩
  intro i j a b ha hb
  have hi : i < defs.length := by
    rw [← hlaid.length_eq]
    exact (List.getElem?_eq_some_iff.mp ha).1
  refine ⟨hsubclass i j a b ha hb, ?_, ?_, ?_, ?_⟩
  · rw [hsubclass i j a b ha hb, hdefs.reflTransGen_append_iff hi]
  · intro hab hba
    have hji := hdefs.of_append.le_of_reflTransGen ((hsubclass i j a b ha hb).mp hab)
    have hij := hdefs.of_append.le_of_reflTransGen ((hsubclass j i b a hb ha).mp hba)
    obtain rfl := Nat.le_antisymm hij hji
    rw [ha] at hb
    exact Option.some.inj hb
  · intro k c hc hab hbc
    have hij := (hsubclass i j a b ha hb).mp hab
    exact (hsubclass i k a c ha hc).mpr (hij.trans ((hsubclass j k b c hb hc).mp hbc))
  · exact fun fields o => ⟨reportWith_ofClass_instanceOf a b fields o,
      conformsWith_ofClass_instanceOf a b fields o⟩

/-- One name for four classes: the last class descends from the first, and not from the third. -/
theorem definitions_forest_reusedName :
    Grounded ([.root "A", .extending 0 "A", .root "A", .extending 1 "A"] ++ [.extending 2 "A"]) ∧
      ∃ made a b c, defineAll .initial
          [.root "A", .extending 0 "A", .root "A", .extending 1 "A"] = some made ∧
        made[3]? = some a ∧ made[0]? = some b ∧ made[2]? = some c ∧
        SubclassOf a b ∧ ¬ SubclassOf a c ∧
        (Shape.ofClass c).reportWith (.instanceOf a []) ⟨false, none⟩ = .ok none := by
  have hdefs : Grounded
      ([.root "A", .extending 0 "A", .root "A", .extending 1 "A"] ++ [.extending 2 "A"]) := by
    intro i base name h
    rcases i with _ | _ | _ | _ | _ | i <;> simp at h <;> omega
  obtain ⟨made, -, hmade, -, -, -, -, hpair⟩ := definitions_forest .initial _ _ hdefs
  obtain rfl : made = [.root 1 "A", .extending (.root 1 "A") 2 "A", .root 3 "A",
      .extending (.extending (.root 1 "A") 2 "A") 4 "A"] := (Option.some.inj hmade).symm
  obtain ⟨hbelow, -⟩ := hpair 3 0 _ _ rfl rfl
  obtain ⟨-, -, -, -, haccepts⟩ := hpair 3 2 _ _ rfl rfl
  refine ⟨hdefs, _, _, _, _, hmade, rfl, rfl, rfl, hbelow.mpr ?_, ?_, ?_⟩
  · exact .head ⟨"A", rfl⟩ (.single ⟨"A", rfl⟩)
  · rw [subclassOf_iff]
    decide
  · exact (haccepts [] ⟨false, none⟩).1.mpr (.inr rfl)

end Class

end Conformance
