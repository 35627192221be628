import Conformance.Report

/-!
# Induction over trees

A JSON object holds its fields, a record its values, a pattern its shapes, and a node its children,
in a list of entries. Induction over the tree may assume the statement of every entry of that list.

Results:
* `Json.induction`, `Value.induction`, `Shape.induction`, `Report.induction`: the induction that
  `induction` uses.
-/

namespace Conformance

theorem Record.sizeOf_snd_lt_of_mem {α : Type} [SizeOf α] {r : Record α} {e : String × α}
    (h : e ∈ r) : sizeOf e.2 < sizeOf r := by
  have hlt := List.sizeOf_lt_of_mem h
  obtain ⟨key, a⟩ := e
  simp only [Prod.mk.sizeOf_spec] at hlt ⊢
  omega

@[elab_as_elim, induction_eliminator]
theorem Json.induction {motive : Json → Prop} (null : motive null) (bool : ∀ b, motive (bool b))
    (number : ∀ n, motive (number n)) (string : ∀ s, motive (string s))
    (array : ∀ items, (∀ item ∈ items, motive item) → motive (array items))
    (object : ∀ fields, (∀ f ∈ fields, motive f.2) → motive (object fields)) : ∀ j, motive j
  | .null => null
  | .bool b => bool b
  | .number n => number n
  | .string s => string s
  | .array items => array items fun item hi =>
      have := List.sizeOf_lt_of_mem hi
      induction null bool number string array object item
  | .object fields => object fields fun f hf =>
      have := Record.sizeOf_snd_lt_of_mem hf
      induction null bool number string array object f.2
termination_by j => sizeOf j

@[elab_as_elim, induction_eliminator]
theorem Value.induction {motive : Value → Prop} (undefined : motive undefined)
    (null : motive null) (bool : ∀ b, motive (bool b)) (number : ∀ x, motive (number x))
    (bigint : ∀ n, motive (bigint n)) (string : ∀ s, motive (string s))
    (symbol : ∀ s, motive (symbol s))
    (array : ∀ items, (∀ item ∈ items, motive item) → motive (array items))
    (object : ∀ fields, (∀ f ∈ fields, motive f.2) → motive (object fields))
    (instanceOf : ∀ c fields, (∀ f ∈ fields, motive f.2) → motive (instanceOf c fields))
    (date : ∀ t, motive (date t)) (function : ∀ f, motive (function f))
    (constructor : ∀ c, motive (constructor c)) : ∀ v, motive v
  | .undefined => undefined
  | .null => null
  | .bool b => bool b
  | .number x => number x
  | .bigint n => bigint n
  | .string s => string s
  | .symbol s => symbol s
  | .array items => array items fun item hi =>
      have := List.sizeOf_lt_of_mem hi
      induction undefined null bool number bigint string symbol array object instanceOf date
        function constructor item
  | .object fields => object fields fun f hf =>
      have := Record.sizeOf_snd_lt_of_mem hf
      induction undefined null bool number bigint string symbol array object instanceOf date
        function constructor f.2
  | .instanceOf c fields => instanceOf c fields fun f hf =>
      have := Record.sizeOf_snd_lt_of_mem hf
      induction undefined null bool number bigint string symbol array object instanceOf date
        function constructor f.2
  | .date t => date t
  | .function f => function f
  | .constructor c => constructor c
termination_by v => sizeOf v

@[elab_as_elim, induction_eliminator]
theorem Shape.induction {motive : Shape → Prop} (any : motive any) (undefined : motive undefined)
    (null : motive null) (literal : ∀ l, motive (literal l)) (marker : ∀ m, motive (marker m))
    (ofClass : ∀ c, motive (ofClass c)) (array : ∀ element, motive element → motive (array element))
    (object : ∀ pattern, (∀ f ∈ pattern, motive f.2) → motive (object pattern))
    (wrapped : ∀ m inner, motive inner → motive (wrapped m inner)) : ∀ s, motive s
  | .any => any
  | .undefined => undefined
  | .null => null
  | .literal l => literal l
  | .marker m => marker m
  | .ofClass c => ofClass c
  | .array element => array element
      (induction any undefined null literal marker ofClass array object wrapped element)
  | .object pattern => object pattern fun f hf =>
      have := Record.sizeOf_snd_lt_of_mem hf
      induction any undefined null literal marker ofClass array object wrapped f.2
  | .wrapped m inner => wrapped m inner
      (induction any undefined null literal marker ofClass array object wrapped inner)
termination_by s => sizeOf s

@[elab_as_elim, induction_eliminator]
theorem Report.induction {motive : Report → Prop} (leaf : ∀ l, motive (leaf l))
    (nested : ∀ children, (∀ c ∈ children, motive c.2) → motive (nested children)) :
    ∀ r, motive r
  | .leaf l => leaf l
  | .nested children => nested children fun c hc =>
      have := Record.sizeOf_snd_lt_of_mem hc
      induction leaf nested c.2
termination_by r => sizeOf r

end Conformance
