import Conformance.Proofs.DepthLimit

/-!
# How deep a shape looks

An array pattern and every declared key cost a level, whatever stands below them; a modifier costs
none, and a pattern without keys looks into nothing. The depth of a shape counts the levels, and a
depth limit suffices for all values exactly when it is at least the depth: no value leads an
examination further, and some value leads it as far.

Results:
* `Shape.length_le_depth_of_reaches`: no position lies deeper than the shape looks.
* `Shape.exists_reaches_depth`: for every shape some value has a position at that depth.
* `Shape.reportWith_succeeds_iff_depth_le`: the limits that suffice for every value.
-/

namespace Conformance.Shape

/-! ## Depth -/

mutual

/-- How many levels below a value the shape looks. -/
def depth : Shape → Nat
  | array element => 1 + element.depth
  | object pattern => depthOfFields pattern
  | wrapped _ inner => inner.depth
  | _ => 0

/-- How many levels the declared keys of a pattern take: none without keys, otherwise one more than
the deepest of their shapes. -/
def depthOfFields : List (String × Shape) → Nat
  | [] => 0
  | (_, shape) :: rest => max (1 + shape.depth) (depthOfFields rest)

end

theorem depthOfFields_cons (f : String × Shape) (rest : Record Shape) :
    depthOfFields (f :: rest) = max (1 + f.2.depth) (depthOfFields rest) := rfl

theorem depth_lt_depthOfFields {pattern : Record Shape} {f : String × Shape} (h : f ∈ pattern) :
    f.2.depth < depthOfFields pattern := by
  induction pattern with
  | nil => cases h
  | cons e rest ih =>
    rw [depthOfFields_cons]
    rcases List.mem_cons.mp h with rfl | hrest
    · omega
    · have := ih hrest
      omega

/-- With keys at all, one of them is as deep as the pattern. -/
theorem exists_mem_depthOfFields_eq {pattern : Record Shape} (h : pattern ≠ []) :
    ∃ f ∈ pattern, depthOfFields pattern = 1 + f.2.depth := by
  induction pattern with
  | nil => exact absurd rfl h
  | cons e rest ih =>
    rw [depthOfFields_cons]
    by_cases hdeep : depthOfFields rest ≤ 1 + e.2.depth
    · exact ⟨e, List.mem_cons_self, by omega⟩
    · have hrest : rest ≠ [] := by
        rintro rfl
        exact hdeep (Nat.zero_le _)
      obtain ⟨f, hf, hfd⟩ := ih hrest
      exact ⟨f, List.mem_cons_of_mem _ hf, by omega⟩

theorem depth_strip (s : Shape) (v : Value) : (s.strip v).depth = s.depth := by
  induction s with
  | wrapped m inner ih =>
    rw [strip_wrapped]
    by_cases h : m.admits v = true
    · rw [if_pos h]
    · rw [if_neg h, ih]
      rfl
  | _ => rfl

/-! ## No position lies deeper -/

theorem Child.depth_lt {s t : Shape} {v w : Value} {key : String} (h : Child s v key t w) :
    t.depth < s.depth := by
  cases h with
  | element _ =>
    show t.depth < 1 + t.depth
    omega
  | property _ hmem => exact depth_lt_depthOfFields hmem

/-- No position lies deeper than the shape looks: a step leads to a shape that looks less far. -/
theorem length_le_depth_of_reaches {s t : Shape} {v w : Value} {keys : List String}
    (h : Reaches s v keys t w) : keys.length ≤ s.depth := by
  induction h with
  | root s v => exact Nat.zero_le _
  | @step s t _ v w _ key keys hchild _ ih =>
    have hlt : t.depth < s.depth := by
      have := hchild.depth_lt
      rwa [depth_strip] at this
    rw [List.length_cons]
    omega

/-! ## Some position lies as deep -/

theorem Reaches.wrapped {m : Modifier} {s t : Shape} {v w : Value} {keys : List String}
    (hm : m.admits v = false) (h : Reaches s v keys t w) : Reaches (wrapped m s) v keys t w := by
  have hstrip : (Shape.wrapped m s).strip v = s.strip v := by
    rw [strip_wrapped, hm, if_neg Bool.false_ne_true]
  cases h with
  | root =>
    rw [← hstrip]
    exact .root _ v
  | step hchild hr => exact .step (hstrip ▸ hchild) hr

/-- Some value has a position as deep as the shape looks. No modifier admits that value, so that the
same value serves below any modifiers. -/
theorem exists_reaches_depth (s : Shape) : ∃ v : Value, v.isUndefined = false ∧ v.isNull = false ∧
    ∃ keys t w, Reaches s v keys t w ∧ keys.length = s.depth := by
  induction s with
  | array element ih =>
    obtain ⟨v, -, -, keys, t, w, hr, hlen⟩ := ih
    have hstep : Child (array element) (.array [v]) (toString 0) element v := .element rfl
    refine ⟨.array [v], rfl, rfl, toString 0 :: keys, t, w, .step hstep hr, ?_⟩
    show keys.length + 1 = 1 + element.depth
    omega
  | object pattern ih =>
    by_cases hempty : pattern = []
    · subst hempty
      exact ⟨.object [], rfl, rfl, [], _, _, .root _ _, rfl⟩
    · obtain ⟨⟨key, shape⟩, hmem, hdepth⟩ := exists_mem_depthOfFields_eq hempty
      obtain ⟨v, -, -, keys, t, w, hr, hlen⟩ := ih _ hmem
      -- only the deepest key is there; the others read as undefined
      have hread : Value.read [(key, v)] key = v := by simp [Value.read, Record.get?_cons]
      have hstep : Child (object pattern) (.object [(key, v)]) key shape v := by
        have := Child.property (v := .object [(key, v)]) rfl hmem
        rwa [hread] at this
      refine ⟨.object [(key, v)], rfl, rfl, key :: keys, t, w, .step hstep hr, ?_⟩
      show keys.length + 1 = depthOfFields pattern
      simp only at hlen hdepth
      omega
  | wrapped m inner ih =>
    obtain ⟨v, hundefined, hnull, keys, t, w, hr, hlen⟩ := ih
    have hm : m.admits v = false := by
      cases m
      · exact hundefined
      · exact hnull
    exact ⟨v, hundefined, hnull, keys, t, w, hr.wrapped hm, hlen⟩
  | _ => exact ⟨.bool true, rfl, rfl, [], _, _, .root _ _, rfl⟩

/-! ## The limits that suffice -/

theorem exists_reportWith_eq_ok_iff {s : Shape} {v : Value} {subset : Bool} {n : Nat} :
    (∃ r, s.reportWith v ⟨subset, some n⟩ = .ok r) ↔
      ∀ keys t w, Reaches s v keys t w → keys.length ≤ n := by
  constructor
  · rintro ⟨r, hr⟩ keys t w hreach
    refine Nat.le_of_not_lt fun hdeep => ?_
    obtain ⟨e, he⟩ := exists_reportWith_eq_error_iff.mpr ⟨keys, t, w, hreach, hdeep⟩
    rw [hr] at he
    cases he
  · intro hall
    refine ⟨finding subset s v, reportWith_eq_ok_iff.mpr ⟨fun keys hkeys => ?_, rfl⟩⟩
    obtain ⟨-, t, w, hreach⟩ := mem_visited_iff.mp hkeys
    exact hall keys t w hreach

/-- **The depth of a shape is the limit it needs.** A report with a limit of `n` succeeds on every
value exactly when the shape looks no deeper than `n`, whether undeclared keys are tolerated or
not. -/
theorem reportWith_succeeds_iff_depth_le (s : Shape) (subset : Bool) (n : Nat) :
    (∀ v, ∃ r, s.reportWith v ⟨subset, some n⟩ = .ok r) ↔ s.depth ≤ n := by
  constructor
  · intro hall
    obtain ⟨v, -, -, keys, t, w, hreach, hlen⟩ := exists_reaches_depth s
    have := exists_reportWith_eq_ok_iff.mp (hall v) keys t w hreach
    omega
  · intro hdepth v
    refine exists_reportWith_eq_ok_iff.mpr fun keys t w hreach => ?_
    have := length_le_depth_of_reaches hreach
    omega

example : (object [("a", wrapped .optional (array (object []))), ("b", any)]).depth = 2 := rfl

end Conformance.Shape
