import Conformance.Binary64
import Mathlib.Algebra.Group.Nat.Defs
import Mathlib.Tactic.SplitIfs

/-!
# Rounding that loses nothing

A finite number is a whole multiple of the least positive one, and rounding that multiple gives the
number back. So an integer that a number is equal to, and that is rounded again, is the number, the
sign of zero apart.

Results:
* `Binary64.ofMagnitude_self`: a number from its sign and magnitude.
* `Binary64.ofUnits_units`: rounding the value of a finite number gives the number.
* `Binary64.ofInt_beq_of_toInt?`: the integer that a number is, rounded.
-/

namespace Conformance.Binary64

/-! ## Fields of a number -/

theorem fraction_lt (x : Binary64) : x.fraction < 2 ^ 52 := by
  rw [fraction, Nat.one_shiftLeft]
  exact Nat.mod_lt _ (Nat.two_pow_pos 52)

/-- The exponent and the fraction are the magnitude. -/
theorem magnitude_eq (x : Binary64) : x.magnitude = x.exponentField * 2 ^ 52 + x.fraction := by
  rw [exponentField, fraction, Nat.one_shiftLeft, Nat.shiftRight_eq_div_pow, Nat.mul_comm]
  exact (Nat.div_add_mod x.magnitude (2 ^ 52)).symm

/-- A number from its sign and magnitude. -/
theorem ofMagnitude_self (x : Binary64) : ofMagnitude x.negative x.magnitude = x := by
  obtain ⟨bits⟩ := x
  have hlt : bits.toNat < 2 ^ 64 := bits.toNat_lt
  have hbits : (if 2 ^ 63 ≤ bits.toNat then 2 ^ 63 else 0) + bits.toNat % 2 ^ 63 =
      bits.toNat := by
    split_ifs <;> omega
  simp only [ofMagnitude, negative, magnitude, Nat.one_shiftLeft, decide_eq_true_eq, hbits,
    UInt64.ofNat_toNat]

/-! ## Rounding -/

theorem nearest_mul {d : Nat} (h : 0 < d) (n : Nat) : nearest (n * d) d = n := by
  rw [nearest, Nat.mul_mod_left, Nat.mul_div_cancel n h]
  exact if_pos h

theorem log2_of_le_of_lt {n k : Nat} (hle : 2 ^ k ≤ n) (hlt : n < 2 ^ (k + 1)) : n.log2 = k := by
  have hpos : n ≠ 0 := Nat.ne_zero_of_lt (Nat.lt_of_lt_of_le (Nat.two_pow_pos k) hle)
  exact (Nat.log2_eq_iff hpos).mpr ⟨hle, hlt⟩

/-- A significand of 53 bits moves into its place without loss. -/
theorem ofUnits_normal (negative : Bool) {significand : Nat} (exponent : Nat)
    (hle : 2 ^ 52 ≤ significand) (hlt : significand < 2 ^ 53) :
    ofUnits negative (significand <<< exponent) 1 =
      ofMagnitude negative (min infinityMagnitude (exponent * 2 ^ 52 + significand)) := by
  have hpos : 0 < 2 ^ exponent := Nat.two_pow_pos exponent
  have hlow : 2 ^ (exponent + 52) ≤ significand * 2 ^ exponent := by
    rw [Nat.pow_add, Nat.mul_comm]
    exact Nat.mul_le_mul_right _ hle
  have hhigh : significand * 2 ^ exponent < 2 ^ (exponent + 52 + 1) := by
    rw [Nat.add_assoc, Nat.pow_add, Nat.mul_comm]
    exact Nat.mul_lt_mul_of_pos_left hlt hpos
  have hlog : (significand * 2 ^ exponent).log2 = exponent + 52 := log2_of_le_of_lt hlow hhigh
  simp only [ofUnits, Nat.shiftLeft_eq, Nat.div_one, hlog, Nat.add_sub_cancel, Nat.one_mul,
    nearest_mul hpos]

/-- What fits below the leading bit is not moved at all. -/
theorem ofUnits_subnormal (negative : Bool) {a : Nat} (h : a < 2 ^ 52) :
    ofUnits negative a 1 = ofMagnitude negative (min infinityMagnitude a) := by
  have hlog : a.log2 - 52 = 0 := by
    by_cases hzero : a = 0
    · subst hzero
      rfl
    · have := (Nat.log2_lt hzero).mpr h
      omega
  have hnearest : nearest a 1 = a := by
    have := nearest_mul Nat.one_pos a
    rwa [Nat.mul_one] at this
  simp only [ofUnits, Nat.div_one, hlog, Nat.shiftLeft_zero, Nat.zero_shiftLeft, hnearest,
    Nat.zero_add]

/-- Rounding the value of a finite number gives the number. -/
theorem ofUnits_units {x : Binary64} (h : x.isFinite = true) :
    ofUnits x.negative x.units 1 = x := by
  have hmin : min infinityMagnitude x.magnitude = x.magnitude :=
    Nat.min_eq_right (Nat.le_of_lt (of_decide_eq_true h))
  have hfraction := x.fraction_lt
  have hmagnitude := x.magnitude_eq
  rw [units, significand, unitExponent]
  by_cases hexponent : x.exponentField = 0
  · rw [if_pos hexponent, hexponent, Nat.zero_sub, Nat.shiftLeft_zero,
      ofUnits_subnormal _ hfraction]
    rw [hexponent, Nat.zero_mul, Nat.zero_add] at hmagnitude
    rw [← hmagnitude, hmin, ofMagnitude_self]
  · have hplace : (x.exponentField - 1) * 2 ^ 52 + (2 ^ 52 + x.fraction) = x.magnitude := by
      rw [hmagnitude]
      omega
    rw [if_neg hexponent, Nat.one_shiftLeft, ofUnits_normal _ _ (by omega) (by omega), hplace,
      hmin, ofMagnitude_self]

/-! ## Integers -/

theorem natAbs_signed (negative : Bool) (m : Nat) :
    (if negative = true then -(m : Int) else (m : Int)).natAbs = m := by
  split_ifs <;> omega

theorem signed_lt_zero {negative : Bool} {m : Nat}
    (h : (if negative = true then -(m : Int) else (m : Int)) ≠ 0) :
    decide ((if negative = true then -(m : Int) else (m : Int)) < 0) = negative := by
  cases negative with
  | true =>
    rw [if_pos rfl] at h ⊢
    exact decide_eq_true (by omega)
  | false =>
    rw [if_neg Bool.false_ne_true] at h ⊢
    exact decide_eq_false (by omega)

/-- The integer that a number is has its value, and its sign unless it is zero. -/
theorem spec_of_toInt? {x : Binary64} {n : Int} (h : x.toInt? = some n) :
    x.isFinite = true ∧ n.natAbs <<< 1074 = x.units ∧ (n ≠ 0 → decide (n < 0) = x.negative) := by
  rw [toInt?] at h
  split at h
  next hwhole =>
    rw [Bool.and_eq_true, decide_eq_true_eq, Nat.one_shiftLeft] at hwhole
    obtain ⟨hfinite, hmod⟩ := hwhole
    have hunits : (x.units >>> 1074) <<< 1074 = x.units := by
      rw [Nat.shiftRight_eq_div_pow, Nat.shiftLeft_eq]
      exact Nat.div_mul_cancel (Nat.dvd_of_mod_eq_zero hmod)
    obtain rfl := Option.some.inj h
    refine ⟨hfinite, ?_, signed_lt_zero⟩
    rw [natAbs_signed, hunits]
  next => cases h

theorem isNaN_of_isFinite {x : Binary64} (h : x.isFinite = true) : x.isNaN = false := by
  have := of_decide_eq_true h
  exact decide_eq_false (by omega)

theorem isZero_of_units_eq_zero {x : Binary64} (h : x.units = 0) : x.isZero = true := by
  have hpos : 2 ^ x.unitExponent ≠ 0 := Nat.ne_of_gt (Nat.two_pow_pos _)
  have hmagnitude := x.magnitude_eq
  rw [units, Nat.shiftLeft_eq, Nat.mul_eq_zero, or_iff_left hpos, significand] at h
  split_ifs at h with hexponent
  · rw [hexponent, h] at hmagnitude
    exact decide_eq_true hmagnitude
  · rw [Nat.one_shiftLeft] at h
    have := Nat.two_pow_pos 52
    omega

/-- The integer that a number is, rounded, is the number. -/
theorem ofInt_beq_of_toInt? {x : Binary64} {n : Int} (h : x.toInt? = some n) :
    (ofInt n == x) = true := by
  obtain ⟨hfinite, hunits, hsign⟩ := spec_of_toInt? h
  by_cases hzero : n = 0
  · -- the sign of zero is lost, which equality does not see
    subst hzero
    have hx : x.isZero = true := isZero_of_units_eq_zero (by rw [← hunits]; rfl)
    have h0 : (ofInt 0).isZero = true := by decide +kernel
    rw [beq_iff]
    exact ⟨isNaN_of_isZero h0, isNaN_of_isZero hx, .inr ⟨h0, hx⟩⟩
  · have hround : ofInt n = x := by
      rw [ofInt, ofRatio, hunits, hsign hzero, ofUnits_units hfinite]
    rw [hround, beq_self_iff]
    exact isNaN_of_isFinite hfinite

end Conformance.Binary64
