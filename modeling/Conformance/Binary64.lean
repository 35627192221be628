/-!
# Binary64 numbers

A number is its 64 bits: a sign, eleven exponent bits and 52 fraction bits. A finite number is
measured as a natural multiple of the least positive one, `2 ^ -1074`, so that its exact value is
the natural number `units` and every rounding is one division of natural numbers.

Results:
* `ofUnits`: the nearest number to a quotient of natural numbers, ties to the even significand,
  overflow to infinity; `ofInt`, `ofRatio`, `mul` and `div` are instances of it.
* `beq_self_iff`: equality is that of the standard, so a NaN differs from itself.
* `beq_comm`: equality is symmetric.
-/

namespace Conformance

/-- A binary64 number, by its bits. -/
structure Binary64 where
  bits : UInt64
  deriving DecidableEq, Inhabited

namespace Binary64

/-! ## Fields -/

/-- The sign bit. -/
def negative (x : Binary64) : Bool := 1 <<< 63 ≤ x.bits.toNat

/-- The bits below the sign; they order the numbers of one sign. -/
def magnitude (x : Binary64) : Nat := x.bits.toNat % (1 <<< 63)

/-- The biased exponent. -/
def exponentField (x : Binary64) : Nat := x.magnitude >>> 52

/-- The stored fraction bits. -/
def fraction (x : Binary64) : Nat := x.magnitude % (1 <<< 52)

/-- The magnitude of infinity; those above it are the NaNs. -/
def infinityMagnitude : Nat := 2047 <<< 52

def isFinite (x : Binary64) : Bool := x.magnitude < infinityMagnitude

def isNaN (x : Binary64) : Bool := infinityMagnitude < x.magnitude

def isZero (x : Binary64) : Bool := x.magnitude = 0

/-- The significand as a whole number, with the leading bit of a normal number. -/
def significand (x : Binary64) : Nat :=
  if x.exponentField = 0 then x.fraction else (1 <<< 52) + x.fraction

/-- The power of two that one unit of the significand weighs, in units of `2 ^ -1074`. -/
def unitExponent (x : Binary64) : Nat := x.exponentField - 1

/-- The absolute value of a finite number, in units of `2 ^ -1074`. -/
def units (x : Binary64) : Nat := x.significand <<< x.unitExponent

/-! ## Equality -/

/-- Equality of the standard: a NaN equals nothing, and the two zeros are equal. -/
def beq (x y : Binary64) : Bool :=
  !x.isNaN && !y.isNaN && (x.bits == y.bits || (x.isZero && y.isZero))

instance : BEq Binary64 := ⟨beq⟩

theorem beq_iff (x y : Binary64) : (x == y) = true ↔
    x.isNaN = false ∧ y.isNaN = false ∧
      (x.bits = y.bits ∨ x.isZero = true ∧ y.isZero = true) := by
  change beq x y = true ↔ _
  simp [beq, and_assoc]

theorem isNaN_of_isZero {x : Binary64} (h : x.isZero = true) : x.isNaN = false := by
  simp only [isZero, decide_eq_true_eq] at h
  simp [isNaN, h]

theorem beq_self_iff (x : Binary64) : (x == x) = true ↔ x.isNaN = false := by
  rw [beq_iff]
  simp

theorem beq_comm (x y : Binary64) : (x == y) = (y == x) := by
  change beq x y = beq y x
  simp only [beq, Bool.and_comm x.isZero, BEq.comm (a := x.bits) (b := y.bits)]
  cases x.isNaN <;> cases y.isNaN <;> rfl

/-! ## Rounding -/

/-- The whole number nearest to `a / d`, a tie going to the even one. -/
def nearest (a d : Nat) : Nat :=
  if 2 * (a % d) < d then a / d
  else if d < 2 * (a % d) then a / d + 1
  else a / d + a / d % 2

/-- The number with a given sign and magnitude. -/
def ofMagnitude (negative : Bool) (magnitude : Nat) : Binary64 :=
  ⟨UInt64.ofNat ((if negative then 1 <<< 63 else 0) + magnitude)⟩

/-- The number nearest to `a / d` units of `2 ^ -1074`. The shift leaves 53 bits of quotient, or
all of it when it is shorter; a carry out of the significand moves into the exponent by itself. -/
def ofUnits (negative : Bool) (a d : Nat) : Binary64 :=
  let shift := (a / d).log2 - 52
  ofMagnitude negative (min infinityMagnitude ((shift <<< 52) + nearest a (d <<< shift)))

/-- The number nearest to `n / d`. -/
def ofRatio (negative : Bool) (n d : Nat) : Binary64 := ofUnits negative (n <<< 1074) d

/-- The number nearest to an integer. -/
def ofInt (n : Int) : Binary64 := ofRatio (n < 0) n.natAbs 1

/-- The product of two finite numbers, rounded. -/
def mul (x y : Binary64) : Binary64 :=
  ofUnits (x.negative != y.negative) (x.units * y.units) (1 <<< 1074)

/-- The quotient of two finite numbers, the second not zero, rounded. -/
def div (x y : Binary64) : Binary64 :=
  ofUnits (x.negative != y.negative) (x.units <<< 1074) y.units

/-- The number with the opposite sign. -/
def neg (x : Binary64) : Binary64 := ofMagnitude (!x.negative) x.magnitude

/-- A power of ten, rounded. -/
def powerOfTen (k : Nat) : Binary64 := ofRatio false (Nat.pow 10 k) 1

/-! ## Whole numbers -/

/-- The integer that a finite number without fraction is. -/
def toInt? (x : Binary64) : Option Int :=
  if x.isFinite && x.units % (1 <<< 1074) = 0 then
    let n : Int := (x.units >>> 1074 : Nat)
    some (if x.negative then -n else n)
  else none

end Binary64

end Conformance
