import Conformance.Binary64

/-!
# Shortest decimal text of a binary64 number

Among the decimals that round to a number, the text has the fewest digits, and of those the ones
nearest to the number; an exact tie goes to the even last digit. A decimal exponent from -5 to 15
is written positionally, with at least one place after the point; any other one in scientific
notation, with the sign of the exponent always written.

Results:
* `Decimal`: digits and a power of ten, the form between a number and its text.
* `shortest`: the shortest decimal of a positive finite number.
* `text`: the text of a finite number.
-/

namespace Conformance

/-- The decimal `digits * 10 ^ exponent`. -/
structure Decimal where
  digits : Nat
  exponent : Int
  deriving DecidableEq, Repr

namespace Decimal

/-- The decimal digits of a natural number, leading digit first. -/
def digitsOf (n : Nat) : List Char := Nat.toDigits 10 n

/-- Drops trailing zeros of the digits, at most `fuel` of them. -/
def strip : Nat → Decimal → Decimal
  | 0, d => d
  | fuel + 1, d =>
    if d.digits ≠ 0 ∧ d.digits % 10 = 0 then strip fuel ⟨d.digits / 10, d.exponent + 1⟩ else d

/-- The exponent of the leading digit of the positive quotient `a / d`. -/
def leadingExponent (a d : Nat) : Int :=
  if d ≤ a then ((digitsOf (a / d)).length : Int) - 1
  else -((digitsOf ((d - 1) / a)).length : Int)

/-- Positional or scientific notation of a decimal with nonzero digits. -/
def text (x : Decimal) : String :=
  let ds := digitsOf x.digits
  let lead : Int := x.exponent + ds.length - 1
  if 0 ≤ x.exponent ∧ lead ≤ 15 then
    String.ofList (ds ++ List.replicate x.exponent.toNat '0' ++ ['.', '0'])
  else if 0 ≤ lead ∧ lead ≤ 15 then
    let whole := (lead + 1).toNat
    String.ofList (ds.take whole ++ '.' :: ds.drop whole)
  else if -5 ≤ lead ∧ lead < 0 then
    String.ofList ('0' :: '.' :: List.replicate (-lead - 1).toNat '0' ++ ds)
  else
    let point := if ds.length = 1 then ds else ds.take 1 ++ '.' :: ds.drop 1
    let sign := if lead < 0 then '-' else '+'
    String.ofList (point ++ 'e' :: sign :: digitsOf lead.natAbs)

end Decimal

namespace Binary64

/-- Where the reals that round to a finite number begin, in units of `2 ^ -1076`. Below a power of
two the neighbour is only half as far away. -/
def lowerBound (x : Binary64) : Nat :=
  let gap := 1 <<< x.unitExponent
  if x.fraction = 0 ∧ 1 < x.exponentField then 4 * x.units - gap else 4 * x.units - 2 * gap

/-- Where the reals that round to a finite number end, in units of `2 ^ -1076`. -/
def upperBound (x : Binary64) : Nat := 4 * x.units + (2 <<< x.unitExponent)

/-- Does `c` times the grid step lie among the reals that round to `x`? The step is `step`, the
bounds are stretched by `stretch`. The ends belong to it when the significand is even. -/
def roundsFrom (x : Binary64) (c step stretch : Nat) : Bool :=
  if x.significand % 2 = 0 then
    x.lowerBound * stretch ≤ c * step && c * step ≤ x.upperBound * stretch
  else
    x.lowerBound * stretch < c * step && c * step < x.upperBound * stretch

/-- The better of the two neighbours of `x` among the multiples of `10 ^ exponent`, if one of them
rounds to `x`. -/
def onGrid? (x : Binary64) (exponent : Int) : Option Nat :=
  let step := Nat.pow 10 exponent.toNat <<< 1076
  let stretch := Nat.pow 10 (-exponent).toNat
  let value := 4 * x.units * stretch
  let below := value / step
  let above := below + 1
  match x.roundsFrom below step stretch, x.roundsFrom above step stretch with
  | false, false => none
  | true, false => some below
  | false, true => some above
  | true, true => some (nearest value step)

/-- The shortest decimal of a positive finite number: the first grid, from one digit to
seventeen, on which a neighbour rounds to it. -/
def shortest (x : Binary64) : Decimal :=
  let lead := Decimal.leadingExponent (4 * x.units) (1 <<< 1076)
  let found := (List.range 17).findSome? fun (n : Nat) =>
    let exponent := lead - (n : Int)
    (x.onGrid? exponent).map fun digits => (⟨digits, exponent⟩ : Decimal)
  ((found.getD ⟨0, 0⟩).strip 17)

/-- The text of a finite number. -/
def text (x : Binary64) : String :=
  let body := if x.isZero then "0.0" else x.shortest.text
  if x.negative then "-" ++ body else body

end Binary64

end Conformance
