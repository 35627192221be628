import Conformance.Json.Reader
import Conformance.Proofs.Escaping
import Mathlib.Algebra.Group.Int.Defs
import Mathlib.Algebra.Group.Nat.Defs

/-!
# Integers in JSON text

The decimal digits of a natural number read back as the number, as long as it fits 64 bits and
what comes after them could not be part of a number. An integer that is written with its sign reads
back as that integer.

Results:
* `Json.takeDigits_map`: digits are taken into a significand, by induction on the digits.
* `Json.readNumber_digits`: the digits of a natural number.
* `Json.readScalar_int`: an integer of 64 bits, with or without a sign.
-/

namespace Conformance.Json

/-! ## Digits as bytes -/

theorem toNat_toUInt8 {c : Char} (h : c.toNat < 0x100) : c.toUInt8.toNat = c.toNat :=
  Nat.mod_eq_of_lt h

theorem isDigit_iff {c : Char} : c.isDigit = true ↔ 0x30 ≤ c.toNat ∧ c.toNat ≤ 0x39 := by
  rw [Char.isDigit, Bool.and_eq_true, decide_eq_true_eq, decide_eq_true_eq, ge_iff_le,
    UInt32.le_iff_toNat_le, UInt32.le_iff_toNat_le]
  rfl

theorem isDigit_byte_iff {b : UInt8} : isDigit b = true ↔ 0x30 ≤ b.toNat ∧ b.toNat ≤ 0x39 := by
  rw [isDigit, Bool.and_eq_true, decide_eq_true_eq, decide_eq_true_eq, UInt8.le_iff_toNat_le,
    UInt8.le_iff_toNat_le]
  rfl

theorem isDigit_toUInt8 {c : Char} (h : c.isDigit = true) : isDigit c.toUInt8 = true := by
  rw [isDigit_iff] at h
  rw [isDigit_byte_iff, toNat_toUInt8 (by omega)]
  exact h

theorem digitValue_toUInt8 {c : Char} (h : c.isDigit = true) :
    digitValue c.toUInt8 = c.toNat - '0'.toNat := by
  rw [isDigit_iff] at h
  rw [digitValue, toNat_toUInt8 (by omega)]

theorem toUInt8_inj {c d : Char} (hc : c.isDigit = true) (hd : d.isDigit = true)
    (h : c.toUInt8 = d.toUInt8) : c = d := by
  rw [isDigit_iff] at hc hd
  have hnat : c.toUInt8.toNat = d.toUInt8.toNat := congrArg UInt8.toNat h
  rw [toNat_toUInt8 (by omega), toNat_toUInt8 (by omega)] at hnat
  exact Char.toNat_inj.mp hnat

theorem isDigit_of_mem_digits {n : Nat} : ∀ c ∈ Nat.toDigits 10 n, c.isDigit = true :=
  fun _ => Nat.isDigit_of_mem_toDigits (by omega) (by omega)

theorem bytesOf_toString (n : Nat) :
    bytesOf (toString n) = (Nat.toDigits 10 n).map Char.toUInt8 := by
  rw [Nat.toString_eq_ofList_toDigits, bytesOf_ofList]
  apply flatMap_utf8EncodeChar_of_lt
  intro c hc
  have hdigit := isDigit_iff.mp (isDigit_of_mem_digits c hc)
  omega

/-- Only zero begins with the digit zero. -/
theorem exists_cons_toDigits {n : Nat} (h : 0 < n) :
    ∃ c cs, Nat.toDigits 10 n = c :: cs ∧ c ≠ '0' := by
  induction n using Nat.strongRecOn with
  | ind n ih =>
    by_cases hlt : n < 10
    · refine ⟨Nat.digitChar n, [], Nat.toDigits_of_lt_base hlt, ?_⟩
      rw [ne_eq, Nat.digitChar_eq_zero]
      omega
    · obtain ⟨c, cs, hdigits, hc⟩ := ih (n / 10) (by omega) (by omega)
      refine ⟨c, cs ++ [Nat.digitChar (n % 10)], ?_, hc⟩
      rw [Nat.toDigits_of_base_le (by omega) (by omega), hdigits, List.cons_append]

/-! ## Natural numbers -/

theorem le_ofDigitChars (cs : List Char) (start : Nat) : start ≤ Nat.ofDigitChars 10 cs start := by
  induction cs generalizing start with
  | nil => exact Nat.le_refl start
  | cons c cs ih =>
    have hrest := ih (10 * start + (c.toNat - '0'.toNat))
    rw [Nat.ofDigitChars_cons]
    omega

/-- Digits are taken as long as the number that they make fits. -/
theorem takeDigits_map {cs : List Char} (hdigits : ∀ c ∈ cs, c.isDigit = true) (start : Nat)
    (h : Nat.ofDigitChars 10 cs start ≤ maxSignificand) :
    takeDigits start (cs.map Char.toUInt8) = (Nat.ofDigitChars 10 cs start, 0) := by
  induction cs generalizing start with
  | nil => rfl
  | cons c cs ih =>
    rw [List.forall_mem_cons] at hdigits
    obtain ⟨hc, hcs⟩ := hdigits
    have hwider : start * 10 + digitValue c.toUInt8 = 10 * start + (c.toNat - '0'.toNat) := by
      rw [digitValue_toUInt8 hc, Nat.mul_comm]
    rw [Nat.ofDigitChars_cons] at h ⊢
    have hfits := Nat.le_trans (le_ofDigitChars cs (10 * start + (c.toNat - '0'.toNat))) h
    rw [List.map_cons, takeDigits, hwider, if_pos hfits]
    exact ih hcs _ h

/-- A number ends here: the next byte could not be part of it. -/
def EndsNumber (rest : List UInt8) : Prop :=
  ∀ b ∈ rest.head?, isDigit b = false ∧ b ≠ '.'.toUInt8 ∧ b ≠ 'e'.toUInt8 ∧ b ≠ 'E'.toUInt8

theorem readAfterInteger_of_endsNumber {rest : List UInt8} (h : EndsNumber rest) (negative : Bool)
    (n : Nat) : readAfterInteger negative n 0 rest = .ok (wholeNumber negative n, rest) := by
  cases rest with
  | nil => rfl
  | cons b bytes =>
    obtain ⟨-, hpoint, he, hE⟩ := h b rfl
    simp [readAfterInteger, hpoint, he, hE]

theorem head?_any_of_endsNumber {rest : List UInt8} (h : EndsNumber rest) :
    rest.head?.any isDigit = false := by
  cases rest with
  | nil => rfl
  | cons b bytes =>
    obtain ⟨hdigit, -⟩ := h b rfl
    exact hdigit

theorem takeWhile_of_endsNumber {rest : List UInt8} (h : EndsNumber rest) :
    rest.takeWhile isDigit = [] ∧ rest.dropWhile isDigit = rest := by
  cases rest with
  | nil => exact ⟨rfl, rfl⟩
  | cons b bytes =>
    obtain ⟨hdigit, -⟩ := h b rfl
    simp [hdigit]

/-- Digits of which the first one is not zero. -/
theorem readNumber_map (negative : Bool) {c : Char} {cs : List Char}
    (hdigits : ∀ d ∈ c :: cs, d.isDigit = true) (hc : c ≠ '0')
    (h : Nat.ofDigitChars 10 (c :: cs) 0 ≤ maxSignificand) {rest : List UInt8}
    (hrest : EndsNumber rest) : readNumber negative ((c :: cs).map Char.toUInt8 ++ rest) =
      .ok (wholeNumber negative (Nat.ofDigitChars 10 (c :: cs) 0), rest) := by
  rw [List.forall_mem_cons] at hdigits
  have hvalue : Nat.ofDigitChars 10 (c :: cs) 0 =
      Nat.ofDigitChars 10 cs (digitValue c.toUInt8) := by
    rw [Nat.ofDigitChars_cons, Nat.mul_zero, Nat.zero_add, digitValue_toUInt8 hdigits.1]
  have htake := takeDigits_map hdigits.2 (digitValue c.toUInt8) (hvalue ▸ h)
  have hbytes : ∀ b ∈ cs.map Char.toUInt8, isDigit b = true := by
    rw [List.forall_mem_map]
    exact fun d hd => isDigit_toUInt8 (hdigits.2 d hd)
  have hnonzero : (c.toUInt8 == '0'.toUInt8) = false := by
    rw [beq_eq_false_iff_ne]
    exact fun he => hc (toUInt8_inj hdigits.1 rfl he)
  rw [List.map_cons, List.cons_append, readNumber, hnonzero, if_neg Bool.false_ne_true,
    isDigit_toUInt8 hdigits.1, if_pos rfl, List.takeWhile_append_of_pos hbytes,
    List.dropWhile_append_of_pos hbytes, (takeWhile_of_endsNumber hrest).1,
    (takeWhile_of_endsNumber hrest).2, List.append_nil]
  dsimp only
  rw [htake, hvalue]
  exact readAfterInteger_of_endsNumber hrest negative _

/-- The digits of a natural number read back as the number. -/
theorem readNumber_digits (negative : Bool) {n : Nat} (h : n ≤ maxSignificand)
    {rest : List UInt8} (hrest : EndsNumber rest) :
    readNumber negative (bytesOf (toString n) ++ rest) = .ok (wholeNumber negative n, rest) := by
  rw [bytesOf_toString]
  by_cases hzero : n = 0
  · -- a zero stands alone
    subst hzero
    rw [Nat.toDigits_zero, List.map_singleton, List.singleton_append, readNumber,
      beq_self_eq_true, if_pos rfl, head?_any_of_endsNumber hrest]
    exact readAfterInteger_of_endsNumber hrest negative 0
  · obtain ⟨c, cs, hcons, hc⟩ := exists_cons_toDigits (Nat.pos_of_ne_zero hzero)
    have hvalue : Nat.ofDigitChars 10 (c :: cs) 0 = n := by
      rw [← hcons, Nat.ofDigitChars_ten_toDigits]
    have hread := readNumber_map negative (hcons ▸ isDigit_of_mem_digits) hc (hvalue.symm ▸ h) hrest
    rwa [hvalue, ← hcons] at hread

/-! ## Integers -/

theorem ne_of_isDigit {b : UInt8} (h : isDigit b = true) {c : Char}
    (hc : isDigit c.toUInt8 = false) : (b == c.toUInt8) = false := by
  rw [beq_eq_false_iff_ne]
  rintro rfl
  rw [h] at hc
  cases hc

theorem readScalar_of_isDigit {b : UInt8} (h : isDigit b = true) (bytes : List UInt8) :
    readScalar (b :: bytes) = (readNumber false (b :: bytes)).map fun r => (number r.1, r.2) := by
  rw [readScalar, ne_of_isDigit h rfl, ne_of_isDigit h rfl, ne_of_isDigit h rfl,
    ne_of_isDigit h rfl, h]
  rfl

theorem exists_cons_bytesOf_toString (n : Nat) :
    ∃ b bytes, bytesOf (toString n) = b :: bytes ∧ isDigit b = true := by
  rw [bytesOf_toString]
  obtain ⟨c, cs, hcons⟩ := List.exists_cons_of_ne_nil (Nat.toDigits_ne_nil (n := n) (b := 10))
  have hc : c.isDigit = true := isDigit_of_mem_digits c (hcons ▸ List.mem_cons_self)
  exact ⟨c.toUInt8, cs.map Char.toUInt8, by rw [hcons, List.map_cons], isDigit_toUInt8 hc⟩

/-- An integer of 64 bits reads back as itself. -/
theorem readScalar_int {i : Int} (hlow : -(2 : Int) ^ 63 ≤ i) (hhigh : i < (2 : Int) ^ 64)
    {rest : List UInt8} (hrest : EndsNumber rest) :
    readScalar (bytesOf (Number.int i).text ++ rest) = .ok (number (.int i), rest) := by
  have hmax : maxSignificand = 2 ^ 64 - 1 := rfl
  cases i with
  | ofNat n =>
    have hfits : (n : Int) < (2 : Int) ^ 64 := hhigh
    have hread := readNumber_digits false (n := n) (by omega) hrest
    obtain ⟨b, bytes, hbytes, hdigit⟩ := exists_cons_bytesOf_toString n
    show readScalar (bytesOf (toString n) ++ rest) = _
    rw [hbytes, List.cons_append] at hread ⊢
    rw [readScalar_of_isDigit hdigit, hread]
    rfl
  | negSucc n =>
    have hsign : bytesOf (Number.int (Int.negSucc n)).text =
        '-'.toUInt8 :: bytesOf (toString (n + 1)) := bytesOf_append "-" (toString (n + 1))
    have hread := readNumber_digits true (n := n + 1) (by omega) hrest
    have hwhole : wholeNumber true (n + 1) = .int (Int.negSucc n) := by
      have hfits : ¬ (n + 1 = 0 ∨ 1 <<< 63 < n + 1) := by
        rw [Nat.one_shiftLeft]
        omega
      rw [wholeNumber, if_pos rfl, if_neg hfits]
      rfl
    rw [hsign, List.cons_append]
    show (readNumber true (bytesOf (toString (n + 1)) ++ rest)).map _ = _
    rw [hread, hwhole]
    rfl

end Conformance.Json
