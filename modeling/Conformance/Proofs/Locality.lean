import Conformance.Json.Reader
import Conformance.Proofs.Answers
import Conformance.Proofs.Escaping
import Conformance.Proofs.Numerals

/-!
# What a token takes off the front

A reader of a token decides by the bytes that it takes and by the one behind them. So what it takes
off the front of some bytes it takes off as well where other bytes follow: strings and words
whatever follows, and numbers as long as the bytes that follow do not go on with them.

Results:
* `Json.Settled`, `Json.LookingAhead`: readers of these two kinds.
* `Json.settled_readString`: strings, by induction on their bytes, an escape at a time.
* `Json.exists_digit_readNumber`: numbers, from the innermost part outwards.
* `Json.exists_front_readScalar`: any value that is no array and no object.
-/

namespace Conformance.Json

variable {α : Type}

/-! ## Tokens that end by themselves -/

/-- The reader takes a front, and takes the same off that front whatever stands behind it. -/
def Settled (reader : Reader α) : Prop :=
  ∀ ⦃bytes a rest⦄, reader bytes = .ok (a, rest) → ∃ front, bytes = front ++ rest ∧
    ∀ t, reader (front ++ t) = .ok (a, t)

theorem settled_expectWord (word : List Char) : Settled (expectWord word) := by
  induction word with
  | nil =>
    intro bytes a rest h
    cases h
    exact ⟨[], rfl, fun _ => rfl⟩
  | cons c word ih =>
    intro bytes a rest h
    cases bytes with
    | nil => cases h
    | cons b bytes =>
      rw [expectWord] at h
      split at h
      next hb =>
        obtain ⟨front, rfl, htakes⟩ := ih h
        refine ⟨b :: front, rfl, fun t => ?_⟩
        rw [List.cons_append, expectWord, if_pos hb]
        exact htakes t
      next => cases h

theorem settled_readHex4 : Settled readHex4 := by
  intro bytes n rest h
  unfold readHex4 at h
  split at h
  next a b c d after =>
    refine ⟨[a, b, c, d], ?_, fun t => ?_⟩
    · split at h
      · cases h
        rfl
      · cases h
    · split at h
      next ha hb hc hd =>
        cases h
        simp [readHex4, ha, hb, hc, hd]
      next => cases h
  next => cases h

theorem settled_expectSurrogateByte (c : Char) : Settled (expectSurrogateByte c) := by
  intro bytes a rest h
  cases bytes with
  | nil => cases h
  | cons b bytes =>
    rw [expectSurrogateByte] at h
    split at h
    next hb =>
      cases h
      refine ⟨[b], rfl, fun t => ?_⟩
      rw [List.singleton_append, expectSurrogateByte, if_pos hb]
    next => cases h

theorem settled_readCodePoint : Settled readCodePoint := by
  intro bytes out rest h
  obtain ⟨⟨n, _⟩, hhigh, hn⟩ := bind_eq_ok_iff.mp h
  obtain ⟨front, rfl, htakes⟩ := settled_readHex4 hhigh
  dsimp only at hn
  split_ifs at hn with hlone hpair
  · obtain ⟨⟨⟨⟩, _⟩, hbackslash, hafter⟩ := bind_eq_ok_iff.mp hn
    obtain ⟨first, rfl, htakes₁⟩ := settled_expectSurrogateByte _ hbackslash
    obtain ⟨⟨⟨⟩, _⟩, hu, hdigits⟩ := bind_eq_ok_iff.mp hafter
    obtain ⟨second, rfl, htakes₂⟩ := settled_expectSurrogateByte _ hu
    obtain ⟨⟨m, _⟩, hlow, hm⟩ := bind_eq_ok_iff.mp hdigits
    obtain ⟨third, rfl, htakes₃⟩ := settled_readHex4 hlow
    dsimp only at hm
    split_ifs at hm with hrange
    obtain ⟨rfl, rfl⟩ := Prod.mk.inj (Except.ok.inj hm)
    refine ⟨front ++ (first ++ (second ++ third)), ?_, fun t => ?_⟩
    · simp only [List.append_assoc]
    · simp [readCodePoint, htakes, htakes₁, htakes₂, htakes₃, hlone, hpair, hrange, bind,
        Except.bind]
  · cases hn
    refine ⟨front, rfl, fun t => ?_⟩
    simp [readCodePoint, htakes, hlone, hpair, bind, Except.bind]

theorem settled_readEscape : Settled readEscape := by
  intro bytes out rest h
  cases bytes with
  | nil => cases h
  | cons b bytes =>
    rw [readEscape] at h
    split at h
    next hu =>
      obtain ⟨front, rfl, htakes⟩ := settled_readCodePoint h
      refine ⟨b :: front, rfl, fun t => ?_⟩
      rw [List.cons_append, readEscape, if_pos hu]
      exact htakes t
    next hu =>
      split at h
      next byte hbyte =>
        cases h
        refine ⟨[b], rfl, fun t => ?_⟩
        rw [List.singleton_append, readEscape, if_neg hu, hbyte]
      next => cases h

/-- By induction on the bytes, an escape or an ordinary byte at a time. -/
theorem settled_readStringBytes : Settled readStringBytes := by
  intro bytes
  induction bytes using readStringBytes.induct with
  | case1 =>
    intro out rest h
    rw [readStringBytes] at h
    cases h
  | case2 b after hquote =>
    intro out rest h
    rw [readStringBytes, if_pos hquote] at h
    cases h
    refine ⟨[b], rfl, fun t => ?_⟩
    rw [List.singleton_append, readStringBytes, if_pos hquote]
  | case3 b after hquote hbackslash first middle hescape _ ih =>
    intro out rest h
    obtain rfl : b = '\\'.toUInt8 := beq_iff_eq.mp hbackslash
    rw [readStringBytes_backslash hescape] at h
    obtain ⟨⟨others, rest⟩, hothers, ⟨⟩⟩ := map_eq_ok_iff.mp h
    obtain ⟨front, rfl, htakes⟩ := settled_readEscape hescape
    obtain ⟨back, rfl, htakes'⟩ := ih hothers
    refine ⟨'\\'.toUInt8 :: (front ++ back), ?_, fun t => ?_⟩
    · rw [List.cons_append, List.append_assoc]
    · rw [List.cons_append, List.append_assoc, readStringBytes_backslash (htakes _), htakes']
      rfl
  | case4 b after hquote hbackslash e hescape =>
    intro out rest h
    rw [readStringBytes, if_neg hquote, if_pos hbackslash] at h
    split at h
    next hescape' => cases hescape.symm.trans hescape'
    next => cases h
  | case5 b after hquote hbackslash hcontrol =>
    intro out rest h
    rw [readStringBytes, if_neg hquote, if_neg hbackslash, if_pos hcontrol] at h
    cases h
  | case6 b after hquote hbackslash hcontrol ih =>
    intro out rest h
    rw [readStringBytes, if_neg hquote, if_neg hbackslash, if_neg hcontrol] at h
    obtain ⟨⟨others, rest⟩, hothers, ⟨⟩⟩ := map_eq_ok_iff.mp h
    obtain ⟨front, rfl, htakes⟩ := ih hothers
    refine ⟨b :: front, rfl, fun t => ?_⟩
    rw [List.cons_append, readStringBytes, if_neg hquote, if_neg hbackslash, if_neg hcontrol,
      htakes]
    rfl

theorem settled_readString : Settled readString := by
  intro bytes s rest h
  obtain ⟨⟨content, _⟩, hcontent, hs⟩ := bind_eq_ok_iff.mp h
  obtain ⟨front, rfl, htakes⟩ := settled_readStringBytes hcontent
  dsimp only at hs
  split at hs
  next hvalid =>
    cases hs
    refine ⟨front, rfl, fun t => bind_eq_ok_iff.mpr ⟨_, htakes t, ?_⟩⟩
    dsimp only
    rw [hvalid]
  next => cases hs

/-! ## Numbers -/

/-- Bytes that may stand where a reader left `rest`: they begin alike, or end a number. -/
def MayReplace (rest t : List UInt8) : Prop := t.head? = rest.head? ∨ EndsNumber t

theorem MayReplace.append {rest t : List UInt8} (h : MayReplace rest t) (front : List UInt8) :
    MayReplace (front ++ rest) (front ++ t) := by
  cases front with
  | nil => exact h
  | cons b front => exact .inl rfl

theorem mayReplace_append {front : List UInt8} (h : front ≠ []) (rest t : List UInt8) :
    MayReplace (front ++ rest) (front ++ t) := by
  cases front with
  | nil => exact absurd rfl h
  | cons b front => exact .inl rfl

/-- The bytes by which a number goes on. -/
def goesOn (b : UInt8) : Bool :=
  isDigit b || b == '.'.toUInt8 || b == 'e'.toUInt8 || b == 'E'.toUInt8

theorem any_goesOn_of_endsNumber {t : List UInt8} (h : EndsNumber t) :
    t.head?.any goesOn = false := by
  cases t with
  | nil => rfl
  | cons b t =>
    obtain ⟨hdigit, hpoint, he, hE⟩ := h b rfl
    simp [goesOn, hdigit, hpoint, he, hE]

/-- Where no byte of a kind went on with the number, none does. -/
theorem MayReplace.any_eq_false {rest t : List UInt8} (h : MayReplace rest t) {p : UInt8 → Bool}
    (hp : ∀ b, p b = true → goesOn b = true) (hrest : rest.head?.any p = false) :
    t.head?.any p = false := by
  rcases h with hhead | hends
  · rwa [hhead]
  · have hgoes := any_goesOn_of_endsNumber hends
    cases hhead : t.head? with
    | none => rfl
    | some b =>
      rw [hhead] at hgoes
      exact Bool.eq_false_iff.mpr fun hb => Bool.eq_false_iff.mp hgoes (hp b hb)

theorem goesOn_of_isDigit (b : UInt8) (h : isDigit b = true) : goesOn b = true := by
  simp [goesOn, h]

/-- The reader takes a front, and takes the same off that front with other bytes behind it that may
replace those that were left. -/
def LookingAhead (reader : Reader α) : Prop :=
  ∀ ⦃bytes a rest⦄, reader bytes = .ok (a, rest) → ∃ front, bytes = front ++ rest ∧
    ∀ t, MayReplace rest t → reader (front ++ t) = .ok (a, t)

theorem any_isDigit_dropWhile (bytes : List UInt8) :
    (bytes.dropWhile isDigit).head?.any isDigit = false := by
  have h := List.head?_dropWhile_not isDigit bytes
  cases hhead : (bytes.dropWhile isDigit).head? with
  | none => rfl
  | some b => simpa [hhead] using h

/-- All digits are taken where no digit follows them. -/
theorem splitDigits {bytes t : List UInt8} (h : MayReplace (bytes.dropWhile isDigit) t) :
    (bytes.takeWhile isDigit ++ t).takeWhile isDigit = bytes.takeWhile isDigit ∧
      (bytes.takeWhile isDigit ++ t).dropWhile isDigit = t := by
  have ht : t.head?.any isDigit = false :=
    h.any_eq_false goesOn_of_isDigit (any_isDigit_dropWhile bytes)
  have hdigits : ∀ b ∈ bytes.takeWhile isDigit, isDigit b = true :=
    List.all_eq_true.mp List.all_takeWhile
  have hstop : t.takeWhile isDigit = [] ∧ t.dropWhile isDigit = t := by
    cases t with
    | nil => exact ⟨rfl, rfl⟩
    | cons b t =>
      have hb : isDigit b = false := ht
      simp [hb]
  rw [List.takeWhile_append_of_pos hdigits, List.dropWhile_append_of_pos hdigits, hstop.1, hstop.2,
    List.append_nil]
  exact ⟨rfl, rfl⟩

theorem lookingAhead_scaledNumber (negative : Bool) (significand : Nat) (exponent : Int) :
    LookingAhead (scaledNumber negative significand exponent) := by
  intro bytes x rest h
  unfold scaledNumber at h
  split at h
  next y hy =>
    cases h
    refine ⟨[], rfl, fun t _ => ?_⟩
    rw [List.nil_append, scaledNumber, hy]
  next => cases h

/-- An exponent behind its sign. -/
def readPower (negative : Bool) (significand : Nat) (exponent : Int) (down : Bool) :
    Reader Number := fun bytes =>
  match bytes with
  | [] => .error (.before .eofInValue [])
  | b :: rest =>
    if isDigit b then
      let digits := rest.takeWhile isDigit
      let after := rest.dropWhile isDigit
      match takeExponent (digitValue b) digits with
      | (e, none) =>
        scaledNumber negative significand (if down then exponent - e else exponent + e) after
      | (_, some left) =>
        if significand ≠ 0 ∧ !down then
          .error (.before .numberOutOfRange (digits.drop (digits.length - left) ++ after))
        else .ok (.float (if negative then (Binary64.ofInt 0).neg else .ofInt 0), after)
    else .error (.before .invalidNumber rest)

/-- What is read before the digits of an exponent. -/
theorem readExponent_eq (negative : Bool) (significand : Nat) (exponent : Int)
    (bytes : List UInt8) : readExponent negative significand exponent bytes =
      readPower negative significand exponent (bytes.head?.any (· == '-'.toUInt8))
        (if bytes.head?.any fun b => b == '+'.toUInt8 || b == '-'.toUInt8 then bytes.tail
          else bytes) := rfl

theorem exists_digits_readPower {negative down : Bool} {significand : Nat} {exponent : Int}
    {bytes rest : List UInt8} {x : Number}
    (h : readPower negative significand exponent down bytes = .ok (x, rest)) :
    ∃ b digits, isDigit b = true ∧ bytes = b :: digits ++ rest ∧ ∀ t, MayReplace rest t →
      readPower negative significand exponent down (b :: digits ++ t) = .ok (x, t) := by
  cases bytes with
  | nil => cases h
  | cons b bytes =>
    rw [readPower] at h
    dsimp only at h
    split at h
    next hb =>
      cases hpower : takeExponent (digitValue b) (bytes.takeWhile isDigit) with
      | mk e left =>
        rw [hpower] at h
        cases left with
        | none =>
          obtain ⟨front, hafter, htakes⟩ := lookingAhead_scaledNumber _ _ _ h
          refine ⟨b, bytes.takeWhile isDigit ++ front, hb, ?_, fun t ht => ?_⟩
          · rw [List.cons_append, List.append_assoc, ← hafter, List.takeWhile_append_dropWhile]
          · obtain ⟨htake, hdrop⟩ := splitDigits (hafter ▸ ht.append front)
            rw [List.cons_append, List.append_assoc, readPower]
            dsimp only
            rw [if_pos hb, htake, hdrop, hpower]
            exact htakes t ht
        | some left =>
          dsimp only at h
          split at h
          next => cases h
          next hrange =>
            cases h
            refine ⟨b, bytes.takeWhile isDigit, hb, ?_, fun t ht => ?_⟩
            · rw [List.cons_append, List.takeWhile_append_dropWhile]
            · obtain ⟨htake, hdrop⟩ := splitDigits ht
              rw [List.cons_append, readPower]
              dsimp only
              rw [if_pos hb, htake, hdrop, hpower]
              exact if_neg hrange
    next => cases h

/-- The digits behind the sign end where no digit follows. -/
theorem lookingAhead_readExponent (negative : Bool) (significand : Nat) (exponent : Int) :
    LookingAhead (readExponent negative significand exponent) := by
  intro bytes x rest h
  rw [readExponent_eq] at h
  split at h
  next hsign =>
    cases bytes with
    | nil => cases hsign
    | cons sign bytes =>
      obtain ⟨b, digits, -, hbytes, htakes⟩ := exists_digits_readPower h
      refine ⟨sign :: b :: digits, congrArg (sign :: ·) hbytes, fun t ht => ?_⟩
      rw [readExponent_eq, List.cons_append, List.head?_cons]
      rw [List.head?_cons] at hsign
      rw [if_pos hsign]
      exact htakes t ht
  next hsign =>
    obtain ⟨b, digits, -, rfl, htakes⟩ := exists_digits_readPower h
    refine ⟨b :: digits, rfl, fun t ht => ?_⟩
    rw [List.cons_append, List.head?_cons] at hsign
    rw [readExponent_eq, List.cons_append, List.head?_cons, if_neg hsign]
    exact htakes t ht

theorem readScale_of_any_eq_false {negative : Bool} {significand : Nat} {exponent : Int}
    {bytes : List UInt8}
    (h : bytes.head?.any (fun b => b == 'e'.toUInt8 || b == 'E'.toUInt8) = false) :
    readScale negative significand exponent bytes =
      scaledNumber negative significand exponent bytes := by
  cases bytes with
  | nil => rfl
  | cons b bytes =>
    rw [readScale]
    exact if_neg (Bool.eq_false_iff.mp h)

theorem lookingAhead_readScale (negative : Bool) (significand : Nat) (exponent : Int) :
    LookingAhead (readScale negative significand exponent) := by
  intro bytes x rest h
  by_cases hletter : bytes.head?.any (fun b => b == 'e'.toUInt8 || b == 'E'.toUInt8) = true
  · cases bytes with
    | nil => cases hletter
    | cons b bytes =>
      rw [List.head?_cons, Option.any_some] at hletter
      rw [readScale, if_pos hletter] at h
      obtain ⟨front, rfl, htakes⟩ := lookingAhead_readExponent _ _ _ h
      refine ⟨b :: front, rfl, fun t ht => ?_⟩
      rw [List.cons_append, readScale, if_pos hletter]
      exact htakes t ht
  · rw [Bool.not_eq_true] at hletter
    rw [readScale_of_any_eq_false hletter] at h
    obtain ⟨front, rfl, htakes⟩ := lookingAhead_scaledNumber _ _ _ h
    refine ⟨front, rfl, fun t ht => ?_⟩
    rw [readScale_of_any_eq_false]
    · exact htakes t ht
    · exact (ht.append front).any_eq_false (by simp +contextual [goesOn]) hletter

theorem lookingAhead_readFraction (negative : Bool) (significand : Nat) (exponent : Int) :
    LookingAhead (readFraction negative significand exponent) := by
  intro bytes x rest h
  unfold readFraction at h
  dsimp only at h
  split at h
  next => cases h
  next hdigits =>
    obtain ⟨front, hafter, htakes⟩ := lookingAhead_readScale _ _ _ h
    refine ⟨bytes.takeWhile isDigit ++ front, ?_, fun t ht => ?_⟩
    · rw [List.append_assoc, ← hafter, List.takeWhile_append_dropWhile]
    · have hreplace : MayReplace (bytes.dropWhile isDigit) (front ++ t) := by
        rw [hafter]
        exact ht.append front
      obtain ⟨htake, hdrop⟩ := splitDigits hreplace
      rw [List.append_assoc, readFraction]
      dsimp only
      rw [htake, hdrop, if_neg hdigits]
      exact htakes t ht

theorem readAfterInteger_of_any_eq_false (negative : Bool) (significand left : Nat)
    {bytes : List UInt8} (h : bytes.head?.any (fun b => b == '.'.toUInt8 ||
      (b == 'e'.toUInt8 || b == 'E'.toUInt8)) = false) :
    readAfterInteger negative significand left bytes =
      if left = 0 then .ok (wholeNumber negative significand, bytes)
      else scaledNumber negative significand left bytes := by
  cases bytes with
  | nil => rfl
  | cons b bytes =>
    rw [List.head?_cons, Option.any_some, Bool.or_eq_false_iff] at h
    rw [readAfterInteger, if_neg (Bool.eq_false_iff.mp h.1), if_neg (Bool.eq_false_iff.mp h.2)]

theorem lookingAhead_readAfterInteger (negative : Bool) (significand left : Nat) :
    LookingAhead (readAfterInteger negative significand left) := by
  intro bytes x rest h
  by_cases hgoes : bytes.head?.any (fun b => b == '.'.toUInt8 ||
      (b == 'e'.toUInt8 || b == 'E'.toUInt8)) = true
  · cases bytes with
    | nil => cases hgoes
    | cons b bytes =>
      rw [readAfterInteger] at h
      split at h
      next hpoint =>
        obtain ⟨front, rfl, htakes⟩ := lookingAhead_readFraction _ _ _ h
        refine ⟨b :: front, rfl, fun t ht => ?_⟩
        rw [List.cons_append, readAfterInteger, if_pos hpoint]
        exact htakes t ht
      next hpoint =>
        have hletter : (b == 'e'.toUInt8 || b == 'E'.toUInt8) = true := by
          simpa [hpoint] using hgoes
        rw [if_pos hletter] at h
        obtain ⟨front, rfl, htakes⟩ := lookingAhead_readExponent _ _ _ h
        refine ⟨b :: front, rfl, fun t ht => ?_⟩
        rw [List.cons_append, readAfterInteger, if_neg hpoint, if_pos hletter]
        exact htakes t ht
  · rw [Bool.not_eq_true] at hgoes
    have hstops {t : List UInt8} (ht : MayReplace bytes t) :=
      readAfterInteger_of_any_eq_false negative significand left
        (ht.any_eq_false (by simp +contextual [goesOn, or_imp]) hgoes)
    rw [readAfterInteger_of_any_eq_false _ _ _ hgoes] at h
    split at h
    next hleft =>
      cases h
      refine ⟨[], rfl, fun t ht => ?_⟩
      rw [List.nil_append, hstops ht, if_pos hleft]
    next hleft =>
      obtain ⟨front, rfl, htakes⟩ := lookingAhead_scaledNumber _ _ _ h
      refine ⟨front, rfl, fun t ht => ?_⟩
      rw [hstops (ht.append front), if_neg hleft]
      exact htakes t ht

/-- A number takes its first digit. -/
theorem exists_digit_readNumber {negative : Bool} {bytes rest : List UInt8} {x : Number}
    (h : readNumber negative bytes = .ok (x, rest)) :
    ∃ b front, isDigit b = true ∧ bytes = b :: front ++ rest ∧ ∀ t, MayReplace rest t →
      readNumber negative (b :: front ++ t) = .ok (x, t) := by
  cases bytes with
  | nil => cases h
  | cons b bytes =>
    rw [readNumber] at h
    split at h
    next hzero =>
      split at h
      next => cases h
      next hdigit =>
        obtain ⟨front, rfl, htakes⟩ := lookingAhead_readAfterInteger _ _ _ h
        refine ⟨b, front, by rw [beq_iff_eq.mp hzero]; rfl, rfl, fun t ht => ?_⟩
        have hdigit' := (ht.append front).any_eq_false goesOn_of_isDigit
          (Bool.eq_false_iff.mpr hdigit)
        rw [List.cons_append, readNumber, if_pos hzero, if_neg (Bool.eq_false_iff.mp hdigit')]
        exact htakes t ht
    next hzero =>
      split at h
      next hb =>
        dsimp only at h
        obtain ⟨front, hafter, htakes⟩ := lookingAhead_readAfterInteger _ _ _ h
        refine ⟨b, bytes.takeWhile isDigit ++ front, hb, ?_, fun t ht => ?_⟩
        · rw [List.cons_append, List.append_assoc, ← hafter, List.takeWhile_append_dropWhile]
        · obtain ⟨htake, hdrop⟩ := splitDigits (hafter ▸ ht.append front)
          rw [List.cons_append, List.append_assoc, readNumber, if_neg hzero, if_pos hb]
          dsimp only
          rw [htake, hdrop]
          exact htakes t ht
      next => cases h

/-! ## Scalars -/

/-- After anything but a number it does not matter what follows. -/
def isNumber : Json → Bool
  | number _ => true
  | _ => false

/-- The reader takes a front, and takes the same off that front with other bytes behind it: any
bytes after an answer that is settled, and else such as may replace those that were left. -/
def TakesFront (settled : α → Prop) (reader : Reader α) : Prop :=
  ∀ ⦃bytes a rest⦄, reader bytes = .ok (a, rest) → ∃ front, bytes = front ++ rest ∧
    ∀ t, settled a ∨ MayReplace rest t → reader (front ++ t) = .ok (a, t)

/-- A scalar that is known by its first byte and read by another reader from there on. -/
theorem TakesFront.scalar {reader : Reader α} {f : α → Json} {b : UInt8}
    (hreader : TakesFront (fun a => (f a).isNumber = false) reader)
    (hscalar : ∀ bytes, readScalar (b :: bytes) = (reader bytes).map fun r => (f r.1, r.2))
    {bytes rest : List UInt8} {j : Json} (h : readScalar (b :: bytes) = .ok (j, rest)) :
    ∃ front, bytes = front ++ rest ∧ ∀ t, j.isNumber = false ∨ MayReplace rest t →
      readScalar (b :: front ++ t) = .ok (j, t) := by
  rw [hscalar] at h
  obtain ⟨⟨a, _⟩, hread, ⟨⟩⟩ := map_eq_ok_iff.mp h
  obtain ⟨front, rfl, htakes⟩ := hreader hread
  refine ⟨front, rfl, fun t ht => ?_⟩
  rw [List.cons_append, hscalar, htakes t ht]
  rfl

theorem Settled.takesFront {reader : Reader α} (h : Settled reader) (settled : α → Prop) :
    TakesFront settled reader := by
  intro bytes a rest hread
  obtain ⟨front, hbytes, htakes⟩ := h hread
  exact ⟨front, hbytes, fun t _ => htakes t⟩

theorem exists_front_readScalar {bytes rest : List UInt8} {j : Json}
    (h : readScalar bytes = .ok (j, rest)) :
    ∃ b front, bytes = b :: front ++ rest ∧ ∀ t, j.isNumber = false ∨ MayReplace rest t →
      readScalar (b :: front ++ t) = .ok (j, t) := by
  cases bytes with
  | nil => cases h
  | cons b bytes =>
    suffices hfront : ∃ front, bytes = front ++ rest ∧
        ∀ t, j.isNumber = false ∨ MayReplace rest t → readScalar (b :: front ++ t) = .ok (j, t) by
      obtain ⟨front, rfl, htakes⟩ := hfront
      exact ⟨b, front, rfl, htakes⟩
    have hnumber (negative : Bool) : TakesFront (fun x => (number x).isNumber = false)
        (readNumber negative) := by
      intro bytes x rest h
      obtain ⟨d, front, -, hbytes, htakes⟩ := exists_digit_readNumber h
      exact ⟨d :: front, hbytes, fun t ht => htakes t (ht.resolve_left Bool.noConfusion)⟩
    by_cases hn : (b == 'n'.toUInt8) = true
    · refine ((settled_expectWord ['u', 'l', 'l']).takesFront _).scalar (f := fun _ => null)
        (fun bytes => ?_) h
      rw [readScalar, if_pos hn]
    by_cases ht : (b == 't'.toUInt8) = true
    · refine ((settled_expectWord ['r', 'u', 'e']).takesFront _).scalar (f := fun _ => bool true)
        (fun bytes => ?_) h
      rw [readScalar, if_neg hn, if_pos ht]
    by_cases hf : (b == 'f'.toUInt8) = true
    · refine ((settled_expectWord ['a', 'l', 's', 'e']).takesFront _).scalar
        (f := fun _ => bool false) (fun bytes => ?_) h
      rw [readScalar, if_neg hn, if_neg ht, if_pos hf]
    by_cases hminus : (b == '-'.toUInt8) = true
    · refine (hnumber true).scalar (fun bytes => ?_) h
      rw [readScalar, if_neg hn, if_neg ht, if_neg hf, if_pos hminus]
    by_cases hdigit : isDigit b = true
    · -- here the number begins with the byte itself
      rw [readScalar, if_neg hn, if_neg ht, if_neg hf, if_neg hminus, if_pos hdigit] at h
      obtain ⟨⟨x, _⟩, hread, ⟨⟩⟩ := map_eq_ok_iff.mp h
      obtain ⟨d, front, -, hbytes, htakes⟩ := exists_digit_readNumber hread
      obtain ⟨rfl, rfl⟩ := List.cons.inj hbytes
      refine ⟨front, rfl, fun t hafter => ?_⟩
      have hread := htakes t (hafter.resolve_left Bool.noConfusion)
      rw [List.cons_append] at hread ⊢
      rw [readScalar, if_neg hn, if_neg ht, if_neg hf, if_neg hminus, if_pos hdigit, hread]
      rfl
    by_cases hquote : (b == '"'.toUInt8) = true
    · refine (settled_readString.takesFront _).scalar (f := string) (fun bytes => ?_) h
      rw [readScalar, if_neg hn, if_neg ht, if_neg hf, if_neg hminus, if_neg hdigit, if_pos hquote]
    · rw [readScalar, if_neg hn, if_neg ht, if_neg hf, if_neg hminus, if_neg hdigit,
        if_neg hquote] at h
      cases h

end Conformance.Json
