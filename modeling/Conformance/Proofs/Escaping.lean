import Conformance.Json.Printer
import Conformance.Json.Token
import Mathlib.Tactic.SplitIfs

/-!
# Strings in JSON text

What is written between quotes reads back as the string. A character that is escaped is put
together again from its letter or its number; the bytes of any other character are neither quotes
nor backslashes nor controls, and they are read one by one.

Results:
* `Json.bytesOf`: the bytes of a text.
* `Json.readStringBytes_escape`: one character, escaped or not, before any further bytes.
* `Json.readStringBytes_escaped`: the characters of a string, by induction.
* `Json.readString_quoted`: a whole string up to its closing quote.
-/

namespace Conformance.Json

/-! ## Bytes of texts -/

/-- The bytes of a text. -/
def bytesOf (s : String) : List UInt8 := s.toByteArray.data.toList

@[simp] theorem bytesOf_append (s t : String) : bytesOf (s ++ t) = bytesOf s ++ bytesOf t := by
  rw [bytesOf, String.toByteArray_append, ByteArray.data_append, Array.toList_append]
  rfl

theorem bytesOf_ofList (cs : List Char) :
    bytesOf (String.ofList cs) = cs.flatMap String.utf8EncodeChar := by
  rw [bytesOf, String.toByteArray_ofList, List.utf8Encode, List.data_toByteArray]

theorem bytesOf_eq_flatMap (s : String) : bytesOf s = s.toList.flatMap String.utf8EncodeChar := by
  rw [← bytesOf_ofList, String.ofList_toList]

theorem toByteArray_bytesOf (s : String) : (bytesOf s).toByteArray = s.toByteArray := by
  apply ByteArray.ext
  rw [List.data_toByteArray, bytesOf, Array.toArray_toList]

theorem fromUTF8?_bytesOf (s : String) : String.fromUTF8? (bytesOf s).toByteArray = some s := by
  rw [toByteArray_bytesOf, String.fromUTF8?, dif_pos s.isValidUTF8]
  rfl

/-- A character below U+0080 is one byte. -/
theorem utf8EncodeChar_of_lt {c : Char} (h : c.toNat < 0x80) :
    String.utf8EncodeChar c = [c.toUInt8] := by
  have hle : c.val.toNat ≤ 127 := Nat.le_of_lt_succ h
  rw [String.utf8EncodeChar, if_pos hle]
  rfl

theorem flatMap_utf8EncodeChar_of_lt {cs : List Char} (h : ∀ c ∈ cs, c.toNat < 0x80) :
    cs.flatMap String.utf8EncodeChar = cs.map Char.toUInt8 := by
  induction cs with
  | nil => rfl
  | cons c cs ih =>
    rw [List.forall_mem_cons] at h
    rw [List.flatMap_cons, utf8EncodeChar_of_lt h.1, ih h.2]
    rfl

/-! ## Characters that stand for themselves -/

/-- What was read with more bytes in front. -/
def prepend (front : List UInt8) (result : Except Failure (List UInt8 × List UInt8)) :
    Except Failure (List UInt8 × List UInt8) :=
  result.map fun r => (front ++ r.1, r.2)

theorem prepend_nil (result : Except Failure (List UInt8 × List UInt8)) :
    prepend [] result = result := by
  cases result <;> rfl

theorem prepend_prepend (a b : List UInt8) (result : Except Failure (List UInt8 × List UInt8)) :
    prepend a (prepend b result) = prepend (a ++ b) result := by
  cases result with
  | error e => rfl
  | ok r => simp only [prepend, Except.map, List.append_assoc]

/-- Does a byte stand for itself inside a string? -/
def isOrdinary (b : UInt8) : Bool := b != '"'.toUInt8 && b != '\\'.toUInt8 && !(b < 0x20)

theorem isOrdinary_iff {b : UInt8} : isOrdinary b = true ↔
    b.toNat ≠ 0x22 ∧ b.toNat ≠ 0x5c ∧ 0x20 ≤ b.toNat := by
  have hquote : ('"'.toUInt8).toNat = 0x22 := rfl
  have hbackslash : ('\\'.toUInt8).toNat = 0x5c := rfl
  have hspace : (0x20 : UInt8).toNat = 0x20 := rfl
  simp only [isOrdinary, Bool.and_eq_true, bne_iff_ne, Bool.not_eq_true', decide_eq_false_iff_not,
    ne_eq, ← UInt8.toNat_inj, UInt8.lt_iff_toNat_lt, hquote, hbackslash, hspace]
  omega

theorem isOrdinary_of_mem_utf8EncodeChar {c : Char} (hquote : c ≠ '"') (hbackslash : c ≠ '\\')
    (hcontrol : ¬ c.toNat < 0x20) : ∀ b ∈ String.utf8EncodeChar c, isOrdinary b = true := by
  have hq : c.val.toNat ≠ 0x22 := fun h => hquote (Char.ext (UInt32.toNat_inj.mp h))
  have hb : c.val.toNat ≠ 0x5c := fun h => hbackslash (Char.ext (UInt32.toNat_inj.mp h))
  have hc : 0x20 ≤ c.val.toNat := Nat.le_of_not_lt hcontrol
  intro b hmem
  rw [isOrdinary_iff]
  rw [String.utf8EncodeChar] at hmem
  split_ifs at hmem <;> simp only [List.mem_cons, List.not_mem_nil, or_false] at hmem
  · subst hmem
    simp only [UInt8.toNat_ofNat']
    omega
  · rcases hmem with rfl | rfl <;> simp only [UInt8.toNat_ofNat'] <;> omega
  · rcases hmem with rfl | rfl | rfl <;> simp only [UInt8.toNat_ofNat'] <;> omega
  · rcases hmem with rfl | rfl | rfl | rfl <;> simp only [UInt8.toNat_ofNat'] <;> omega

theorem readStringBytes_append {bytes : List UInt8} (h : ∀ b ∈ bytes, isOrdinary b = true)
    (tail : List UInt8) :
    readStringBytes (bytes ++ tail) = prepend bytes (readStringBytes tail) := by
  induction bytes with
  | nil => rw [List.nil_append, prepend_nil]
  | cons b rest ih =>
    rw [List.forall_mem_cons] at h
    obtain ⟨hb, hrest⟩ := h
    rw [isOrdinary, Bool.and_eq_true, Bool.and_eq_true, bne_iff_ne, bne_iff_ne, Bool.not_eq_true',
      decide_eq_false_iff_not] at hb
    obtain ⟨⟨hquote, hbackslash⟩, hcontrol⟩ := hb
    rw [List.cons_append, readStringBytes]
    simp only [beq_iff_eq, hquote, hbackslash, hcontrol, if_false]
    rw [ih hrest]
    exact prepend_prepend [b] rest _

/-! ## Escapes -/

theorem readStringBytes_backslash {bytes after out : List UInt8}
    (h : readEscape bytes = .ok (out, after)) :
    readStringBytes ('\\'.toUInt8 :: bytes) = prepend out (readStringBytes after) := by
  have hquote : ('\\'.toUInt8 == '"'.toUInt8) = false := rfl
  rw [readStringBytes, hquote, if_neg Bool.false_ne_true, beq_self_eq_true, if_pos rfl]
  split
  next out' after' h' =>
    rw [h] at h'
    cases h'
    rfl
  next e h' =>
    rw [h] at h'
    cases h'

theorem hexValue?_digitChar : ∀ n < 16, hexValue? (Nat.digitChar n).toUInt8 = some n := by
  decide

theorem toNat_digitChar_lt : ∀ n < 16, (Nat.digitChar n).toNat < 0x80 := by
  decide

/-- A control character is put together again from its number. -/
theorem readEscape_number {c : Char} (h : c.toNat < 0x20) (tail : List UInt8) :
    readEscape ('u'.toUInt8 :: '0'.toUInt8 :: '0'.toUInt8 ::
        (Nat.digitChar (c.toNat / 16)).toUInt8 :: (Nat.digitChar (c.toNat % 16)).toUInt8 :: tail) =
      .ok (String.utf8EncodeChar c, tail) := by
  have hhigh := hexValue?_digitChar (c.toNat / 16) (by omega)
  have hlow := hexValue?_digitChar (c.toNat % 16) (by omega)
  have hzero : hexValue? '0'.toUInt8 = some 0 := rfl
  have hnumber : ((0 * 16 + 0) * 16 + c.toNat / 16) * 16 + c.toNat % 16 = c.toNat := by omega
  have hread : readHex4 ('0'.toUInt8 :: '0'.toUInt8 :: (Nat.digitChar (c.toNat / 16)).toUInt8 ::
      (Nat.digitChar (c.toNat % 16)).toUInt8 :: tail) = .ok (c.toNat, tail) := by
    simp only [readHex4, hzero, hhigh, hlow, hnumber]
  have hlone : ¬ (0xdc00 ≤ c.toNat ∧ c.toNat ≤ 0xdfff) := by omega
  have hpair : ¬ (0xd800 ≤ c.toNat ∧ c.toNat ≤ 0xdbff) := by omega
  rw [readEscape, beq_self_eq_true, if_pos rfl, readCodePoint, hread]
  simp only [bind, Except.bind, hlone, hpair, if_false, encodeCodePoint, Char.ofNat_toNat]

/-- One character, escaped or not, before any further bytes. -/
theorem readStringBytes_escape (c : Char) (tail : List UInt8) :
    readStringBytes ((escape c).flatMap String.utf8EncodeChar ++ tail) =
      prepend (String.utf8EncodeChar c) (readStringBytes tail) := by
  unfold escape
  split_ifs with hquote hbackslash hb hf hn hr ht hcontrol
  · subst hquote
    exact readStringBytes_backslash rfl
  · subst hbackslash
    exact readStringBytes_backslash rfl
  · subst hb
    exact readStringBytes_backslash rfl
  · subst hf
    exact readStringBytes_backslash rfl
  · subst hn
    exact readStringBytes_backslash rfl
  · subst hr
    exact readStringBytes_backslash rfl
  · subst ht
    exact readStringBytes_backslash rfl
  · have hhigh := toNat_digitChar_lt (c.toNat / 16) (by omega)
    have hlow := toNat_digitChar_lt (c.toNat % 16) (by omega)
    rw [flatMap_utf8EncodeChar_of_lt (by simp [hhigh, hlow])]
    exact readStringBytes_backslash (readEscape_number hcontrol tail)
  · rw [List.flatMap_singleton]
    exact readStringBytes_append (isOrdinary_of_mem_utf8EncodeChar hquote hbackslash hcontrol) tail

/-! ## Strings -/

theorem readStringBytes_escaped (cs : List Char) (tail : List UInt8) :
    readStringBytes ((cs.flatMap escape).flatMap String.utf8EncodeChar ++ tail) =
      prepend (cs.flatMap String.utf8EncodeChar) (readStringBytes tail) := by
  induction cs with
  | nil => exact (prepend_nil _).symm
  | cons c cs ih =>
    rw [List.flatMap_cons, List.flatMap_append, List.append_assoc, readStringBytes_escape, ih,
      prepend_prepend, List.flatMap_cons]

theorem bytesOf_quoted (s : String) : bytesOf (quoted s) =
    '"'.toUInt8 :: (s.toList.flatMap escape).flatMap String.utf8EncodeChar ++ ['"'.toUInt8] := by
  have hquote : bytesOf "\"" = ['"'.toUInt8] := rfl
  rw [quoted, bytesOf_append, bytesOf_append, hquote, bytesOf_ofList, List.singleton_append]

/-- What is written between quotes reads back as the string. -/
theorem readString_quoted (s : String) (rest : List UInt8) :
    readString ((s.toList.flatMap escape).flatMap String.utf8EncodeChar ++ '"'.toUInt8 :: rest) =
      .ok (s, rest) := by
  have hend : readStringBytes ('"'.toUInt8 :: rest) = .ok ([], rest) := by
    rw [readStringBytes, beq_self_eq_true, if_pos rfl]
  have hbytes : readStringBytes
      ((s.toList.flatMap escape).flatMap String.utf8EncodeChar ++ '"'.toUInt8 :: rest) =
        .ok (bytesOf s, rest) := by
    rw [readStringBytes_escaped, hend, prepend, Except.map, List.append_nil, ← bytesOf_eq_flatMap]
  simp only [readString, hbytes, bind, Except.bind, fromUTF8?_bytesOf]

end Conformance.Json
