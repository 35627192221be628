import Conformance.Fixture.Reader
import Conformance.Proofs.Locality
import Conformance.Value.Text

/-!
# Where a document ends

A tree is read off the front of some bytes, and nothing asks what comes behind it. Arrays and
objects end with their bracket, so that the readers of their parts stop at the same place whatever
stands behind the whole. So an accepted text has a document at its front, and it stays accepted,
with the same value, when other text is put behind it, as long as this does not go on with a number.

Results:
* `Json.exists_front_readElements`, `Json.exists_front_readFields`: arrays and objects, by induction
  on their parts.
* `Json.local_readValue`: trees, by induction on how deep brackets may nest.
* `Json.isWhole_iff`: accepted bytes are a whole document when what is left of them is blank.
* `Value.ofBytes_ignores_rest`: bytes and texts, and what may be put behind them.
* `Value.ofText_accepts_trailing`: an accepted text that is no document.
-/

namespace Conformance

namespace Json

variable {α : Type}

/-! ## Arrays -/

/-- What stands before the first byte that is no blank is skipped whatever stands behind it. -/
theorem exists_blanks_of_skipBlanks {bytes after : List UInt8} {b : UInt8}
    (h : skipBlanks bytes = b :: after) :
    ∃ blanks, bytes = blanks ++ b :: after ∧ ∀ t, skipBlanks (blanks ++ b :: t) = b :: t := by
  induction bytes with
  | nil => cases h
  | cons c rest ih =>
    by_cases hc : isBlank c = true
    · rw [skipBlanks, List.dropWhile_cons_of_pos hc] at h
      obtain ⟨blanks, rfl, hskip⟩ := ih h
      refine ⟨c :: blanks, rfl, fun t => ?_⟩
      rw [List.cons_append, skipBlanks, List.dropWhile_cons_of_pos hc]
      exact hskip t
    · rw [skipBlanks, List.dropWhile_cons_of_neg hc] at h
      cases h
      exact ⟨[], rfl, fun t => List.dropWhile_cons_of_neg hc⟩

/-- The reader looks for the next byte that is no blank or comma, decides by it and leaves it. -/
def PeeksAt (reader : Reader α) : Prop :=
  ∀ ⦃bytes a middle⦄, reader bytes = .ok (a, middle) → ∃ front b after, middle = b :: after ∧
    bytes = front ++ middle ∧ ∀ t, reader (front ++ b :: t) = .ok (a, b :: t)

theorem peeksAt_nextElement (first : Bool) : PeeksAt (nextElement first) := by
  intro bytes more middle h
  unfold nextElement at h
  dsimp only at h
  cases hblanks : skipBlanks bytes with
  | nil =>
    rw [hblanks] at h
    cases h
  | cons b after =>
    rw [hblanks] at h
    obtain ⟨blanks, rfl, hskip⟩ := exists_blanks_of_skipBlanks hblanks
    dsimp only at h
    split_ifs at h with hclosing hfirst hcomma
    · cases h
      exact ⟨blanks, b, after, rfl, rfl, fun t => by simp [nextElement, hskip, hclosing]⟩
    · cases h
      exact ⟨blanks, b, after, rfl, rfl, fun t => by simp [nextElement, hskip, hclosing, hfirst]⟩
    · cases hmore : skipBlanks after with
      | nil =>
        rw [hmore] at h
        cases h
      | cons c others =>
        rw [hmore] at h
        obtain ⟨others', rfl, hskip'⟩ := exists_blanks_of_skipBlanks hmore
        dsimp only at h
        split_ifs at h with hend
        cases h
        refine ⟨blanks ++ b :: others', c, others, rfl, by simp, fun t => ?_⟩
        simp [nextElement, hskip, hskip', hclosing, hfirst, hcomma, hend]

/-- The reader takes a front that is not empty, and takes the same off that front with other bytes
behind it, and with any fuel that is no less than the front. -/
def Local (settled : α → Prop) (reader : Nat → Reader α) : Prop :=
  ∀ ⦃fuel bytes a rest⦄, reader fuel bytes = .ok (a, rest) → ∃ front, front ≠ [] ∧
    bytes = front ++ rest ∧ ∀ t, settled a ∨ MayReplace rest t → ∀ fuel', front.length ≤ fuel' →
      reader fuel' (front ++ t) = .ok (a, t)

theorem Local.within {settled : α → Prop} {reader : Nat → Reader α} (h : Local settled reader)
    (segment : Segment) : Local settled fun fuel => Reader.within segment (reader fuel) := by
  intro fuel bytes a rest hread
  obtain ⟨front, hne, hbytes, htakes⟩ := h (mapError_eq_ok_iff.mp hread)
  refine ⟨front, hne, hbytes, fun t ht fuel' hfuel => ?_⟩
  exact mapError_eq_ok_iff.mpr (htakes t ht fuel' hfuel)

/-- By induction on the elements: each ends before the comma or bracket of what is left. -/
theorem exists_front_readElements {settled : α → Prop} {element : Nat → Reader α}
    (h : Local settled element) {count fuel index : Nat} {bytes rest : List UInt8} {xs : List α}
    (hread : readElements (element fuel) count index bytes = .ok (xs, rest)) :
    ∃ front, front ≠ [] ∧ bytes = front ++ rest ∧ ∀ t fuel' count', front.length ≤ fuel' →
      front.length ≤ count' →
        readElements (element fuel') count' index (front ++ t) = .ok (xs, t) := by
  induction count generalizing index bytes xs with
  | zero => cases hread
  | succ count ih =>
    rw [readElements] at hread
    obtain ⟨⟨more, _⟩, hnext, hparts⟩ := bind_eq_ok_iff.mp hread
    obtain ⟨before, c, after, rfl, rfl, hpeeks⟩ := peeksAt_nextElement _ hnext
    cases more with
    | false =>
      cases hparts
      refine ⟨before ++ [c], by simp, by simp, fun t fuel' count' hfuel hcount => ?_⟩
      cases count' with
      | zero => simp at hcount
      | succ count' =>
        rw [readElements, List.append_assoc, List.singleton_append, hpeeks]
        rfl
    | true =>
      obtain ⟨⟨x, middle⟩, helement, hothers⟩ := bind_eq_ok_iff.mp hparts
      obtain ⟨⟨ys, _⟩, hys, hxs⟩ := bind_eq_ok_iff.mp hothers
      cases hxs
      obtain ⟨front, hne, hbytes, htakes⟩ := (h.within _) helement
      obtain ⟨back, hne', rfl, htakes'⟩ := ih hys
      obtain ⟨first, rfl⟩ : ∃ first, front = c :: first := by
        cases front with
        | nil => exact absurd rfl hne
        | cons d first => exact ⟨first, by rw [(List.cons.inj hbytes).1]⟩
      refine ⟨before ++ (c :: first ++ back), by simp, ?_, fun t fuel' count' hfuel hcount => ?_⟩
      · rw [hbytes, List.append_assoc, List.append_assoc]
      · simp only [List.length_append, List.length_cons] at hfuel hcount htakes
        cases count' with
        | zero => omega
        | succ count' =>
          have hreplace : MayReplace (back ++ rest) (back ++ t) := mayReplace_append hne' rest t
          have helement' := htakes (back ++ t) (.inr hreplace) fuel' (by omega)
          rw [readElements, List.append_assoc, List.append_assoc, List.cons_append, hpeeks]
          refine bind_eq_ok_iff.mpr ⟨_, rfl, bind_eq_ok_iff.mpr ⟨_, helement', ?_⟩⟩
          exact bind_eq_ok_iff.mpr ⟨_, htakes' t fuel' count' (by omega) (by omega), rfl⟩

/-! ## Objects -/

theorem settled_readColon : Settled readColon := by
  intro bytes a rest h
  unfold readColon at h
  dsimp only at h
  cases hblanks : skipBlanks bytes with
  | nil =>
    rw [hblanks] at h
    cases h
  | cons b after =>
    rw [hblanks] at h
    obtain ⟨blanks, rfl, hskip⟩ := exists_blanks_of_skipBlanks hblanks
    dsimp only at h
    split_ifs at h with hcolon
    cases h
    exact ⟨blanks ++ [b], by simp, fun t => by simp [readColon, hskip, hcolon]⟩

/-- A key ends by itself; where there is none the closing brace is left. -/
theorem nextKey_cases {first : Bool} {bytes middle : List UInt8} {key? : Option String}
    (h : nextKey first bytes = .ok (key?, middle)) :
    (key? = none ∧ ∃ front b after, middle = b :: after ∧ bytes = front ++ middle ∧
        ∀ t, nextKey first (front ++ b :: t) = .ok (none, b :: t)) ∨
      ∃ key front, key? = some key ∧ front ≠ [] ∧ bytes = front ++ middle ∧
        ∀ t, nextKey first (front ++ t) = .ok (some key, t) := by
  unfold nextKey at h
  dsimp only at h
  cases hblanks : skipBlanks bytes with
  | nil =>
    rw [hblanks] at h
    cases h
  | cons b after =>
    rw [hblanks] at h
    obtain ⟨blanks, rfl, hskip⟩ := exists_blanks_of_skipBlanks hblanks
    dsimp only at h
    split_ifs at h with hclosing hfirst hquote hcomma
    · cases h
      exact .inl ⟨rfl, blanks, b, after, rfl, rfl, fun t => by simp [nextKey, hskip, hclosing]⟩
    · obtain ⟨⟨key, _⟩, hkey, ⟨⟩⟩ := map_eq_ok_iff.mp h
      obtain ⟨front, rfl, htakes⟩ := settled_readString hkey
      refine .inr ⟨key, blanks ++ b :: front, rfl, by simp, by simp, fun t => ?_⟩
      simp [nextKey, hskip, hclosing, hfirst, hquote, htakes, Except.map]
    · cases hmore : skipBlanks after with
      | nil =>
        rw [hmore] at h
        cases h
      | cons c others =>
        rw [hmore] at h
        obtain ⟨others', rfl, hskip'⟩ := exists_blanks_of_skipBlanks hmore
        dsimp only at h
        split_ifs at h with hquote
        obtain ⟨⟨key, _⟩, hkey, ⟨⟩⟩ := map_eq_ok_iff.mp h
        obtain ⟨front, rfl, htakes⟩ := settled_readString hkey
        refine .inr ⟨key, blanks ++ b :: (others' ++ c :: front), rfl, by simp, by simp,
          fun t => ?_⟩
        simp [nextKey, hskip, hskip', hclosing, hfirst, hcomma, hquote, htakes, Except.map]

/-- By induction on the fields: each value ends before the comma or brace of what is left. -/
theorem exists_front_readFields {settled : α → Prop} {value : Nat → Reader α}
    (h : Local settled value) {count fuel : Nat} {first : Bool} {bytes rest : List UInt8}
    {fields : List (String × α)}
    (hread : readFields (value fuel) count first bytes = .ok (fields, rest)) :
    ∃ front, front ≠ [] ∧ bytes = front ++ rest ∧ ∀ t fuel' count', front.length ≤ fuel' →
      front.length ≤ count' →
        readFields (value fuel') count' first (front ++ t) = .ok (fields, t) := by
  induction count generalizing first bytes fields with
  | zero => cases hread
  | succ count ih =>
    rw [readFields] at hread
    obtain ⟨⟨key?, middle⟩, hkey, hparts⟩ := bind_eq_ok_iff.mp hread
    rcases nextKey_cases (mapError_eq_ok_iff.mp hkey) with
      ⟨rfl, before, b, after, rfl, rfl, hpeeks⟩ | ⟨key, before, rfl, hne, rfl, hkeyed⟩
    · cases hparts
      refine ⟨before ++ [b], by simp, by simp, fun t fuel' count' hfuel hcount => ?_⟩
      cases count' with
      | zero => simp at hcount
      | succ count' =>
        rw [readFields, List.append_assoc, List.singleton_append]
        exact bind_eq_ok_iff.mpr ⟨_, mapError_eq_ok_iff.mpr (hpeeks t), rfl⟩
    · obtain ⟨⟨⟨⟩, _⟩, hcolon, hvalued⟩ := bind_eq_ok_iff.mp hparts
      obtain ⟨⟨x, _⟩, hvalue, hothers⟩ := bind_eq_ok_iff.mp hvalued
      obtain ⟨⟨xs, _⟩, hxs, hfields⟩ := bind_eq_ok_iff.mp hothers
      cases hfields
      obtain ⟨colon, rfl, htakes₁⟩ := settled_readColon hcolon
      obtain ⟨front, -, rfl, htakes₂⟩ := (h.within _) hvalue
      obtain ⟨back, hne', rfl, htakes₃⟩ := ih hxs
      refine ⟨before ++ (colon ++ (front ++ back)), by simp [hne], by simp,
        fun t fuel' count' hfuel hcount => ?_⟩
      have hbefore : 0 < before.length := List.length_pos_iff.mpr hne
      simp only [List.length_append] at hfuel hcount
      cases count' with
      | zero => omega
      | succ count' =>
        have hreplace : MayReplace (back ++ rest) (back ++ t) := mayReplace_append hne' rest t
        have hvalue' := htakes₂ (back ++ t) (.inr hreplace) fuel' (by omega)
        simp only [readFields, List.append_assoc]
        refine bind_eq_ok_iff.mpr ⟨_, mapError_eq_ok_iff.mpr (hkeyed _), ?_⟩
        refine bind_eq_ok_iff.mpr ⟨_, htakes₁ _, bind_eq_ok_iff.mpr ⟨_, hvalue', ?_⟩⟩
        exact bind_eq_ok_iff.mpr ⟨_, htakes₃ t fuel' count' (by omega) (by omega), rfl⟩

/-! ## Trees -/

/-- By induction on how deep brackets may nest. -/
theorem local_readValue (depth : Nat) :
    Local (fun j => j.isNumber = false) fun fuel => readValue fuel depth := by
  induction depth with
  | zero =>
    intro fuel bytes j rest h
    dsimp only at h
    rw [readValue] at h
    split at h
    next => cases h
    next hbracket =>
      obtain ⟨b, front, hbytes, htakes⟩ := exists_front_readScalar h
      obtain ⟨blanks, rfl, hskip⟩ := exists_blanks_of_skipBlanks hbytes
      refine ⟨blanks ++ b :: front, by simp, by simp, fun t ht fuel' _ => ?_⟩
      rw [hskip, List.head?_cons] at hbracket
      dsimp only
      rw [List.append_assoc, readValue, List.cons_append, hskip, List.head?_cons, if_neg hbracket]
      exact htakes t ht
  | succ depth ih =>
    intro fuel bytes j rest h
    dsimp only at h
    rw [readValue] at h
    cases hblanks : skipBlanks bytes with
    | nil =>
      rw [hblanks] at h
      cases h
    | cons b after =>
      obtain ⟨blanks, rfl, hskip⟩ := exists_blanks_of_skipBlanks hblanks
      rw [hblanks] at h
      dsimp only at h
      split_ifs at h with hsquare hcurly
      · obtain ⟨⟨items, _⟩, hitems, ⟨⟩⟩ := map_eq_ok_iff.mp h
        obtain ⟨front, -, rfl, htakes⟩ := exists_front_readElements ih hitems
        refine ⟨blanks ++ b :: front, by simp, by simp, fun t _ fuel' hfuel => ?_⟩
        simp only [List.length_append, List.length_cons] at hfuel
        dsimp only
        rw [List.append_assoc, readValue, List.cons_append, hskip]
        dsimp only
        rw [if_pos hsquare, htakes t fuel' fuel' (by omega) (by omega)]
        rfl
      · obtain ⟨⟨fields, _⟩, hfields, ⟨⟩⟩ := map_eq_ok_iff.mp h
        obtain ⟨front, -, rfl, htakes⟩ := exists_front_readFields ih hfields
        refine ⟨blanks ++ b :: front, by simp, by simp, fun t _ fuel' hfuel => ?_⟩
        simp only [List.length_append, List.length_cons] at hfuel
        dsimp only
        rw [List.append_assoc, readValue, List.cons_append, hskip]
        dsimp only
        rw [if_neg hsquare, if_pos hcurly, htakes t fuel' fuel' (by omega) (by omega)]
        rfl
      · obtain ⟨c, front, hbytes, htakes⟩ := exists_front_readScalar h
        obtain ⟨rfl, rfl⟩ := List.cons.inj hbytes
        refine ⟨blanks ++ b :: front, by simp, by simp, fun t ht fuel' _ => ?_⟩
        dsimp only
        rw [List.append_assoc, readValue, List.cons_append, hskip]
        dsimp only
        rw [if_neg hsquare, if_neg hcurly]
        exact htakes t ht

/-! ## Documents -/

/-- A tree, with blanks before it or without, and nothing behind it. -/
def IsDocument (doc : List UInt8) (j : Json) : Prop :=
  readValue doc.length maxNesting doc = .ok (j, [])

theorem read_eq_ok_iff {bytes : List UInt8} {j : Json} :
    read bytes = .ok j ↔ ∃ rest, readValue bytes.length maxNesting bytes = .ok (j, rest) := by
  unfold read runReader
  cases readValue bytes.length maxNesting bytes with
  | error e => simp
  | ok r => cases r; simp

/-- The bytes are a document, with blanks behind it or without. -/
def IsWhole (bytes : List UInt8) : Prop :=
  ∃ doc blanks j, bytes = doc ++ blanks ∧ (∀ b ∈ blanks, isBlank b = true) ∧ IsDocument doc j

theorem endsNumber_of_isBlank {blanks : List UInt8} (h : ∀ b ∈ blanks, isBlank b = true) :
    EndsNumber blanks := by
  intro b hb
  have hblank := h b (List.mem_of_mem_head? hb)
  simp only [isBlank, Bool.or_eq_true, beq_iff_eq] at hblank
  rcases hblank with ((rfl | rfl) | rfl) | rfl <;> decide

/-- The front that is taken is a document by itself. -/
theorem exists_document_of_readValue {fuel : Nat} {bytes rest : List UInt8} {j : Json}
    (h : readValue fuel maxNesting bytes = .ok (j, rest)) :
    ∃ doc, bytes = doc ++ rest ∧ IsDocument doc j := by
  obtain ⟨doc, -, hbytes, htakes⟩ := local_readValue maxNesting h
  refine ⟨doc, hbytes, ?_⟩
  have halone := htakes [] (.inr (.inr nofun)) doc.length (Nat.le_refl _)
  rwa [List.append_nil] at halone

/-- Behind a document the reader stops. -/
theorem IsDocument.readValue_append {doc t : List UInt8} {j : Json} (h : IsDocument doc j)
    (ht : j.isNumber = false ∨ EndsNumber t) {fuel : Nat} (hfuel : doc.length ≤ fuel) :
    readValue fuel maxNesting (doc ++ t) = .ok (j, t) := by
  obtain ⟨front, -, hdoc, htakes⟩ := local_readValue maxNesting h
  rw [List.append_nil] at hdoc
  subst hdoc
  exact htakes t (ht.imp_right .inr) fuel hfuel

/-- Accepted bytes are a whole document when what is left is blank. -/
theorem isWhole_iff {bytes rest : List UInt8} {j : Json}
    (h : readValue bytes.length maxNesting bytes = .ok (j, rest)) :
    IsWhole bytes ↔ ∀ b ∈ rest, isBlank b = true := by
  constructor
  · rintro ⟨doc, blanks, k, rfl, hblanks, hdoc⟩
    have hlength : doc.length ≤ (doc ++ blanks).length := by
      rw [List.length_append]
      omega
    have hread := hdoc.readValue_append (.inr (endsNumber_of_isBlank hblanks)) hlength
    cases h.symm.trans hread
    exact hblanks
  · intro hrest
    obtain ⟨doc, hbytes, hdoc⟩ := exists_document_of_readValue h
    exact ⟨doc, rest, j, hbytes, hrest, hdoc⟩

/-- What is put behind accepted bytes does not matter. -/
theorem read_append {bytes more : List UInt8} {j : Json} (h : read bytes = .ok j)
    (hmore : j.isNumber = false ∨ EndsNumber more) : read (bytes ++ more) = .ok j := by
  obtain ⟨rest, hread⟩ := read_eq_ok_iff.mp h
  obtain ⟨doc, -, rfl, htakes⟩ := local_readValue maxNesting hread
  have hreplace : j.isNumber = false ∨ MayReplace rest (rest ++ more) := by
    refine hmore.imp_right fun hends => ?_
    cases rest with
    | nil => exact .inr hends
    | cons b rest => exact .inl rfl
  have hlength : doc.length ≤ (doc ++ rest ++ more).length := by
    simp only [List.length_append]
    omega
  have hlonger := htakes (rest ++ more) hreplace _ hlength
  rw [← List.append_assoc] at hlonger
  exact read_eq_ok_iff.mpr ⟨_, hlonger⟩

end Json

namespace Value

open Json

theorem ofBytes_append {bytes more : List UInt8} {v : Value} (h : ofBytes bytes = .ok v)
    (hmore : ∀ x, v = .number x → EndsNumber more) : ofBytes (bytes ++ more) = .ok v := by
  obtain ⟨j, hread, rfl⟩ := map_eq_ok_iff.mp h
  refine map_eq_ok_iff.mpr ⟨j, read_append hread ?_, rfl⟩
  cases j with
  | number n => exact .inr (hmore _ rfl)
  | _ => exact .inl rfl

/-- **Reading asks only for a front.** Accepted bytes begin with a document that decides the value,
and they are a whole document only where what is left behind it is blank: they stay accepted, with
the same value, when anything is put behind them. Only a number must not be gone on with. Texts are
read as their bytes. -/
theorem ofBytes_ignores_rest (bytes : List UInt8) (v : Value) (h : ofBytes bytes = .ok v) :
    (∃ doc rest j, bytes = doc ++ rest ∧ IsDocument doc j ∧ ofJson j = v ∧
        (IsWhole bytes ↔ ∀ b ∈ rest, isBlank b = true)) ∧
      (∀ more, (∀ x, v = .number x → EndsNumber more) → ofBytes (bytes ++ more) = .ok v) ∧
      ∀ s more, bytes = bytesOf s → (∀ x, v = .number x → EndsNumber (bytesOf more)) →
        ofText (s ++ more) = .ok v := by
  refine ⟨?_, fun more hmore => ofBytes_append h hmore, ?_⟩
  · obtain ⟨j, hread, rfl⟩ := map_eq_ok_iff.mp h
    obtain ⟨rest, hrest⟩ := read_eq_ok_iff.mp hread
    obtain ⟨doc, hbytes, hdoc⟩ := exists_document_of_readValue hrest
    exact ⟨doc, rest, j, hbytes, hdoc, rfl, isWhole_iff hrest⟩
  · rintro s more rfl hmore
    show ofBytes (bytesOf (s ++ more)) = .ok v
    rw [bytesOf_append]
    exact ofBytes_append h hmore

/-- A word with a bracket behind it that nothing opened. -/
theorem ofBytes_ignores_rest_bracket :
    ofBytes (bytesOf "null") = .ok .null ∧ EndsNumber (bytesOf "]") ∧
      ofText ("null" ++ "]") = .ok .null := by
  have hnull : ofBytes (bytesOf "null") = .ok .null := rfl
  have hends : EndsNumber (bytesOf "]") := by
    rintro b ⟨⟩
    decide
  exact ⟨hnull, hends, (ofBytes_ignores_rest _ _ hnull).2.2 _ "]" rfl fun _ _ => hends⟩

/-- An accepted text, as a value and as a file of fixtures, that is no whole document. -/
theorem ofText_accepts_trailing :
    ofText "[] x" = .ok (.array []) ∧ Fixture.ofBytes (bytesOf "[] x") = .ok [] ∧
      ¬IsWhole (bytesOf "[] x") := by
  have hread : readValue (bytesOf "[] x").length maxNesting (bytesOf "[] x") =
      .ok (.array [], bytesOf " x") := rfl
  refine ⟨rfl, rfl, fun hwhole => ?_⟩
  have hblank : isBlank 'x'.toUInt8 = true :=
    (isWhole_iff hread).mp hwhole _ (List.mem_cons_of_mem _ List.mem_cons_self)
  cases hblank

end Value

end Conformance
