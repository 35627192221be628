import Conformance.Proofs.Numerals

/-!
# JSON trees in compact text

The compact text of a tree reads back as the tree: each part of an array or object is read up to
the comma or bracket after it, and the reader is left there. The tree has to be one that text can
hold: its numbers are integers of 64 bits, the keys of its objects are distinct, and its brackets
nest no deeper than the reader follows.

Results:
* `Record.ofList_eq_self`: distinct keys that are entered one after the other.
* `Json.readElements_further`, `Json.readFields_further`: the parts after the first one, by
  induction on the parts.
* `Json.readValue_compact`: a tree before any further bytes, by induction on the tree.
* `Json.readValue_too_deep`: brackets that nest one deeper are refused.
* `Json.ofText_compact`: a whole text.
-/

namespace Conformance

/-! ## Records that are entered key by key -/

namespace Record

variable {α : Type}

theorem insert_of_notMem_keys {r : Record α} {key : String} (h : key ∉ r.keys) (a : α) :
    r.insert key a = r ++ [(key, a)] := by
  induction r with
  | nil => rfl
  | cons e rest ih =>
    obtain ⟨k, b⟩ := e
    rw [keys, List.map_cons, List.mem_cons, not_or] at h
    rw [insert, if_neg (Ne.symm h.1), ih h.2, List.cons_append]

theorem foldl_insert_eq_append (entries : Record α) :
    ∀ {r : Record α}, (r ++ entries).Distinct →
      entries.foldl (fun r e => r.insert e.1 e.2) r = r ++ entries := by
  induction entries with
  | nil => exact fun _ => (List.append_nil _).symm
  | cons e rest ih =>
    intro r h
    obtain ⟨key, a⟩ := e
    have hassoc : r ++ (key, a) :: rest = (r ++ [(key, a)]) ++ rest := by
      rw [List.append_assoc, List.singleton_append]
    have hkey : key ∉ r.keys := by
      rw [Distinct, keys, List.map_append, List.map_cons] at h
      intro hmem
      exact (List.nodup_append.mp h).2.2 key hmem key List.mem_cons_self rfl
    rw [List.foldl_cons, insert_of_notMem_keys hkey]
    rw [hassoc] at h ⊢
    exact ih h

/-- Distinct keys that are entered one after the other stay as they are. -/
theorem ofList_eq_self {r : Record α} (h : r.Distinct) : ofList r = r :=
  foldl_insert_eq_append r h

end Record

namespace Json

/-! ## Parts between brackets -/

/-- Parts after the first one, each with a comma before it. -/
def furtherParts (parts : List String) : List UInt8 :=
  parts.flatMap fun part => ','.toUInt8 :: bytesOf part

theorem furtherParts_cons (part : String) (parts : List String) :
    furtherParts (part :: parts) = ','.toUInt8 :: bytesOf part ++ furtherParts parts := by
  rw [furtherParts, List.flatMap_cons]
  rfl

theorem bytesOf_intercalate (first : String) (others : List String) :
    bytesOf (",".intercalate (first :: others)) = bytesOf first ++ furtherParts others := by
  induction others generalizing first with
  | nil =>
    rw [String.intercalate_singleton]
    exact (List.append_nil _).symm
  | cons second others ih =>
    have hcomma : bytesOf "," = [','.toUInt8] := rfl
    rw [String.intercalate_cons_cons, bytesOf_append, bytesOf_append, ih, hcomma,
      furtherParts_cons, List.append_assoc, List.singleton_append, List.cons_append]

/-- The bytes of an array or object with at least one part. -/
theorem bytesOf_enclosed (opening closing first : String) (others : List String) :
    bytesOf (enclosed opening "," closing (first :: others)) =
      bytesOf opening ++ (bytesOf first ++ (furtherParts others ++ bytesOf closing)) := by
  rw [enclosed, bytesOf_append, bytesOf_append, bytesOf_intercalate]
  simp only [List.append_assoc]

theorem length_le_furtherParts (parts : List String) :
    parts.length ≤ (furtherParts parts).length := by
  induction parts with
  | nil => exact Nat.zero_le _
  | cons part parts ih =>
    rw [furtherParts_cons, List.length_append, List.length_cons, List.length_cons]
    omega

theorem length_bytesOf_le_furtherParts {part : String} {parts : List String} (h : part ∈ parts) :
    (bytesOf part).length ≤ (furtherParts parts).length := by
  induction parts with
  | nil => cases h
  | cons first parts ih =>
    rw [furtherParts_cons, List.length_append, List.length_cons]
    rcases List.mem_cons.mp h with rfl | hmem
    · omega
    · have := ih hmem
      omega

/-- There are fewer parts than bytes, and no part is longer than the whole. -/
theorem length_enclosed (opening closing : String) (hopening : (bytesOf opening).length = 1)
    (hclosing : (bytesOf closing).length = 1) (parts : List String) :
    parts.length < (bytesOf (enclosed opening "," closing parts)).length ∧
      ∀ part ∈ parts,
        (bytesOf part).length ≤ (bytesOf (enclosed opening "," closing parts)).length := by
  cases parts with
  | nil =>
    refine ⟨?_, nofun⟩
    rw [enclosed, bytesOf_append, bytesOf_append, List.length_append, List.length_append]
    simp only [List.length_nil]
    omega
  | cons first others =>
    have hothers := length_le_furtherParts others
    rw [bytesOf_enclosed]
    simp only [List.length_append, List.length_cons, hopening, hclosing]
    refine ⟨by omega, fun part hpart => ?_⟩
    rcases List.mem_cons.mp hpart with rfl | hmem
    · omega
    · have := length_bytesOf_le_furtherParts hmem
      omega

theorem compactItems_eq_map (items : List Json) : compactItems items = items.map compact := by
  induction items with
  | nil => rfl
  | cons item rest ih => rw [compactItems, ih, List.map_cons]

/-- The text of a field. -/
def compactField (f : String × Json) : String := quoted f.1 ++ ":" ++ f.2.compact

theorem compactFields_eq_map (fields : Record Json) :
    compactFields fields = fields.map compactField := by
  induction fields with
  | nil => rfl
  | cons f rest ih =>
    obtain ⟨key, value⟩ := f
    rw [compactFields, ih, List.map_cons]
    rfl

theorem bytesOf_compactField (key : String) (value : Json) :
    bytesOf (compactField (key, value)) =
      bytesOf (quoted key) ++ ':'.toUInt8 :: bytesOf value.compact := by
  have hcolon : bytesOf ":" = [':'.toUInt8] := rfl
  rw [compactField, bytesOf_append, bytesOf_append, hcolon, List.append_assoc,
    List.singleton_append]

/-! ## Trees that text can hold -/

/-- A tree of integers of 64 bits and with distinct keys whose brackets nest at most so deep. -/
inductive Readable : Nat → Json → Prop
  | null {depth : Nat} : Readable depth null
  | bool {depth : Nat} (b : Bool) : Readable depth (bool b)
  | number {depth : Nat} {i : Int} : -(2 : Int) ^ 63 ≤ i → i < (2 : Int) ^ 64 →
      Readable depth (number (.int i))
  | string {depth : Nat} (s : String) : Readable depth (string s)
  | array {depth : Nat} {items : List Json} :
      (∀ item ∈ items, Readable depth item) → Readable (depth + 1) (array items)
  | object {depth : Nat} {fields : Record Json} : fields.Distinct →
      (∀ f ∈ fields, Readable depth f.2) → Readable (depth + 1) (object fields)

/-- The text of a value begins here: neither a blank nor the end of an array. -/
def StartsValue (bytes : List UInt8) : Prop :=
  ∃ b rest, bytes = b :: rest ∧ isBlank b = false ∧ b ≠ ']'.toUInt8

theorem StartsValue.append {bytes : List UInt8} (h : StartsValue bytes) (rest : List UInt8) :
    StartsValue (bytes ++ rest) := by
  obtain ⟨b, tail, rfl, hb⟩ := h
  exact ⟨b, tail ++ rest, rfl, hb⟩

/-- The text of a value that has no brackets begins here. -/
def StartsScalar (bytes : List UInt8) : Prop :=
  ∃ b rest, bytes = b :: rest ∧ isBlank b = false ∧ b ≠ ']'.toUInt8 ∧ b ≠ '['.toUInt8 ∧
    b ≠ '\x7b'.toUInt8

theorem StartsScalar.startsValue {bytes : List UInt8} (h : StartsScalar bytes) :
    StartsValue bytes := by
  obtain ⟨b, rest, hbytes, hblank, hclose, -⟩ := h
  exact ⟨b, rest, hbytes, hblank, hclose⟩

theorem startsScalar_of_isDigit {b : UInt8} (h : isDigit b = true) (rest : List UInt8) :
    StartsScalar (b :: rest) := by
  have hblank : isBlank b = false := by
    rw [isBlank, ne_of_isDigit h rfl, ne_of_isDigit h rfl, ne_of_isDigit h rfl,
      ne_of_isDigit h rfl]
    rfl
  have hne {c : Char} (hc : isDigit c.toUInt8 = false) : b ≠ c.toUInt8 :=
    beq_eq_false_iff_ne.mp (ne_of_isDigit h hc)
  exact ⟨b, rest, rfl, hblank, hne rfl, hne rfl, hne rfl⟩

theorem startsScalar_int (i : Int) : StartsScalar (bytesOf (Number.int i).text) := by
  cases i with
  | ofNat n =>
    obtain ⟨b, rest, hbytes, hdigit⟩ := exists_cons_bytesOf_toString n
    show StartsScalar (bytesOf (toString n))
    rw [hbytes]
    exact startsScalar_of_isDigit hdigit rest
  | negSucc n =>
    exact ⟨'-'.toUInt8, _, bytesOf_append "-" (toString (n + 1)), rfl, by decide, by decide,
      by decide⟩

theorem startsScalar_quoted (s : String) : StartsScalar (bytesOf (quoted s)) :=
  ⟨'"'.toUInt8, _, bytesOf_quoted s, rfl, by decide, by decide, by decide⟩

theorem startsValue_compact {depth : Nat} {j : Json} (h : j.Readable depth) :
    StartsValue (bytesOf j.compact) := by
  cases h with
  | null => exact ⟨_, _, rfl, rfl, by decide⟩
  | bool b => cases b <;> exact ⟨_, _, rfl, rfl, by decide⟩
  | @number _ i _ _ => exact (startsScalar_int i).startsValue
  | string s => exact (startsScalar_quoted s).startsValue
  | @array _ items _ =>
    refine ⟨'['.toUInt8, bytesOf (",".intercalate (compactItems items) ++ "]"), ?_, rfl,
      by decide⟩
    rw [compact, enclosed, String.append_assoc, bytesOf_append]
    rfl
  | @object _ fields _ _ =>
    refine ⟨'\x7b'.toUInt8, bytesOf (",".intercalate (compactFields fields) ++ "\x7d"), ?_, rfl,
      by decide⟩
    rw [compact, enclosed, String.append_assoc, bytesOf_append]
    rfl

/-! ## Parts read back -/

/-- A reader takes the compact text of a tree off the front and stops behind it. -/
def ReadsBack (reader : Reader Json) (j : Json) : Prop :=
  ∀ rest, EndsNumber rest → reader (bytesOf j.compact ++ rest) = .ok (j, rest)

theorem endsNumber_cons {b : UInt8} (hdigit : isDigit b = false) (hpoint : b ≠ '.'.toUInt8)
    (he : b ≠ 'e'.toUInt8) (hE : b ≠ 'E'.toUInt8) (rest : List UInt8) : EndsNumber (b :: rest) := by
  rintro _ ⟨⟩
  exact ⟨hdigit, hpoint, he, hE⟩

/-- After a part comes a comma or the closing bracket. -/
theorem endsNumber_furtherParts {closing : UInt8}
    (h : closing = ']'.toUInt8 ∨ closing = '\x7d'.toUInt8) (parts : List String)
    (rest : List UInt8) : EndsNumber (furtherParts parts ++ closing :: rest) := by
  cases parts with
  | nil =>
    rcases h with rfl | rfl <;>
      exact endsNumber_cons rfl (by decide) (by decide) (by decide) rest
  | cons part parts =>
    rw [furtherParts_cons]
    exact endsNumber_cons rfl (by decide) (by decide) (by decide) _

theorem skipBlanks_of_not_blank {b : UInt8} (h : isBlank b = false) (rest : List UInt8) :
    skipBlanks (b :: rest) = b :: rest := by
  rw [skipBlanks, List.dropWhile_cons, h]
  rfl

theorem nextElement_first {bytes : List UInt8} (h : StartsValue bytes) :
    nextElement true bytes = .ok (true, bytes) := by
  obtain ⟨b, rest, rfl, hblank, hclose⟩ := h
  simp [nextElement, skipBlanks_of_not_blank hblank, hclose]

theorem nextElement_further {bytes : List UInt8} (h : StartsValue bytes) :
    nextElement false (','.toUInt8 :: bytes) = .ok (true, bytes) := by
  obtain ⟨b, rest, rfl, hblank, hclose⟩ := h
  have hcomma : skipBlanks (','.toUInt8 :: b :: rest) = ','.toUInt8 :: b :: rest :=
    skipBlanks_of_not_blank rfl _
  have hne : ','.toUInt8 ≠ ']'.toUInt8 := by decide
  simp [nextElement, hcomma, skipBlanks_of_not_blank hblank, hclose, hne]

/-- One element, up to what comes after it. -/
theorem readElements_step {reader : Reader Json} {item : Json} {fuel index : Nat}
    {bytes rest : List UInt8} (hitem : ReadsBack reader item) (hrest : EndsNumber rest)
    (hnext : nextElement (index == 0) bytes = .ok (true, bytesOf item.compact ++ rest)) :
    readElements reader (fuel + 1) index bytes =
      (readElements reader fuel (index + 1) rest).map fun r => (item :: r.1, r.2) := by
  have hread := hitem rest hrest
  simp only [readElements, hnext, Reader.within, hread, bind, Except.bind, Except.mapError,
    if_true]
  cases readElements reader fuel (index + 1) rest <;> rfl

theorem readElements_further {reader : Reader Json} {items : List Json}
    (hitems : ∀ item ∈ items, ReadsBack reader item ∧ StartsValue (bytesOf item.compact))
    (rest : List UInt8) : ∀ {fuel index : Nat}, items.length < fuel →
      readElements reader fuel (index + 1)
          (furtherParts (items.map compact) ++ ']'.toUInt8 :: rest) = .ok (items, rest) := by
  induction items with
  | nil =>
    intro fuel index hfuel
    obtain ⟨fuel, rfl⟩ := Nat.exists_eq_add_one_of_ne_zero (Nat.ne_zero_of_lt hfuel)
    rfl
  | cons item items ih =>
    intro fuel index hfuel
    obtain ⟨fuel, rfl⟩ := Nat.exists_eq_add_one_of_ne_zero (Nat.ne_zero_of_lt hfuel)
    rw [List.forall_mem_cons] at hitems
    obtain ⟨⟨hitem, hstarts⟩, hitems⟩ := hitems
    have hends := endsNumber_furtherParts (.inl rfl) (items.map compact) rest
    have hnext : nextElement (index + 1 == 0)
        (furtherParts ((item :: items).map compact) ++ ']'.toUInt8 :: rest) =
          .ok (true, bytesOf item.compact ++
            (furtherParts (items.map compact) ++ ']'.toUInt8 :: rest)) := by
      rw [List.map_cons, furtherParts_cons, List.append_assoc, List.cons_append]
      exact nextElement_further (hstarts.append _)
    rw [readElements_step hitem hends hnext, ih hitems (Nat.lt_of_succ_lt_succ hfuel)]
    rfl

/-- The elements of an array after its opening bracket. -/
theorem readElements_compact {reader : Reader Json} {items : List Json}
    (hitems : ∀ item ∈ items, ReadsBack reader item ∧ StartsValue (bytesOf item.compact))
    (rest : List UInt8) {fuel : Nat} (hfuel : items.length < fuel) :
    ∃ bytes, bytesOf (array items).compact ++ rest = '['.toUInt8 :: bytes ∧
      readElements reader fuel 0 bytes = .ok (items, rest) := by
  obtain ⟨fuel, rfl⟩ := Nat.exists_eq_add_one_of_ne_zero (Nat.ne_zero_of_lt hfuel)
  rw [compact, compactItems_eq_map]
  cases items with
  | nil => exact ⟨']'.toUInt8 :: rest, rfl, rfl⟩
  | cons item items =>
    rw [List.forall_mem_cons] at hitems
    obtain ⟨⟨hitem, hstarts⟩, hitems⟩ := hitems
    have hends := endsNumber_furtherParts (.inl rfl) (items.map compact) rest
    refine ⟨bytesOf item.compact ++ (furtherParts (items.map compact) ++ ']'.toUInt8 :: rest),
      ?_, ?_⟩
    · have hopening : bytesOf "[" = ['['.toUInt8] := rfl
      have hclosing : bytesOf "]" = [']'.toUInt8] := rfl
      rw [List.map_cons, bytesOf_enclosed, hopening, hclosing]
      simp only [List.append_assoc, List.cons_append, List.nil_append]
    · have hnext : nextElement ((0 : Nat) == 0)
          (bytesOf item.compact ++ (furtherParts (items.map compact) ++ ']'.toUInt8 :: rest)) =
            .ok (true, bytesOf item.compact ++
              (furtherParts (items.map compact) ++ ']'.toUInt8 :: rest)) :=
        nextElement_first (hstarts.append _)
      rw [readElements_step hitem hends hnext,
        readElements_further hitems rest (Nat.lt_of_succ_lt_succ hfuel)]
      rfl

theorem readString_bytesOf_quoted (s : String) (rest : List UInt8) :
    ∃ bytes, bytesOf (quoted s) ++ rest = '"'.toUInt8 :: bytes ∧
      readString bytes = .ok (s, rest) := by
  refine ⟨_, ?_, readString_quoted s rest⟩
  rw [bytesOf_quoted]
  simp only [List.cons_append, List.append_assoc, List.nil_append]

theorem nextKey_first (key : String) (rest : List UInt8) :
    nextKey true (bytesOf (quoted key) ++ rest) = .ok (some key, rest) := by
  obtain ⟨bytes, hbytes, hread⟩ := readString_bytesOf_quoted key rest
  have hquote : skipBlanks ('"'.toUInt8 :: bytes) = '"'.toUInt8 :: bytes :=
    skipBlanks_of_not_blank rfl _
  have hne : '"'.toUInt8 ≠ '\x7d'.toUInt8 := by decide
  rw [hbytes]
  simp [nextKey, hquote, hne, hread, Except.map]

theorem nextKey_further (key : String) (rest : List UInt8) :
    nextKey false (','.toUInt8 :: (bytesOf (quoted key) ++ rest)) = .ok (some key, rest) := by
  obtain ⟨bytes, hbytes, hread⟩ := readString_bytesOf_quoted key rest
  have hcomma : skipBlanks (','.toUInt8 :: '"'.toUInt8 :: bytes) =
      ','.toUInt8 :: '"'.toUInt8 :: bytes := skipBlanks_of_not_blank rfl _
  have hquote : skipBlanks ('"'.toUInt8 :: bytes) = '"'.toUInt8 :: bytes :=
    skipBlanks_of_not_blank rfl _
  have hne : ','.toUInt8 ≠ '\x7d'.toUInt8 := by decide
  rw [hbytes]
  simp [nextKey, hcomma, hquote, hne, hread, Except.map]

/-- One field, up to what comes after it. -/
theorem readFields_step {reader : Reader Json} {key : String} {value : Json} {fuel : Nat}
    {first : Bool} {bytes rest : List UInt8} (hvalue : ReadsBack reader value)
    (hrest : EndsNumber rest)
    (hnext : nextKey first bytes =
      .ok (some key, ':'.toUInt8 :: (bytesOf value.compact ++ rest))) :
    readFields reader (fuel + 1) first bytes =
      (readFields reader fuel false rest).map fun r => ((key, value) :: r.1, r.2) := by
  have hread := hvalue rest hrest
  have hcolon : readColon (':'.toUInt8 :: (bytesOf value.compact ++ rest)) =
      .ok ((), bytesOf value.compact ++ rest) := rfl
  simp only [readFields, hnext, Reader.within, hcolon, hread, bind, Except.bind, Except.mapError]
  cases readFields reader fuel false rest <;> rfl

theorem readFields_further {reader : Reader Json} {fields : Record Json}
    (hfields : ∀ f ∈ fields, ReadsBack reader f.2) (rest : List UInt8) :
    ∀ {fuel : Nat}, fields.length < fuel →
      readFields reader fuel false
          (furtherParts (fields.map compactField) ++ '\x7d'.toUInt8 :: rest) =
        .ok (fields, rest) := by
  induction fields with
  | nil =>
    intro fuel hfuel
    obtain ⟨fuel, rfl⟩ := Nat.exists_eq_add_one_of_ne_zero (Nat.ne_zero_of_lt hfuel)
    rfl
  | cons f fields ih =>
    intro fuel hfuel
    obtain ⟨fuel, rfl⟩ := Nat.exists_eq_add_one_of_ne_zero (Nat.ne_zero_of_lt hfuel)
    obtain ⟨key, value⟩ := f
    rw [List.forall_mem_cons] at hfields
    obtain ⟨hvalue, hfields⟩ := hfields
    have hends := endsNumber_furtherParts (.inr rfl) (fields.map compactField) rest
    have hnext : nextKey false
        (furtherParts (((key, value) :: fields).map compactField) ++ '\x7d'.toUInt8 :: rest) =
          .ok (some key, ':'.toUInt8 :: (bytesOf value.compact ++
            (furtherParts (fields.map compactField) ++ '\x7d'.toUInt8 :: rest))) := by
      rw [List.map_cons, furtherParts_cons, bytesOf_compactField, List.append_assoc,
        List.cons_append, List.append_assoc, List.cons_append]
      exact nextKey_further key _
    rw [readFields_step hvalue hends hnext, ih hfields (Nat.lt_of_succ_lt_succ hfuel)]
    rfl

/-- The fields of an object after its opening brace. -/
theorem readFields_compact {reader : Reader Json} {fields : Record Json}
    (hfields : ∀ f ∈ fields, ReadsBack reader f.2) (rest : List UInt8) {fuel : Nat}
    (hfuel : fields.length < fuel) :
    ∃ bytes, bytesOf (object fields).compact ++ rest = '\x7b'.toUInt8 :: bytes ∧
      readFields reader fuel true bytes = .ok (fields, rest) := by
  obtain ⟨fuel, rfl⟩ := Nat.exists_eq_add_one_of_ne_zero (Nat.ne_zero_of_lt hfuel)
  rw [compact, compactFields_eq_map]
  cases fields with
  | nil => exact ⟨'\x7d'.toUInt8 :: rest, rfl, rfl⟩
  | cons f fields =>
    obtain ⟨key, value⟩ := f
    rw [List.forall_mem_cons] at hfields
    obtain ⟨hvalue, hfields⟩ := hfields
    have hends := endsNumber_furtherParts (.inr rfl) (fields.map compactField) rest
    refine ⟨bytesOf (quoted key) ++ ':'.toUInt8 :: (bytesOf value.compact ++
      (furtherParts (fields.map compactField) ++ '\x7d'.toUInt8 :: rest)), ?_, ?_⟩
    · have hopening : bytesOf "\x7b" = ['\x7b'.toUInt8] := rfl
      have hclosing : bytesOf "\x7d" = ['\x7d'.toUInt8] := rfl
      rw [List.map_cons, bytesOf_enclosed, hopening, hclosing, bytesOf_compactField]
      simp only [List.append_assoc, List.cons_append, List.nil_append]
    · rw [readFields_step hvalue hends (nextKey_first key _),
        readFields_further hfields rest (Nat.lt_of_succ_lt_succ hfuel)]
      rfl

/-! ## Trees read back -/

theorem readValue_of_startsScalar {bytes : List UInt8} (h : StartsScalar bytes)
    (fuel depth : Nat) : readValue fuel depth bytes = readScalar bytes := by
  obtain ⟨b, rest, rfl, hblank, -, hbracket, hbrace⟩ := h
  cases depth <;> simp [readValue, skipBlanks_of_not_blank hblank, hbracket, hbrace]

theorem StartsScalar.append {bytes : List UInt8} (h : StartsScalar bytes) (rest : List UInt8) :
    StartsScalar (bytes ++ rest) := by
  obtain ⟨b, tail, rfl, hb⟩ := h
  exact ⟨b, tail ++ rest, rfl, hb⟩

theorem readsBack_string (fuel depth : Nat) (s : String) :
    ReadsBack (readValue fuel depth) (string s) := by
  intro rest _
  obtain ⟨bytes, hbytes, hread⟩ := readString_bytesOf_quoted s rest
  rw [compact, readValue_of_startsScalar ((startsScalar_quoted s).append rest), hbytes]
  show (readString bytes).map _ = _
  rw [hread]
  rfl

/-- An array reads back where its elements do. -/
theorem readsBack_array {fuel depth : Nat} {items : List Json}
    (hfuel : (bytesOf (array items).compact).length ≤ fuel)
    (hstarts : ∀ item ∈ items, StartsValue (bytesOf item.compact))
    (hitems : ∀ item ∈ items, (bytesOf item.compact).length ≤ fuel →
      ReadsBack (readValue fuel depth) item) :
    ReadsBack (readValue fuel (depth + 1)) (array items) := by
  intro rest _
  obtain ⟨hcount, hparts⟩ : items.length < (bytesOf (array items).compact).length ∧
      ∀ item ∈ items, (bytesOf item.compact).length ≤ (bytesOf (array items).compact).length := by
    have hlength := length_enclosed "[" "]" rfl rfl (items.map compact)
    rw [List.length_map, List.forall_mem_map] at hlength
    rwa [compact, compactItems_eq_map]
  have hback (item : Json) (hmem : item ∈ items) :
      ReadsBack (readValue fuel depth) item ∧ StartsValue (bytesOf item.compact) :=
    ⟨hitems item hmem (Nat.le_trans (hparts item hmem) hfuel), hstarts item hmem⟩
  obtain ⟨bytes, hbytes, hread⟩ :=
    readElements_compact hback rest (Nat.lt_of_lt_of_le hcount hfuel)
  rw [hbytes]
  show (readElements (readValue fuel depth) fuel 0 bytes).map _ = _
  rw [hread]
  rfl

/-- An object reads back where the values of its fields do. -/
theorem readsBack_object {fuel depth : Nat} {fields : Record Json}
    (hfuel : (bytesOf (object fields).compact).length ≤ fuel) (hdistinct : fields.Distinct)
    (hfields : ∀ f ∈ fields, (bytesOf f.2.compact).length ≤ fuel →
      ReadsBack (readValue fuel depth) f.2) :
    ReadsBack (readValue fuel (depth + 1)) (object fields) := by
  intro rest _
  obtain ⟨hcount, hparts⟩ : fields.length < (bytesOf (object fields).compact).length ∧
      ∀ f ∈ fields,
        (bytesOf (compactField f)).length ≤ (bytesOf (object fields).compact).length := by
    have hlength := length_enclosed "\x7b" "\x7d" rfl rfl (fields.map compactField)
    rw [List.length_map, List.forall_mem_map] at hlength
    rwa [compact, compactFields_eq_map]
  have hback (f : String × Json) (hmem : f ∈ fields) : ReadsBack (readValue fuel depth) f.2 := by
    have hpart := hparts f hmem
    rw [bytesOf_compactField, List.length_append, List.length_cons] at hpart
    exact hfields f hmem (by omega)
  obtain ⟨bytes, hbytes, hread⟩ :=
    readFields_compact hback rest (Nat.lt_of_lt_of_le hcount hfuel)
  rw [hbytes]
  show (readFields (readValue fuel depth) fuel true bytes).map _ = _
  rw [hread]
  show Except.ok (object (Record.ofList fields), rest) = _
  rw [Record.ofList_eq_self hdistinct]

/-- A tree before any further bytes. -/
theorem readValue_compact {depth : Nat} {j : Json} (h : j.Readable depth) {fuel : Nat}
    (hfuel : (bytesOf j.compact).length ≤ fuel) : ReadsBack (readValue fuel depth) j := by
  induction h with
  | null =>
    intro rest _
    exact readValue_of_startsScalar ⟨_, _, rfl, rfl, by decide, by decide, by decide⟩ _ _
  | bool b =>
    intro rest _
    cases b <;>
      exact readValue_of_startsScalar ⟨_, _, rfl, rfl, by decide, by decide, by decide⟩ _ _
  | @number _ i hlow hhigh =>
    intro rest hrest
    rw [compact, readValue_of_startsScalar ((startsScalar_int i).append rest)]
    exact readScalar_int hlow hhigh hrest
  | string s => exact readsBack_string fuel _ s
  | array hitems ih =>
    exact readsBack_array hfuel (fun item hmem => startsValue_compact (hitems item hmem)) ih
  | object hdistinct _ ih => exact readsBack_object hfuel hdistinct ih

/-- Brackets that nest one deeper than a reader follows are refused. -/
theorem readValue_too_deep (fuel : Nat) (rest : List UInt8) : ∀ depth, ∃ f,
    readValue (fuel + 1) depth (List.replicate (depth + 1) '['.toUInt8 ++ rest) = .error f ∧
      f.cause = .recursionLimit := by
  intro depth
  induction depth with
  | zero => exact ⟨_, rfl, rfl⟩
  | succ depth ih =>
    obtain ⟨f, hf, hcause⟩ := ih
    have hstarts : StartsValue (List.replicate (depth + 1) '['.toUInt8 ++ rest) :=
      ⟨'['.toUInt8, List.replicate depth '['.toUInt8 ++ rest, rfl, rfl, by decide⟩
    have hnext : nextElement ((0 : Nat) == 0) (List.replicate (depth + 1) '['.toUInt8 ++ rest) =
        .ok (true, List.replicate (depth + 1) '['.toUInt8 ++ rest) := nextElement_first hstarts
    have hread : readElements (readValue (fuel + 1) depth) (fuel + 1) 0
        (List.replicate (depth + 1) '['.toUInt8 ++ rest) = .error (f.within (.index 0)) := by
      simp only [readElements, hnext, Reader.within, hf, bind, Except.bind, Except.mapError,
        if_true]
    refine ⟨f.within (.index 0), ?_, hcause⟩
    rw [List.replicate_succ, List.cons_append]
    show (readElements (readValue (fuel + 1) depth) (fuel + 1) 0
      (List.replicate (depth + 1) '['.toUInt8 ++ rest)).map _ = _
    rw [hread]
    rfl

/-- The compact text of a tree reads back as the tree. -/
theorem ofText_compact {j : Json} (h : j.Readable maxNesting) : ofText j.compact = .ok j := by
  have hread := readValue_compact h (Nat.le_refl _) [] nofun
  rw [List.append_nil] at hread
  show runReader (readValue (bytesOf j.compact).length maxNesting) (bytesOf j.compact) = .ok j
  rw [runReader, hread]

end Json

end Conformance
