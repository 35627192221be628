/-!
# Lines and trailing blanks

Results:
* `Text.lines`: the lines of a text, each without its line feed and one carriage return before it.
* `Text.trimEnd`: a text without the characters of the Unicode property White_Space at its end.
-/

namespace Conformance.Text

/-! ## Lines -/

/-- Splits before and after the first line feed, if there is one. -/
def splitLine : List Char → List Char × Option (List Char)
  | [] => ([], none)
  | c :: rest =>
    if c = '\n' then ([], some rest)
    else
      let (line, after) := splitLine rest
      (c :: line, after)

theorem length_splitLine {cs line after : List Char} (h : splitLine cs = (line, some after)) :
    after.length < cs.length := by
  induction cs generalizing line with
  | nil => simp [splitLine] at h
  | cons c rest ih =>
    by_cases hc : c = '\n'
    · simp only [splitLine, hc, if_true, Prod.mk.injEq, Option.some.injEq] at h
      simp [h.2]
    · simp only [splitLine, hc, if_false, Prod.mk.injEq] at h
      have := @ih (splitLine rest).1 (Prod.ext rfl h.2)
      simp only [List.length_cons]
      omega

/-- A line without a carriage return at its end. -/
def dropCarriageReturn (line : List Char) : List Char :=
  if line.getLast? = some '\r' then line.dropLast else line

/-- The lines of characters; what follows the last line feed is a line when it is not empty. -/
def linesOf (cs : List Char) : List (List Char) :=
  match h : splitLine cs with
  | (line, some after) =>
    have := length_splitLine h
    dropCarriageReturn line :: linesOf after
  | (line, none) => if line.isEmpty then [] else [line]
termination_by cs.length

/-- The lines of a text. -/
def lines (s : String) : List String := (linesOf s.toList).map String.ofList

/-! ## Trailing blanks -/

/-- The characters of the Unicode property White_Space. -/
def isWhiteSpace (c : Char) : Bool :=
  let n := c.toNat
  (9 ≤ n && n ≤ 13) || n == 0x20 || n == 0x85 || n == 0xa0 || n == 0x1680 ||
    (0x2000 ≤ n && n ≤ 0x200a) || n == 0x2028 || n == 0x2029 || n == 0x202f || n == 0x205f ||
    n == 0x3000

/-- The text without white space at its end. -/
def trimEnd (s : String) : String :=
  String.ofList (s.toList.reverse.dropWhile isWhiteSpace).reverse

end Conformance.Text
