import Conformance.Json

/-!
# JSON text

Two layouts of a tree: compact, without any space, and pretty, with two spaces of indentation a
level and an empty array or object on one line. Strings escape the quote, the backslash and the
characters below U+0020; every other character stands for itself.

Results:
* `Json.quoted`: a string as JSON text.
* `Json.compact`, `Json.pretty`: the two layouts.
-/

namespace Conformance.Json

/-! ## Strings -/

/-- The text of a character inside a string. -/
def escape (c : Char) : List Char :=
  if c = '"' then ['\\', '"']
  else if c = '\\' then ['\\', '\\']
  else if c = '\x08' then ['\\', 'b']
  else if c = '\x0c' then ['\\', 'f']
  else if c = '\n' then ['\\', 'n']
  else if c = '\r' then ['\\', 'r']
  else if c = '\t' then ['\\', 't']
  else if c.toNat < 0x20 then
    ['\\', 'u', '0', '0', Nat.digitChar (c.toNat / 16), Nat.digitChar (c.toNat % 16)]
  else [c]

/-- A string between quotes. -/
def quoted (s : String) : String :=
  "\"" ++ String.ofList (s.toList.flatMap escape) ++ "\""

/-! ## Layouts -/

/-- An opening, the parts with commas between, and a closing. -/
def enclosed (opening separator closing : String) (parts : List String) : String :=
  opening ++ separator.intercalate parts ++ closing

mutual

/-- The layout without spaces. -/
def compact : Json → String
  | null => "null"
  | bool true => "true"
  | bool false => "false"
  | number n => n.text
  | string s => quoted s
  | array items => enclosed "[" "," "]" (compactItems items)
  | object fields => enclosed "\x7b" "," "\x7d" (compactFields fields)

def compactItems : List Json → List String
  | [] => []
  | item :: rest => item.compact :: compactItems rest

def compactFields : List (String × Json) → List String
  | [] => []
  | (key, value) :: rest => (quoted key ++ ":" ++ value.compact) :: compactFields rest

end

/-- The indentation of a level. -/
def indent (level : Nat) : String := String.ofList (List.replicate (2 * level) ' ')

mutual

/-- The parts of the layout on lines, for a tree that begins at an indentation level, and what comes
after them. -/
def prettyParts : Json → (level : Nat) → (after : List String) → List String
  | null, _, after => "null" :: after
  | bool true, _, after => "true" :: after
  | bool false, _, after => "false" :: after
  | number n, _, after => n.text :: after
  | string s, _, after => quoted s :: after
  | array [], _, after => "[]" :: after
  | array (item :: rest), level, after =>
    ("[\n" ++ indent (level + 1)) :: item.prettyParts (level + 1)
      (prettyItems rest (level + 1) (("\n" ++ indent level ++ "]") :: after))
  | object [], _, after => "\x7b\x7d" :: after
  | object ((key, value) :: rest), level, after =>
    ("\x7b\n" ++ indent (level + 1)) :: quoted key :: ": " :: value.prettyParts (level + 1)
      (prettyFields rest (level + 1) (("\n" ++ indent level ++ "\x7d") :: after))

/-- The further elements of an array, each on a line at the level. -/
def prettyItems : List Json → (level : Nat) → (after : List String) → List String
  | [], _, after => after
  | item :: rest, level, after =>
    (",\n" ++ indent level) :: item.prettyParts level (prettyItems rest level after)

/-- The further fields of an object, each on a line at the level. -/
def prettyFields : List (String × Json) → (level : Nat) → (after : List String) → List String
  | [], _, after => after
  | (key, value) :: rest, level, after =>
    (",\n" ++ indent level) :: quoted key :: ": " ::
      value.prettyParts level (prettyFields rest level after)

end

/-- The layout on lines. -/
def pretty (j : Json) : String := String.join (j.prettyParts 0 [])

end Conformance.Json
