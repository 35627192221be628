import Conformance.Text.Invisible

/-!
# Quoted text

A text between quotes in which the quote, the backslash, tab, carriage return, line feed and NUL are
escaped by a letter, and any other invisible character by its number in braces.

Results:
* `Text.quoted`: a text between quotes.
-/

namespace Conformance.Text

/-- The number of a character in braces. -/
def numberEscape (c : Char) : List Char :=
  ['\\', 'u', '\x7b'] ++ Nat.toDigits 16 c.toNat ++ ['\x7d']

/-- A character inside quotes. -/
def quotedChar (c : Char) : List Char :=
  if c = '"' then ['\\', '"']
  else if c = '\\' then ['\\', '\\']
  else if c = '\t' then ['\\', 't']
  else if c = '\r' then ['\\', 'r']
  else if c = '\n' then ['\\', 'n']
  else if c = '\x00' then ['\\', '0']
  else if isInvisible c then numberEscape c
  else [c]

/-- A text between quotes. -/
def quoted (s : String) : String :=
  "\"" ++ String.ofList (s.toList.flatMap quotedChar) ++ "\""

end Conformance.Text
