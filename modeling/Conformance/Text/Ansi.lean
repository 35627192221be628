/-!
# Coloured text

A style is a list of codes in an escape sequence before a text, closed by the reset sequence after
it. Where the text itself holds a reset, the style is put back behind it.

Results:
* `Style.apply`: a text in a style.
-/

namespace Conformance.Text

/-- A style, by its codes. -/
structure Style where
  codes : List Nat

namespace Style

def bold : Style := ⟨[1]⟩

def red : Style := ⟨[31]⟩

def green : Style := ⟨[32]⟩

def yellow : Style := ⟨[33]⟩

def boldRed : Style := ⟨[1, 31]⟩

/-- The sequence that ends every style. -/
def reset : List Char := ['\x1b', '[', '0', 'm']

/-- The sequence that begins the style. -/
def opening (style : Style) : List Char :=
  ('\x1b' :: '[' :: (";".intercalate (style.codes.map toString)).toList) ++ ['m']

/-- Puts a sequence behind every reset of a text. -/
def reopen (sequence : List Char) : List Char → List Char
  | '\x1b' :: '[' :: '0' :: 'm' :: rest => reset ++ sequence ++ reopen sequence rest
  | c :: rest => c :: reopen sequence rest
  | [] => []

/-- The text in the style. -/
def apply (style : Style) (s : String) : String :=
  String.ofList (style.opening ++ reopen style.opening s.toList ++ reset)

end Style

end Conformance.Text
