/-
  Text/Quoted.lean --- characters and texts as diagnostics show them.

  A quoted form stands between quotes and shows nothing invisible: control
  characters have short escapes, and whatever has no visible form of its own, or
  would be drawn onto the character before it, is written by its code point.
-/
import ChartGrammar.Text.ExtendingMark
import ChartGrammar.Text.Unprintable

set_option autoImplicit false

namespace ChartGrammar.Text

/-- The escape of a code point: `\u`, then its lowercase hexadecimal digits in braces. -/
def codePointEscape (c : Char) : List Char :=
  '\\' :: 'u' :: '\x7b' :: (Nat.toDigits 16 c.toNat ++ ['\x7d'])

/-- One character between quotes of the kind `quote`.  Only that quote is escaped,
so an apostrophe stands for itself inside a text. -/
def escapeWithin (quote c : Char) : List Char :=
  match c with
  | '\x00' => ['\\', '0']
  | '\t' => ['\\', 't']
  | '\r' => ['\\', 'r']
  | '\n' => ['\\', 'n']
  | '\\' => ['\\', '\\']
  | c =>
    if c = quote then ['\\', c]
    else if isExtendingMark c || isUnprintable c then codePointEscape c
    else [c]

/-- A character in apostrophes. -/
def quoteChar (c : Char) : String :=
  String.ofList ('\'' :: (escapeWithin '\'' c ++ ['\'']))

/-- A text in double quotes. -/
def quote (s : String) : String :=
  String.ofList ('"' :: (s.toList.flatMap (escapeWithin '"') ++ ['"']))

end ChartGrammar.Text
