/-
  Predicate.lean --- tests on a single character.

  A terminal rule asks one question of one character.  The question is a named
  class, a character, or a range; its written form is the one grammar texts use.
-/
import ChartGrammar.Text.Alphabetic
import ChartGrammar.Text.Lowercase
import ChartGrammar.Text.Numeric
import ChartGrammar.Text.Uppercase
import ChartGrammar.Text.WhiteSpace

set_option autoImplicit false

namespace ChartGrammar

/-- A test on one character. -/
inductive Predicate where
  /-- the ten ASCII digits -/
  | digit
  /-- white space -/
  | space
  /-- alphabetic characters -/
  | alpha
  /-- alphabetic characters and numbers -/
  | alnum
  /-- uppercase letters -/
  | upper
  /-- lowercase letters -/
  | lower
  /-- ASCII punctuation -/
  | punct
  /-- every character -/
  | any
  /-- exactly one character -/
  | char (c : Char)
  /-- the characters from `lo` to `hi`, both included -/
  | range (lo hi : Char)
  deriving DecidableEq, Repr, Inhabited

namespace Predicate

/-- ASCII punctuation: the printable ASCII characters that are neither letters nor
digits nor the space. -/
def isPunct (c : Char) : Bool :=
  let n := c.toNat
  (0x21 ≤ n && n ≤ 0x2f) || (0x3a ≤ n && n ≤ 0x40) ||
    (0x5b ≤ n && n ≤ 0x60) || (0x7b ≤ n && n ≤ 0x7e)

/-- Whether a character passes the test. -/
def test : Predicate → Char → Bool
  | digit, c => c.isDigit
  | space, c => Text.isWhiteSpace c
  | alpha, c => Text.isAlphabetic c
  | alnum, c => Text.isAlphabetic c || Text.isNumeric c
  | upper, c => Text.isUppercase c
  | lower, c => Text.isLowercase c
  | punct, c => isPunct c
  | any, _ => true
  | char a, c => c == a
  | range lo hi, c => lo.toNat ≤ c.toNat && c.toNat ≤ hi.toNat

/-- The class of a given name. -/
def ofClass? : String → Option Predicate
  | "digit" => some digit
  | "space" => some space
  | "alpha" => some alpha
  | "alnum" => some alnum
  | "upper" => some upper
  | "lower" => some lower
  | "punct" => some punct
  | "any" => some any
  | _ => none

/-- A character as grammar texts write it.  Line feed, tab, carriage return,
backslash and apostrophe have escapes, and every other character stands for
itself. -/
def writeChar (c : Char) : List Char :=
  match c with
  | '\n' => ['\'', '\\', 'n', '\'']
  | '\t' => ['\'', '\\', 't', '\'']
  | '\r' => ['\'', '\\', 'r', '\'']
  | '\\' => ['\'', '\\', '\\', '\'']
  | '\'' => ['\'', '\\', '\'', '\'']
  | c => ['\'', c, '\'']

/-- The written form of a predicate. -/
def write : Predicate → List Char
  | digit => ['@', 'd', 'i', 'g', 'i', 't']
  | space => ['@', 's', 'p', 'a', 'c', 'e']
  | alpha => ['@', 'a', 'l', 'p', 'h', 'a']
  | alnum => ['@', 'a', 'l', 'n', 'u', 'm']
  | upper => ['@', 'u', 'p', 'p', 'e', 'r']
  | lower => ['@', 'l', 'o', 'w', 'e', 'r']
  | punct => ['@', 'p', 'u', 'n', 'c', 't']
  | any => ['@', 'a', 'n', 'y']
  | char c => writeChar c
  | range lo hi => writeChar lo ++ '.' :: '.' :: writeChar hi

/-- The written form of a predicate, as a text. -/
def render (p : Predicate) : String := String.ofList p.write

end Predicate

end ChartGrammar
