/-
  Grammar/Printer.lean --- the written form of grammars.
-/
import ChartGrammar.Grammar.Basic

set_option autoImplicit false

namespace ChartGrammar

/-- A character inside a literal in double quotes.  Double quote, backslash, line
feed, tab and carriage return have escapes. -/
def writeLiteralChar (c : Char) : List Char :=
  match c with
  | '"' => ['\\', '"']
  | '\\' => ['\\', '\\']
  | '\n' => ['\\', 'n']
  | '\t' => ['\\', 't']
  | '\r' => ['\\', 'r']
  | c => [c]

/-- A literal in double quotes. -/
def writeLiteral (s : String) : List Char :=
  '"' :: (s.toList.flatMap writeLiteralChar ++ ['"'])

/-- Names, each with a space before it. -/
def writeFields (names : List String) : List Char :=
  names.flatMap fun name => ' ' :: name.toList

/-- A branch of a choice. -/
def Branch.write (b : Branch String) : List Char :=
  b.label.toList ++ ':' :: writeFields b.fields

/-- The branches of a choice with bars between them. -/
def writeBranches : List (Branch String) → List Char
  | [] => []
  | [b] => b.write
  | b :: bs => b.write ++ ' ' :: '|' :: ' ' :: writeBranches bs

namespace Rhs

/-- The written form of a right-hand side. -/
def write : Rhs String → List Char
  | terminal p => p.write
  | choice branches => writeBranches branches
  | wrap name => name.toList
  | record fields => '(' :: (writeFields fields ++ [' ', ')'])
  | opt name => name.toList ++ ['?']
  | star name => name.toList ++ ['*']
  | plus name => name.toList ++ ['+']
  | series literal => writeLiteral literal

/-- The written form of a right-hand side, as a text. -/
def render (rhs : Rhs String) : String := String.ofList rhs.write

end Rhs

namespace Production

/-- The written form of a production: name, description, right-hand side. -/
def write (p : Production String) : List Char :=
  p.name.toList ++
    (match p.description with
      | some d => ' ' :: writeLiteral d
      | none => []) ++
    ' ' :: '=' :: ' ' :: (p.rhs.write ++ [' ', ';'])

/-- The written form of a production, as a text. -/
def render (p : Production String) : String := String.ofList p.write

end Production

/-- The written form of a grammar: its productions, one on a line. -/
def Grammar.render (g : Grammar) : String :=
  String.ofList (g.productions.flatMap fun p => p.write ++ ['\n'])

end ChartGrammar
