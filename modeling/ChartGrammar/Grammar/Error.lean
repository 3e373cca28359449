/-
  Grammar/Error.lean --- why there is no grammar.
-/
import ChartGrammar.Text.Quoted

set_option autoImplicit false

namespace ChartGrammar

/-- What a grammar text lacks at the place where reading it stopped. -/
inductive Wanted where
  /-- a name or the name of a class -/
  | word
  /-- a mark such as `=` or `;` -/
  | mark
  /-- the end of the text -/
  | finish
  deriving DecidableEq, Repr, Inhabited

/-- How messages spell what is lacking. -/
def Wanted.render : Wanted → String
  | word => "Tag"
  | mark => "Char"
  | finish => "Eof"

/-- Why there is no grammar. -/
inductive GrammarError where
  | duplicateRule (name : String)
  | undefinedRule (name : String)
  | emptyChoice (rule : String)
  | emptySeries (rule : String)
  | duplicateBranch (rule label : String)
  | emptyDescription (rule : String)
  /-- the text could not be read; `near` is how it goes on where reading stopped -/
  | malformed (wanted : Wanted) (near : String)
  deriving DecidableEq, Repr, Inhabited

/-- The message of a grammar error. -/
def GrammarError.message : GrammarError → String
  | duplicateRule name => "rule '" ++ name ++ "' is defined more than once"
  | undefinedRule name => "rule '" ++ name ++ "' is referenced but never defined"
  | emptyChoice rule => "choice '" ++ rule ++ "' has no branches"
  | emptySeries rule => "series '" ++ rule ++ "' has an empty literal"
  | duplicateBranch rule label =>
    "choice '" ++ rule ++ "' has more than one branch named '" ++ label ++ "'"
  | emptyDescription rule => "rule '" ++ rule ++ "' has an empty description"
  | malformed wanted near =>
    "failed to parse grammar: " ++ wanted.render ++ " near " ++ Text.quote near

end ChartGrammar
