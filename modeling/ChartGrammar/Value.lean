/-
  Value.lean --- parse trees.

  A value records which rule built it, and for a choice which branch.  There is
  one constructor per kind of rule.
-/
import ChartGrammar.Token

set_option autoImplicit false

namespace ChartGrammar

/-- A parse tree, labelled at every node with the rule that built it. -/
inductive Value where
  /-- one token -/
  | terminal (rule : String) (token : Token)
  /-- a branch of a choice with one value per field -/
  | branch (rule label : String) (fields : List Value)
  /-- a value of the rule that is wrapped -/
  | wrap (rule : String) (inner : Value)
  /-- one value per field -/
  | record (rule : String) (fields : List Value)
  /-- a value or its absence -/
  | opt (rule : String) (inner : Option Value)
  /-- any number of values -/
  | star (rule : String) (items : List Value)
  /-- at least one value -/
  | plus (rule : String) (head : Value) (tail : List Value)
  /-- the tokens of a literal -/
  | series (rule : String) (tokens : List Token)
  deriving Repr, Inhabited

namespace Value

/-- The rule that built a value. -/
def rule : Value → String
  | terminal r _ | branch r _ _ | wrap r _ | record r _ | opt r _ | star r _ | plus r _ _
  | series r _ => r

/-- The name of a value's kind. -/
def kind : Value → String
  | terminal _ _ => "terminal"
  | branch _ _ _ => "branch"
  | wrap _ _ => "wrap"
  | record _ _ => "record"
  | opt _ _ => "opt"
  | star _ _ => "star"
  | plus _ _ _ => "plus"
  | series _ _ => "series"

/-- The values directly below a value, from left to right. -/
def children : Value → List Value
  | terminal _ _ | series _ _ | opt _ none => []
  | branch _ _ fields | record _ fields => fields
  | wrap _ inner | opt _ (some inner) => [inner]
  | star _ items => items
  | plus _ head tail => head :: tail

mutual

/-- The text of a value. -/
def render : Value → String
  | terminal _ t => Text.quoteChar t.char
  | branch _ label fields => "(" ++ label ++ renderSpaced fields ++ ")"
  | wrap r inner => "(" ++ r ++ " " ++ render inner ++ ")"
  | record r fields => "(" ++ r ++ renderSpaced fields ++ ")"
  | opt _ none => "nothing"
  | opt _ (some inner) => "(just " ++ render inner ++ ")"
  | star _ [] => "[]"
  | star _ (v :: vs) => "[" ++ render v ++ renderSpaced vs ++ "]"
  | plus _ head tail => "[" ++ render head ++ renderSpaced tail ++ "]"
  | series _ ts => Text.quote (Token.text ts)

/-- The texts of values, each with a space before it. -/
def renderSpaced : List Value → String
  | [] => ""
  | v :: vs => " " ++ render v ++ renderSpaced vs

end

mutual

/-- The number of nodes of a value. -/
def nodes : Value → Nat
  | terminal _ _ | series _ _ | opt _ none => 1
  | branch _ _ fields => nodesAll fields + 1
  | wrap _ inner => nodes inner + 1
  | record _ fields => nodesAll fields + 1
  | opt _ (some inner) => nodes inner + 1
  | star _ items => nodesAll items + 1
  | plus _ head tail => nodes head + nodesAll tail + 1

/-- The number of nodes of values taken together. -/
def nodesAll : List Value → Nat
  | [] => 0
  | v :: vs => nodes v + nodesAll vs

end

end Value

end ChartGrammar
