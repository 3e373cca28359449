/-
  Grammar/Basic.lean --- grammars as graphs of rules.

  Rules refer to each other by their places in the grammar, so rules may refer to
  themselves and to each other in any way.
-/
import ChartGrammar.Grammar.Error
import ChartGrammar.Grammar.Rhs

set_option autoImplicit false

namespace ChartGrammar

/-- The place of a rule in its grammar. -/
structure RuleId where
  index : Nat
  deriving DecidableEq, Repr, Inhabited

/-- The text of a rule's place, for rules that have no name. -/
def RuleId.render (id : RuleId) : String := "#" ++ toString id.index

/-- A rule of a grammar. -/
abbrev Rule := Production RuleId

/-- A grammar: its rules in the order of their declaration. -/
structure Grammar where
  rules : Array Rule
  deriving DecidableEq, Repr, Inhabited

namespace Grammar

/-- The number of rules. -/
def size (g : Grammar) : Nat := g.rules.size

/-- The rule at a place. -/
def get? (g : Grammar) (id : RuleId) : Option Rule := g.rules[id.index]?

/-- Whether the grammar has a rule at this place. -/
def contains (g : Grammar) (id : RuleId) : Bool := id.index < g.size

/-- The rule of a name. -/
def find? (g : Grammar) (name : String) : Option RuleId :=
  (g.rules.findIdx? fun r => r.name == name).map RuleId.mk

/-- The places of all rules, in order. -/
def ids (g : Grammar) : List RuleId := (List.range g.size).map RuleId.mk

/-- The name of the rule at a place; a place without a rule goes by its number. -/
def nameOf (g : Grammar) (id : RuleId) : String :=
  match g.get? id with
  | some r => r.name
  | none => id.render

/-- The rules with names in place of ids, in order. -/
def productions (g : Grammar) : List (Production String) :=
  g.rules.toList.map fun r => ⟨r.name, r.description, r.rhs.map g.nameOf⟩

end Grammar

end ChartGrammar
