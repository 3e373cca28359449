/-
  Constructor.lean --- how a rule turns what its parser found into a value.

  Running an expression gives a semantic value: some tokens, or the values of the
  rules it referred to, arranged as the expression asked.  A constructor accepts
  one arrangement and labels it with its rule.
-/
import ChartGrammar.Value

set_option autoImplicit false

namespace ChartGrammar

/-- What an expression found, before a constructor labels it. -/
inductive SemanticValue where
  | token (t : Token)
  | tokens (ts : List Token)
  | node (v : Value)
  | fields (vs : List Value)
  | nothing
  | just (v : Value)
  | list (vs : List Value)
  | pair (head : Value) (tail : List Value)
  deriving Repr, Inhabited

/-- Builds the values of one rule, or of one branch of a choice. -/
inductive Constructor where
  | terminal (rule : String)
  | branch (rule label : String) (arity : Nat)
  | wrap (rule : String)
  | record (rule : String) (arity : Nat)
  | opt (rule : String)
  | star (rule : String)
  | plus (rule : String)
  | series (rule : String)
  deriving DecidableEq, Repr, Inhabited

namespace Constructor

/-- The rule whose values a constructor builds. -/
def rule : Constructor → String
  | terminal r | branch r _ _ | wrap r | record r _ | opt r | star r | plus r | series r => r

/-- The value built from a semantic value of the right shape, and nothing for any
other one. -/
def apply : Constructor → SemanticValue → Option Value
  | terminal r, .token t => some (.terminal r t)
  | branch r label arity, .fields vs =>
    if vs.length = arity then some (.branch r label vs) else none
  | wrap r, .node v => some (.wrap r v)
  | record r arity, .fields vs => if vs.length = arity then some (.record r vs) else none
  | opt r, .nothing => some (.opt r none)
  | opt r, .just v => some (.opt r (some v))
  | star r, .list vs => some (.star r vs)
  | plus r, .pair head tail => some (.plus r head tail)
  | series r, .tokens ts => some (.series r ts)
  | _, _ => none

/-- The text of a constructor: its rule, its branch, and how many fields it takes. -/
def render : Constructor → String
  | branch r label arity => r ++ "::" ++ label ++ "/" ++ toString arity
  | record r arity => r ++ "/" ++ toString arity
  | c => c.rule

end Constructor

end ChartGrammar
