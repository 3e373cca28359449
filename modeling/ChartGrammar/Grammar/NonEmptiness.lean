/-
  Grammar/NonEmptiness.lean --- rules whose values always hold a token.

  Everything is taken to be nonempty at first, and a rule is demoted when its
  right-hand side no longer vouches for it, until a whole pass demotes nothing.  A
  cycle that never reaches an empty alternative so stays nonempty.
-/
import ChartGrammar.Grammar.Basic

set_option autoImplicit false

namespace ChartGrammar

/-- Which rules of a grammar are nonempty, and how many passes it took to find out. -/
structure NonEmptiness where
  flags : Array Bool
  rounds : Nat
  deriving DecidableEq, Repr, Inhabited

/-- Whether a right-hand side holds a token in every value, if the rules it refers to
are classified by `nonempty`. -/
def Rhs.vouches {ρ : Type} (nonempty : ρ → Bool) : Rhs ρ → Bool
  | terminal _ | series _ => true
  | opt _ | star _ => false
  | plus r | wrap r => nonempty r
  | record fields => fields.any nonempty
  | choice branches => branches.all fun b => b.fields.any nonempty

namespace NonEmptiness

/-- The classification of a rule by a list of flags; a rule without a flag is not
nonempty. -/
def flagOf (flags : Array Bool) (id : RuleId) : Bool := flags[id.index]?.getD false

/-- Demote one rule if it must be, and note whether it was. -/
def demote (g : Grammar) (state : Array Bool × Bool) (id : RuleId) : Array Bool × Bool :=
  match g.get? id with
  | some r =>
    if flagOf state.1 id && !r.rhs.vouches (flagOf state.1) then
      (state.1.setIfInBounds id.index false, true)
    else state
  | none => state

/-- One pass over all rules in order, each reading the flags that the ones before it
left. -/
def pass (g : Grammar) (flags : Array Bool) : Array Bool × Bool :=
  g.ids.foldl (demote g) (flags, false)

/-- Pass after pass until one demotes nothing.  The first argument bounds their
number. -/
def settle (g : Grammar) : Nat → Array Bool → Nat → NonEmptiness
  | 0, flags, rounds => ⟨flags, rounds⟩
  | fuel + 1, flags, rounds =>
    match pass g flags with
    | (flags, true) => settle g fuel flags (rounds + 1)
    | (flags, false) => ⟨flags, rounds + 1⟩

/-- The analysis of a grammar.  Every pass but the last demotes a rule. -/
def analyze (g : Grammar) : NonEmptiness :=
  settle g (g.size + 1) (Array.replicate g.size true) 0

/-- Whether every value of a rule holds a token.  Not so for a place without a
rule. -/
def isNonempty (a : NonEmptiness) (id : RuleId) : Bool := flagOf a.flags id

end NonEmptiness

end ChartGrammar
