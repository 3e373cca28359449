/-
  Binding/Ident.lean --- identifiers for compiled rules.

  A name supply issues identifiers that are never the same twice, and remembers
  the one of each rule, so that every use of a rule refers to the same binding.
-/
import ChartGrammar.CompileError
import ChartGrammar.Grammar.Basic

set_option autoImplicit false

namespace ChartGrammar

/-- An identifier: a number of its own, a hint for readers, and the rule to whose
compiled form it belongs. -/
structure Ident where
  hint : String
  owner : String
  id : Nat
  deriving DecidableEq, Repr, Inhabited

/-- The text of an identifier. -/
def Ident.render (i : Ident) : String := i.hint ++ "_" ++ toString i.id

/-- Issues identifiers: the number of the next one, and those of rules so far. -/
structure NameSupply where
  next : Nat := 0
  rules : List (RuleId × Ident) := []
  deriving DecidableEq, Repr, Inhabited

/-- Compilation: identifiers are issued on the way, and it may fail. -/
abbrev CompileM := StateT NameSupply (Except CompileError)

namespace NameSupply

/-- Issue an identifier with a hint and an owner. -/
def issue (s : NameSupply) (hint owner : String) : Ident × NameSupply :=
  (⟨hint, owner, s.next⟩, { s with next := s.next + 1 })

/-- Issue an identifier that belongs to what it is called after. -/
def fresh (s : NameSupply) (hint : String) : Ident × NameSupply := s.issue hint hint

/-- The identifier of a rule, issued when it is first asked for. -/
def rule (s : NameSupply) (g : Grammar) (id : RuleId) : Ident × NameSupply :=
  match s.rules.lookup id with
  | some ident => (ident, s)
  | none =>
    let (ident, s) := s.fresh (g.nameOf id)
    (ident, { s with rules := (id, ident) :: s.rules })

/-- Issue an identifier for an auxiliary binding of a rule. -/
def helper (s : NameSupply) (g : Grammar) (id : RuleId) : Ident × NameSupply :=
  s.issue (g.nameOf id ++ "_go") (g.nameOf id)

end NameSupply

namespace CompileM

/-- The identifier of a rule. -/
def rule (g : Grammar) (id : RuleId) : CompileM Ident := modifyGet fun s => s.rule g id

/-- The identifiers of several rules, in order. -/
def rules (g : Grammar) (ids : List RuleId) : CompileM (List Ident) := ids.mapM (rule g)

/-- A new identifier for an auxiliary binding of a rule. -/
def helper (g : Grammar) (id : RuleId) : CompileM Ident := modifyGet fun s => s.helper g id

end CompileM

end ChartGrammar
