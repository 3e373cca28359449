/-
  Yield/Rule.lean --- how a rule gives back the tokens of its values.

  Each rule becomes a yield rule: what its values look like, and how the tokens of
  the values below are joined.
-/
import ChartGrammar.Binding.Group
import ChartGrammar.Grammar.NonEmptiness
import ChartGrammar.Signature
import ChartGrammar.Yield.JoinPlan

set_option autoImplicit false

namespace ChartGrammar

/-- What the values of a rule look like, and how their tokens are joined. -/
inductive YieldShape (ρ : Type) where
  | terminal
  /-- a plan for each label, in the order of the branches -/
  | choice (branches : List (String × JoinPlan ρ))
  | wrap (inner : Part ρ)
  | record (plan : JoinPlan ρ)
  | opt (inner : Part ρ)
  | star (inner : Part ρ)
  | plus (inner : Part ρ)
  /-- the literal that every value spells -/
  | series (literal : String)
  deriving DecidableEq, Repr, Inhabited

namespace YieldShape

variable {ρ σ ε : Type}

/-- The kind of the values. -/
def kind : YieldShape ρ → String
  | terminal => "terminal"
  | choice _ => "branch"
  | wrap _ => "wrap"
  | record _ => "record"
  | opt _ => "opt"
  | star _ => "star"
  | plus _ => "plus"
  | series _ => "series"

/-- The same projection over other references, or the first failure. -/
def resolve (f : ρ → Except ε σ) : YieldShape ρ → Except ε (YieldShape σ)
  | terminal => return terminal
  | choice branches =>
    return choice (← branches.mapM fun (label, plan) => return (label, ← plan.resolve f))
  | wrap p => return wrap (← p.resolve f)
  | record plan => return record (← plan.resolve f)
  | opt p => return opt (← p.resolve f)
  | star p => return star (← p.resolve f)
  | plus p => return plus (← p.resolve f)
  | series literal => return series literal

end YieldShape

/-- The compiled form of a rule. -/
structure YieldRule (ρ : Type) where
  rule : String
  nonempty : Bool
  projection : YieldShape ρ
  deriving DecidableEq, Repr, Inhabited

/-- The same yield rule over other references, or the first failure. -/
def YieldRule.resolve {ρ σ ε : Type} (f : ρ → Except ε σ) (p : YieldRule ρ) :
    Except ε (YieldRule σ) :=
  return ⟨p.rule, p.nonempty, ← p.projection.resolve f⟩

/-- Close a group of yield rules. -/
def Group.closeYieldRules (bindings : List (Binding (YieldRule Ident))) (body : List Ident) :
    Except CompileError (Group (YieldRule Slot)) :=
  Group.close YieldRule.resolve bindings body

/-! ## Compiling a rule -/

/-- The reference to a rule, with its classification. -/
def compilePart (g : Grammar) (a : NonEmptiness) (id : RuleId) : CompileM (Part Ident) :=
  return ⟨← CompileM.rule g id, a.isNonempty id⟩

/-- The plan for the fields of a product. -/
def compilePlan (g : Grammar) (a : NonEmptiness) (rule : String) (fields : List RuleId)
    (nonempty : Bool) : CompileM (JoinPlan Ident) := do
  let ps ← fields.mapM (compilePart g a)
  JoinPlan.make rule ps nonempty

/-- The projection of a right-hand side.  The signature is asked for the same
constructors as for the parser. -/
def compileYieldShape (sig : Signature) (g : Grammar) (a : NonEmptiness) (r : Rule)
    (nonempty : Bool) : CompileM (YieldShape Ident) := do
  match r.rhs with
  | .choice branches =>
    return .choice (← branches.mapM fun b => do
      let _ ← sig.resolveBranch r b
      return (b.label, ← compilePlan g a r.name b.fields nonempty))
  | .terminal _ =>
    let _ ← sig.resolveRule r
    return .terminal
  | .series literal =>
    let _ ← sig.resolveRule r
    return .series literal
  | .wrap inner =>
    let _ ← sig.resolveRule r
    return .wrap (← compilePart g a inner)
  | .record fields =>
    let _ ← sig.resolveRule r
    return .record (← compilePlan g a r.name fields nonempty)
  | .opt inner =>
    let _ ← sig.resolveRule r
    return .opt (← compilePart g a inner)
  | .star inner =>
    let _ ← sig.resolveRule r
    return .star (← compilePart g a inner)
  | .plus inner =>
    let _ ← sig.resolveRule r
    return .plus (← compilePart g a inner)

/-- The binding of a rule's yield rule. -/
def compileYieldRule (sig : Signature) (g : Grammar) (a : NonEmptiness) (id : RuleId) :
    CompileM (Binding (YieldRule Ident)) := do
  let r ← g.rule id
  let nonempty := a.isNonempty id
  let projection ← compileYieldShape sig g a r nonempty
  return ⟨← CompileM.rule g id, ⟨r.name, nonempty, projection⟩⟩

end ChartGrammar
