/-
  Parser/Bindings.lean --- rules as expressions.

  Each rule becomes a binding whose expression refers to other rules only by their
  identifiers.  A repetition needs a second binding, for the list that it loops
  over.
-/
import ChartGrammar.Binding.Group
import ChartGrammar.Signature

set_option autoImplicit false

namespace ChartGrammar

namespace Expr

variable {ρ : Type}

/-- References one after another; no tokens and no fields for none. -/
def ofFields (refs : List ρ) : Expr ρ :=
  match refs with
  | [] => unit
  | refs => seq (refs.map ref)

/-- Nothing, or an item and then the rest of the list. -/
def listOf (item rest : ρ) : Expr ρ := alt nil (cons (ref item) (ref rest))

/-- The first of several expressions or one of the others, grouped to the left. -/
def oneOf (first : Expr ρ) (others : List (Expr ρ)) : Expr ρ := others.foldl alt first

end Expr

/-- The expression of a branch: its constructor on its fields. -/
def compileBranch (sig : Signature) (g : Grammar) (r : Rule) (b : Branch RuleId) :
    CompileM (Expr Ident) := do
  let ctor ← sig.resolveBranch r b
  let fields ← CompileM.rules g b.fields
  return .map ctor (.ofFields fields)

/-- The expression of a right-hand side, and the list binding that it needs. -/
def compileRhs (sig : Signature) (g : Grammar) (id : RuleId) (r : Rule) :
    CompileM (Expr Ident × List (Binding (Expr Ident))) := do
  match r.rhs with
  | .terminal p => return (.map (← sig.resolveRule r) (.matchOne p), [])
  | .series literal => return (.map (← sig.resolveRule r) (.symbol literal), [])
  | .choice branches =>
    match ← branches.mapM (compileBranch sig g r) with
    | [] => throw (.unresolved r.name "a first branch")
    | first :: others => return (.oneOf first others, [])
  | .wrap inner =>
    let ctor ← sig.resolveRule r
    return (.map ctor (.ref (← CompileM.rule g inner)), [])
  | .record fields =>
    let ctor ← sig.resolveRule r
    return (.map ctor (.ofFields (← CompileM.rules g fields)), [])
  | .opt inner =>
    let ctor ← sig.resolveRule r
    return (.map ctor (.alt .nothing (.just (.ref (← CompileM.rule g inner)))), [])
  | .star inner =>
    let ctor ← sig.resolveRule r
    let item ← CompileM.rule g inner
    let list ← CompileM.helper g id
    return (.map ctor (.ref list), [⟨list, .listOf item list⟩])
  | .plus inner =>
    let ctor ← sig.resolveRule r
    let item ← CompileM.rule g inner
    let list ← CompileM.helper g id
    return (.map ctor (.pair (.ref item) (.ref list)), [⟨list, .listOf item list⟩])

/-- The bindings of a rule: its own, labelled with its title, and the list binding of a
repetition. -/
def compileRule (sig : Signature) (g : Grammar) (id : RuleId) :
    CompileM (List (Binding (Expr Ident))) := do
  let r ← g.rule id
  let ident ← CompileM.rule g id
  let (body, helpers) ← compileRhs sig g id r
  return ⟨ident, .label r.title body⟩ :: helpers

/-- The bindings of several rules, in order. -/
def compileRules (sig : Signature) (g : Grammar) (ids : List RuleId) :
    CompileM (List (Binding (Expr Ident))) :=
  return (← ids.mapM (compileRule sig g)).flatten

end ChartGrammar
