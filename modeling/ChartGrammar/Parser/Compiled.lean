/-
  Parser/Compiled.lean --- parsers for rules of a grammar.

  The bindings of the rules that a root reaches are closed into one group, and every slot of
  the group becomes a rule of a registry.  A parser keeps one rule as its root; a
  product gives access to all of them under labels.
-/
import ChartGrammar.Chart.Parse
import ChartGrammar.Grammar.Reachable
import ChartGrammar.Parser.Bindings

set_option autoImplicit false

namespace ChartGrammar

/-- The handle that stands for a slot. -/
def Slot.toHandle (s : Slot) : Handle := ⟨s.index⟩

/-- The registry with one rule per slot of a group. -/
def Group.toRegistry (g : Group (Expr Slot)) : Registry :=
  .ofBodies (g.slots.toList.map (Expr.mapRefs Slot.toHandle))

/-- The closed group of some rules; the identifiers of `body` are its result. -/
def compileGroup (sig : Signature) (g : Grammar) (ids body : List RuleId) :
    Except CompileError (Group (Expr Slot)) := do
  let compile : CompileM (List (Binding (Expr Ident)) × List Ident) := do
    let bindings ← compileRules sig g ids
    return (bindings, ← CompileM.rules g body)
  let ((bindings, idents), _) ← compile.run {}
  Group.closeExprs bindings idents

/-! ## One root -/

/-- A parser for one rule. -/
structure Parser where
  /-- the name of the root rule -/
  name : String
  rules : Registry
  root : Handle

namespace Parser

/-- Compile the parser for a rule and everything it reaches. -/
def compile (sig : Signature) (g : Grammar) (root : RuleId) : Except CompileError Parser := do
  let r ← g.rule root
  let group ← compileGroup sig g (g.reachable [root]) [root]
  return ⟨r.name, group.toRegistry, (group.body.headD ⟨0⟩).toHandle⟩

/-- Parse tokens, and report. -/
def parseReport (p : Parser) (tokens : List Token) : Report := p.rules.parseReport p.root tokens

/-- Parse tokens. -/
def parse (p : Parser) (tokens : List Token) : Except ParseError Value :=
  p.rules.parse p.root tokens

end Parser

/-! ## Many roots -/

/-- Parsers for every rule that some roots reach, each under a label. -/
structure Product where
  rules : Registry
  /-- the labels of the roots, in their order -/
  roots : List String
  /-- labels and what they stand for, in the order of the walk -/
  entries : List (String × Handle)

namespace Product

/-- The labels of all rules, in the order of the walk that reaches them. -/
def labels (p : Product) : List String := p.entries.map Prod.fst

/-- The rule of a label. -/
def get? (p : Product) (label : String) : Option Handle := p.entries.lookup label

/-- Compile parsers for some roots and everything they reach.  A rule goes by the label
of its name, and labels must be distinct. -/
def compile (sig : Signature) (label : String → String) (g : Grammar) (roots : List RuleId) :
    Except CompileError Product := do
  roots.forM fun root => discard (g.rule root)
  let ids := g.reachable roots
  let group ← compileGroup sig g ids ids
  let labels := ids.map fun id => label (g.nameOf id)
  match firstRepeat? labels with
  | some l => throw (.duplicateBinding l)
  | none =>
    return ⟨group.toRegistry, roots.map fun id => label (g.nameOf id),
      labels.zip (group.body.map Slot.toHandle)⟩

end Product

end ChartGrammar
