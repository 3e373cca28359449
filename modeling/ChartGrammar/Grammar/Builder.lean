/-
  Grammar/Builder.lean --- grammars put together rule by rule.

  A name is declared before its rule is defined, so that right-hand sides can
  refer to any declared rule.
-/
import ChartGrammar.Distinct
import ChartGrammar.Grammar.Basic

set_option autoImplicit false

namespace ChartGrammar

/-- A declared name and, once it is defined, its description and right-hand side. -/
structure Declaration where
  name : String
  body : Option (Option String × Rhs RuleId)
  deriving DecidableEq, Repr, Inhabited

/-- A grammar that is being put together. -/
structure Builder where
  declarations : Array Declaration := #[]
  deriving DecidableEq, Repr, Inhabited

/-- What is wrong with a right-hand side by itself. -/
def Rhs.fault? {ρ : Type} (rule : String) : Rhs ρ → Option GrammarError
  | choice [] => some (.emptyChoice rule)
  | choice branches => (firstRepeat? (branches.map Branch.label)).map (.duplicateBranch rule)
  | series literal => if literal.isEmpty then some (.emptySeries rule) else none
  | _ => none

namespace Builder

/-- The builder with no names. -/
def empty : Builder := {}

/-- The place of a declared name. -/
def find? (b : Builder) (name : String) : Option RuleId :=
  (b.declarations.findIdx? fun d => d.name == name).map RuleId.mk

/-- Declare a name that is not declared yet. -/
def declare (b : Builder) (name : String) : Except GrammarError (RuleId × Builder) :=
  match b.find? name with
  | some _ => .error (.duplicateRule name)
  | none => .ok (⟨b.declarations.size⟩, ⟨b.declarations.push ⟨name, none⟩⟩)

/-- Define a declared rule that is not defined yet.  The rules it refers to must be
declared, a choice needs branches with distinct labels, and a literal or a
description must not be empty. -/
def define (b : Builder) (id : RuleId) (description : Option String) (rhs : Rhs RuleId) :
    Except GrammarError Builder :=
  match b.declarations[id.index]? with
  | none => .error (.undefinedRule id.render)
  | some d =>
    match rhs.children.find? fun child => b.declarations.size ≤ child.index with
    | some child => .error (.undefinedRule child.render)
    | none =>
      match rhs.fault? d.name with
      | some fault => .error fault
      | none =>
        if description = some "" then .error (.emptyDescription d.name)
        else if d.body.isSome then .error (.duplicateRule d.name)
        else .ok ⟨b.declarations.setIfInBounds id.index ⟨d.name, some (description, rhs)⟩⟩

/-- Declare a name and define its rule.  If only the definition fails, the name stays
declared. -/
def add (b : Builder) (name : String) (description : Option String) (rhs : Rhs RuleId) :
    Except GrammarError RuleId × Builder :=
  match b.declare name with
  | .error e => (.error e, b)
  | .ok (id, declared) =>
    match declared.define id description rhs with
    | .error e => (.error e, declared)
    | .ok defined => (.ok id, defined)

/-- The rule of a declared name, or the complaint that there is none. -/
def finish (d : Declaration) : Except GrammarError Rule :=
  match d.body with
  | some (description, rhs) => .ok ⟨d.name, description, rhs⟩
  | none => .error (.undefinedRule d.name)

/-- The grammar, if every declared name is defined. -/
def build (b : Builder) : Except GrammarError Grammar :=
  return ⟨(← b.declarations.toList.mapM finish).toArray⟩

end Builder

namespace Grammar

/-- The grammar of a list of productions.  All names are declared first, so that
productions may stand in any order. -/
def ofProductions (ps : List (Production String)) : Except GrammarError Grammar := do
  let declared ← ps.foldlM (fun b p => return (← b.declare p.name).2) Builder.empty
  let place := fun (name : String) =>
    match declared.find? name with
    | some id => Except.ok id
    | none => .error (GrammarError.undefinedRule name)
  let resolved ← ps.mapM fun p => do
    let rhs ← p.rhs.resolve place
    let id ← place p.name
    return (id, p.description, rhs)
  let defined ← resolved.foldlM
    (fun b (id, description, rhs) => b.define id description rhs) declared
  defined.build

end Grammar

end ChartGrammar
