/-
  Signature.lean --- where compilers get constructors from.

  A compiler invents no constructor.  It asks a signature for the one registered
  under a rule, or under a rule and a branch, and checks that it is the one that
  the rule needs; so grammar and signature cannot drift apart unnoticed.
-/
import ChartGrammar.CompileError
import ChartGrammar.Constructor
import ChartGrammar.Grammar.Basic

set_option autoImplicit false

namespace ChartGrammar

/-- The constructor that a rule needs.  A choice has none of its own, only one for
each branch. -/
def Production.constructor? {ρ : Type} (r : Production ρ) : Option Constructor :=
  match r.rhs with
  | .terminal _ => some (.terminal r.name)
  | .choice _ => none
  | .wrap _ => some (.wrap r.name)
  | .record fields => some (.record r.name fields.length)
  | .opt _ => some (.opt r.name)
  | .star _ => some (.star r.name)
  | .plus _ => some (.plus r.name)
  | .series _ => some (.series r.name)

/-- The constructor that a branch of a choice needs. -/
def Production.branchConstructor {ρ : Type} (r : Production ρ) (b : Branch ρ) : Constructor :=
  .branch r.name b.label b.fields.length

/-- The branches of a choice; no other rule has any. -/
def Production.branches {ρ : Type} (r : Production ρ) : List (Branch ρ) :=
  match r.rhs with
  | .choice branches => branches
  | _ => []

/-- Constructors by rule, and by rule and branch. -/
structure Signature where
  rule : String → Option Constructor
  branch : String → String → Option Constructor

namespace Signature

/-- The signature that has exactly the constructors that the rules of a grammar need. -/
def ofGrammar (g : Grammar) : Signature where
  rule name := ((g.find? name).bind g.get?).bind Production.constructor?
  branch name label :=
    ((g.find? name).bind g.get?).bind fun r =>
      (r.branches.find? fun b => b.label == label).map r.branchConstructor

/-- The signature without the constructors of a rule and its branches. -/
def without (sig : Signature) (rule : String) : Signature where
  rule name := if name = rule then none else sig.rule name
  branch name label := if name = rule then none else sig.branch name label

/-- The signature with another constructor for a rule. -/
def withRule (sig : Signature) (rule : String) (ctor : Constructor) : Signature :=
  { sig with rule := fun name => if name = rule then some ctor else sig.rule name }

/-- The signature with another answer for a branch. -/
def withBranch (sig : Signature) (rule label : String) (answer : Option Constructor) :
    Signature :=
  { sig with
    branch := fun name l => if name = rule ∧ l = label then answer else sig.branch name l }

/-- The signature's constructor, if it is the expected one. -/
def check (rule : String) (expected : Constructor) (answer : Option Constructor) :
    Except CompileError Constructor :=
  if answer = some expected then .ok expected
  else .error (.unresolved rule ("constructor " ++ expected.render))

/-- The signature's constructor for a rule other than a choice. -/
def resolveRule {ρ : Type} (sig : Signature) (r : Production ρ) :
    Except CompileError Constructor :=
  match r.constructor? with
  | none => .error (.unresolved r.name r.name)
  | some expected => check r.name expected (sig.rule r.name)

/-- The signature's constructor for a branch of a choice. -/
def resolveBranch {ρ : Type} (sig : Signature) (r : Production ρ) (b : Branch ρ) :
    Except CompileError Constructor :=
  check r.name (r.branchConstructor b) (sig.branch r.name b.label)

end Signature

/-- The rule at a place, or the complaint that there is none. -/
def Grammar.rule (g : Grammar) (id : RuleId) : Except CompileError Rule :=
  match g.get? id with
  | some r => .ok r
  | none => .error (.unresolved id.render id.render)

end ChartGrammar
