/-
  Binding/Group.lean --- bindings that may refer to each other.

  In a group every identifier is visible in every binding, its own included.
  Closing a group puts its bindings into numbered slots and resolves every
  reference to a slot; in which order the bindings stand makes no difference.
-/
import ChartGrammar.Binding.Ident
import ChartGrammar.Distinct
import ChartGrammar.Expr

set_option autoImplicit false

namespace ChartGrammar

/-- A binding of an identifier. -/
structure Binding (ε : Type) where
  ident : Ident
  expr : ε
  deriving Repr, Inhabited

/-- The place of a binding in a closed group. -/
structure Slot where
  index : Nat
  deriving DecidableEq, Repr, Inhabited

/-- The text of a slot. -/
def Slot.render (s : Slot) : String := "$" ++ toString s.index

/-- A closed group: what is bound to each identifier, and the slots that were asked
for as its result. -/
structure Group (τ : Type) where
  idents : List Ident
  slots : Array τ
  body : List Slot
  deriving Repr, Inhabited

namespace Group

variable {ε τ : Type}

/-- The number of slots. -/
def size (g : Group τ) : Nat := g.slots.size

/-- What a slot holds. -/
def get [Inhabited τ] (g : Group τ) (s : Slot) : τ := g.slots.getD s.index default

/-- The slot of an identifier; `owner` is blamed if there is none. -/
def lookup (idents : List Ident) (owner : String) (ident : Ident) : Except CompileError Slot :=
  match idents.findIdx? (· = ident) with
  | some i => .ok ⟨i⟩
  | none => .error (.unresolved owner ident.render)

/-- Close a group.  `resolve` resolves the references in what is bound.  It fails if an
identifier is bound twice, or if a binding or the body refers to one that is not
bound. -/
def close (resolve : (Ident → Except CompileError Slot) → ε → Except CompileError τ)
    (bindings : List (Binding ε)) (body : List Ident) : Except CompileError (Group τ) :=
  let idents := bindings.map Binding.ident
  match firstRepeat? idents with
  | some ident => .error (.duplicateBinding ident.render)
  | none => do
    let slots ← bindings.mapM fun b => resolve (lookup idents b.ident.owner) b.expr
    let body ← body.mapM (lookup idents "letrec body")
    return ⟨idents, slots.toArray, body⟩

end Group

/-- Close a group of expressions. -/
def Group.closeExprs (bindings : List (Binding (Expr Ident))) (body : List Ident) :
    Except CompileError (Group (Expr Slot)) :=
  Group.close Expr.resolveRefs bindings body

end ChartGrammar
