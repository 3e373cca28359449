/-
  Registry.lean --- rules that refer to each other by handles.

  A handle is issued before its rule has a body, so that bodies can refer to any
  rule, their own included.
-/
import ChartGrammar.Expr
import ChartGrammar.ParseError

set_option autoImplicit false

namespace ChartGrammar

/-- Rules by handle.  A rule that was declared and not defined has no body. -/
structure Registry where
  bodies : Array (Option (Expr Handle))
  deriving Repr, Inhabited

namespace Registry

/-- The registry without rules. -/
def empty : Registry := ⟨#[]⟩

/-- The number of handles issued. -/
def size (rules : Registry) : Nat := rules.bodies.size

/-- Issue the next handle. -/
def declare (rules : Registry) : Handle × Registry :=
  (⟨rules.bodies.size⟩, ⟨rules.bodies.push none⟩)

/-- Give a rule its body, in place of any earlier one.  Only for handles that this
registry issued. -/
def define (rules : Registry) (handle : Handle) (body : Expr Handle) :
    Except ParseError Registry :=
  if handle.index < rules.bodies.size then
    .ok ⟨rules.bodies.setIfInBounds handle.index (some body)⟩
  else .error (.unknownHandle handle)

/-- The body of a rule, if it was issued and defined. -/
def get? (rules : Registry) (handle : Handle) : Option (Expr Handle) :=
  (rules.bodies[handle.index]?).join

/-- The registry whose rules have these bodies, in order. -/
def ofBodies (bodies : List (Expr Handle)) : Registry :=
  ⟨(bodies.map some).toArray⟩

/-- The length of the longest sequence in the bodies. -/
def width (rules : Registry) : Nat :=
  Expr.widthAll (rules.bodies.toList.filterMap id)

/-- The first rule that was declared and not defined. -/
def firstUndefined? (rules : Registry) : Option Handle :=
  (rules.bodies.findIdx? Option.isNone).map Handle.mk

end Registry

end ChartGrammar
