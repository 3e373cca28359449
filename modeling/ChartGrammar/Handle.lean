/-
  Handle.lean --- names for rules of a registry.
-/
set_option autoImplicit false

namespace ChartGrammar

/-- The name of a rule in a registry, given out before the rule has a body. -/
structure Handle where
  index : Nat
  deriving DecidableEq, Repr, Inhabited

/-- The text of a handle. -/
def Handle.render (h : Handle) : String := "#" ++ toString h.index

end ChartGrammar
