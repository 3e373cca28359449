/-
  CompileError.lean --- why a grammar could not be compiled.
-/
set_option autoImplicit false

namespace ChartGrammar

/-- Why a grammar could not be compiled. -/
inductive CompileError where
  /-- a rule needs something that does not exist -/
  | unresolved (rule reference : String)
  /-- a name is bound twice -/
  | duplicateBinding (ident : String)
  /-- a product is classified nonempty, and none of its fields is -/
  | malformedProduct (rule : String)
  deriving DecidableEq, Repr, Inhabited

/-- The message of a compile error. -/
def CompileError.message : CompileError → String
  | unresolved rule reference =>
    "'" ++ rule ++ "' references '" ++ reference ++ "', which has no matching binding"
  | duplicateBinding ident =>
    "'" ++ ident ++ "' is bound more than once in one binding group"
  | malformedProduct rule =>
    "'" ++ rule ++ "' is classified nonempty but none of its fields is"

end ChartGrammar
