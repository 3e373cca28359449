/-
  ParseError.lean --- why a parse gave no value.
-/
import ChartGrammar.Constructor
import ChartGrammar.Handle

set_option autoImplicit false

namespace ChartGrammar

/-- Why a parse gave no value. -/
inductive ParseError where
  /-- the input does not continue as it should; position and character are absent at
  the end of the input -/
  | unexpected (position : Option Position) (found : Option Char) (expected : List String)
  /-- the registry never issued this handle -/
  | unknownHandle (handle : Handle)
  /-- the registry issued this handle, and nothing was defined for it -/
  | undefined (handle : Handle)
  /-- a constructor met something it does not accept -/
  | shapeMismatch (ctor : Constructor)
  /-- a rule went on finding new ends for longer than the fuel of the run allows -/
  | unsettled
  deriving DecidableEq, Repr, Inhabited

namespace ParseError

/-- The message of a parse error. -/
def message : ParseError → String
  | unexpected position found expected =>
    "unexpected " ++ (found.map Text.quoteChar).getD "end of input" ++
      " at " ++ (position.map Position.render).getD "end of input" ++
      ", expected " ++ (if expected.isEmpty then "nothing" else " or ".intercalate expected)
  | unknownHandle handle => "rule " ++ handle.render ++ " was not issued by this registry"
  | undefined handle => "rule " ++ handle.render ++ " was declared but never defined"
  | shapeMismatch ctor =>
    "constructor " ++ ctor.render ++ " applied to a value of the wrong shape"
  | unsettled => "the ends of a rule did not settle"

end ParseError

end ChartGrammar
