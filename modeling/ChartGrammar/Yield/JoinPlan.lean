/-
  Yield/JoinPlan.lean --- joining the tokens of fields.

  A product that may be empty joins the tokens of its fields as they come.  A
  product that holds a token in every value has a field that does, and joins the
  others onto the first such field from both sides: the result is nonempty by
  construction.
-/
import ChartGrammar.CompileError
import ChartGrammar.Yield.Basic

set_option autoImplicit false

namespace ChartGrammar

/-- A reference to a rule, with the rule's classification. -/
structure Part (ρ : Type) where
  target : ρ
  nonempty : Bool
  deriving DecidableEq, Repr, Inhabited

/-- How the fields of a product are joined. -/
inductive JoinPlan (ρ : Type) where
  /-- as they come -/
  | flat (parts : List (Part ρ))
  /-- onto the first nonempty field -/
  | pivot (before : List (Part ρ)) (pivot : Part ρ) (after : List (Part ρ))
  deriving DecidableEq, Repr, Inhabited

/-- The same part with another reference, or the reference's failure. -/
def Part.resolve {ρ σ ε : Type} (f : ρ → Except ε σ) (p : Part ρ) : Except ε (Part σ) :=
  return ⟨← f p.target, p.nonempty⟩

namespace JoinPlan

variable {ρ σ ε : Type}

/-- The parts in the order of the fields. -/
def parts : JoinPlan ρ → List (Part ρ)
  | flat ps => ps
  | pivot before p after => before ++ p :: after

/-- The number of fields. -/
def arity : JoinPlan ρ → Nat
  | flat ps => ps.length
  | pivot before _ after => before.length + 1 + after.length

/-- How to join the fields of a rule, given whether it is nonempty. -/
def make (rule : String) (ps : List (Part ρ)) (nonempty : Bool) :
    Except CompileError (JoinPlan ρ) :=
  if nonempty then
    match ps.dropWhile fun p => !p.nonempty with
    | p :: after => .ok (pivot (ps.takeWhile fun p => !p.nonempty) p after)
    | [] => .error (.malformedProduct rule)
  else .ok (flat ps)

/-- The same plan over other references, or the first failure. -/
def resolve (f : ρ → Except ε σ) : JoinPlan ρ → Except ε (JoinPlan σ)
  | flat ps => return flat (← ps.mapM (Part.resolve f))
  | pivot before p after =>
    return pivot (← before.mapM (Part.resolve f)) (← p.resolve f)
      (← after.mapM (Part.resolve f))

/-- Join the results of the fields.  There is no result if the field to join onto has
none that is nonempty. -/
def join (plan : JoinPlan ρ) (results : List Yield) : Option Yield :=
  match plan with
  | flat _ => some (.possiblyEmpty (Yield.flatten results))
  | pivot before _ _ =>
    match results.drop before.length with
    | .nonempty ts :: after =>
      some (.nonempty ((ts.prepend (Yield.flatten (results.take before.length))).append
        (Yield.flatten after)))
    | _ => none

end JoinPlan

end ChartGrammar
