/-
  Yield/Basic.lean --- the tokens that a value holds.

  A rule whose values always hold a token gives its tokens as a nonempty list, so
  that whoever uses them need not check.
-/
import ChartGrammar.Token
import ChartGrammar.Yield.NonEmptyList

set_option autoImplicit false

namespace ChartGrammar

/-- The tokens of a value. -/
inductive Yield where
  /-- from a rule whose values need not hold a token -/
  | possiblyEmpty (tokens : List Token)
  /-- from a rule whose values always do -/
  | nonempty (tokens : NonEmptyList Token)
  deriving DecidableEq, Repr, Inhabited

namespace Yield

/-- The tokens in order. -/
def toList : Yield → List Token
  | possiblyEmpty ts => ts
  | nonempty ts => ts.toList

/-- Whether the tokens come as a nonempty list. -/
def isNonempty : Yield → Bool
  | possiblyEmpty _ => false
  | nonempty _ => true

/-- The same tokens without the promise that there are any. -/
def widen (t : Yield) : Yield := possiblyEmpty t.toList

/-- The tokens of several results, one after another.  Each result is copied in front
of what follows it; the last one is taken as it is. -/
def flatten (ts : List Yield) : List Token :=
  ts.foldr (fun t rest => if rest.isEmpty then t.toList else t.toList ++ rest) []

theorem flatten_eq_flatMap (ts : List Yield) : flatten ts = ts.flatMap toList := by
  induction ts with
  | nil => rfl
  | cons t ts ih =>
    rw [flatten, List.foldr_cons, ← flatten, ih, List.flatMap_cons]
    split
    · next h => rw [List.isEmpty_iff.1 h, List.append_nil]
    · rfl

/-- The text that the tokens spell. -/
def text (t : Yield) : String := Token.text t.toList

end Yield

end ChartGrammar
