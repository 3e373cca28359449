/-
  Chart/Call.lean --- running a rule, left recursion included.

  A rule reached again from inside its own body reads the ends found so far, at
  first none, and the body is run again as long as that brings a new end.
-/
import ChartGrammar.Chart.Eval
import ChartGrammar.Chart.Iterate

set_option autoImplicit false

namespace ChartGrammar

/-- Run a round of a rule: its results and what they depend on if it has settled;
otherwise another round is begun. -/
def growRound (key : Key) (body : ChartM Results) : ChartM (Option (Results × List Key)) := do
  let results ← body
  let deps ← modifyGet fun (c : Chart) => (c.deps.filter (· ≠ key), { c with deps := [] })
  if (← get).mustRegrow key results then
    modify (·.regrow key results deps)
    return none
  else
    return some (results, deps)

/-- Run the rule of a handle at a position.  The fuel bounds how deep rules may nest,
and the rounds that each of them may take: with `n` left, fewer than `2 ^ n`.  A
handle that the registry never issued finds nothing. -/
def call (rules : Registry) (input : Array Token) : Nat → Handle → Nat → ChartM Results
  | 0, _, _ => failure
  | fuel + 1, handle, start => do
    let key : Key := ⟨handle, start⟩
    match (← get).remembered? key with
    | some (results, c) =>
      set c
      return results
    | none =>
      match rules.get? handle with
      | none => return []
      | some body =>
        let outer ← modifyGet fun (c : Chart) => (c.deps, c.enter key)
        let round := growRound key (evalBody input (call rules input fuel) handle body start)
        let (results, deps) ← ChartM.untilAnswer round (fuel + 1)
        modify (·.leave key outer results deps)
        return results

end ChartGrammar
