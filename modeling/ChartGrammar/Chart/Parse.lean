/-
  Chart/Parse.lean --- parsing a whole input with a rule of a registry.
-/
import ChartGrammar.Chart.Call

set_option autoImplicit false

namespace ChartGrammar

/-- The failure that a chart reports: what was expected at the furthest position, or
the end of the input if some rule got further than every expectation. -/
def Chart.report (c : Chart) (input : Array Token) : ParseError :=
  let unexpected := fun (pos : Nat) (expected : List String) =>
    ParseError.unexpected (input[pos]?.map Token.position) (input[pos]?.map Token.char) expected
  if c.furthest < c.reached then unexpected c.reached ["end of input"]
  else unexpected c.furthest c.expected

/-- The outcome of a parse, given the results of the root at the start of the
input. -/
def Chart.conclude (c : Chart) (input : Array Token) (results : Results) :
    Except ParseError Value :=
  match c.mismatch with
  | some ctor => .error (.shapeMismatch ctor)
  | none =>
    match results.find? fun r => r.1 == input.size with
    | some (_, .node n) =>
      match n.build with
      | .ok v => .ok v
      | .error ctor => .error (.shapeMismatch ctor)
    | some _ => .error (.unexpected none none ["a labeled rule at the root"])
    | none => .error (c.report input)

/-- The outcome of a parse, and the rules that took several rounds, in the order in
which they settled. -/
structure Report where
  outcome : Except ParseError Value
  settled : List Settled

namespace Registry

/-- Parse all the tokens with the rule of a handle, on a given amount of fuel.  Every
rule that was issued needs a body.  There is no report if the fuel runs out. -/
def run? (rules : Registry) (fuel : Nat) (root : Handle) (tokens : List Token) :
    Option Report :=
  if root.index < rules.size then
    match rules.firstUndefined? with
    | some handle => some ⟨.error (.undefined handle), []⟩
    | none =>
      let input := tokens.toArray
      match (call rules input fuel root 0).run {} with
      | some (results, c) => some ⟨c.conclude input results, c.settled.reverse⟩
      | none => none
  else some ⟨.error (.unknownHandle root), []⟩

/-- Fuel for an input of a given length, enough for every run that ends.

Rules nest at most once per key, that is, per handle and position.  As to rounds: how
a run goes on is decided by what the chart holds of each key.  That is whether the key
is finished, provisional, growing or read; what it depends on, a set of keys; and its
ends in order, each with the kind of its derivation, for fields their number.  All this
fits into `state` bits.  A rule that finds the chart as it was in an earlier round never
settles, so one that settles takes at most `2 ^ state` rounds. -/
def fuelFor (rules : Registry) (length : Nat) : Nat :=
  let positions := length + 1
  let keys := rules.size * positions
  let found := positions * (rules.width + 8)
  let state := keys * (3 + keys + positions * found)
  keys + state + 1

/-- Parse all the tokens with the rule of a handle, and report. -/
def parseReport (rules : Registry) (root : Handle) (tokens : List Token) : Report :=
  (rules.run? (rules.fuelFor tokens.length) root tokens).getD ⟨.error .unsettled, []⟩

/-- Parse all the tokens with the rule of a handle. -/
def parse (rules : Registry) (root : Handle) (tokens : List Token) : Except ParseError Value :=
  (rules.parseReport root tokens).outcome

end Registry

end ChartGrammar
