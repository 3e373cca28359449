/-
  Chart/State.lean --- the state of one parse of one input.

  Results are remembered per rule and start.  A rule that is reached again from
  inside its own body, at the same start, is growing: it answers with the ends it
  has found so far, and whoever reads that answer depends on it.  An answer that
  depends on a growing rule is provisional, and is forgotten when the rule has
  found more.
-/
import Std.Data.TreeMap
import Std.Data.HashSet
import ChartGrammar.Chart.Derivation
import ChartGrammar.Registry

set_option autoImplicit false

namespace ChartGrammar

/-- A rule at a start position. -/
structure Key where
  handle : Handle
  start : Nat
  deriving DecidableEq, Repr, Inhabited

/-- Keys are ordered by start, then by handle. -/
def Key.order (a b : Key) : Ordering :=
  (compare a.start b.start).then (compare a.handle.index b.handle.index)

instance : Std.TransCmp Key.order :=
  inferInstanceAs (Std.TransCmp
    (compareLex (compareOn Key.start) (compareOn fun k => k.handle.index)))

instance : Std.LawfulEqCmp Key.order where
  eq_of_compare {a b} h := by
    obtain ⟨⟨i⟩, s⟩ := a
    obtain ⟨⟨j⟩, t⟩ := b
    simp only [Key.order, Ordering.then_eq_eq] at h
    rw [Std.LawfulEqOrd.eq_of_compare h.1, Std.LawfulEqOrd.eq_of_compare h.2]

/-- The ends that a parser reached from one start, each with the derivation that
reached it first, in the order in which they were found. -/
abbrev Results := List (Nat × Deriv)

/-- The finished results of a rule at a start. -/
structure Finished where
  results : Results
  /-- growing rules whose unfinished results were read -/
  deps : List Key
  deriving Inhabited

/-- The unfinished results of a growing rule. -/
structure Growth where
  results : Results
  deps : List Key
  /-- whether the results were read since they last changed -/
  readSince : Bool
  /-- which round is being run, the first being 1 -/
  round : Nat
  deriving Inhabited

/-- A rule that took more than one round to find all its ends. -/
structure Settled where
  key : Key
  rounds : Nat
  deriving DecidableEq, Repr, Inhabited

/-- The state of a parse. -/
structure Chart where
  /-- finished results -/
  finished : Std.TreeMap Key Finished Key.order := ∅
  /-- rules whose bodies are being run -/
  growing : Std.TreeMap Key Growth Key.order := ∅
  /-- finished results that depend on growing rules -/
  provisional : List Key := []
  /-- growing rules that the body now being run has read -/
  deps : List Key := []
  /-- the furthest position at which something was expected and not found -/
  furthest : Nat := 0
  /-- what was expected there, sorted and without repeats -/
  expected : List String := []
  /-- the first constructor that did not accept what it was given -/
  mismatch : Option Constructor := none
  /-- the rules that took several rounds, the latest first -/
  settled : List Settled := []

/-- A computation on a chart; it has no result when its fuel runs out. -/
abbrev ChartM := StateT Chart Option

/-- The first result for each end, among those whose end is not in `seen`. -/
def firstPerEndFrom {α : Type} (seen : Std.HashSet Nat) : List (Nat × α) → List (Nat × α)
  | [] => []
  | (e, a) :: rest =>
    if seen.contains e then firstPerEndFrom seen rest
    else (e, a) :: firstPerEndFrom (seen.insert e) rest

/-- The first result for each end, in order. -/
def firstPerEnd {α : Type} (results : List (Nat × α)) : List (Nat × α) :=
  firstPerEndFrom ∅ results

/-- Whether `after` has an end that `before` lacks. -/
def grew {α : Type} (before after : List (Nat × α)) : Bool :=
  let known := before.foldl (fun (s : Std.HashSet Nat) r => s.insert r.1) ∅
  after.any fun r => !known.contains r.1

/-- A text put into a sorted list, unless it is there already. -/
def insertSorted (s : String) : List String → List String
  | [] => [s]
  | t :: ts =>
    if s = t then t :: ts
    else if s < t then s :: t :: ts
    else t :: insertSorted s ts

namespace Chart

/-- Note what was expected at a position.  Only the furthest position counts. -/
def expect (c : Chart) (pos : Nat) (what : String) : Chart :=
  if c.furthest < pos then { c with furthest := pos, expected := [what] }
  else if pos = c.furthest then { c with expected := insertSorted what c.expected }
  else c

/-- Note a constructor that did not accept what it was given.  Only the first one
counts. -/
def noteMismatch (c : Chart) (ctor : Constructor) : Chart :=
  match c.mismatch with
  | none => { c with mismatch := some ctor }
  | some _ => c

/-- Make the body now being run depend on those of the given rules that are
growing. -/
def depend (c : Chart) (keys : List Key) : Chart :=
  let growing := c.growing
  { c with
    deps := keys.foldl
      (fun deps k => if growing.contains k && !deps.contains k then deps ++ [k] else deps)
      c.deps }

/-- Forget the provisional results that depend on a rule. -/
def forget (c : Chart) (key : Key) : Chart :=
  let step := fun (acc : Std.TreeMap Key Finished Key.order × List Key) (k : Key) =>
    match acc.1[k]? with
    | some entry => if entry.deps.contains key then (acc.1.erase k, acc.2) else (acc.1, k :: acc.2)
    | none => acc
  let (finished, kept) := c.provisional.foldl step (c.finished, [])
  { c with finished := finished, provisional := kept.reverse }

/-- Start to run the body of a rule: it has no results yet, and nothing has been
read. -/
def enter (c : Chart) (key : Key) : Chart :=
  { c with growing := c.growing.insert key ⟨[], [], false, 1⟩, deps := [] }

/-- Start another round of a growing rule with the results of the last one. -/
def regrow (c : Chart) (key : Key) (results : Results) (deps : List Key) : Chart :=
  forget { c with
    growing := c.growing.modify key fun growth => ⟨results, deps, false, growth.round + 1⟩ } key

/-- Whether a rule must run again: its unfinished results were read, and now there
are more ends. -/
def mustRegrow (c : Chart) (key : Key) (results : Results) : Bool :=
  match c.growing[key]? with
  | some growth => growth.readSince && grew growth.results results
  | none => false

/-- Note a rule that has stopped growing in a later round than the first. -/
def settle (c : Chart) (key : Key) : Chart :=
  match c.growing[key]? with
  | some growth =>
    if 1 < growth.round then { c with settled := ⟨key, growth.round⟩ :: c.settled } else c
  | none => c

/-- Keep the results of a rule that has stopped growing.  `outer` is what the body
around it had read before. -/
def leave (c : Chart) (key : Key) (outer : List Key) (results : Results) (deps : List Key) :
    Chart :=
  let c := c.settle key
  let c := { c with growing := c.growing.erase key, deps := outer }
  let c := c.depend deps
  { c with
    provisional := if deps.isEmpty then c.provisional else key :: c.provisional
    finished := c.finished.insert key ⟨results, deps⟩ }

/-- What is known of a rule at a start: its finished results, or those that it has
found so far.  Reading unfinished results makes the reader depend on them. -/
def remembered? (c : Chart) (key : Key) : Option (Results × Chart) :=
  match c.finished[key]? with
  | some entry => some (entry.results, c.depend entry.deps)
  | none =>
    match c.growing[key]? with
    | some growth =>
      let c := { c with growing := c.growing.insert key { growth with readSince := true } }
      some (growth.results, c.depend (growth.deps ++ [key]))
    | none => none

/-- The furthest end that any remembered result has. -/
def reached (c : Chart) : Nat :=
  c.finished.foldl (fun far _ entry => entry.results.foldl (fun far r => max far r.1) far) 0

end Chart

end ChartGrammar
