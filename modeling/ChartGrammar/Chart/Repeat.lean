/-
  Chart/Repeat.lean --- repetition as a search.

  A rule that means "nothing, or an item and then the rule again" reaches an end
  for every chain of items.  Run as written it would nest as deep as the chain is
  long; here the positions are searched depth first, in the order in which the
  item reaches them, and every position is visited once.  An item that consumed
  nothing is not repeated.
-/
import ChartGrammar.Chart.State

set_option autoImplicit false

namespace ChartGrammar

namespace Repeat

/-- A position together with the items that lead to it. -/
abbrev Stop := Nat × Chain Node

/-- Where one more item leads from a stop.  Only a labelled item that consumed
something counts. -/
def onward (stop : Stop) (found : Results) : List Stop :=
  found.filterMap fun r =>
    match r with
    | (e, .node n) => if e = stop.1 then none else some (e, stop.2.snoc n)
    | _ => none

/-- Visit the stops on the stack that have not been seen, and what lies behind
them.  `room` bounds how many positions may still be visited; `visited` holds the
stops so far, the latest first. -/
def search (item : Nat → ChartM Results) (room : Nat) (stack : List Stop)
    (seen : Std.HashSet Nat) (visited : List Stop) : ChartM (List Stop) :=
  match stack.dropWhile fun stop => seen.contains stop.1 with
  | [] => pure visited.reverse
  | stop :: rest =>
    match room with
    | 0 => failure
    | room + 1 => do
      let found ← item stop.1
      search item room (onward stop found ++ rest) (seen.insert stop.1) (stop :: visited)

end Repeat

/-- The results of repeating an item from a start: a list for every position that
items lead to, the start itself included.  An input of `length` tokens has
`length + 1` positions. -/
def repeatItem (length : Nat) (item : Nat → ChartM Results) (start : Nat) : ChartM Results :=
  return (← Repeat.search item (length + 1) [(start, .empty)] ∅ []).map
    fun stop => (stop.1, .list stop.2)

end ChartGrammar
