/-
  Grammar/Reachable.lean --- the rules that a grammar reaches from some of its rules.

  The rules are listed in the order in which a walk first meets them: depth first,
  a rule before the rules that it refers to, and these from left to right.  The
  walk keeps its pending rules on a stack.
-/
import ChartGrammar.Grammar.Basic

set_option autoImplicit false

namespace ChartGrammar.Grammar

/-- Visit the rules on the stack that are new, and what they reach.  `room` bounds
how many rules may still be visited; `visited` holds the rules so far, the latest
first. -/
def walkReachable (g : Grammar) (room : Nat) (stack visited : List RuleId) : List RuleId :=
  match stack.dropWhile fun id => visited.contains id || !g.contains id with
  | [] => visited.reverse
  | id :: rest =>
    match room with
    | 0 => visited.reverse
    | room + 1 =>
      let children := ((g.get? id).map fun r => r.rhs.children).getD []
      g.walkReachable room (children ++ rest) (id :: visited)

/-- The rules that can be reached from some roots, each once.  Places without a rule
are skipped. -/
def reachable (g : Grammar) (roots : List RuleId) : List RuleId :=
  g.walkReachable g.size roots []

end ChartGrammar.Grammar
