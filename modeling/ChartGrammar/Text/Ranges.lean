/-
  Text/Ranges.lean --- sets of code points given by sorted ranges.

  A property of the Unicode standard is a set of code points.  The modules beside
  this one write each property that the library needs, as version 17.0 of the
  standard has it, as a list of closed ranges in ascending order, and membership
  is one walk along the list.
-/
set_option autoImplicit false

namespace ChartGrammar.Text

/-- Closed ranges of code points, in ascending order and apart from each other. -/
abbrev Ranges := List (Nat × Nat)

namespace Ranges

/-- Whether a code point lies in one of the ranges.  The walk stops at the first
range above it. -/
def contains : Ranges → Nat → Bool
  | [], _ => false
  | (lo, hi) :: rest, c =>
    if c < lo then false else if c ≤ hi then true else contains rest c

/-- Whether a code point is the first of some range, or an even distance above it
and still inside the range. -/
def containsEverySecond : Ranges → Nat → Bool
  | [], _ => false
  | (lo, hi) :: rest, c =>
    if c < lo then false
    else if c ≤ hi then (c - lo) % 2 == 0
    else containsEverySecond rest c

end Ranges

end ChartGrammar.Text
