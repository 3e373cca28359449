/-
  Chart/Eval.lean --- running an expression at a position.

  What happens at a reference is left open: the functions here take it as an
  argument.  The chart closes the recursion in one way, by remembering results;
  any other way of answering references gives an evaluator too.
-/
import ChartGrammar.Chart.Repeat

set_option autoImplicit false

namespace ChartGrammar

/-- The tokens that spell `cs` from a position on, or the first position at which
the input has something else. -/
def spell (input : Array Token) : List Char → Nat → Except Nat (List Token)
  | [], _ => .ok []
  | c :: cs, pos =>
    match input[pos]? with
    | some t =>
      if t.char = c then
        match spell input cs (pos + 1) with
        | .ok ts => .ok (t :: ts)
        | .error far => .error far
      else .error pos
    | none => .error pos

/-- The results of a computation on every member of a list, one after another. -/
def gather {α β : Type} (f : α → ChartM (List β)) : List α → ChartM (List β)
  | [] => pure []
  | a :: as => do
    let bs ← f a
    let rest ← gather f as
    return bs ++ rest

/-- Note that something was expected, and find nothing. -/
def missing {α : Type} (pos : Nat) (what : String) : ChartM (List α) := do
  modify (·.expect pos what)
  return []

namespace Results

/-- The results that are nodes. -/
def nodes (rs : Results) : List (Nat × Node) :=
  rs.filterMap fun r =>
    match r with
    | (e, .node n) => some (e, n)
    | _ => none

/-- The results that are lists. -/
def lists (rs : Results) : List (Nat × Chain Node) :=
  rs.filterMap fun r =>
    match r with
    | (e, .list items) => some (e, items)
    | _ => none

end Results

/-- A constructor on top of every result that it accepts.  If there is a result that it
does not accept, the constructor is noted. -/
def construct (ctor : Constructor) (rs : Results) : ChartM Results := do
  unless rs.all fun r => ctor.fits r.2 do
    modify (·.noteMismatch ctor)
  return rs.filterMap fun r => (Node.make? ctor r.2).map fun n => (r.1, .node n)

/-- A first part that is a node, then a second part that is a list, joined. -/
def evalPair (join : Node → Chain Node → Deriv) (head tail : Nat → ChartM Results)
    (start : Nat) : ChartM Results := do
  let heads ← head start
  let joined ← gather (fun (mid, n) => do
    let tails ← tail mid
    return (Results.lists tails).map fun (e, items) => (e, join n items)) (Results.nodes heads)
  return firstPerEnd joined

/-- Every partial list of fields with one field more.  Fields are held with the
latest first. -/
def extendFields (field : Nat → ChartM Results) (partials : List (Nat × List Node)) :
    ChartM (List (Nat × List Node)) := do
  let next ← gather (fun (pos, ns) => do
    let found ← field pos
    return (Results.nodes found).map fun (e, n) => (e, n :: ns)) partials
  return firstPerEnd next

mutual

/-- Run an expression at a position, with `call` for references to rules. -/
def eval (input : Array Token) (call : Handle → Nat → ChartM Results) :
    Expr Handle → Nat → ChartM Results
  | .ref h, start => call h start
  | .matchOne p, start =>
    match input[start]? with
    | some t => if p.test t.char then pure [(start + 1, .token t)] else missing start p.render
    | none => missing start p.render
  | .symbol literal, start =>
    match spell input literal.toList start with
    | .ok ts => pure [(start + ts.length, .tokens ts)]
    | .error pos => missing pos (Text.quote literal)
  | .unit, start => pure [(start, .fields [])]
  | .nothing, start => pure [(start, .nothing)]
  | .nil, start => pure [(start, .list .empty)]
  | .just e, start => do
    let found ← eval input call e start
    return (Results.nodes found).map fun (pos, n) => (pos, .just n)
  | .alt a b, start => do
    let left ← eval input call a start
    let right ← eval input call b start
    return firstPerEnd (left ++ right)
  | .seq es, start => do
    let found ← evalFields input call es [(start, [])]
    return found.map fun (pos, ns) => (pos, .fields ns.reverse)
  | .cons a b, start =>
    evalPair (fun n items => .list (items.cons n)) (eval input call a) (eval input call b) start
  | .pair a b, start => evalPair .pair (eval input call a) (eval input call b) start
  | .map ctor e, start => do construct ctor (← eval input call e start)
  | .label description e, start => do
    let found ← eval input call e start
    if found.isEmpty then missing start description else return found

/-- Run the fields of a sequence one after another, until none is left or a field
is found nowhere. -/
def evalFields (input : Array Token) (call : Handle → Nat → ChartM Results) :
    List (Expr Handle) → List (Nat × List Node) → ChartM (List (Nat × List Node))
  | [], partials => pure partials
  | e :: es, partials => do
    let next ← extendFields (eval input call e) partials
    if next.isEmpty then return [] else evalFields input call es next

end

/-- The item of a rule whose body is "nothing, or an item and then the rule
again". -/
def repeatedItem? (handle : Handle) : Expr Handle → Option (Expr Handle)
  | .alt .nil (.cons item (.ref h)) => if h = handle then some item else none
  | _ => none

/-- Run the body of a rule: a repetition by searching, anything else as written. -/
def evalBody (input : Array Token) (call : Handle → Nat → ChartM Results) (handle : Handle)
    (body : Expr Handle) (start : Nat) : ChartM Results :=
  match repeatedItem? handle body with
  | some item => repeatItem input.size (eval input call item) start
  | none => eval input call body start

end ChartGrammar
