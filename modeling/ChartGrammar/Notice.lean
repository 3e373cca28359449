/-
  Notice.lean --- what the library tells about its work.

  Computations do not write notices themselves.  A notice is read off from what
  went into a computation and what came out of it.
-/
import ChartGrammar.Language

set_option autoImplicit false

namespace ChartGrammar

/-- Something worth telling about a computation. -/
inductive Notice where
  /-- a rule took several rounds to find all its ends -/
  | settled (s : Settled)
  /-- the analysis of a grammar took this many passes -/
  | analyzed (rounds : Nat)
  /-- a parser was compiled -/
  | compiledParser (name : String) (rules bindings : Nat)
  /-- a product of parsers was compiled -/
  | compiledProduct (rules bindings : Nat)
  /-- terminalizers were compiled -/
  | compiledTerminalizers (roots rules : Nat)
  /-- a language is ready for use -/
  | ready (root : String) (rules : Nat)
  deriving DecidableEq, Repr, Inhabited

namespace Notice

/-- A notice as a line: its level, then its text. -/
def render : Notice → String
  | settled s =>
    "TRACE rule " ++ s.key.handle.render ++ " at " ++ toString s.key.start ++
      " settled after " ++ toString s.rounds ++ " rounds"
  | analyzed rounds => "TRACE non-emptiness settled after " ++ toString rounds ++ " rounds"
  | compiledParser name rules bindings =>
    "DEBUG compiled parser for '" ++ name ++ "': " ++ toString rules ++ " rules, " ++
      toString bindings ++ " bindings"
  | compiledProduct rules bindings =>
    "DEBUG compiled product over " ++ toString rules ++ " rules: " ++ toString bindings ++
      " bindings"
  | compiledTerminalizers roots rules =>
    "DEBUG compiled terminalizers for " ++ toString roots ++ " roots over " ++
      toString rules ++ " rules"
  | ready root rules =>
    "DEBUG language ready for '" ++ root ++ "' (" ++ toString rules ++ " rules)"

/-- What the analysis of a grammar tells. -/
def ofAnalysis (g : Grammar) : List Notice := [analyzed (NonEmptiness.analyze g).rounds]

/-- What compiling a parser tells. -/
def ofParser (sig : Signature) (g : Grammar) (root : RuleId) : List Notice :=
  match Parser.compile sig g root with
  | .ok p => [compiledParser p.name (g.reachable [root]).length p.rules.size]
  | .error _ => []

/-- What compiling a product tells. -/
def ofProduct (sig : Signature) (label : String → String) (g : Grammar)
    (roots : List RuleId) : List Notice :=
  match Product.compile sig label g roots with
  | .ok p => [compiledProduct (g.reachable roots).length p.rules.size]
  | .error _ => []

/-- What compiling terminalizers tells: the grammar is analyzed once all roots are
known to exist. -/
def ofTerminalizers (sig : Signature) (g : Grammar) (roots : List RuleId) : List Notice :=
  if roots.all g.contains then
    match Terminalizer.compileTable sig g roots with
    | .ok table => ofAnalysis g ++ [compiledTerminalizers roots.length table.size]
    | .error _ => ofAnalysis g
  else []

/-- What compiling a language tells. -/
def ofLanguage (l : Language) : List Notice :=
  ofParser l.sig l.grammar l.rootId ++ ofTerminalizers l.sig l.grammar [l.rootId] ++
    ofAnalysis l.grammar ++ [ready l.root l.grammar.size]

/-- What a parse tells. -/
def ofSettled (settled : List Settled) : List Notice := settled.map Notice.settled

end Notice

end ChartGrammar
