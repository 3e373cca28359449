/-
  Yield/Terminalizer.lean --- from values back to tokens.

  A terminalizer accepts the values of one rule and gives back the tokens they
  hold.  It walks a value with an explicit stack, so that values may be nested as
  deep as memory allows.
-/
import ChartGrammar.Grammar.Reachable
import ChartGrammar.Value
import ChartGrammar.Yield.Rule

set_option autoImplicit false

namespace ChartGrammar

/-- Why a value has no tokens to give back. -/
inductive TerminalizeError where
  /-- a value of another rule or kind; both are given by kind and rule -/
  | unexpectedValue (expectedKind expectedRule foundKind foundRule : String)
  | unknownBranch (rule label : String)
  | arityMismatch (rule : String) (expected found : Nat)
  /-- a literal is not spelled, or no token where there must be one -/
  | inconsistent (rule : String)
  deriving DecidableEq, Repr, Inhabited

/-- The message of a terminalize error. -/
def TerminalizeError.message : TerminalizeError → String
  | unexpectedValue expectedKind expectedRule foundKind foundRule =>
    "expected a value built by " ++ expectedKind ++ " '" ++ expectedRule ++ "', found " ++
      foundKind ++ " '" ++ foundRule ++ "'"
  | unknownBranch rule label => "'" ++ rule ++ "' has no branch named '" ++ label ++ "'"
  | arityMismatch rule expected found =>
    "'" ++ rule ++ "' expects " ++ toString expected ++ " fields, found " ++ toString found
  | inconsistent rule =>
    "'" ++ rule ++ "' produced a value that disagrees with its nonempty classification"

/-- Yield rules that refer to each other. -/
abbrev YieldTable := Group (YieldRule Slot)

namespace YieldRule

/-- The fields of a product, each with the yield rule planned for it. -/
def pairFields (rule : String) (plan : JoinPlan Slot) (fields : List Value) :
    Except TerminalizeError (List (Slot × Value)) :=
  if plan.arity = fields.length then
    .ok ((plan.parts.map Part.target).zip fields)
  else .error (.arityMismatch rule plan.arity fields.length)

/-- Check a value by itself, and say which yield rules the values below it are for.  A
product also gives the plan for joining them. -/
def descend (p : YieldRule Slot) (v : Value) :
    Except TerminalizeError (Option (JoinPlan Slot) × List (Slot × Value)) :=
  let unexpected := TerminalizeError.unexpectedValue p.projection.kind p.rule v.kind v.rule
  if v.rule = p.rule then
    match p.projection, v with
    | .terminal, .terminal _ _ => .ok (none, [])
    | .series _, .series _ _ => .ok (none, [])
    | .choice branches, .branch _ label fields =>
      match branches.lookup label with
      | none => .error (.unknownBranch p.rule label)
      | some plan =>
        match pairFields p.rule plan fields with
        | .ok below => .ok (some plan, below)
        | .error e => .error e
    | .record plan, .record _ fields =>
      match pairFields p.rule plan fields with
      | .ok below => .ok (some plan, below)
      | .error e => .error e
    | .wrap part, .wrap _ inner => .ok (none, [(part.target, inner)])
    | .opt _, .opt _ none => .ok (none, [])
    | .opt part, .opt _ (some inner) => .ok (none, [(part.target, inner)])
    | .star part, .star _ items => .ok (none, items.map (part.target, ·))
    | .plus part, .plus _ head tail => .ok (none, (head :: tail).map (part.target, ·))
    | _, _ => .error unexpected
  else .error unexpected

/-- The tokens of a value before the promise of its rule is checked, given the results
of the values below it. -/
def combine (p : YieldRule Slot) (v : Value) (plan : Option (JoinPlan Slot))
    (results : List Yield) : Option Yield :=
  match plan with
  | some plan => plan.join results
  | none =>
    match p.projection, v with
    | .terminal, .terminal _ t => some (.nonempty (.singleton t))
    | .series literal, .series _ ts =>
      if ts.map Token.char = literal.toList then
        match NonEmptyList.ofList? ts with
        | some ts => some (.nonempty ts)
        | none => some (.possiblyEmpty [])
      else none
    | .star _, _ => some (.possiblyEmpty (Yield.flatten results))
    | .plus _, _ =>
      match results with
      | .nonempty head :: rest => some (.nonempty (head.append (Yield.flatten rest)))
      | .possiblyEmpty head :: rest => some (.possiblyEmpty (head ++ Yield.flatten rest))
      | [] => some (.possiblyEmpty [])
    | _, _ => some (results.headD (.possiblyEmpty []))

/-- The tokens of a value, given the results of the values below it.  A nonempty rule
must have a nonempty result; any other result is widened. -/
def ascend (p : YieldRule Slot) (v : Value) (plan : Option (JoinPlan Slot))
    (results : List Yield) : Except TerminalizeError Yield :=
  match p.combine v plan results with
  | none => .error (.inconsistent p.rule)
  | some out =>
    if p.nonempty then
      if out.isNonempty then .ok out else .error (.inconsistent p.rule)
    else .ok out.widen

end YieldRule

/-- Gives back the tokens of the values of one rule. -/
structure Terminalizer where
  table : YieldTable
  root : Slot

namespace Terminalizer

/-! ## Walking a value -/

/-- One step of the walk that is still to be done. -/
inductive Step where
  | enter (slot : Slot) (v : Value)
  /-- `below` is the number of values directly below -/
  | leave (slot : Slot) (v : Value) (plan : Option (JoinPlan Slot)) (below : Nat)

/-- The room that a step still takes, for the termination of the walk. -/
noncomputable def Step.weight : Step → Nat
  | enter _ v => 2 * sizeOf v
  | leave _ _ _ _ => 1

/-- The step that enters a value below. -/
def Step.below (p : Slot × Value) : Step := .enter p.1 p.2

/-- The room that pending steps take together. -/
noncomputable def Step.weights : List Step → Nat
  | [] => 0
  | s :: steps => s.weight + weights steps

/-- The size of values taken together. -/
noncomputable def sizes : List (Slot × Value) → Nat
  | [] => 0
  | p :: below => sizeOf p.2 + sizes below

theorem weights_below_append (below : List (Slot × Value)) (steps : List Step) :
    Step.weights (below.map Step.below ++ steps) = 2 * sizes below + Step.weights steps := by
  induction below with
  | nil => simp only [List.map_nil, List.nil_append, sizes, Nat.mul_zero, Nat.zero_add]
  | cons p below ih =>
    simp only [List.map_cons, List.cons_append, Step.weights, ih, Step.below, Step.weight, sizes]
    omega

theorem sizes_zip_lt (slots : List Slot) (vs : List Value) :
    sizes (slots.zip vs) < sizeOf vs := by
  induction vs generalizing slots with
  | nil =>
    simp only [List.zip_nil_right, sizes, List.nil.sizeOf_spec]
    omega
  | cons v vs ih =>
    cases slots with
    | nil =>
      simp only [List.zip_nil_left, sizes, List.cons.sizeOf_spec]
      omega
    | cons s slots =>
      have := ih slots
      simp only [List.zip_cons_cons, sizes, List.cons.sizeOf_spec]
      omega

theorem sizes_map_lt (s : Slot) (vs : List Value) : sizes (vs.map (s, ·)) < sizeOf vs := by
  induction vs with
  | nil =>
    simp only [List.map_nil, sizes, List.nil.sizeOf_spec]
    omega
  | cons v vs ih =>
    simp only [List.map_cons, sizes, List.cons.sizeOf_spec]
    omega

theorem sizes_pairFields_lt {rule : String} {plan : JoinPlan Slot} {fields : List Value}
    {below : List (Slot × Value)} (h : YieldRule.pairFields rule plan fields = .ok below) :
    sizes below < sizeOf fields := by
  unfold YieldRule.pairFields at h
  split at h
  · cases h
    exact sizes_zip_lt _ _
  · cases h

theorem sizes_descend_lt {p : YieldRule Slot} {v : Value} {plan : Option (JoinPlan Slot)}
    {below : List (Slot × Value)} (h : p.descend v = .ok (plan, below)) :
    sizes below < sizeOf v := by
  unfold YieldRule.descend at h
  simp only at h
  split at h
  · split at h
    · cases h
      simp only [sizes, Value.terminal.sizeOf_spec]
      omega
    · cases h
      simp only [sizes, Value.series.sizeOf_spec]
      omega
    · split at h
      · cases h
      · split at h
        · next hp =>
          cases h
          have := sizes_pairFields_lt hp
          simp only [Value.branch.sizeOf_spec]
          omega
        · cases h
    · split at h
      · next hp =>
        cases h
        have := sizes_pairFields_lt hp
        simp only [Value.record.sizeOf_spec]
        omega
      · cases h
    · cases h
      simp only [sizes, Value.wrap.sizeOf_spec]
      omega
    · cases h
      simp only [sizes, Value.opt.sizeOf_spec]
      omega
    · cases h
      simp only [sizes, Value.opt.sizeOf_spec, Option.some.sizeOf_spec]
      omega
    · next part _ items _ _ =>
      cases h
      have := sizes_map_lt part.target items
      simp only [Value.star.sizeOf_spec]
      omega
    · next part _ head tail _ _ =>
      cases h
      have := sizes_map_lt part.target (head :: tail)
      simp only [Value.plus.sizeOf_spec, List.cons.sizeOf_spec] at *
      omega
    · cases h
  · cases h

/-- Work off the pending steps.  The results so far are held with the latest first. -/
def walk (table : YieldTable) :
    List Step → List Yield → Except TerminalizeError (List Yield)
  | [], done => .ok done
  | .enter slot v :: steps, done =>
    match _h : (table.get slot).descend v with
    | .error e => .error e
    | .ok (plan, below) =>
      walk table (below.map Step.below ++ .leave slot v plan below.length :: steps) done
  | .leave slot v plan below :: steps, done =>
    match (table.get slot).ascend v plan (done.take below).reverse with
    | .error e => .error e
    | .ok out => walk table steps (out :: done.drop below)
termination_by steps => Step.weights steps
decreasing_by
  · have := sizes_descend_lt _h
    simp only [weights_below_append, Step.weights, Step.weight]
    omega
  · simp only [Step.weights, Step.weight]
    omega

/-- The rule whose values are accepted. -/
def rule (t : Terminalizer) : String := (t.table.get t.root).rule

/-- Whether every result is nonempty. -/
def nonempty (t : Terminalizer) : Bool := (t.table.get t.root).nonempty

/-- The tokens of a value. -/
def terminalize (t : Terminalizer) (v : Value) : Except TerminalizeError Yield :=
  match walk t.table [.enter t.root v] [] with
  | .error e => .error e
  | .ok (out :: _) => .ok out
  | .ok [] => .error (.inconsistent t.rule)

/-- A terminalizer as diagnostics show it. -/
def render (t : Terminalizer) : String :=
  "Terminalizer \x7b rule: " ++ Text.quote t.rule ++ ", nonempty: " ++ toString t.nonempty ++
    " \x7d"

/-! ## Compiling -/

/-- The yield rules of everything that some roots reach; the roots are the body of the
group. -/
def compileTable (sig : Signature) (g : Grammar) (roots : List RuleId) :
    Except CompileError YieldTable := do
  roots.forM fun root => discard (g.rule root)
  let analysis := NonEmptiness.analyze g
  let compile : CompileM (List (Binding (YieldRule Ident)) × List Ident) := do
    let bindings ← (g.reachable roots).mapM (compileYieldRule sig g analysis)
    return (bindings, ← CompileM.rules g roots)
  let ((bindings, idents), _) ← compile.run {}
  Group.closeYieldRules bindings idents

/-- Terminalizers for some roots, in order, over one table. -/
def compileAll (sig : Signature) (g : Grammar) (roots : List RuleId) :
    Except CompileError (List Terminalizer) := do
  let table ← compileTable sig g roots
  return table.body.map fun slot => ⟨table, slot⟩

/-- The terminalizer for a root. -/
def compile (sig : Signature) (g : Grammar) (root : RuleId) :
    Except CompileError Terminalizer := do
  let table ← compileTable sig g [root]
  return ⟨table, table.body.headD ⟨0⟩⟩

end Terminalizer

end ChartGrammar
