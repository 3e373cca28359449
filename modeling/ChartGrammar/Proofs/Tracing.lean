/-
  Proofs/Tracing.lean --- runs that keep a log.

  A run shows only the chart that it ends with, and a run without an end shows nothing.  Here
  every function of the chart is run once more, in a computation that logs each chart that it
  writes, each position that it begins to run something at, and each list of results that it
  returns for a position; the log is kept when the fuel runs out.  A logging computation
  mirrors a plain one if it has the same outcome.  That, what holds of every logged event and
  what holds of the outcome are proved in one go, by one rule for each way in which
  computations are put together.
-/
import ChartGrammar.Chart.Call

set_option autoImplicit false

namespace ChartGrammar

/-! ## Logs -/

/-- What can be seen of a run. -/
inductive Event where
  /-- a chart is written -/
  | chart (c : Chart)
  /-- something is run at a position -/
  | begun (start : Nat)
  /-- what it has found there -/
  | found (start : Nat) (results : Results)

/-- A computation on a chart that keeps a log, also if it has no result. -/
def LogM (α : Type) : Type := Chart → List Event × Option (α × Chart)

namespace LogM

variable {α β : Type}

instance : Monad LogM where
  pure a := fun c => ([], some (a, c))
  bind m f := fun c =>
    match m c with
    | (log, none) => (log, none)
    | (log, some (a, d)) => (log ++ (f a d).1, (f a d).2)

/-- Whatever writes a chart logs it. -/
instance : MonadStateOf Chart LogM where
  get := fun c => ([], some (c, c))
  set d := fun _ => ([.chart d], some (.unit, d))
  modifyGet f := fun c => ([.chart (f c).2], some (f c))

/-- No result. -/
def fail : LogM α := fun _ => ([], none)

/-- Log an event. -/
def see (e : Event) : LogM Unit := fun c => ([e], some ((), c))

/-- Log a position at which something is run, and what it finds there. -/
def announce (start : Nat) (m : LogM Results) : LogM Results := do
  see (.begun start)
  let results ← m
  see (.found start results)
  return results

/-- Take a step until it gives an answer, at most `n` times. -/
def repeatUpTo (step : LogM (Option α)) : Nat → LogM (Option α)
  | 0 => pure none
  | n + 1 => do
    match ← step with
    | some a => return some a
    | none => repeatUpTo step n

/-- Take a step until it gives an answer, at most `2 ^ fuel - 1` times. -/
def untilAnswer (step : LogM (Option α)) (fuel : Nat) : LogM α := do
  match ← repeatUpTo step (Nat.pow 2 fuel - 1) with
  | some a => return a
  | none => fail

end LogM

/-! ## Logged runs -/

namespace Logged

open LogM

def gather {α β : Type} (f : α → LogM (List β)) : List α → LogM (List β)
  | [] => pure []
  | a :: as => do
    let bs ← f a
    let rest ← gather f as
    return bs ++ rest

def missing {α : Type} (pos : Nat) (what : String) : LogM (List α) := do
  modify (·.expect pos what)
  return []

def construct (ctor : Constructor) (rs : Results) : LogM Results := do
  unless rs.all fun r => ctor.fits r.2 do
    modify (·.noteMismatch ctor)
  return rs.filterMap fun r => (Node.make? ctor r.2).map fun n => (r.1, .node n)

def evalPair (join : Node → Chain Node → Deriv) (head tail : Nat → LogM Results)
    (start : Nat) : LogM Results := do
  let heads ← head start
  let joined ← gather (fun (mid, n) => do
    let tails ← tail mid
    return (Results.lists tails).map fun (e, items) => (e, join n items)) (Results.nodes heads)
  return firstPerEnd joined

def extendFields (field : Nat → LogM Results) (partials : List (Nat × List Node)) :
    LogM (List (Nat × List Node)) := do
  let next ← gather (fun (pos, ns) => do
    let found ← field pos
    return (Results.nodes found).map fun (e, n) => (e, n :: ns)) partials
  return firstPerEnd next

mutual

/-- Run an expression at a position, and log what it finds. -/
def eval (input : Array Token) (call : Handle → Nat → LogM Results) :
    Expr Handle → Nat → LogM Results
  | .ref h, start => announce start (call h start)
  | .matchOne p, start => announce start <|
    match input[start]? with
    | some t => if p.test t.char then pure [(start + 1, .token t)] else missing start p.render
    | none => missing start p.render
  | .symbol literal, start => announce start <|
    match spell input literal.toList start with
    | .ok ts => pure [(start + ts.length, .tokens ts)]
    | .error pos => missing pos (Text.quote literal)
  | .unit, start => announce start (pure [(start, .fields [])])
  | .nothing, start => announce start (pure [(start, .nothing)])
  | .nil, start => announce start (pure [(start, .list .empty)])
  | .just e, start => announce start do
    let found ← eval input call e start
    return (Results.nodes found).map fun (pos, n) => (pos, .just n)
  | .alt a b, start => announce start do
    let left ← eval input call a start
    let right ← eval input call b start
    return firstPerEnd (left ++ right)
  | .seq es, start => announce start do
    let found ← evalFields input call es [(start, [])]
    return found.map fun (pos, ns) => (pos, .fields ns.reverse)
  | .cons a b, start => announce start <|
    evalPair (fun n items => .list (items.cons n)) (eval input call a) (eval input call b) start
  | .pair a b, start => announce start <|
    evalPair .pair (eval input call a) (eval input call b) start
  | .map ctor e, start => announce start do
    construct ctor (← eval input call e start)
  | .label description e, start => announce start do
    let found ← eval input call e start
    if found.isEmpty then missing start description else return found

def evalFields (input : Array Token) (call : Handle → Nat → LogM Results) :
    List (Expr Handle) → List (Nat × List Node) → LogM (List (Nat × List Node))
  | [], partials => pure partials
  | e :: es, partials => do
    let next ← extendFields (eval input call e) partials
    if next.isEmpty then return [] else evalFields input call es next

end

def search (item : Nat → LogM Results) (room : Nat) (stack : List Repeat.Stop)
    (seen : Std.HashSet Nat) (visited : List Repeat.Stop) : LogM (List Repeat.Stop) :=
  match stack.dropWhile fun stop => seen.contains stop.1 with
  | [] => pure visited.reverse
  | stop :: rest =>
    match room with
    | 0 => fail
    | room + 1 => do
      let found ← item stop.1
      search item room (Repeat.onward stop found ++ rest) (seen.insert stop.1) (stop :: visited)

/-- Repeat an item from a position, and log what that finds. -/
def repeatItem (length : Nat) (item : Nat → LogM Results) (start : Nat) : LogM Results :=
  announce start do
    return (← search item (length + 1) [(start, .empty)] ∅ []).map
      fun stop => (stop.1, .list stop.2)

def evalBody (input : Array Token) (call : Handle → Nat → LogM Results) (handle : Handle)
    (body : Expr Handle) (start : Nat) : LogM Results :=
  match repeatedItem? handle body with
  | some item => repeatItem input.size (eval input call item) start
  | none => eval input call body start

def growRound (key : Key) (body : LogM Results) : LogM (Option (Results × List Key)) := do
  let results ← body
  let deps ← modifyGet fun (c : Chart) => (c.deps.filter (· ≠ key), { c with deps := [] })
  if (← get).mustRegrow key results then
    modify (·.regrow key results deps)
    return none
  else
    return some (results, deps)

/-- Run the rule of a handle at a position, and log what it finds. -/
def call (rules : Registry) (input : Array Token) : Nat → Handle → Nat → LogM Results
  | 0, _, _ => fail
  | fuel + 1, handle, start => announce start do
    let key : Key := ⟨handle, start⟩
    match (← get).remembered? key with
    | some (results, c) =>
      set c
      return results
    | none =>
      match rules.get? handle with
      | none => return []
      | some body =>
        let outer ← modifyGet fun (c : Chart) => (c.deps, c.enter key)
        let round := growRound key (evalBody input (call rules input fuel) handle body start)
        let (results, deps) ← untilAnswer round (fuel + 1)
        modify (·.leave key outer results deps)
        return results

end Logged

/-- Everything that can be seen of a run of a rule on some tokens and some fuel, from the empty
chart on, and its outcome. -/
def Registry.trace (rules : Registry) (fuel : Nat) (root : Handle) (tokens : List Token) :
    List Event × Option (Results × Chart) :=
  ((LogM.see (.chart {}) >>= fun _ => Logged.call rules tokens.toArray fuel root 0) : LogM Results)
    {}

/-! ## Mirrored runs -/

namespace LogM

variable {α β : Type} {G : Event → Prop} {I : Chart → Prop}

/-- From charts that satisfy `I` a logging computation has the same outcome as a plain one, it
logs only events that satisfy `G`, and a result and its chart satisfy `J`. -/
def Mirrors (G : Event → Prop) (I : Chart → Prop) (m : LogM α) (m' : ChartM α)
    (J : α → Chart → Prop) : Prop :=
  ∀ c, I c → (m c).2 = m'.run c ∧ (∀ e ∈ (m c).1, G e) ∧
    ∀ a d, m'.run c = some (a, d) → J a d

theorem mirrors_pure {a : α} {J : α → Chart → Prop} (h : ∀ c, I c → J a c) :
    Mirrors G I (pure a) (pure a) J := by
  refine fun c hc => ⟨rfl, fun e he => absurd he List.not_mem_nil, fun b d hrun => ?_⟩
  cases hrun
  exact h c hc

theorem mirrors_fail {J : α → Chart → Prop} : Mirrors G I fail failure J :=
  fun _ _ => ⟨rfl, fun _ he => absurd he List.not_mem_nil, nofun⟩

theorem bind_of_none {m : LogM α} {c : Chart} {log : List Event} (f : α → LogM β)
    (h : m c = (log, none)) : (m >>= f) c = (log, none) := by
  simp only [bind, h]

theorem bind_of_some {m : LogM α} {a : α} {c d : Chart} {log : List Event} (f : α → LogM β)
    (h : m c = (log, some (a, d))) : (m >>= f) c = (log ++ (f a d).1, (f a d).2) := by
  simp only [bind, h]

theorem mirrors_bind {m : LogM α} {m' : ChartM α} {f : α → LogM β} {f' : α → ChartM β}
    {J : α → Chart → Prop} {P : β → Chart → Prop} (hm : Mirrors G I m m' J)
    (hf : ∀ a, Mirrors G (J a) (f a) (f' a) P) : Mirrors G I (m >>= f) (m' >>= f') P := by
  intro c hc
  obtain ⟨hsame, hlog, hpost⟩ := hm c hc
  have hrun : (m' >>= f').run c = (m'.run c).bind fun r => (f' r.1).run r.2 := StateT.run_bind ..
  rcases hmc : m c with ⟨log, _ | ⟨a, d⟩⟩
  · rw [hmc] at hsame hlog
    rw [bind_of_none f hmc, hrun, ← hsame]
    exact ⟨rfl, hlog, nofun⟩
  · rw [hmc] at hsame hlog
    obtain ⟨hsame', hlog', hpost'⟩ := hf a d (hpost a d hsame.symm)
    rw [bind_of_some f hmc, hrun, ← hsame]
    exact ⟨hsame', List.forall_mem_append.mpr ⟨hlog, hlog'⟩, hpost'⟩

theorem mirrors_get : Mirrors G I (get : LogM Chart) get fun c d => c = d ∧ I d := by
  refine fun c hc => ⟨rfl, fun e he => absurd he List.not_mem_nil, fun a d hrun => ?_⟩
  cases hrun
  exact ⟨rfl, hc⟩

theorem mirrors_modifyGet {f : Chart → α × Chart} {J : α → Chart → Prop}
    (hf : ∀ c, I c → G (.chart (f c).2) ∧ J (f c).1 (f c).2) :
    Mirrors G I (modifyGet f) (modifyGet f) J := by
  refine fun c hc => ⟨rfl, fun e he => ?_, fun a d hrun => ?_⟩
  · rw [List.mem_singleton.mp he]
    exact (hf c hc).1
  · have heq : f c = (a, d) := Option.some.inj hrun
    have hd := (hf c hc).2
    rwa [heq] at hd

theorem mirrors_modify {f : Chart → Chart} {J : Chart → Prop}
    (hf : ∀ c, I c → G (.chart (f c)) ∧ J (f c)) :
    Mirrors G I (modify f) (modify f) fun _ d => J d :=
  mirrors_modifyGet hf

theorem mirrors_set {d : Chart} {J : Chart → Prop} (hd : G (.chart d) ∧ J d) :
    Mirrors G I (set d) (set d) fun _ d => J d := by
  refine fun c _ => ⟨rfl, fun e he => ?_, fun a d' hrun => ?_⟩
  · rw [List.mem_singleton.mp he]
    exact hd.1
  · cases hrun
    exact hd.2

theorem Mirrors.imp {m : LogM α} {m' : ChartM α} {J J' : α → Chart → Prop} {I' : Chart → Prop}
    (h : Mirrors G I m m' J) (hI : ∀ c, I' c → I c) (hJ : ∀ a d, J a d → J' a d) :
    Mirrors G I' m m' J' := by
  intro c hc
  obtain ⟨hsame, hlog, hpost⟩ := h c (hI c hc)
  exact ⟨hsame, hlog, fun a d hrun => hJ a d (hpost a d hrun)⟩

/-- An announced computation has the same outcome. -/
theorem Mirrors.announce {start : Nat} {m : LogM Results} {m' : ChartM Results}
    {J : Results → Chart → Prop} (h : Mirrors G I m m' J) (hbegun : G (.begun start))
    (hfound : ∀ results d, J results d → G (.found start results)) :
    Mirrors G I (announce start m) m' J := by
  intro c hc
  obtain ⟨hsame, hlog, hpost⟩ := h c hc
  rcases hmc : m c with ⟨log, _ | ⟨results, d⟩⟩
  · have hrun : LogM.announce start m c = (.begun start :: log, none) := by
      simp [LogM.announce, see, bind, hmc]
    rw [hmc] at hsame hlog
    rw [hrun]
    exact ⟨hsame, List.forall_mem_cons.mpr ⟨hbegun, hlog⟩, hpost⟩
  · have hrun : LogM.announce start m c =
        (.begun start :: (log ++ [.found start results]), some (results, d)) := by
      simp [LogM.announce, see, bind, pure, hmc]
    rw [hmc] at hsame hlog
    rw [hrun]
    refine ⟨hsame, List.forall_mem_cons.mpr ⟨hbegun, ?_⟩, hpost⟩
    refine List.forall_mem_append.mpr ⟨hlog, fun e he => ?_⟩
    rw [List.mem_singleton.mp he]
    exact hfound results d (hpost results d hsame.symm)

/-! ## Invariants -/

/-- A mirrored computation that keeps an invariant, and whose results are as promised. -/
def Keeps (G : Event → Prop) (I : Chart → Prop) (m : LogM α) (m' : ChartM α) (Q : α → Prop) :
    Prop :=
  Mirrors G I m m' fun a d => I d ∧ Q a

theorem keeps_pure {a : α} {Q : α → Prop} (h : Q a) : Keeps G I (pure a) (pure a) Q :=
  mirrors_pure fun _ hc => ⟨hc, h⟩

theorem keeps_bind {m : LogM α} {m' : ChartM α} {f : α → LogM β} {f' : α → ChartM β}
    {Q : α → Prop} {P : β → Prop} (hm : Keeps G I m m' Q)
    (hf : ∀ a, Q a → Keeps G I (f a) (f' a) P) : Keeps G I (m >>= f) (m' >>= f') P :=
  mirrors_bind hm fun a c hc => hf a hc.2 c hc.1

theorem keeps_modify {f : Chart → Chart} (hf : ∀ c, I c → G (.chart (f c)) ∧ I (f c)) :
    Keeps G I (modify f) (modify f) fun _ => True :=
  (mirrors_modify hf).imp (fun _ hc => hc) fun _ _ hd => ⟨hd, trivial⟩

theorem keeps_repeatUpTo {step : LogM (Option α)} {step' : ChartM (Option α)} {Q : α → Prop}
    (hstep : Keeps G I step step' fun answer => ∀ a, answer = some a → Q a) (n : Nat) :
    Keeps G I (repeatUpTo step n) (ChartM.repeatUpTo step' n)
      fun answer => ∀ a, answer = some a → Q a := by
  induction n with
  | zero => exact keeps_pure nofun
  | succ n ih =>
    refine keeps_bind hstep fun answer hanswer => ?_
    cases answer with
    | none => exact ih
    | some a => exact keeps_pure hanswer

theorem keeps_untilAnswer {step : LogM (Option α)} {step' : ChartM (Option α)} {Q : α → Prop}
    (hstep : Keeps G I step step' fun answer => ∀ a, answer = some a → Q a) (fuel : Nat) :
    Keeps G I (untilAnswer step fuel) (ChartM.untilAnswer step' fuel) Q := by
  rw [ChartM.untilAnswer_eq]
  refine keeps_bind (keeps_repeatUpTo hstep _) fun answer hanswer => ?_
  cases answer with
  | none => exact mirrors_fail
  | some a => exact keeps_pure (hanswer a rfl)

end LogM

end ChartGrammar
