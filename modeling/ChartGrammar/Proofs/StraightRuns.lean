/-
  Proofs/StraightRuns.lean --- runs in which no rule is reached again inside itself.

  `straightCall` runs rules as `call` does, but gives up as soon as a rule is reached at a
  position at which it is already being run.  A run that it brings to an end is straight,
  and then `call` does the same.  On a straight run nobody reads unfinished results, so a
  property that running a body brings about holds of everything that is remembered, even if
  it does not hold of no results.
-/
import ChartGrammar.Proofs.EnoughFuel
import ChartGrammar.Proofs.Lookahead

set_option autoImplicit false

namespace ChartGrammar

open ChartM

/-- Run the rule of a handle at a position as `call` does, and give up if the rule is being run
there already. -/
def straightCall (rules : Registry) (input : Array Token) : Nat → Handle → Nat → ChartM Results
  | 0, _, _ => failure
  | fuel + 1, handle, start => do
    let key : Key := ⟨handle, start⟩
    let c ← get
    if c.growing.contains key then failure
    else
      match c.remembered? key with
      | some (results, c) =>
        set c
        return results
      | none =>
        match rules.get? handle with
        | none => return []
        | some body =>
          let outer ← modifyGet fun (c : Chart) => (c.deps, c.enter key)
          let round := growRound key
            (evalBody input (straightCall rules input fuel) handle body start)
          let (results, deps) ← ChartM.untilAnswer round (fuel + 1)
          modify (·.leave key outer results deps)
          return results

/-- On an input no rule is reached again, from the root on, at a position at which it is being
run. -/
def Registry.RunsStraight (rules : Registry) (root : Handle) (tokens : List Token) : Prop :=
  ∃ fuel results c, (straightCall rules tokens.toArray fuel root 0).run {} = some (results, c)

/-! ## Straight runs are runs -/

section Straight

variable {rules : Registry} {input : Array Token}

/-- How a straight call ends: with finished results, for want of a body, or after the rounds of
a body. -/
theorem straightCall_cases {fuel : Nat} {h : Handle} {i : Nat} {c d : Chart} {results : Results}
    (hrun : (straightCall rules input (fuel + 1) h i).run c = some (results, d)) :
    c.growing.contains ⟨h, i⟩ = false ∧ (c.remembered? ⟨h, i⟩ = some (results, d) ∨
      c.remembered? ⟨h, i⟩ = none ∧ ((rules.get? h = none ∧ results = [] ∧ d = c) ∨
        ∃ body deps settled, rules.get? h = some body ∧
          (untilAnswer (growRound ⟨h, i⟩
            (evalBody input (straightCall rules input fuel) h body i)) (fuel + 1)).run
              (c.enter ⟨h, i⟩) = some ((results, deps), settled) ∧
          d = settled.leave ⟨h, i⟩ c.deps results deps)) := by
  rw [straightCall, StateT.run_bind] at hrun
  obtain ⟨⟨c₀, _⟩, hget, hrun⟩ := Option.bind_eq_some_iff.mp hrun
  cases hget
  dsimp only at hrun
  split at hrun
  · cases hrun
  · next hgrowing =>
    refine ⟨Bool.eq_false_iff.mpr hgrowing, ?_⟩
    split at hrun
    · next results' c₁ hremembered =>
      cases hrun
      exact .inl hremembered
    · next hremembered =>
      refine .inr ⟨hremembered, ?_⟩
      split at hrun
      · next hbody =>
        cases hrun
        exact .inl ⟨hbody, rfl, rfl⟩
      · next body hbody =>
        rw [StateT.run_bind] at hrun
        obtain ⟨⟨outer, entered⟩, henter, hrun⟩ := Option.bind_eq_some_iff.mp hrun
        cases henter
        dsimp only at hrun
        rw [StateT.run_bind] at hrun
        obtain ⟨⟨⟨found, deps⟩, settled⟩, hrounds, hrun⟩ := Option.bind_eq_some_iff.mp hrun
        cases hrun
        exact .inr ⟨body, deps, settled, hbody, hrounds, rfl⟩

/-- What ends straight ends the same way without the guard. -/
theorem simulates_straightCall (fuel : Nat) : ∀ (K : Finset Key) (h : Handle) (s : Nat),
    s ≤ input.size → Simulates (Chart.Twins rules input.size K) (straightCall rules input fuel h s)
      (call rules input fuel h s) (Results.Same rules input.size) := by
  induction fuel with
  | zero => exact fun _ _ _ _ => simulates_failure
  | succ fuel ih =>
    intro K h s hs c c' results d hc hrun
    obtain rfl := hc.eq
    obtain ⟨-, hfound | ⟨hfresh, ⟨hbody, rfl, rfl⟩ |
      ⟨body, deps, settled, hbody, hrounds, rfl⟩⟩⟩ := straightCall_cases hrun
    · obtain ⟨⟨results', d'⟩, hfound', hakin, hd⟩ :=
        exists_of_rel_some (hc.bounded.remembered ⟨h, s⟩) hfound
      cases hfound.symm.trans hfound'
      refine ⟨results, d, run_call_of_remembered hfound, ⟨rfl, hd, fun k => ?_⟩,
        Results.same_iff.mpr ⟨rfl, hakin⟩⟩
      rw [Chart.contains_growing_remembered hfound k]
      exact hc.growing k
    · exact ⟨[], _, run_call_of_undefined hfresh hbody, hc, matches_nil⟩
    · have hrange : Key.InRange rules input.size ⟨h, s⟩ := ⟨Registry.index_lt_of_get? hbody, hs⟩
      have hnew : (⟨h, s⟩ : Key) ∉ K :=
        fun hmem => Chart.not_growing_of_fresh hfresh ((hc.growing _).mpr hmem)
      have hround := simulates_round_twins hbody hs (ih (insert ⟨h, s⟩ K))
      obtain ⟨⟨results', deps'⟩, settled', hrounds', hd, hresults, hdeps, hkeys⟩ :=
        simulates_untilAnswer hround (fuel + 1) _ _ _ _ (hc.enter hrange hfresh) hrounds
      obtain rfl := hd.eq
      obtain ⟨heq, hakin⟩ := Results.same_iff.mp hresults
      dsimp only at heq hdeps
      subst heq hdeps
      exact ⟨results, _, run_call_of_body hfresh hbody hrounds',
        hd.leave hrange hnew hc.bounded.deps hakin hkeys, hresults⟩

/-- A straight run is a run. -/
theorem Registry.runs_of_straightCall {root : Handle} {tokens : List Token} {fuel : Nat}
    {results : Results} {c : Chart}
    (hrun : (straightCall rules tokens.toArray fuel root 0).run {} = some (results, c)) :
    rules.Runs root tokens results c := by
  obtain ⟨results', c', hcall, hc, hresults⟩ :=
    simulates_straightCall fuel ∅ root 0 (Nat.zero_le _) _ _ _ _ Chart.twins_empty hrun
  obtain rfl := hc.eq
  obtain ⟨rfl, -⟩ := Results.same_iff.mp hresults
  refine run_call_of_fuel ?_ hcall
  rw [List.size_toArray]
  exact Nat.min_le_right _ _

end Straight

/-! ## What holds of everything that is finished -/

/-- All finished results in a chart satisfy `P`. -/
def Chart.Finishes (P : Handle → Nat → Results → Prop) (c : Chart) : Prop :=
  ∀ (k : Key) entry, c.finished[k]? = some entry → P k.handle k.start entry.results

section Finishes

variable {P : Handle → Nat → Results → Prop} {c d : Chart} {key : Key}

theorem Chart.finishes_empty : Chart.Finishes P {} := by
  intro k entry h
  exact absurd h (by simp)

theorem Chart.Finishes.of_eq (h : c.Finishes P) (heq : d.finished = c.finished) :
    d.Finishes P := by
  unfold Finishes
  rwa [heq]

theorem Chart.Finishes.regrow (h : c.Finishes P) (results : Results) (deps : List Key) :
    (c.regrow key results deps).Finishes P :=
  fun k entry hk => h k entry (finished_of_forget hk)

theorem Chart.Finishes.leave (h : c.Finishes P) {results : Results} (outer deps : List Key)
    (hresults : P key.handle key.start results) :
    (c.leave key outer results deps).Finishes P := by
  intro k entry hk
  rw [lookup_leave] at hk
  split at hk
  · next heq =>
    cases hk
    exact heq ▸ hresults
  · exact h k entry hk

/-- Of a rule that is not being run, finished results are remembered or none. -/
theorem Chart.finished_of_not_growing {results : Results}
    (hgrowing : c.growing.contains key = false) (h : c.remembered? key = some (results, d)) :
    ∃ entry, c.finished[key]? = some entry ∧ entry.results = results := by
  unfold remembered? at h
  split at h
  · next entry hentry =>
    cases h
    exact ⟨entry, hentry, rfl⟩
  · split at h
    · next growth hgrowth =>
      rw [Std.TreeMap.contains_eq_isSome_getElem?, hgrowth] at hgrowing
      cases hgrowing
    · cases h

theorem ensures_growRound_finishes (key : Key) {body : ChartM Results}
    (hbody : Ensures (Chart.Finishes P) body (P key.handle key.start)) :
    Ensures (Chart.Finishes P) (growRound key body) fun answer =>
      ∀ a, answer = some a → P key.handle key.start a.1 := by
  refine ensures_bind hbody fun results hresults => ?_
  refine ensures_bind (ensures_modifyGet fun c hc => hc.of_eq rfl) fun deps _ => ?_
  refine ensures_bind ensures_get fun c _ => ?_
  split
  · refine ensures_bind (ensures_modify fun c hc => hc.regrow results deps) fun _ _ => ?_
    refine ensures_pure ?_
    intro a ha
    cases ha
  · refine ensures_pure ?_
    intro a ha
    cases ha
    exact hresults

/-- What running a body ensures of its results, given that references ensure it, every
straight call ensures. -/
theorem ensures_straightCall {rules : Registry} {input : Array Token}
    (hundefined : ∀ h s, rules.get? h = none → P h s [])
    (hbody : ∀ h body, rules.get? h = some body → ∀ call : Handle → Nat → ChartM Results,
      (∀ h s, Ensures (Chart.Finishes P) (call h s) (P h s)) →
      ∀ s, Ensures (Chart.Finishes P) (evalBody input call h body s) (P h s)) (fuel : Nat) :
    ∀ h s, Ensures (Chart.Finishes P) (straightCall rules input fuel h s) (P h s) := by
  induction fuel with
  | zero => exact fun h s => ensures_failure
  | succ fuel ih =>
    intro h s c results d hc hrun
    obtain ⟨hgrowing, hfound | ⟨-, ⟨hget, rfl, rfl⟩ |
      ⟨body, deps, settled, hget, hrounds, rfl⟩⟩⟩ := straightCall_cases hrun
    · obtain ⟨entry, hentry, rfl⟩ := Chart.finished_of_not_growing hgrowing hfound
      exact ⟨hc.of_eq (Chart.finished_of_remembered hfound).1, hc ⟨h, s⟩ entry hentry⟩
    · exact ⟨hc, hundefined h s hget⟩
    · have hround := ensures_growRound_finishes ⟨h, s⟩ (hbody h body hget _ ih s)
      have henter : (c.enter ⟨h, s⟩).Finishes P := hc.of_eq rfl
      obtain ⟨hsettled, hresults⟩ :=
        ensures_untilAnswer hround (fuel + 1) _ _ _ henter hrounds
      exact ⟨hsettled.leave c.deps deps hresults, hresults⟩

end Finishes

end ChartGrammar
