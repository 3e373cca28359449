/-
  Proofs/Remembered.lean --- what holds of everything that a chart remembers.

  Finished results and the results of growing rules are all found by running bodies.
  So a property of results that running a body keeps, given that references have it,
  holds of every result in every chart of every run, whatever was read, forgotten and
  grown again in between.
-/
import ChartGrammar.Proofs.Ensures

set_option autoImplicit false

namespace ChartGrammar

open ChartM

namespace Chart

/-- All results in a chart satisfy `P`, and what the chart noted as a mismatch satisfies
`M`. -/
structure Holds (P : Handle → Nat → Results → Prop) (M : Option Constructor → Prop)
    (c : Chart) : Prop where
  finished : ∀ (k : Key) (entry : Finished), c.finished[k]? = some entry →
    P k.handle k.start entry.results
  growing : ∀ (k : Key) (growth : Growth), c.growing[k]? = some growth →
    P k.handle k.start growth.results
  mismatch : M c.mismatch

variable {P : Handle → Nat → Results → Prop} {M : Option Constructor → Prop} {c : Chart}

theorem holds_empty (hM : M none) : Holds P M {} := by
  refine ⟨?_, ?_, hM⟩
  · intro k entry h
    exact absurd h (by simp)
  · intro k growth h
    exact absurd h (by simp)

/-! ## Operations on a chart -/

theorem Holds.depend (h : c.Holds P M) (keys : List Key) : (c.depend keys).Holds P M :=
  ⟨h.finished, h.growing, h.mismatch⟩

theorem Holds.expect (h : c.Holds P M) (pos : Nat) (what : String) :
    (c.expect pos what).Holds P M := by
  unfold Chart.expect
  split
  · exact ⟨h.finished, h.growing, h.mismatch⟩
  · split
    · exact ⟨h.finished, h.growing, h.mismatch⟩
    · exact h

theorem Holds.noteMismatch (h : c.Holds P M) {ctor : Constructor} (hM : M (some ctor)) :
    (c.noteMismatch ctor).Holds P M := by
  unfold Chart.noteMismatch
  split
  · exact ⟨h.finished, h.growing, hM⟩
  · exact h

theorem Holds.enter (h : c.Holds P M) {key : Key} (hnil : P key.handle key.start []) :
    (c.enter key).Holds P M := by
  refine ⟨h.finished, ?_, h.mismatch⟩
  intro k growth hk
  simp only [Chart.enter, Std.TreeMap.getElem?_insert] at hk
  split at hk
  · next heq =>
    cases Std.LawfulEqCmp.eq_of_compare heq
    cases hk
    exact hnil
  · exact h.growing k growth hk

theorem Holds.settle (h : c.Holds P M) (key : Key) : (c.settle key).Holds P M := by
  unfold Chart.settle
  split
  · split
    · exact ⟨h.finished, h.growing, h.mismatch⟩
    · exact h
  · exact h

/-- Keep the entry of a key, unless it depends on a rule. -/
def dropEntry (key : Key) (acc : Std.TreeMap Key Finished Key.order × List Key) (k : Key) :
    Std.TreeMap Key Finished Key.order × List Key :=
  match acc.1[k]? with
  | some entry => if entry.deps.contains key then (acc.1.erase k, acc.2) else (acc.1, k :: acc.2)
  | none => acc

/-- Forgetting only takes results away. -/
theorem finished_of_forget {key k : Key} {entry : Finished}
    (h : (c.forget key).finished[k]? = some entry) : c.finished[k]? = some entry := by
  have hfold : ∀ (ks : List Key) (acc : Std.TreeMap Key Finished Key.order × List Key),
      (∀ e, acc.1[k]? = some e → c.finished[k]? = some e) →
      ∀ e, (ks.foldl (dropEntry key) acc).1[k]? = some e → c.finished[k]? = some e := by
    intro ks
    induction ks with
    | nil => exact fun acc hacc => hacc
    | cons k' ks ih =>
      intro acc hacc
      refine ih _ fun e he => ?_
      unfold dropEntry at he
      split at he
      · split at he
        · rw [Std.TreeMap.getElem?_erase] at he
          split at he
          · cases he
          · exact hacc e he
        · exact hacc e he
      · exact hacc e he
  exact hfold c.provisional (c.finished, []) (fun e he => he) entry h

theorem Holds.regrow (h : c.Holds P M) {key : Key} {results : Results} (deps : List Key)
    (hresults : P key.handle key.start results) : (c.regrow key results deps).Holds P M := by
  refine ⟨?_, ?_, h.mismatch⟩
  · intro k entry hk
    exact h.finished k entry (finished_of_forget hk)
  · intro k growth hk
    have hk' : (c.growing.modify key fun growth =>
        ⟨results, deps, false, growth.round + 1⟩)[k]? = some growth := hk
    rw [Std.TreeMap.getElem?_modify] at hk'
    split at hk'
    · next heq =>
      cases Std.LawfulEqCmp.eq_of_compare heq
      obtain ⟨old, -, rfl⟩ := Option.map_eq_some_iff.mp hk'
      exact hresults
    · exact h.growing k growth hk'

theorem Holds.leave (h : c.Holds P M) {key : Key} {results : Results} (outer deps : List Key)
    (hresults : P key.handle key.start results) :
    (c.leave key outer results deps).Holds P M := by
  have hsettle := h.settle key
  refine ⟨?_, ?_, hsettle.mismatch⟩
  · intro k entry hk
    simp only [Chart.leave, Std.TreeMap.getElem?_insert] at hk
    split at hk
    · next heq =>
      cases Std.LawfulEqCmp.eq_of_compare heq
      cases hk
      exact hresults
    · exact hsettle.finished k entry hk
  · intro k growth hk
    have hk' : ((c.settle key).growing.erase key)[k]? = some growth := hk
    rw [Std.TreeMap.getElem?_erase] at hk'
    split at hk'
    · cases hk'
    · exact hsettle.growing k growth hk'

theorem Holds.remembered (h : c.Holds P M) {key : Key} {results : Results} {c' : Chart}
    (hrem : c.remembered? key = some (results, c')) :
    c'.Holds P M ∧ P key.handle key.start results := by
  unfold Chart.remembered? at hrem
  split at hrem
  · next entry hentry =>
    cases hrem
    exact ⟨h.depend _, h.finished key entry hentry⟩
  · split at hrem
    · next growth hgrowth =>
      cases hrem
      have hresults := h.growing key growth hgrowth
      refine ⟨⟨h.finished, ?_, h.mismatch⟩, hresults⟩
      intro k growth' hk
      simp only [Chart.depend, Std.TreeMap.getElem?_insert] at hk
      split at hk
      · next heq =>
        cases Std.LawfulEqCmp.eq_of_compare heq
        cases hk
        exact hresults
      · exact h.growing k growth' hk
    · cases hrem

end Chart

/-! ## Runs of rules -/

variable {P : Handle → Nat → Results → Prop} {M : Option Constructor → Prop}

theorem ensures_growRound (key : Key) {body : ChartM Results}
    (hbody : Ensures (Chart.Holds P M) body (P key.handle key.start)) :
    Ensures (Chart.Holds P M) (growRound key body) fun answer =>
      ∀ a, answer = some a → P key.handle key.start a.1 := by
  refine ensures_bind hbody fun results hresults => ?_
  refine ensures_bind (ensures_modifyGet fun c hc => ⟨hc.finished, hc.growing, hc.mismatch⟩)
    fun deps _ => ?_
  refine ensures_bind ensures_get fun c _ => ?_
  split
  · refine ensures_bind (ensures_modify fun c hc => hc.regrow deps hresults) fun _ _ => ?_
    refine ensures_pure ?_
    intro a ha
    cases ha
  · refine ensures_pure ?_
    intro a ha
    cases ha
    exact hresults

/-- What running a body ensures of its results, given that references ensure it, every
call ensures. -/
theorem ensures_call {rules : Registry} {input : Array Token} (hnil : ∀ h s, P h s [])
    (hbody : ∀ h body, rules.get? h = some body → ∀ call : Handle → Nat → ChartM Results,
      (∀ h s, Ensures (Chart.Holds P M) (call h s) (P h s)) →
      ∀ s, Ensures (Chart.Holds P M) (evalBody input call h body s) (P h s)) (fuel : Nat) :
    ∀ h s, Ensures (Chart.Holds P M) (call rules input fuel h s) (P h s) := by
  induction fuel with
  | zero => exact fun h s => ensures_failure
  | succ fuel ih =>
    intro h s
    unfold call
    refine ensures_bind ensures_get fun c hc => ?_
    cases hrem : c.remembered? ⟨h, s⟩ with
    | some found =>
      obtain ⟨results, c'⟩ := found
      obtain ⟨hc', hresults⟩ := hc.remembered hrem
      exact ensures_bind (ensures_set hc') fun _ _ => ensures_pure hresults
    | none =>
      cases hget : rules.get? h with
      | none => exact ensures_pure (hnil h s)
      | some body =>
        refine ensures_bind (ensures_modifyGet fun c hc => hc.enter (hnil h s)) fun outer _ => ?_
        -- the references of the body are called with less fuel, which the induction covers
        have hround := ensures_growRound ⟨h, s⟩ (hbody h body hget _ ih s)
        refine ensures_bind (ensures_untilAnswer hround _) fun answer hanswer => ?_
        refine ensures_bind (ensures_modify fun c hc => hc.leave outer answer.2 hanswer)
          fun _ _ => ?_
        exact ensures_pure hanswer

end ChartGrammar
