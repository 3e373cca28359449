/-
  Proofs/PlainEvaluation.lean --- remembering is invisible without left recursion.

  The plain evaluator answers a reference by running the body that it refers to, as often
  as it is asked.  It ends only where no rule is reached again from inside itself at the
  same position.  There the chart finds what the plain evaluator finds: the same ends in
  the same order with the same derivations, and the same reasons for a failure.

  The chart skips what the plain evaluator does again.  Nothing is lost by that, because
  running a body again finds the same and notes nothing new: expectations, the first
  mismatch and the noted results are all there already.
-/
import Mathlib
import ChartGrammar.Proofs.EnoughFuel

set_option autoImplicit false

namespace ChartGrammar

open ChartM

/-- Note the results of a rule at a start, unless there are some already.  Nothing but the
report of a failure looks at them. -/
def Chart.note (c : Chart) (key : Key) (results : Results) : Chart :=
  if c.finished.contains key then c
  else { c with finished := c.finished.insert key ⟨results, []⟩ }

/-- Run the rule of a handle at a position with nothing remembered: a reference is answered
by running the body that it refers to.  The fuel bounds how deep rules may nest. -/
def plainCall (rules : Registry) (input : Array Token) : Nat → Handle → Nat → ChartM Results
  | 0, _, _ => failure
  | fuel + 1, handle, start =>
    match rules.get? handle with
    | none => return []
    | some body => do
      let results ← evalBody input (plainCall rules input fuel) handle body start
      modify (·.note ⟨handle, start⟩ results)
      return results

/-! ## Plain runs side by side -/

section Plain

variable {rules : Registry} {input : Array Token}

/-- The same results, each end once. -/
def Results.Equal (rules : Registry) : Results → Results → Prop :=
  Matches (fun _ => True) fun d d' => d = d' ∧ d.Akin rules.width d

theorem Results.Equal.eq {rs rs' : Results} (h : Results.Equal rules rs rs') : rs = rs' :=
  h.1.eq fun _ _ hd => hd.1

/-- How a plain run ends: its handle has no body, or its body is run and the results are
noted. -/
theorem plainCall_cases {fuel : Nat} {h : Handle} {s : Nat} {c d : Chart} {results : Results}
    (hrun : (plainCall rules input (fuel + 1) h s).run c = some (results, d)) :
    (rules.get? h = none ∧ results = [] ∧ d = c) ∨
      ∃ body d₀, rules.get? h = some body ∧
        (evalBody input (plainCall rules input fuel) h body s).run c = some (results, d₀) ∧
        d = d₀.note ⟨h, s⟩ results := by
  rw [plainCall] at hrun
  split at hrun
  · next hbody =>
    cases hrun
    exact .inl ⟨hbody, rfl, rfl⟩
  · next body hbody =>
    rw [StateT.run_bind] at hrun
    obtain ⟨⟨found, d₀⟩, hfound, hrest⟩ := Option.bind_eq_some_iff.mp hrun
    cases hrest
    exact .inr ⟨body, d₀, hbody, hfound, rfl⟩

/-- Plain runs look at nothing that a chart holds: they go the same way from any two charts,
and on more fuel. -/
theorem simulates_plainCall {R : Chart → Chart → Prop} (hR : KeepsNotes R)
    (hnote : ∀ c c' key results, R c c' → R (c.note key results) (c'.note key results))
    (fuel : Nat) : ∀ fuel' h s, fuel ≤ fuel' → Simulates R (plainCall rules input fuel h s)
      (plainCall rules input fuel' h s) (Results.Equal rules) := by
  induction fuel with
  | zero => exact fun _ _ _ _ => simulates_failure
  | succ fuel ih =>
    intro fuel' h s hle
    obtain ⟨fuel', rfl⟩ : ∃ n, fuel' = n + 1 := Nat.exists_eq_add_one.mpr (by omega)
    rw [plainCall, plainCall]
    split
    · exact simulates_pure matches_nil
    · next body hbody =>
      refine simulates_bind (simulates_evalBody hR (congruence_eq rules.width)
        (fun _ _ _ _ => trivial) (fun h s _ => ih fuel' h s (by omega)) h
        (Registry.width_le_of_get? hbody) trivial) fun results results' hresults => ?_
      obtain rfl := Results.Equal.eq hresults
      exact simulates_bind (simulates_modify fun c c' hc => hnote c c' _ _ hc)
        fun _ _ _ => simulates_pure hresults

variable {fuel fuel' : Nat} {h : Handle} {s : Nat} {c d : Chart} {results : Results}

/-- What a plain run finds from one chart it finds from every chart. -/
theorem exists_plainCall (hrun : (plainCall rules input fuel h s).run c = some (results, d))
    (c' : Chart) : ∃ d', (plainCall rules input fuel h s).run c' = some (results, d') ∧
      Results.Equal rules results results := by
  have hsim : Simulates (fun _ _ => True) (plainCall rules input fuel h s)
      (plainCall rules input fuel h s) (Results.Equal rules) :=
    simulates_plainCall ⟨fun _ _ _ => trivial, fun _ _ => trivial⟩ (fun _ _ _ _ _ => trivial)
      fuel fuel h s le_rfl
  obtain ⟨results', d', hrun', -, hresults⟩ := hsim c c' results d trivial hrun
  obtain rfl := hresults.eq
  exact ⟨d', hrun', hresults⟩

/-- A plain run ends the same way on more fuel. -/
theorem plainCall_of_le (hrun : (plainCall rules input fuel h s).run c = some (results, d))
    (hle : fuel ≤ fuel') : (plainCall rules input fuel' h s).run c = some (results, d) := by
  have hsim : Simulates Eq (plainCall rules input fuel h s) (plainCall rules input fuel' h s)
      (Results.Equal rules) :=
    simulates_plainCall ⟨fun pos what hc => congrArg (·.expect pos what) hc,
      fun ctor hc => congrArg (·.noteMismatch ctor) hc⟩
      (fun _ _ key results hc => congrArg (·.note key results) hc) fuel fuel' h s hle
  obtain ⟨results', d', hrun', rfl, hresults⟩ := hsim c c results d rfl hrun
  obtain rfl := hresults.eq
  exact hrun'

/-- A plain run that fails on some fuel fails on less. -/
theorem plainCall_eq_none_of_le (hrun : (plainCall rules input fuel' h s).run c = none)
    (hle : fuel ≤ fuel') : (plainCall rules input fuel h s).run c = none := by
  refine Option.eq_none_iff_forall_ne_some.mpr fun found hfound => ?_
  rw [plainCall_of_le hfound hle] at hrun
  cases hrun

end Plain

/-! ## Noting the same again -/

theorem mem_insertSorted {s t : String} {ts : List String} :
    t ∈ insertSorted s ts ↔ t = s ∨ t ∈ ts := by
  induction ts with
  | nil => simp [insertSorted]
  | cons u ts ih =>
    unfold insertSorted
    split
    · next heq => simp [heq]
    · split
      · simp
      · simp only [List.mem_cons, ih]
        tauto

theorem pairwise_insertSorted {s : String} {ts : List String} (h : ts.Pairwise (· < ·)) :
    (insertSorted s ts).Pairwise (· < ·) := by
  induction ts with
  | nil => exact List.pairwise_singleton _ _
  | cons t ts ih =>
    obtain ⟨ht, hts⟩ := List.pairwise_cons.mp h
    unfold insertSorted
    split
    · exact h
    · next hne =>
      split
      · next hlt =>
        refine List.pairwise_cons.mpr ⟨fun u hu => ?_, h⟩
        rcases List.mem_cons.mp hu with rfl | hu
        · exact hlt
        · exact hlt.trans (ht u hu)
      · next hnlt =>
        refine List.pairwise_cons.mpr ⟨fun u hu => ?_, ih hts⟩
        rcases mem_insertSorted.mp hu with rfl | hu
        · exact (lt_or_gt_of_ne hne).resolve_left hnlt
        · exact ht u hu

theorem insertSorted_of_mem {s : String} {ts : List String} (h : ts.Pairwise (· < ·))
    (hs : s ∈ ts) : insertSorted s ts = ts := by
  induction ts with
  | nil => cases hs
  | cons t ts ih =>
    obtain ⟨ht, hts⟩ := List.pairwise_cons.mp h
    unfold insertSorted
    split
    · rfl
    · next hne =>
      have hmem := (List.mem_cons.mp hs).resolve_left hne
      rw [if_neg (lt_asymm (ht s hmem)), ih hts hmem]

namespace Chart

variable {c c' d T : Chart}

/-- Everything that one chart has noted is noted in the other. -/
structure Absorbs (T c : Chart) : Prop where
  expected : c.furthest < T.furthest ∨
    c.furthest = T.furthest ∧ ∀ what ∈ c.expected, what ∈ T.expected
  mismatch : c.mismatch ≠ none → T.mismatch ≠ none
  finished : ∀ k, c.finished.contains k = true → T.finished.contains k = true

theorem Absorbs.refl (c : Chart) : c.Absorbs c :=
  ⟨.inr ⟨rfl, fun _ h => h⟩, fun h => h, fun _ h => h⟩

theorem Absorbs.trans (hT : T.Absorbs d) (hd : d.Absorbs c) : T.Absorbs c where
  expected := by
    rcases hT.expected with hlt | ⟨heq, hsub⟩
    · rcases hd.expected with hlt' | ⟨heq', -⟩
      · exact .inl (hlt'.trans hlt)
      · exact .inl (heq' ▸ hlt)
    · rcases hd.expected with hlt' | ⟨heq', hsub'⟩
      · exact .inl (heq ▸ hlt')
      · exact .inr ⟨heq'.trans heq, fun what h => hsub what (hsub' what h)⟩
  mismatch h := hT.mismatch (hd.mismatch h)
  finished k h := hT.finished k (hd.finished k h)

theorem absorbs_expect (c : Chart) (pos : Nat) (what : String) : (c.expect pos what).Absorbs c := by
  unfold expect
  split
  · next hlt => exact ⟨.inl hlt, fun h => h, fun _ h => h⟩
  · split
    · exact ⟨.inr ⟨rfl, fun _ h => mem_insertSorted.mpr (.inr h)⟩, fun h => h, fun _ h => h⟩
    · exact Absorbs.refl c

theorem absorbs_noteMismatch (c : Chart) (ctor : Constructor) :
    (c.noteMismatch ctor).Absorbs c := by
  unfold noteMismatch
  split
  · exact ⟨.inr ⟨rfl, fun _ h => h⟩, fun _ => Option.some_ne_none ctor, fun _ h => h⟩
  · exact Absorbs.refl c

theorem absorbs_note (c : Chart) (key : Key) (results : Results) :
    (c.note key results).Absorbs c := by
  unfold note
  split
  · exact Absorbs.refl c
  · refine ⟨.inr ⟨rfl, fun _ h => h⟩, fun h => h, fun k h => ?_⟩
    rw [Std.TreeMap.contains_insert, h, Bool.or_true]

/-- What is noted already is not noted again. -/
theorem expect_of_absorbs (hsorted : T.expected.Pairwise (· < ·)) {pos : Nat} {what : String}
    (h : T.Absorbs (c.expect pos what)) : T.expect pos what = T := by
  have hnoted : pos < T.furthest ∨ pos = T.furthest ∧ what ∈ T.expected := by
    have hexpected := h.expected
    unfold expect at hexpected
    split at hexpected
    · exact hexpected.imp_right fun ⟨heq, hsub⟩ => ⟨heq, hsub what (List.mem_singleton_self what)⟩
    · split at hexpected
      · next heq =>
        exact hexpected.imp (fun hlt => heq ▸ hlt)
          fun ⟨heq', hsub⟩ => ⟨heq.trans heq', hsub what (mem_insertSorted.mpr (.inl rfl))⟩
      · next hnlt hne =>
        refine .inl ?_
        rcases hexpected with hlt | ⟨heq, -⟩ <;> omega
  unfold expect
  rcases hnoted with hlt | ⟨rfl, hmem⟩
  · rw [if_neg (by omega), if_neg (by omega)]
  · rw [if_neg (lt_irrefl _), if_pos rfl, insertSorted_of_mem hsorted hmem]

theorem noteMismatch_of_absorbs {ctor : Constructor} (h : T.Absorbs (c.noteMismatch ctor)) :
    T.noteMismatch ctor = T := by
  have hnoted : T.mismatch ≠ none := by
    refine h.mismatch ?_
    unfold noteMismatch
    split
    · exact Option.some_ne_none ctor
    · next hsome => rw [hsome]; exact Option.some_ne_none _
  obtain ⟨first, hfirst⟩ := Option.ne_none_iff_exists'.mp hnoted
  simp only [noteMismatch, hfirst]

theorem note_of_absorbs {key : Key} {results : Results} (h : T.Absorbs (c.note key results)) :
    T.note key results = T := by
  have hnoted : T.finished.contains key = true := by
    refine h.finished key ?_
    unfold note
    split
    · assumption
    · exact Std.TreeMap.contains_insert_self
  rw [note, if_pos hnoted]

end Chart

section Absorbed

variable {rules : Registry} {input : Array Token} {fuel fuel' : Nat} {h : Handle} {s : Nat}
  {c d T : Chart} {results : Results}

/-- Running a rule again changes nothing, once everything that it notes is noted. -/
theorem plainCall_of_absorbs (hsorted : T.expected.Pairwise (· < ·))
    (hrun : (plainCall rules input fuel h s).run c = some (results, d)) (hd : T.Absorbs d)
    (hle : fuel ≤ fuel') : (plainCall rules input fuel' h s).run T = some (results, T) := by
  have hsim : Simulates (fun c e => T.Absorbs c → e = T) (plainCall rules input fuel h s)
      (plainCall rules input fuel' h s) (Results.Equal rules) := by
    refine simulates_plainCall ⟨?_, ?_⟩ ?_ fuel fuel' h s hle
    · intro c e pos what hc hT
      rw [hc (hT.trans (c.absorbs_expect pos what))]
      exact Chart.expect_of_absorbs hsorted hT
    · intro c e ctor hc hT
      rw [hc (hT.trans (c.absorbs_noteMismatch ctor))]
      exact Chart.noteMismatch_of_absorbs hT
    · intro c e key results hc hT
      rw [hc (hT.trans (c.absorbs_note key results))]
      exact Chart.note_of_absorbs hT
  obtain ⟨results', T', hrun', hT, hresults⟩ := hsim c T results d (fun _ => rfl) hrun
  obtain rfl := hresults.eq
  rw [hrun', hT hd]

end Absorbed

/-! ## The chart beside the plain evaluator -/

/-- The second chart belongs to a run that remembers, and the first to a plain run that has
come equally far.  `G` holds the keys that are being run.  What is finished was found by a
plain run, and running it again would note nothing new. -/
structure Chart.Mirrors (rules : Registry) (input : Array Token) (G : Key → Prop)
    (c c' : Chart) : Prop where
  furthest : c'.furthest = c.furthest
  expected : c'.expected = c.expected
  mismatch : c'.mismatch = c.mismatch
  finished : c'.finished = c.finished
  deps : c'.deps = []
  settled : c'.settled = []
  sorted : c.expected.Pairwise (· < ·)
  growing : ∀ (k : Key) growth, c'.growing[k]? = some growth →
    G k ∧ growth.readSince = false ∧ growth.round = 1
  unfinished : ∀ k : Key, G k → c.finished[k]? = none
  found : ∀ (k : Key) entry, c.finished[k]? = some entry → entry.deps = [] ∧
    ∃ fuel c₀ d, (plainCall rules input fuel k.handle k.start).run c₀ = some (entry.results, d) ∧
      c.Absorbs d

section Mirrors

variable {rules : Registry} {input : Array Token} {G : Key → Prop} {c c' d : Chart} {key : Key}

theorem Chart.mirrors_empty : Chart.Mirrors rules input G {} {} := by
  refine ⟨rfl, rfl, rfl, rfl, rfl, rfl, .nil, ?_, ?_, ?_⟩
  · intro k growth h
    exact absurd h (by simp)
  · intro k _
    simp
  · intro k entry h
    exact absurd h (by simp)

/-- Noting more for diagnostics in both charts keeps them side by side. -/
theorem Chart.Mirrors.of_noted (h : Chart.Mirrors rules input G c c') {e e' : Chart}
    (hfurthest : e'.furthest = e.furthest) (hexpected : e'.expected = e.expected)
    (hmismatch : e'.mismatch = e.mismatch) (hsorted : e.expected.Pairwise (· < ·))
    (he : e.Absorbs c) (hc : SameEntries c e) (hc' : SameEntries c' e')
    (hsettled : e'.settled = c'.settled) : Chart.Mirrors rules input G e e' where
  furthest := hfurthest
  expected := hexpected
  mismatch := hmismatch
  finished := by rw [hc'.finished, h.finished, hc.finished]
  deps := hc'.deps.trans h.deps
  settled := hsettled.trans h.settled
  sorted := hsorted
  growing k growth hk := h.growing k growth (by rwa [hc'.growing] at hk)
  unfinished k hk := by rw [hc.finished]; exact h.unfinished k hk
  found k entry hk := by
    rw [hc.finished] at hk
    obtain ⟨hdeps, fuel, c₀, d, hrun, hd⟩ := h.found k entry hk
    exact ⟨hdeps, fuel, c₀, d, hrun, he.trans hd⟩

theorem Chart.keepsNotes_mirrors : KeepsNotes (Chart.Mirrors rules input G) where
  expect {c c'} pos what h := by
    have hsame : (c'.expect pos what).furthest = (c.expect pos what).furthest ∧
        (c'.expect pos what).expected = (c.expect pos what).expected ∧
        (c'.expect pos what).mismatch = (c.expect pos what).mismatch ∧
        (c'.expect pos what).settled = c'.settled := by
      unfold expect
      rw [h.furthest, h.expected]
      split
      · exact ⟨rfl, rfl, h.mismatch, rfl⟩
      · split
        · exact ⟨rfl, rfl, h.mismatch, rfl⟩
        · exact ⟨h.furthest, h.expected, h.mismatch, rfl⟩
    have hsorted : (c.expect pos what).expected.Pairwise (· < ·) := by
      unfold expect
      split
      · exact List.pairwise_singleton _ _
      · split
        · exact pairwise_insertSorted h.sorted
        · exact h.sorted
    exact h.of_noted hsame.1 hsame.2.1 hsame.2.2.1 hsorted (c.absorbs_expect pos what)
      (sameEntries_expect c pos what) (sameEntries_expect c' pos what) hsame.2.2.2
  noteMismatch {c c'} ctor h := by
    have hsame : (c'.noteMismatch ctor).furthest = (c.noteMismatch ctor).furthest ∧
        (c'.noteMismatch ctor).expected = (c.noteMismatch ctor).expected ∧
        (c'.noteMismatch ctor).mismatch = (c.noteMismatch ctor).mismatch ∧
        (c'.noteMismatch ctor).settled = c'.settled ∧
        (c.noteMismatch ctor).expected = c.expected := by
      unfold noteMismatch
      rw [h.mismatch]
      split
      · exact ⟨h.furthest, h.expected, rfl, rfl, rfl⟩
      · exact ⟨h.furthest, h.expected, h.mismatch, rfl, rfl⟩
    exact h.of_noted hsame.1 hsame.2.1 hsame.2.2.1 (hsame.2.2.2.2 ▸ h.sorted)
      (c.absorbs_noteMismatch ctor) (sameEntries_noteMismatch c ctor)
      (sameEntries_noteMismatch c' ctor) hsame.2.2.2.1

/-- The run that remembers enters a key that is not finished. -/
theorem Chart.Mirrors.enter (h : Chart.Mirrors rules input G c c')
    (hfinished : c.finished[key]? = none) :
    Chart.Mirrors rules input (fun k => k = key ∨ G k) c (c'.enter key) where
  furthest := h.furthest
  expected := h.expected
  mismatch := h.mismatch
  finished := h.finished
  deps := rfl
  settled := h.settled
  sorted := h.sorted
  growing k growth hk := by
    simp only [Chart.enter, lookup_insert] at hk
    split at hk
    · next heq =>
      cases hk
      exact ⟨.inl heq.symm, rfl, rfl⟩
    · obtain ⟨hG, hread⟩ := h.growing k growth hk
      exact ⟨.inr hG, hread⟩
  unfinished k hk := by
    rcases hk with rfl | hk
    · exact hfinished
    · exact h.unfinished k hk
  found := h.found

/-- The body of a key has been run in both: the plain run notes its results, and the run that
remembers leaves the key. -/
theorem Chart.Mirrors.leave (h : Chart.Mirrors rules input (fun k => k = key ∨ G k) c c')
    (hkey : ¬ G key) {results : Results} {fuel : Nat} {c₀ : Chart}
    (hrun : (plainCall rules input fuel key.handle key.start).run c₀ =
      some (results, c.note key results)) :
    Chart.Mirrors rules input G (c.note key results) (c'.leave key [] results []) := by
  have hnew : c.finished.contains key = false := by
    rw [Std.TreeMap.contains_eq_isSome_getElem?, h.unfinished key (.inl rfl)]
    rfl
  have hnote : c.note key results =
      { c with finished := c.finished.insert key ⟨results, []⟩ } := by
    rw [note, if_neg (by rw [hnew]; exact Bool.false_ne_true)]
  have hsettle : c'.settle key = c' := by
    unfold settle
    split
    · next growth hgrow =>
      rw [if_neg (by rw [(h.growing key growth hgrow).2.2]; exact lt_irrefl 1)]
    · rfl
  have hleave : c'.leave key [] results [] = { c' with
      growing := c'.growing.erase key, deps := []
      finished := c'.finished.insert key ⟨results, []⟩ } := by
    unfold Chart.leave
    rw [hsettle]
    rfl
  have habsorbs := c.absorbs_note key results
  rw [hnote] at hrun habsorbs ⊢
  rw [hleave]
  refine ⟨h.furthest, h.expected, h.mismatch, ?_, rfl, h.settled, h.sorted, ?_, ?_, ?_⟩
  · exact congrArg (fun m => m.insert key ⟨results, []⟩) h.finished
  · intro k growth hk
    rw [lookup_erase] at hk
    split at hk
    · cases hk
    · next hne =>
      obtain ⟨hG, hread⟩ := h.growing k growth hk
      exact ⟨hG.resolve_left (Ne.symm hne), hread⟩
  · intro k hk
    have hne : key ≠ k := fun heq => hkey (heq ▸ hk)
    rw [lookup_insert, if_neg hne]
    exact h.unfinished k (.inr hk)
  · intro k entry hk
    rw [lookup_insert] at hk
    split at hk
    · next heq =>
      subst heq
      cases hk
      exact ⟨rfl, fuel, c₀, _, hrun, Absorbs.refl _⟩
    · obtain ⟨hdeps, fuel', c₁, d, hrun', hd⟩ := h.found k entry hk
      exact ⟨hdeps, fuel', c₁, d, hrun', habsorbs.trans hd⟩

/-- What is finished is what the plain run finds now, without noting anything new. -/
theorem Chart.Mirrors.plainCall_of_finished (h : Chart.Mirrors rules input G c c') {fuel : Nat}
    {entry : Finished} (hentry : c.finished[key]? = some entry) {results : Results}
    (hrun : (plainCall rules input fuel key.handle key.start).run c = some (results, d)) :
    results = entry.results ∧ d = c := by
  obtain ⟨-, fuel', c₀, d₀, hrun₀, hd₀⟩ := h.found key entry hentry
  have hagain := plainCall_of_absorbs h.sorted hrun₀ hd₀ (Nat.le_max_right fuel fuel')
  rw [plainCall_of_le hrun (Nat.le_max_left fuel fuel')] at hagain
  cases hagain
  exact ⟨rfl, rfl⟩

/-- A run that remembers does what the plain run does, if the plain run ends.  `G` holds the
keys around this one, none of which the plain run can reach again on the fuel that is left. -/
theorem simulates_plainCall_call (fuel : Nat) : ∀ (fuel' : Nat) (h : Handle) (s : Nat)
    (G : Key → Prop), fuel ≤ fuel' →
    (∀ k, G k → ∀ c, (plainCall rules input fuel k.handle k.start).run c = none) →
    Simulates (Chart.Mirrors rules input G) (plainCall rules input fuel h s)
      (call rules input fuel' h s) (Results.Equal rules) := by
  induction fuel with
  | zero => exact fun _ _ _ _ _ _ => simulates_failure
  | succ fuel ih =>
    intro fuel' h s G hle hG c c' results d hc hrun
    obtain ⟨fuel', rfl⟩ : ∃ n, fuel' = n + 1 := Nat.exists_eq_add_one.mpr (by omega)
    have hoff : ¬ G ⟨h, s⟩ := fun hk => by
      rw [hG _ hk c] at hrun
      cases hrun
    have hself := (exists_plainCall hrun c).choose_spec.2
    have hgrowing : c'.growing[(⟨h, s⟩ : Key)]? = none :=
      Option.eq_none_iff_forall_ne_some.mpr fun growth hgrow => hoff (hc.growing _ growth hgrow).1
    rcases hentry : c.finished[(⟨h, s⟩ : Key)]? with _ | entry
    · have hfresh : c'.remembered? ⟨h, s⟩ = none := by
        rw [Chart.remembered?, hc.finished, hentry, hgrowing]
      rcases plainCall_cases hrun with ⟨hbody, rfl, rfl⟩ | ⟨body, d₀, hbody, heval, rfl⟩
      · exact ⟨[], c', run_call_of_undefined hfresh hbody, hc, matches_nil⟩
      · by_cases hless : ∃ c₁ x, (plainCall rules input fuel h s).run c₁ = some x
        · -- the run needs less fuel than it has, and the keys around it still fail
          obtain ⟨c₁, ⟨found, d₁⟩, hless⟩ := hless
          obtain ⟨d₂, hrun', -⟩ := exists_plainCall hless c
          have hmore := plainCall_of_le hrun' (Nat.le_succ fuel)
          rw [hrun] at hmore
          cases hmore
          exact ih (fuel' + 1) h s G (by omega)
            (fun k hk c₂ => plainCall_eq_none_of_le (hG k hk c₂) (Nat.le_succ fuel)) c c' _ _ hc
            hrun'
        · -- inside its body the key itself cannot be reached either
          have hinside : ∀ k, k = ⟨h, s⟩ ∨ G k →
              ∀ c, (plainCall rules input fuel k.handle k.start).run c = none := by
            rintro k (rfl | hk) c₂
            · exact Option.eq_none_iff_forall_ne_some.mpr fun x hx => hless ⟨c₂, x, hx⟩
            · exact plainCall_eq_none_of_le (hG k hk c₂) (Nat.le_succ fuel)
          have hsim : Simulates (Chart.Mirrors rules input fun k => k = ⟨h, s⟩ ∨ G k)
              (evalBody input (plainCall rules input fuel) h body s)
              (evalBody input (call rules input fuel') h body s) (Results.Equal rules) :=
            simulates_evalBody Chart.keepsNotes_mirrors (congruence_eq rules.width)
              (fun _ _ _ _ => trivial) (fun h' s' _ => ih fuel' h' s' _ (by omega) hinside) h
              (Registry.width_le_of_get? hbody) trivial
          obtain ⟨results', d', heval', hd, hresults⟩ := hsim _ _ _ _ (hc.enter hentry) heval
          obtain rfl := Results.Equal.eq hresults
          have hcall := run_call_of_unread hfresh hbody heval' hd.deps
            fun growth hgrow => (hd.growing _ growth hgrow).2.1
          rw [hc.deps] at hcall
          exact ⟨results, _, hcall, hd.leave hoff hrun, hself⟩
    · obtain ⟨rfl, rfl⟩ := hc.plainCall_of_finished hentry hrun
      refine ⟨entry.results, c', run_call_of_remembered ?_, hc, hself⟩
      rw [Chart.remembered?, hc.finished, hentry]
      dsimp only
      rw [(hc.found _ entry hentry).1]
      rfl

end Mirrors

/-! ## The outcome of a parse -/

/-- What a plain run from an empty chart finds the chart finds, with the same notes. -/
theorem Registry.runs_of_plainCall {rules : Registry} {root : Handle} {tokens : List Token}
    {fuel : Nat} {results : Results} {c : Chart}
    (hrun : (plainCall rules tokens.toArray fuel root 0).run {} = some (results, c)) :
    ∃ c', rules.Runs root tokens results c' ∧
      Chart.Mirrors rules tokens.toArray (fun _ => False) c c' := by
  have hsim : Simulates (Chart.Mirrors rules tokens.toArray fun _ => False)
      (plainCall rules tokens.toArray fuel root 0) (call rules tokens.toArray fuel root 0)
      (Results.Equal rules) :=
    simulates_plainCall_call fuel fuel root 0 _ le_rfl fun _ hk => hk.elim
  obtain ⟨results', c', hcall, hc, hresults⟩ := hsim _ _ _ _ Chart.mirrors_empty hrun
  obtain rfl := hresults.eq
  refine ⟨c', run_call_of_fuel ?_ hcall, hc⟩
  rw [List.size_toArray]
  exact Nat.min_le_right _ _

/-- The outcome depends on what was noted and found, and on nothing else in a chart. -/
theorem Chart.Mirrors.conclude_eq {rules : Registry} {input : Array Token} {G : Key → Prop}
    {c c' : Chart} (h : Chart.Mirrors rules input G c c') (results : Results) :
    c'.conclude input results = c.conclude input results := by
  have hreached : c'.reached = c.reached := by
    rw [Chart.reached, h.finished, Chart.reached]
  have hreport : c'.report input = c.report input := by
    rw [Chart.report, Chart.report, h.furthest, h.expected, hreached]
  rw [Chart.conclude, Chart.conclude, h.mismatch, hreport]

/-- A parse finds what the plain evaluator finds, if that ends: the same ends of the root in
the same order with the same derivations, hence the same value or the same failure.  No rule
takes a second round. -/
theorem Registry.parse_eq_plain {rules : Registry} {root : Handle} {tokens : List Token}
    {fuel : Nat} {results : Results} {c : Chart} (hdefined : rules.firstUndefined? = none)
    (hrun : (plainCall rules tokens.toArray fuel root 0).run {} = some (results, c)) :
    (∃ c', rules.Runs root tokens results c') ∧
      rules.parseReport root tokens =
        ⟨if root.index < rules.size then c.conclude tokens.toArray results
          else .error (.unknownHandle root), []⟩ := by
  obtain ⟨c', hruns, hc⟩ := runs_of_plainCall hrun
  refine ⟨⟨c', hruns⟩, ?_⟩
  rw [parseReport, run?]
  split
  · next hroot =>
    rw [hdefined]
    dsimp only
    rw [show (call rules tokens.toArray (rules.fuelFor tokens.length) root 0).run {} = _ from hruns]
    dsimp only [Option.getD_some]
    rw [hc.conclude_eq, hc.settled, List.reverse_nil]
  · rfl

/-- Two digits or one: the first digit is asked for by both branches, and the run that
remembers answers the second time without running it. -/
theorem Registry.parse_eq_plain_digits :
    let rules : Registry := .ofBodies [
      .alt (.map (.branch "number" "Two" 2) (.seq [.ref ⟨1⟩, .ref ⟨1⟩]))
        (.map (.branch "number" "One" 1) (.seq [.ref ⟨1⟩])),
      .map (.terminal "digit") (.matchOne .digit)]
    rules.firstUndefined? = none ∧
      (plainCall rules (Token.stream "1x").toArray 2 ⟨0⟩ 0).run {} ≠ none ∧
      rules.parse ⟨0⟩ (Token.stream "1x") =
        .error (.unexpected (some ⟨1, 1, 2⟩) (some 'x') ["@digit"]) := by
  intro rules
  have hends : ((plainCall rules (Token.stream "1x").toArray 2 ⟨0⟩ 0).run {}).map
      (fun found => found.2.conclude (Token.stream "1x").toArray found.1) =
        some (.error (.unexpected (some ⟨1, 1, 2⟩) (some 'x') ["@digit"])) := by
    cbv
  obtain ⟨⟨results, c⟩, hrun, hconclude⟩ := Option.map_eq_some_iff.mp hends
  have hdefined : rules.firstUndefined? = none := by
    cbv
  refine ⟨hdefined, by rw [hrun]; exact Option.some_ne_none _, ?_⟩
  rw [parse, (parse_eq_plain hdefined hrun).2]
  exact hconclude

end ChartGrammar
