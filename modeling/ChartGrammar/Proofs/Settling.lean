/-
  Proofs/Settling.lean --- how many rounds a rule takes.

  There are only finitely many charts that runs can tell apart, at most `2 ^ state` of
  them.  A rule that grows starts each round from such a chart, and if it comes back to
  one that it started from before, it goes round forever.  So a rule that settles does so
  within that many rounds.
-/
import Mathlib.Data.Fintype.BigOperators
import Mathlib.Data.Fintype.Pigeonhole
import Mathlib.Data.List.Perm.Subperm
import ChartGrammar.Proofs.AlikeCharts

set_option autoImplicit false

namespace ChartGrammar

open ChartM

/-! ## Counting rounds -/

namespace ChartM

variable {α : Type} {step : ChartM (Option α)} {c d e : Chart} {a : α} {i j n : Nat}

/-- After rounds without an answer, the remaining ones start where these ended. -/
theorem run_repeatUpTo_add (h : (repeatUpTo step i).run c = some (none, d)) :
    (repeatUpTo step (i + j)).run c = (repeatUpTo step j).run d := by
  rw [repeatUpTo_add, StateT.run_bind, h]
  rfl

/-- An answer is not changed by further rounds. -/
theorem run_repeatUpTo_of_le (h : (repeatUpTo step i).run c = some (some a, d)) (hle : i ≤ j) :
    (repeatUpTo step j).run c = some (some a, d) := by
  obtain ⟨k, rfl⟩ := Nat.exists_eq_add_of_le hle
  rw [repeatUpTo_add, StateT.run_bind, h]
  rfl

/-- Rounds without an answer are without one up to every earlier round. -/
theorem exists_repeatUpTo_of_le (h : (repeatUpTo step j).run c = some (none, e)) (hle : i ≤ j) :
    ∃ d, (repeatUpTo step i).run c = some (none, d) ∧
      (repeatUpTo step (j - i)).run d = some (none, e) := by
  rcases hrun : (repeatUpTo step i).run c with _ | ⟨_ | a, d⟩
  · obtain ⟨k, rfl⟩ := Nat.exists_eq_add_of_le hle
    rw [repeatUpTo_add, StateT.run_bind, hrun] at h
    cases h
  · refine ⟨d, rfl, ?_⟩
    rwa [← run_repeatUpTo_add hrun, Nat.add_sub_cancel' hle]
  · rw [run_repeatUpTo_of_le hrun hle] at h
    cases h

/-- An answer comes in a round of its own, after rounds without one. -/
theorem exists_round_of_repeatUpTo (h : (repeatUpTo step n).run c = some (some a, d)) :
    ∃ j < n, ∃ e, (repeatUpTo step j).run c = some (none, e) ∧
      step.run e = some (some a, d) := by
  induction n generalizing c with
  | zero => cases h
  | succ n ih =>
    rw [repeatUpTo, StateT.run_bind] at h
    obtain ⟨⟨answer, e⟩, hstep, hrest⟩ := Option.bind_eq_some_iff.mp h
    cases answer with
    | none =>
      obtain ⟨j, hj, e', hrounds, hanswer⟩ := ih hrest
      refine ⟨j + 1, Nat.succ_lt_succ hj, e', ?_, hanswer⟩
      rw [repeatUpTo, StateT.run_bind, hstep]
      exact hrounds
    | some b =>
      cases hrest
      exact ⟨0, Nat.succ_pos n, c, rfl, hstep⟩

/-- The round that answers comes after `j` rounds without an answer. -/
theorem run_repeatUpTo_succ (h : (repeatUpTo step j).run c = some (none, e)) :
    (repeatUpTo step (j + 1)).run c = step.run e := by
  rw [run_repeatUpTo_add h, repeatUpTo, StateT.run_bind]
  rcases hstep : step.run e with _ | ⟨_ | b, d'⟩ <;> rfl

/-- Rounds without an answer are no more than those before the answer. -/
theorem le_of_round (hrounds : (repeatUpTo step j).run c = some (none, e))
    (hanswer : step.run e = some (some a, d)) {d' : Chart}
    (h : (repeatUpTo step i).run c = some (none, d')) : i ≤ j := by
  by_contra hlt
  rw [← run_repeatUpTo_succ hrounds] at hanswer
  rw [run_repeatUpTo_of_le hanswer (Nat.not_le.mp hlt)] at h
  cases h

/-- Taking a step until it answers succeeds exactly if it answers within the rounds that the
fuel pays for. -/
theorem run_untilAnswer_iff : (untilAnswer step n).run c = some (a, d) ↔
    ∃ j, j + 1 < 2 ^ n ∧ ∃ e, (repeatUpTo step j).run c = some (none, e) ∧
      step.run e = some (some a, d) := by
  rw [untilAnswer_eq, StateT.run_bind]
  constructor
  · intro h
    obtain ⟨⟨answer, d'⟩, hrounds, hrest⟩ := Option.bind_eq_some_iff.mp h
    cases answer with
    | none => cases hrest
    | some b =>
      cases hrest
      obtain ⟨j, hj, hround⟩ := exists_round_of_repeatUpTo hrounds
      exact ⟨j, Nat.add_lt_of_lt_sub hj, hround⟩
  · rintro ⟨j, hj, e, hrounds, hanswer⟩
    rw [← run_repeatUpTo_succ hrounds] at hanswer
    refine Option.bind_eq_some_iff.mpr ⟨(some a, d), ?_, rfl⟩
    exact run_repeatUpTo_of_le hanswer (Nat.le_sub_one_of_lt hj)

end ChartM

/-! ## Sketches of charts -/

/-- A number for each kind. -/
def Kind.code : Kind → Nat
  | .token => 0
  | .tokens => 1
  | .node => 2
  | .optional => 3
  | .list => 4
  | .pair => 5
  | .fields arity => 6 + arity

theorem Kind.code_inj {k k' : Kind} (h : k.code = k'.code) : k = k' := by
  cases k <;> cases k' <;> simp [code] at h ⊢ <;> omega

theorem Kind.code_le (k : Kind) : k.code ≤ 6 + k.arity := by
  cases k <;> simp [code, arity]

/-- The keys in range. -/
abbrev Slots (rules : Registry) (length : Nat) : Type := Fin rules.size × Fin (length + 1)

/-- The key at a slot. -/
def Slots.key {rules : Registry} {length : Nat} (slot : Slots rules length) : Key :=
  ⟨⟨slot.1⟩, slot.2⟩

theorem Key.InRange.exists_slot {rules : Registry} {length : Nat} {k : Key}
    (h : k.InRange rules length) : ∃ slot : Slots rules length, slot.key = k :=
  ⟨(⟨k.handle.index, h.1⟩, ⟨k.start, Nat.lt_succ_of_le h.2⟩), rfl⟩

namespace Chart

/-- The results that a chart holds of a key, and the keys that they depend on. -/
def held (c : Chart) (k : Key) : Results × List Key :=
  match c.finished[k]?, c.growing[k]? with
  | some entry, _ => (entry.results, entry.deps)
  | none, some growth => (growth.results, growth.deps)
  | none, none => ([], [])

/-- What a chart holds of a key, as far as runs can tell: its state in three bits, the keys
that it depends on, and its ends in order with the kinds of their derivations. -/
abbrev Sketch (rules : Registry) (length : Nat) : Type :=
  (Bool × Bool × Bool) × (Slots rules length → Bool) ×
    (Fin (length + 1) → Option (Fin (length + 1) × Fin (rules.width + 8)))

instance (rules : Registry) (length : Nat) : DecidableEq (Sketch rules length) :=
  @instDecidableEqProd _ _ inferInstance (@instDecidableEqProd _ _ inferInstance inferInstance)

/-- The sketch of a chart. -/
def sketch (rules : Registry) (length : Nat) (c : Chart) (slot : Slots rules length) :
    Sketch rules length :=
  ((c.finished[slot.key]?.isSome || c.growing[slot.key]?.any (·.readSince),
      c.growing[slot.key]?.isSome, c.provisional.contains slot.key),
    fun other => (c.held slot.key).2.contains other.key,
    fun i => (c.held slot.key).1[i.val]?.map fun r =>
      (Fin.ofNat _ r.1, Fin.ofNat _ r.2.kind.code))

end Chart

/-- The number of bits that a sketch of a whole chart takes. -/
def Registry.stateBits (rules : Registry) (length : Nat) : Nat :=
  rules.size * (length + 1) *
    (3 + rules.size * (length + 1) + (length + 1) * ((length + 1) * (rules.width + 8)))

theorem Registry.fuelFor_eq (rules : Registry) (length : Nat) :
    rules.fuelFor length = rules.size * (length + 1) + rules.stateBits length + 1 := rfl

/-- There are no more sketches of charts than their bits allow. -/
theorem card_sketches_le (rules : Registry) (length : Nat) :
    Fintype.card (Slots rules length → Chart.Sketch rules length) ≤
      2 ^ rules.stateBits length := by
  have hoption : (length + 1) * (rules.width + 8) + 1 ≤
      2 ^ ((length + 1) * (rules.width + 8)) := Nat.lt_two_pow_self
  have hcard : Fintype.card (Chart.Sketch rules length) ≤ 2 ^ (3 + rules.size * (length + 1) +
      (length + 1) * ((length + 1) * (rules.width + 8))) := by
    simp only [Chart.Sketch, Fintype.card_prod, Fintype.card_fun, Fintype.card_bool,
      Fintype.card_option, Fintype.card_fin]
    calc 2 * (2 * 2) * (2 ^ (rules.size * (length + 1)) *
          ((length + 1) * (rules.width + 8) + 1) ^ (length + 1))
        ≤ 2 ^ 3 * (2 ^ (rules.size * (length + 1)) *
          (2 ^ ((length + 1) * (rules.width + 8))) ^ (length + 1)) :=
          Nat.mul_le_mul_left _ (Nat.mul_le_mul_left _ (Nat.pow_le_pow_left hoption _))
      _ = _ := by rw [← pow_mul, ← pow_add, ← pow_add, ← Nat.add_assoc, Nat.mul_comm (_ * _)]
  have hslots : Fintype.card (Slots rules length) = rules.size * (length + 1) := by
    rw [Fintype.card_prod, Fintype.card_fin, Fintype.card_fin]
  rw [Fintype.card_fun, hslots]
  calc Fintype.card (Chart.Sketch rules length) ^ (rules.size * (length + 1))
      ≤ (2 ^ (3 + rules.size * (length + 1) +
          (length + 1) * ((length + 1) * (rules.width + 8)))) ^ (rules.size * (length + 1)) :=
        Nat.pow_le_pow_left hcard _
    _ = 2 ^ rules.stateBits length := by rw [← pow_mul, Nat.mul_comm, Registry.stateBits]

/-! ## Charts with the same sketch are alike -/

section Sketch

variable {rules : Registry} {length : Nat}

/-- Results within bounds have at most one end for each position. -/
theorem Results.Akin.length_le {rs : Results} (h : Results.Akin rules length rs rs) :
    rs.length ≤ length + 1 := by
  have hsub : rs.map Prod.fst ⊆ List.range (length + 1) := by
    intro e he
    obtain ⟨r, hr, rfl⟩ := List.mem_map.mp he
    exact List.mem_range.mpr (Nat.lt_succ_of_le (List.forall₂_same.mp h.1 r hr).2.1)
  have hle := (List.subperm_of_subset h.2 hsub).length_le
  rwa [List.length_map, List.length_range] at hle

/-- Results within bounds that look the same in a sketch are akin. -/
theorem Results.akin_of_codes {rs rs' : Results} (h : Results.Akin rules length rs rs)
    (h' : Results.Akin rules length rs' rs')
    (hcodes : ∀ i : Fin (length + 1),
      rs[i.val]?.map (fun r => (Fin.ofNat (length + 1) r.1,
        Fin.ofNat (rules.width + 8) r.2.kind.code)) =
      rs'[i.val]?.map fun r => (Fin.ofNat (length + 1) r.1,
        Fin.ofNat (rules.width + 8) r.2.kind.code)) :
    Results.Akin rules length rs rs' := by
  have hmap : rs.map (fun r => (Fin.ofNat (length + 1) r.1,
        Fin.ofNat (rules.width + 8) r.2.kind.code)) =
      rs'.map fun r => (Fin.ofNat (length + 1) r.1,
        Fin.ofNat (rules.width + 8) r.2.kind.code) := by
    refine List.ext_getElem? fun i => ?_
    rw [List.getElem?_map, List.getElem?_map]
    by_cases hi : i < length + 1
    · exact hcodes ⟨i, hi⟩
    · have hle := h.length_le
      have hle' := h'.length_le
      rw [List.getElem?_eq_none (by omega), List.getElem?_eq_none (by omega)]
  rw [← List.forall₂_eq_eq_eq, List.forall₂_map_left_iff, List.forall₂_map_right_iff,
    List.forall₂_iff_zip] at hmap
  refine ⟨List.forall₂_iff_zip.mpr ⟨hmap.1, fun {r r'} hzip => ?_⟩, h.2⟩
  obtain ⟨hr, hr'⟩ := List.of_mem_zip hzip
  obtain ⟨-, hend, -, harity⟩ := List.forall₂_same.mp h.1 r hr
  obtain ⟨-, hend', -, harity'⟩ := List.forall₂_same.mp h'.1 r' hr'
  have hcode := hmap.2 hzip
  simp only [Prod.mk.injEq, Fin.ext_iff, Fin.ofNat] at hcode
  have hkind := r.2.kind.code_le
  have hkind' := r'.2.kind.code_le
  rw [Nat.mod_eq_of_lt (by omega), Nat.mod_eq_of_lt (by omega), Nat.mod_eq_of_lt (by omega),
    Nat.mod_eq_of_lt (by omega)] at hcode
  exact ⟨hcode.1, hend, Kind.code_inj hcode.2, harity⟩

end Sketch

namespace Chart

variable {rules : Registry} {length : Nat} {c c' : Chart}

/-- What a chart within bounds holds is within bounds. -/
theorem Alike.held (h : Alike rules length c c) (k : Key) :
    Results.Akin rules length (c.held k).1 (c.held k).1 ∧
      SameKeys rules length (c.held k).2 (c.held k).2 := by
  unfold Chart.held
  split
  · next entry _ hfin =>
    obtain ⟨entry', hfin', hakin⟩ := exists_of_rel_some (h.finished k) hfin
    cases hfin.symm.trans hfin'
    exact ⟨hakin.results, hakin.deps⟩
  · next growth _ hgrow =>
    obtain ⟨growth', hgrow', hakin⟩ := exists_of_rel_some (h.growing k) hgrow
    cases hgrow.symm.trans hgrow'
    exact ⟨hakin.results, hakin.deps⟩
  · exact ⟨matches_nil, sameKeys_nil⟩

/-- Two charts hold the same of a key, as far as runs can tell. -/
structure AgreeAt (rules : Registry) (length : Nat) (c c' : Chart) (k : Key) : Prop where
  known : (c.finished[k]?.isSome || c.growing[k]?.any (·.readSince)) =
    (c'.finished[k]?.isSome || c'.growing[k]?.any (·.readSince))
  growing : c.growing[k]?.isSome = c'.growing[k]?.isSome
  provisional : k ∈ c.provisional ↔ k ∈ c'.provisional
  results : Results.Akin rules length (c.held k).1 (c'.held k).1
  deps : SameKeys rules length (c.held k).2 (c'.held k).2

/-- Charts with the same sketch agree, bit by bit, at every key in range. -/
theorem agreeAt_of_sketch (hc : Alike rules length c c) (hc' : Alike rules length c' c')
    (h : c.sketch rules length = c'.sketch rules length) {k : Key}
    (hk : k.InRange rules length) : AgreeAt rules length c c' k := by
  obtain ⟨slot, rfl⟩ := hk.exists_slot
  have hslot := congrFun h slot
  simp only [sketch, Prod.mk.injEq] at hslot
  obtain ⟨⟨hknown, hgrowing, hprovisional⟩, hkeys, hcodes⟩ := hslot
  obtain ⟨hresults, hrange⟩ := hc.held slot.key
  obtain ⟨hresults', hrange'⟩ := hc'.held slot.key
  refine ⟨hknown, hgrowing, ?_, Results.akin_of_codes hresults hresults' (congrFun hcodes), ?_⟩
  · rw [← List.contains_iff_mem, ← List.contains_iff_mem, hprovisional]
  · intro k
    refine ⟨?_, (hrange k).2⟩
    by_cases hk : k.InRange rules length
    · obtain ⟨other, rfl⟩ := hk.exists_slot
      rw [← List.contains_iff_mem, ← List.contains_iff_mem, congrFun hkeys other]
    · exact iff_of_false (fun hmem => hk ((hrange k).2 hmem))
        fun hmem => hk ((hrange' k).2 hmem)

/-- Charts that agree at a key have entries for it that are akin. -/
theorem AgreeAt.entries {k : Key} (h : AgreeAt rules length c c' k)
    (hc : Alike rules length c c) (hc' : Alike rules length c' c') :
    Option.Rel (Finished.Akin rules length) c.finished[k]? c'.finished[k]? ∧
      Option.Rel (Growth.Akin rules length) c.growing[k]? c'.growing[k]? := by
  obtain ⟨hknown, hgrowing, -, hresults, hkeys⟩ := h
  unfold Chart.held at hresults hkeys
  rcases hgrow : c.growing[k]? with _ | growth
  · -- the key grows in neither chart, and the first bit says whether it is finished
    have hgrow' : c'.growing[k]? = none :=
      Option.not_isSome_iff_eq_none.mp (by rw [← hgrowing, hgrow]; exact Bool.false_ne_true)
    simp only [hgrow, hgrow', Option.any_none, Bool.or_false] at hknown hresults hkeys
    rw [hgrow']
    refine ⟨?_, .none⟩
    rcases hfin : c.finished[k]? with _ | entry
    · have hfin' : c'.finished[k]? = none :=
        Option.not_isSome_iff_eq_none.mp (by rw [← hknown, hfin]; exact Bool.false_ne_true)
      rw [hfin']
      exact .none
    · obtain ⟨entry', hfin'⟩ :=
        Option.isSome_iff_exists.mp (hknown.symm.trans (by rw [hfin]; rfl))
      simp only [hfin, hfin'] at hresults hkeys
      rw [hfin']
      exact .some ⟨hresults, hkeys⟩
  · -- the key grows in both, and the first bit says whether it was read
    obtain ⟨growth', hgrow'⟩ :=
      Option.isSome_iff_exists.mp (hgrowing.symm.trans (by rw [hgrow]; rfl))
    have hfin : c.finished[k]? = none := hc.finished_eq_none (by simp [hgrow])
    have hfin' : c'.finished[k]? = none := hc'.finished_eq_none (by simp [hgrow'])
    simp only [hfin, hfin', hgrow, hgrow', Option.isSome_none, Option.any_some,
      Bool.false_or] at hknown hresults hkeys
    rw [hfin, hfin', hgrow']
    exact ⟨.none, .some ⟨hresults, hkeys, hknown⟩⟩

theorem Alike.eq_none_of_not_inRange (h : Alike rules length c c) {k : Key}
    (hk : ¬ k.InRange rules length) : c.finished[k]? = none ∧ c.growing[k]? = none := by
  refine ⟨?_, ?_⟩
  · by_contra hne
    exact hk (h.inRange k (.inl hne))
  · by_contra hne
    exact hk (h.inRange k (.inr hne))

/-- Charts within bounds that have the same sketch are alike, if the bodies being run have
read the same. -/
theorem Alike.of_sketch (hc : Alike rules length c c) (hc' : Alike rules length c' c')
    (hdeps : SameKeys rules length c.deps c'.deps)
    (h : c.sketch rules length = c'.sketch rules length) : Alike rules length c c' := by
  have hentries : ∀ k : Key,
      Option.Rel (Finished.Akin rules length) c.finished[k]? c'.finished[k]? ∧
      Option.Rel (Growth.Akin rules length) c.growing[k]? c'.growing[k]? := by
    intro k
    by_cases hk : k.InRange rules length
    · exact (agreeAt_of_sketch hc hc' h hk).entries hc hc'
    · obtain ⟨hfin, hgrow⟩ := hc.eq_none_of_not_inRange hk
      obtain ⟨hfin', hgrow'⟩ := hc'.eq_none_of_not_inRange hk
      rw [hfin, hgrow, hfin', hgrow']
      exact ⟨.none, .none⟩
  refine ⟨fun k => (hentries k).1, fun k => (hentries k).2, fun k => ?_, hdeps, hc.inRange,
    hc.apart⟩
  refine ⟨?_, (hc.provisional k).2⟩
  by_cases hk : k.InRange rules length
  · exact (agreeAt_of_sketch hc hc' h hk).provisional
  · exact iff_of_false (fun hmem => hk ((hc.provisional k).2 hmem))
      fun hmem => hk ((hc'.provisional k).2 hmem)

end Chart

/-! ## The number of rounds -/

section Rounds

variable {α : Type} {rules : Registry} {length : Nat} {step : ChartM (Option α)}
  {Q : α → α → Prop} {c d e : Chart} {a : α}

/-- From charts that are alike, a step answers after the same number of rounds. -/
theorem rounds_le_of_alike
    (hstep : Simulates (Chart.Alike rules length) step step (Option.Rel Q))
    (hc : c.Alike rules length d) {i j : Nat} {c' d' : Chart}
    (hrounds : (repeatUpTo step j).run c = some (none, c'))
    (hanswer : step.run c' = some (some a, e))
    (h : (repeatUpTo step i).run d = some (none, d')) : i ≤ j := by
  obtain ⟨answer, f, hrounds', hf, hnone⟩ := simulates_repeatUpTo hstep j _ _ _ _ hc hrounds
  cases hnone
  obtain ⟨answer, g, hanswer', -, hsome⟩ := hstep _ _ _ _ hf hanswer
  obtain ⟨b, rfl, -⟩ := exists_of_rel_some hsome rfl
  exact le_of_round hrounds' hanswer' h

/-- A step that comes back, after some rounds, to a chart like the one it started from never
answers. -/
theorem no_answer_of_alike
    (hstep : Simulates (Chart.Alike rules length) step step (Option.Rel Q)) {i j : Nat}
    {c' : Chart} (hback : (repeatUpTo step (i + 1)).run c = some (none, d))
    (hc : c.Alike rules length d) (hrounds : (repeatUpTo step j).run c = some (none, c')) :
    step.run c' ≠ some (some a, e) := by
  intro hanswer
  obtain ⟨answer, d', hrounds', -, hnone⟩ := simulates_repeatUpTo hstep j _ _ _ _ hc hrounds
  cases hnone
  -- the rounds from `d` without an answer are rounds from `c`, and more than there are
  rw [← run_repeatUpTo_add hback] at hrounds'
  have hle := le_of_round hrounds hanswer hrounds'
  omega

theorem deps_of_repeatUpTo
    (hread : ∀ c answer d, step.run c = some (answer, d) → d.deps = []) {i : Nat} :
    ∀ {c answer}, c.deps = [] → (repeatUpTo step i).run c = some (answer, d) → d.deps = [] := by
  induction i with
  | zero =>
    intro c answer hdeps hrun
    cases hrun
    exact hdeps
  | succ i ih =>
    intro c answer hdeps hrun
    rw [repeatUpTo, StateT.run_bind] at hrun
    obtain ⟨⟨answer', d'⟩, hstep, hrest⟩ := Option.bind_eq_some_iff.mp hrun
    cases answer' with
    | none => exact ih (hread _ _ _ hstep) hrest
    | some b =>
      cases hrest
      exact hread _ _ _ hstep

/-- A rule that settles takes no more rounds than there are charts that runs can tell
apart. -/
theorem rounds_lt (hstep : Simulates (Chart.Alike rules length) step step (Option.Rel Q))
    (hread : ∀ c answer d, step.run c = some (answer, d) → d.deps = [])
    (hc : c.Alike rules length c) (hdeps : c.deps = []) {j : Nat}
    (hrounds : (repeatUpTo step j).run c = some (none, e))
    (hanswer : step.run e = some (some a, d)) : j < 2 ^ rules.stateBits length := by
  have hcharts : ∀ i : Fin (j + 1), ∃ d, (repeatUpTo step (j - i)).run d = some (none, e) ∧
      d.Alike rules length d ∧ d.deps = [] := by
    intro i
    obtain ⟨d, hbefore, hafter⟩ := exists_repeatUpTo_of_le hrounds (Nat.le_of_lt_succ i.isLt)
    refine ⟨d, hafter, ?_, deps_of_repeatUpTo hread hdeps hbefore⟩
    obtain ⟨_, d', hbefore', hd, -⟩ := simulates_repeatUpTo hstep i _ _ _ _ hc hbefore
    cases hbefore.symm.trans hbefore'
    exact hd
  choose charts hafter hbounded hfresh using hcharts
  by_contra hmany
  have hcard : Fintype.card (Slots rules length → Chart.Sketch rules length) <
      Fintype.card (Fin (j + 1)) := by
    rw [Fintype.card_fin]
    exact Nat.lt_succ_of_le ((card_sketches_le rules length).trans (Nat.not_lt.mp hmany))
  obtain ⟨i, i', hne, hsame⟩ :=
    Fintype.exists_ne_map_eq_of_card_lt (fun i => (charts i).sketch rules length) hcard
  -- two rounds start from charts that are alike, so both are as far from the answer
  have hle : ∀ i i', (charts i).sketch rules length = (charts i').sketch rules length →
      j - i'.val ≤ j - i.val := by
    intro i i' hsame
    have halike := (hbounded i).of_sketch (hbounded i')
      (by rw [hfresh i, hfresh i']; exact Chart.sameKeys_nil) hsame
    exact rounds_le_of_alike hstep halike (hafter i) hanswer (hafter i')
  have hforward := hle i i' hsame
  have hback := hle i' i hsame.symm
  exact hne (Fin.ext (by omega))

end Rounds

/-- How a round ends: the rule has found more and goes on, or its results are the answer. -/
theorem growRound_cases {key : Key} {body : ChartM Results} {c d : Chart}
    {answer : Option (Results × List Key)}
    (hrun : (growRound key body).run c = some (answer, d)) :
    ∃ results d₀, body.run c = some (results, d₀) ∧
      ((answer = none ∧ d = Chart.regrow { d₀ with deps := [] } key results
          (d₀.deps.filter (· ≠ key))) ∨
        answer = some (results, d₀.deps.filter (· ≠ key)) ∧ d = { d₀ with deps := [] }) := by
  rw [growRound, StateT.run_bind] at hrun
  obtain ⟨⟨results, d₀⟩, hbody, hrest⟩ := Option.bind_eq_some_iff.mp hrun
  refine ⟨results, d₀, hbody, ?_⟩
  rw [StateT.run_bind] at hrest
  obtain ⟨⟨deps, d₁⟩, hdeps, hrest⟩ := Option.bind_eq_some_iff.mp hrest
  cases hdeps
  rw [StateT.run_bind] at hrest
  obtain ⟨⟨d₂, _⟩, hget, hrest⟩ := Option.bind_eq_some_iff.mp hrest
  cases hget
  dsimp only at hrest
  split at hrest
  · cases hrest
    exact .inl ⟨rfl, rfl⟩
  · cases hrest
    exact .inr ⟨rfl, rfl⟩

/-- A round that has read nothing, and whose rule nobody has read, is the last one. -/
theorem run_growRound_of_unread {key : Key} {body : ChartM Results} {c d : Chart}
    {results : Results} (hrun : body.run c = some (results, d)) (hdeps : d.deps = [])
    (hunread : ∀ growth, d.growing[key]? = some growth → growth.readSince = false) :
    (growRound key body).run c = some (some (results, []), d) := by
  have hsame : { d with deps := [] } = d := by
    rw [← hdeps]
  have hmust : d.mustRegrow key results = false := by
    unfold Chart.mustRegrow
    split
    · next growth hgrow => rw [hunread growth hgrow, Bool.false_and]
    · rfl
  rw [growRound, StateT.run_bind]
  refine Option.bind_eq_some_iff.mpr ⟨(results, d), hrun, ?_⟩
  rw [StateT.run_bind]
  refine Option.bind_eq_some_iff.mpr ⟨([], d), ?_, ?_⟩
  · show some (d.deps.filter (· ≠ key), { d with deps := [] }) = some ([], d)
    rw [hsame, hdeps, List.filter_nil]
  · rw [StateT.run_bind]
    refine Option.bind_eq_some_iff.mpr ⟨(d, d), rfl, ?_⟩
    dsimp only
    rw [hmust]
    rfl

/-- A call whose body reads nothing unfinished ends with what the body finds the first time. -/
theorem run_call_of_unread {rules : Registry} {input : Array Token} {fuel : Nat} {h : Handle}
    {s : Nat} {body : Expr Handle} {results : Results} {c d : Chart}
    (hfresh : c.remembered? ⟨h, s⟩ = none) (hbody : rules.get? h = some body)
    (hrun : (evalBody input (call rules input fuel) h body s).run (c.enter ⟨h, s⟩) =
      some (results, d)) (hdeps : d.deps = [])
    (hunread : ∀ growth, d.growing[(⟨h, s⟩ : Key)]? = some growth → growth.readSince = false) :
    (call rules input (fuel + 1) h s).run c =
      some (results, d.leave ⟨h, s⟩ c.deps results []) := by
  refine run_call_of_body hfresh hbody (run_untilAnswer_iff.mpr ⟨0, ?_, _, rfl, ?_⟩)
  · exact Nat.one_lt_two_pow (Nat.succ_ne_zero fuel)
  · exact run_growRound_of_unread hrun hdeps hunread

/-- A round leaves nothing read. -/
theorem deps_of_growRound {key : Key} {body : ChartM Results} {c d : Chart}
    {answer : Option (Results × List Key)}
    (hrun : (growRound key body).run c = some (answer, d)) : d.deps = [] := by
  obtain ⟨results, d₀, -, ⟨-, rfl⟩ | ⟨-, rfl⟩⟩ := growRound_cases hrun
  · rfl
  · rfl

end ChartGrammar
