/-
  Proofs/EnoughFuel.lean --- runs that end, and how much fuel they need.

  Rules nest at most once per key, since a key that is growing answers at once, and each
  of them settles within a known number of rounds or never.  So every run that ends at
  all ends on the fuel for the length of its input, and more fuel than it needs never
  changes what it finds.

  Not every run ends.  A rule whose results were computed from an approximation is kept
  when that approximation has settled, and a growing rule may find an end in every other
  round and lose it again in between.
-/
import Mathlib
import ChartGrammar.Proofs.Settling

set_option autoImplicit false

namespace ChartGrammar

open ChartM

/-! ## Nesting -/

/-- The keys in range. -/
def Registry.keys (rules : Registry) (length : Nat) : Finset Key :=
  Finset.univ.image (Slots.key : Slots rules length → Key)

/-- The number of keys in range outside a set of keys. -/
def Registry.room (rules : Registry) (length : Nat) (K : Finset Key) : Nat :=
  (rules.keys length \ K).card

theorem Registry.room_empty_le (rules : Registry) (length : Nat) :
    rules.room length ∅ ≤ rules.size * (length + 1) := by
  rw [room, Finset.sdiff_empty, keys]
  refine Finset.card_image_le.trans ?_
  rw [Finset.card_univ, Fintype.card_prod, Fintype.card_fin, Fintype.card_fin]

theorem Registry.room_insert {rules : Registry} {length : Nat} {key : Key} {K : Finset Key}
    (hrange : key.InRange rules length) (hnew : key ∉ K) :
    rules.room length (insert key K) + 1 = rules.room length K := by
  obtain ⟨slot, hslot⟩ := hrange.exists_slot
  have hmem : key ∈ rules.keys length \ K :=
    Finset.mem_sdiff.mpr ⟨Finset.mem_image.mpr ⟨slot, Finset.mem_univ slot, hslot⟩, hnew⟩
  rw [room, room, Finset.sdiff_insert, Finset.card_erase_add_one hmem]

/-! ## Runs on different fuel -/

section Twins

variable {rules : Registry} {length : Nat} {c c' : Chart} {key : Key} {K : Finset Key}

/-- One chart twice: it is within bounds, and the given keys are those that are growing. -/
structure Chart.Twins (rules : Registry) (length : Nat) (K : Finset Key) (c c' : Chart) :
    Prop where
  eq : c = c'
  bounded : c.Alike rules length c
  growing : ∀ k, c.growing.contains k = true ↔ k ∈ K

/-- The same results, within bounds. -/
def Results.Same (rules : Registry) (length : Nat) : Results → Results → Prop :=
  Matches (· ≤ length) fun d d' => d = d' ∧ d.Akin rules.width d

theorem Results.same_iff {rs rs' : Results} :
    Results.Same rules length rs rs' ↔ rs = rs' ∧ Results.Akin rules length rs rs := by
  constructor
  · rintro ⟨hall, hnodup⟩
    have heq : rs = rs' := hall.eq fun d d' hd => hd.1
    subst heq
    exact ⟨rfl, hall.imp fun d d' hd => hd.1 ▸ hd.2, hnodup⟩
  · rintro ⟨rfl, hall, hnodup⟩
    refine ⟨List.forall₂_same.mpr fun r hr => ?_, hnodup⟩
    obtain ⟨-, hend, hakin⟩ := List.forall₂_same.mp hall r hr
    exact ⟨rfl, hend, rfl, hakin⟩

theorem Chart.twins_empty : Chart.Twins rules length ∅ {} {} :=
  ⟨rfl, Chart.alike_empty, fun k => by simp⟩

theorem Chart.keepsNotes_twins : KeepsNotes (Chart.Twins rules length K) where
  expect pos what h :=
    ⟨congrArg (·.expect pos what) h.eq, keepsNotes_alike.expect pos what h.bounded,
      fun k => by rw [(sameEntries_expect _ pos what).growing]; exact h.growing k⟩
  noteMismatch ctor h :=
    ⟨congrArg (·.noteMismatch ctor) h.eq, keepsNotes_alike.noteMismatch ctor h.bounded,
      fun k => by rw [(sameEntries_noteMismatch _ ctor).growing]; exact h.growing k⟩

/-- Reading what is remembered leaves the same keys growing. -/
theorem Chart.contains_growing_remembered {d : Chart} {results : Results}
    (h : c.remembered? key = some (results, d)) (k : Key) :
    d.growing.contains k = c.growing.contains k := by
  unfold remembered? at h
  split at h
  · cases h
    rfl
  · split at h
    · next growth hgrow =>
      cases h
      simp only [depend, Std.TreeMap.contains_eq_isSome_getElem?, lookup_insert]
      split
      · next heq => rw [← heq, hgrow]; rfl
      · rfl
    · cases h

/-- A key of which nothing is remembered is not growing. -/
theorem Chart.not_growing_of_fresh (hfresh : c.remembered? key = none) :
    ¬ c.growing.contains key = true := by
  unfold remembered? at hfresh
  split at hfresh
  · cases hfresh
  · split at hfresh
    · cases hfresh
    · next hgrow =>
      rw [Std.TreeMap.contains_eq_isSome_getElem?, hgrow]
      exact Bool.false_ne_true

theorem Chart.Twins.enter (h : Chart.Twins rules length K c c)
    (hrange : key.InRange rules length) (hfresh : c.remembered? key = none) :
    Chart.Twins rules length (insert key K) (c.enter key) (c.enter key) := by
  refine ⟨rfl, h.bounded.enter hrange hfresh, fun k => ?_⟩
  rw [Finset.mem_insert, ← h.growing k]
  simp only [Chart.enter, Std.TreeMap.contains_eq_isSome_getElem?, lookup_insert]
  split
  · next heq => simp [heq]
  · next hne => simp [Ne.symm hne]

theorem Chart.Twins.regrow (h : Chart.Twins rules length K c c) {results : Results}
    (hresults : Results.Akin rules length results results) {deps : List Key}
    (hdeps : SameKeys rules length deps deps) :
    Chart.Twins rules length K (c.regrow key results deps) (c.regrow key results deps) := by
  refine ⟨rfl, h.bounded.regrow hresults hdeps, fun k => ?_⟩
  rw [← h.growing k]
  have hmodify : (c.regrow key results deps).growing.contains k =
      (c.growing.modify key fun growth => ⟨results, deps, false, growth.round + 1⟩).contains k :=
    rfl
  rw [hmodify, Std.TreeMap.contains_modify]

theorem Chart.Twins.leave (h : Chart.Twins rules length (insert key K) c c)
    (hrange : key.InRange rules length) (hnew : key ∉ K) {outer deps : List Key}
    (houter : SameKeys rules length outer outer) {results : Results}
    (hresults : Results.Akin rules length results results)
    (hdeps : SameKeys rules length deps deps) :
    Chart.Twins rules length K (c.leave key outer results deps)
      (c.leave key outer results deps) := by
  refine ⟨rfl, h.bounded.leave hrange houter hresults hdeps, fun k => ?_⟩
  have herase : (c.leave key outer results deps).growing = c.growing.erase key := by
    rw [← (sameEntries_settle c key).growing]
    rfl
  have hgrowing := h.growing k
  rw [Std.TreeMap.contains_eq_isSome_getElem?, Finset.mem_insert] at hgrowing
  rw [herase, Std.TreeMap.contains_eq_isSome_getElem?, lookup_erase]
  split
  · next heq => simp [← heq, hnew]
  · next hne => rw [hgrowing, or_iff_right (Ne.symm hne)]

end Twins

section Fuel

variable {rules : Registry} {input : Array Token}

/-- A round of a rule goes the same way on another fuel, if its references do. -/
theorem simulates_round_twins {h : Handle} {body : Expr Handle} (hbody : rules.get? h = some body)
    {s : Nat} (hs : s ≤ input.size) {K : Finset Key} {call call' : Handle → Nat → ChartM Results}
    (hcall : ∀ h s, s ≤ input.size → Simulates (Chart.Twins rules input.size K) (call h s)
      (call' h s) (Results.Same rules input.size)) :
    Simulates (Chart.Twins rules input.size K) (growRound ⟨h, s⟩ (evalBody input call h body s))
      (growRound ⟨h, s⟩ (evalBody input call' h body s))
      (Option.Rel fun a a' => Results.Same rules input.size a.1 a'.1 ∧
        a.2 = a'.2 ∧ SameKeys rules input.size a.2 a.2) := by
  have hrun := simulates_evalBody Chart.keepsNotes_twins (congruence_eq rules.width)
    (fun _ _ _ ht => succ_le_size ht) hcall h (Registry.width_le_of_get? hbody) hs
  refine simulates_growRound
    (O := fun deps deps' => deps = deps' ∧ SameKeys rules input.size deps deps) hrun ?_ ?_ ?_
  · intro c c' hc
    obtain rfl := hc.eq
    refine ⟨⟨rfl, hc.bounded.withDeps Chart.sameKeys_nil, hc.growing⟩, rfl, fun k => ?_⟩
    exact ⟨Iff.rfl, fun hk => (hc.bounded.deps k).2 (List.mem_of_mem_filter hk)⟩
  · intro c c' results results' hc hresults
    rw [hc.eq, (Results.same_iff.mp hresults).1]
  · rintro c c' results results' deps deps' hc hresults ⟨rfl, hdeps⟩
    obtain rfl := hc.eq
    obtain ⟨rfl, hakin⟩ := Results.same_iff.mp hresults
    exact hc.regrow hakin hdeps

/-- A call on some fuel ends the same way on any other fuel that is as much, or that is
enough for the keys that are not yet growing. -/
theorem simulates_call_fuel (fuel : Nat) :
    ∀ (fuel' : Nat) (K : Finset Key) (h : Handle) (s : Nat), s ≤ input.size →
      min fuel (rules.room input.size K + rules.stateBits input.size + 1) ≤ fuel' →
      Simulates (Chart.Twins rules input.size K) (call rules input fuel h s)
        (call rules input fuel' h s) (Results.Same rules input.size) := by
  induction fuel with
  | zero => exact fun _ _ h s _ _ => simulates_failure
  | succ fuel ih =>
    intro fuel' K h s hs hfuel c c' results d hc hrun
    obtain rfl := hc.eq
    obtain ⟨fuel', rfl⟩ : ∃ n, fuel' = n + 1 := Nat.exists_eq_add_one.mpr (by omega)
    rcases call_cases hrun with hfound | ⟨hfresh, ⟨hbody, rfl, rfl⟩ |
      ⟨body, deps, settled, hbody, hrounds, rfl⟩⟩
    · obtain ⟨⟨results', d'⟩, hfound', hakin, hd⟩ :=
        exists_of_rel_some (hc.bounded.remembered ⟨h, s⟩) hfound
      cases hfound.symm.trans hfound'
      refine ⟨results, d, run_call_of_remembered hfound, ⟨rfl, hd, fun k => ?_⟩,
        Results.same_iff.mpr ⟨rfl, hakin⟩⟩
      rw [Chart.contains_growing_remembered hfound k]
      exact hc.growing k
    · exact ⟨[], _, run_call_of_undefined hfresh hbody, hc, matches_nil⟩
    · have hrange : Key.InRange rules input.size ⟨h, s⟩ := ⟨Registry.index_lt_of_get? hbody, hs⟩
      have hnew : (⟨h, s⟩ : Key) ∉ K :=
        fun hmem => Chart.not_growing_of_fresh hfresh ((hc.growing _).mpr hmem)
      have hroom := Registry.room_insert hrange hnew
      have hround := simulates_round_twins hbody hs fun h' s' hs' =>
        ih fuel' (insert ⟨h, s⟩ K) h' s' hs' (by omega)
      have henter := hc.enter hrange hfresh
      obtain ⟨j, hj, e, hnone, hanswer⟩ := run_untilAnswer_iff.mp hrounds
      -- the rounds before the answer go the same way, and there are few enough of them
      have hfew := rounds_lt (simulates_round_alike hbody hs (simulates_call_alike fuel))
        (fun c answer d hrun => deps_of_growRound hrun) henter.bounded rfl hnone hanswer
      have hpaid : j + 1 < 2 ^ (fuel' + 1) := by
        rcases min_le_iff.mp hfuel with hmore | hmore
        · exact hj.trans_le (Nat.pow_le_pow_right Nat.two_pos hmore)
        · have hle : 2 ^ (rules.stateBits input.size + 1) ≤ 2 ^ (fuel' + 1) :=
            Nat.pow_le_pow_right Nat.two_pos (by omega)
          rw [pow_succ] at hle
          omega
      obtain ⟨_, e', hnone', he, hrel⟩ := simulates_repeatUpTo hround j _ _ _ _ henter hnone
      cases hrel
      obtain rfl := he.eq
      obtain ⟨_, d', hanswer', hd, hrel⟩ := hround _ _ _ _ he hanswer
      obtain ⟨⟨results', deps'⟩, rfl, hresults, rfl, hdeps⟩ := exists_of_rel_some hrel rfl
      obtain rfl := hd.eq
      obtain ⟨rfl, hakin⟩ := Results.same_iff.mp hresults
      exact ⟨results, _, run_call_of_body hfresh hbody
        (run_untilAnswer_iff.mpr ⟨j, hpaid, e, hnone', hanswer'⟩),
        hd.leave hrange hnew hc.bounded.deps hakin hdeps, hresults⟩

/-- A whole run that ends on some fuel ends the same way on any fuel that is as much, or
that is enough for the length of its input. -/
theorem run_call_of_fuel {fuel fuel' : Nat} {root : Handle} {results : Results} {c : Chart}
    (hfuel : min fuel (rules.fuelFor input.size) ≤ fuel')
    (hrun : (call rules input fuel root 0).run {} = some (results, c)) :
    (call rules input fuel' root 0).run {} = some (results, c) := by
  have hroom := rules.room_empty_le input.size
  rw [Registry.fuelFor_eq] at hfuel
  have hcall : Simulates (Chart.Twins rules input.size ∅) (call rules input fuel root 0)
      (call rules input fuel' root 0) (Results.Same rules input.size) :=
    simulates_call_fuel fuel fuel' ∅ root 0 (Nat.zero_le _) (by omega)
  obtain ⟨results', c', hrun', hc, hresults⟩ := hcall _ _ _ _ Chart.twins_empty hrun
  obtain rfl := hc.eq
  obtain ⟨rfl, -⟩ := Results.same_iff.mp hresults
  exact hrun'

end Fuel

theorem Registry.run?_of_fuel {rules : Registry} {fuel fuel' : Nat} {root : Handle}
    {tokens : List Token} {report : Report}
    (hfuel : min fuel (rules.fuelFor tokens.length) ≤ fuel')
    (hrun : rules.run? fuel root tokens = some report) :
    rules.run? fuel' root tokens = some report := by
  unfold Registry.run? at hrun ⊢
  split
  · next hroot =>
    rw [if_pos hroot] at hrun
    split
    · next handle hundefined =>
      rw [hundefined] at hrun
      exact hrun
    · next hdefined =>
      rw [hdefined] at hrun
      dsimp only at hrun ⊢
      split at hrun
      · next results c hcall =>
        rw [run_call_of_fuel (by rwa [List.size_toArray]) hcall]
        exact hrun
      · cases hrun
  · next hroot =>
    rw [if_neg hroot] at hrun
    exact hrun

/-! ## Repetition -/

/-- The positions that a search has not seen yet. -/
def unseen (length : Nat) (seen : Std.HashSet Nat) : Finset Nat :=
  (Finset.range (length + 1)).filter fun p => seen.contains p = false

theorem unseen_insert {length p : Nat} {seen : Std.HashSet Nat} :
    unseen length (seen.insert p) = (unseen length seen).erase p := by
  ext q
  simp only [unseen, Finset.mem_filter, Finset.mem_erase, Std.HashSet.contains_insert,
    Bool.or_eq_false_iff, beq_eq_false_iff_ne]
  tauto

/-- A search visits every position once at most, and never runs out of room. -/
theorem exists_search {length : Nat} {item : Nat → ChartM Results}
    (hitem : ∀ s ≤ length, ∀ c, ∃ found d, (item s).run c = some (found, d) ∧
      ∀ r ∈ found, r.1 ≤ length) (room : Nat) :
    ∀ (stack visited : List Repeat.Stop) (seen : Std.HashSet Nat) (c : Chart),
      (∀ stop ∈ stack, stop.1 ≤ length) → (unseen length seen).card ≤ room →
      (visited.map Prod.fst).Nodup → (∀ stop ∈ visited, seen.contains stop.1 = true) →
      ∃ stops d, (Repeat.search item room stack seen visited).run c = some (stops, d) ∧
        (stops.map Prod.fst).Nodup := by
  have hdone : ∀ {visited : List Repeat.Stop}, (visited.map Prod.fst).Nodup →
      (visited.reverse.map Prod.fst).Nodup := by
    intro visited hnodup
    rw [List.map_reverse]
    exact List.nodup_reverse.mpr hnodup
  have hnext : ∀ {stack rest : List Repeat.Stop} {stop : Repeat.Stop} {seen : Std.HashSet Nat},
      (∀ stop ∈ stack, stop.1 ≤ length) →
      (stack.dropWhile fun stop => seen.contains stop.1) = stop :: rest →
      stop.1 ∈ unseen length seen ∧ ∀ s ∈ stop :: rest, s.1 ≤ length := by
    intro stack rest stop seen hstack hdrop
    have hall : ∀ s ∈ stop :: rest, s.1 ≤ length := by
      intro s hs
      rw [← hdrop] at hs
      exact hstack s ((List.dropWhile_suffix _).subset hs)
    refine ⟨Finset.mem_filter.mpr ⟨?_, (dropWhile_eq_cons stack hdrop).1⟩, hall⟩
    exact Finset.mem_range.mpr (Nat.lt_succ_of_le (hall stop List.mem_cons_self))
  induction room with
  | zero =>
    intro stack visited seen c hstack hroom hnodup hseen
    unfold Repeat.search
    split
    · exact ⟨_, c, rfl, hdone hnodup⟩
    · next stop rest hdrop =>
      rw [Nat.le_zero, Finset.card_eq_zero] at hroom
      have hstop := (hnext hstack hdrop).1
      rw [hroom] at hstop
      exact absurd hstop (Finset.notMem_empty _)
  | succ room ih =>
    intro stack visited seen c hstack hroom hnodup hseen
    unfold Repeat.search
    split
    · exact ⟨_, c, rfl, hdone hnodup⟩
    · next stop rest hdrop =>
      obtain ⟨hunseen, hle⟩ := hnext hstack hdrop
      have hfresh := (Finset.mem_filter.mp hunseen).2
      obtain ⟨found, d, hrun, hends⟩ := hitem stop.1 (hle stop List.mem_cons_self) c
      rw [StateT.run_bind, hrun]
      obtain ⟨hnodup, hseen⟩ := nodup_visit hfresh hnodup hseen
      refine ih _ _ _ d ?_ ?_ hnodup hseen
      · intro s hs
        rcases List.mem_append.mp hs with hs | hs
        · obtain ⟨n, hn, -⟩ := mem_onward.mp hs
          exact hends _ hn
        · exact hle s (List.mem_cons_of_mem _ hs)
      · rw [unseen_insert, Finset.card_erase_of_mem hunseen]
        omega

/-- A repetition finds a list for each position that it visits, once at most, and never runs
out of room. -/
theorem exists_repeatItem {length : Nat} {item : Nat → ChartM Results}
    (hitem : ∀ s ≤ length, ∀ c, ∃ found d, (item s).run c = some (found, d) ∧
      ∀ r ∈ found, r.1 ≤ length) {s : Nat} (hs : s ≤ length) (c : Chart) :
    ∃ found d, (repeatItem length item s).run c = some (found, d) ∧
      (found.map Prod.fst).Nodup := by
  have hroom : (unseen length ∅).card ≤ length + 1 :=
    (Finset.card_filter_le _ _).trans (Finset.card_range _).le
  obtain ⟨stops, d, hrun, hnodup⟩ := exists_search hitem (length + 1) [(s, .empty)] [] ∅ c
    (by simpa using hs) hroom List.nodup_nil fun stop hstop => absurd hstop List.not_mem_nil
  refine ⟨stops.map fun stop => (stop.1, .list stop.2), d, ?_, ?_⟩
  · rw [repeatItem, StateT.run_bind, hrun]
    rfl
  · rwa [List.map_map]

/-! ## Which runs end -/

/-- A key that is growing answers at once: no other rule is run. -/
theorem exists_call_of_growing {rules : Registry} {input : Array Token} {h : Handle} {s : Nat}
    {c : Chart} (hgrow : c.growing.contains ⟨h, s⟩ = true) :
    ∃ found, (call rules input 1 h s).run c = some found := by
  rcases hremembered : c.remembered? ⟨h, s⟩ with _ | ⟨results, d⟩
  · exact absurd hgrow (Chart.not_growing_of_fresh hremembered)
  · exact ⟨(results, d), run_call_of_remembered hremembered⟩

/-- A run that ends on some fuel ends the same way on more, and it ends on any fuel at all
exactly if it ends on the fuel for the length of its input.  A rule that is growing is not
run again inside itself, and a repetition visits no position twice. -/
theorem Registry.exists_run?_iff_fuelFor (rules : Registry) (root : Handle)
    (tokens : List Token) :
    (∀ report, (∃ fuel, rules.run? fuel root tokens = some report) ↔
      rules.run? (rules.fuelFor tokens.length) root tokens = some report) ∧
    (∀ fuel fuel' report, fuel ≤ fuel' → rules.run? fuel root tokens = some report →
      rules.run? fuel' root tokens = some report) ∧
    (∀ h s c, c.growing.contains ⟨h, s⟩ = true →
      ∃ found, (call rules tokens.toArray 1 h s).run c = some found) ∧
    ∀ item : Nat → ChartM Results,
      (∀ s ≤ tokens.length, ∀ c, ∃ found d, (item s).run c = some (found, d) ∧
        ∀ r ∈ found, r.1 ≤ tokens.length) →
      ∀ s ≤ tokens.length, ∀ c, ∃ found d,
        (repeatItem tokens.length item s).run c = some (found, d) ∧
          (found.map Prod.fst).Nodup := by
  refine ⟨fun report => ⟨?_, fun hrun => ⟨_, hrun⟩⟩, ?_, ?_, ?_⟩
  · rintro ⟨fuel, hrun⟩
    exact run?_of_fuel (Nat.min_le_right _ _) hrun
  · intro fuel fuel' report hle hrun
    exact run?_of_fuel ((Nat.min_le_left _ _).trans hle) hrun
  · exact fun h s c => exists_call_of_growing
  · exact fun item hitem s hs c => exists_repeatItem hitem hs c

/-- Sums that begin with a sum: the root grows twice on this input. -/
theorem Registry.exists_run?_iff_fuelFor_sums :
    let rules : Registry := .ofBodies [
      .alt (.map (.branch "sum" "More" 2) (.seq [.ref ⟨0⟩, .ref ⟨1⟩]))
        (.map (.branch "sum" "One" 1) (.seq [.ref ⟨1⟩])),
      .map (.terminal "digit") (.matchOne .digit)]
    (∃ report, rules.run? 4 ⟨0⟩ (Token.stream "12") = some report) ∧
      ∃ report, rules.run? 1000000 ⟨0⟩ (Token.stream "12") = some report := by
  intro rules
  have hends : (rules.run? 4 ⟨0⟩ (Token.stream "12")).isSome = true := by
    cbv
  obtain ⟨report, hreport⟩ := Option.isSome_iff_exists.mp hends
  exact ⟨⟨report, hreport⟩, report,
    (rules.exists_run?_iff_fuelFor ⟨0⟩ (Token.stream "12")).2.1 4 1000000 report (by decide)
      hreport⟩

/-! ## Runs without end -/

/-- A run whose root comes back, after some rounds, to a chart that looks like an earlier one
has no end. -/
theorem Registry.run?_eq_none_of_recurring {rules : Registry} {root : Handle}
    {tokens : List Token} {body : Expr Handle} (hbody : rules.get? root = some body)
    (hdefined : rules.firstUndefined? = none) {fuel i j : Nat} {c d : Chart}
    (hreach : (repeatUpTo (growRound ⟨root, 0⟩ (evalBody tokens.toArray
      (call rules tokens.toArray fuel) root body 0)) i).run (Chart.enter {} ⟨root, 0⟩) =
        some (none, c))
    (hback : (repeatUpTo (growRound ⟨root, 0⟩ (evalBody tokens.toArray
      (call rules tokens.toArray fuel) root body 0)) (j + 1)).run c = some (none, d))
    (hsame : c.sketch rules tokens.length = d.sketch rules tokens.length) (fuel' : Nat) :
    rules.run? fuel' root tokens = none := by
  by_contra hne
  obtain ⟨report, hreport⟩ := Option.ne_none_iff_exists'.mp hne
  have hmore : rules.run? (fuel' + fuel + 1) root tokens = some report :=
    run?_of_fuel (by omega) hreport
  unfold Registry.run? at hmore
  rw [if_pos (index_lt_of_get? hbody), hdefined] at hmore
  dsimp only at hmore
  split at hmore
  · next results e hcall =>
    have hfresh : ({} : Chart).remembered? ⟨root, 0⟩ = none := by
      simp [Chart.remembered?]
    have hrange : Key.InRange rules tokens.toArray.size ⟨root, 0⟩ :=
      ⟨index_lt_of_get? hbody, Nat.zero_le _⟩
    have henter := Chart.twins_empty.enter hrange hfresh
    -- on the larger fuel the rounds go the same way
    have hround := simulates_round_twins hbody hrange.2 fun h s hs =>
      simulates_call_fuel fuel (fuel' + fuel) (insert ⟨root, 0⟩ ∅) h s hs (by omega)
    obtain ⟨_, c', hreach', hc, hrel⟩ := simulates_repeatUpTo hround i _ _ _ _ henter hreach
    cases hrel
    obtain rfl := hc.eq
    obtain ⟨_, d', hback', hd, hrel⟩ := simulates_repeatUpTo hround (j + 1) _ _ _ _ hc hback
    cases hrel
    obtain rfl := hd.eq
    have hread : ∀ c answer d, (growRound ⟨root, 0⟩ (evalBody tokens.toArray
        (call rules tokens.toArray (fuel' + fuel)) root body 0)).run c = some (answer, d) →
        d.deps = [] := fun c answer d hrun => deps_of_growRound hrun
    have hcdeps := deps_of_repeatUpTo hread rfl hreach'
    have hddeps := deps_of_repeatUpTo hread hcdeps hback'
    have halike := hc.bounded.of_sketch hd.bounded
      (by rw [hcdeps, hddeps]; exact Chart.sameKeys_nil) (by rwa [List.size_toArray])
    rcases call_cases hcall with hfound | ⟨-, ⟨hnone, -⟩ |
      ⟨body', deps, settled, hbody', hrounds, -⟩⟩
    · rw [hfresh] at hfound
      cases hfound
    · rw [hbody] at hnone
      cases hnone
    · cases hbody.symm.trans hbody'
      obtain ⟨k, -, f, hnone, hanswer⟩ := run_untilAnswer_iff.mp hrounds
      obtain ⟨c'', hreach'', hrest⟩ :=
        exists_repeatUpTo_of_le hnone (le_of_round hnone hanswer hreach')
      cases hreach'.symm.trans hreach''
      exact no_answer_of_alike (simulates_round_alike hbody hrange.2
        (simulates_call_alike (fuel' + fuel))) hback' halike hrest hanswer
  · cases hmore

/-- The rules of a grammar in which all but the last begin with one another. -/
def Registry.restless : Registry := .ofBodies [
  .label "s" (.map (.record "s" 2) (.seq [.ref ⟨1⟩, .ref ⟨3⟩])),
  .label "p" (.map (.opt "p") (.alt .nothing (.just (.ref ⟨2⟩)))),
  .label "m" (.alt (.map (.branch "m" "L" 3) (.seq [.ref ⟨0⟩, .ref ⟨3⟩, .ref ⟨4⟩]))
    (.map (.branch "m" "P" 1) (.seq [.ref ⟨1⟩]))),
  .label "q" (.alt (.map (.branch "q" "W" 1) (.seq [.ref ⟨2⟩]))
    (.map (.branch "q" "S" 2) (.seq [.ref ⟨0⟩, .ref ⟨4⟩]))),
  .label "a" (.map (.terminal "a") (.matchOne (.char 'a')))]

/-- The root of these rules finds the end of the input in every other round, and loses it
again in the next. -/
theorem Parser.never_ends_restless :
    (∃ g, Grammar.parse
        "s = ( p q ) ; p = m? ; q = W: m | S: s a ; m = L: s q a | P: p ; a = 'a' ;" = .ok g ∧
      Parser.compile (Signature.ofGrammar g) g ⟨0⟩ = .ok ⟨"s", Registry.restless, ⟨0⟩⟩) ∧
    ∀ fuel, Registry.restless.run? fuel ⟨0⟩ (Token.stream "a") = none := by
  have hcompile : (Grammar.parse
      "s = ( p q ) ; p = m? ; q = W: m | S: s a ; m = L: s q a | P: p ; a = 'a' ;").toOption.map
        (fun g => Parser.compile (Signature.ofGrammar g) g ⟨0⟩) =
      some (.ok ⟨"s", Registry.restless, ⟨0⟩⟩) := by
    cbv
  have hcycle : (Registry.restless.get? ⟨0⟩).any (fun body =>
      let round := growRound ⟨⟨0⟩, 0⟩ (evalBody (Token.stream "a").toArray
        (call Registry.restless (Token.stream "a").toArray 7) ⟨0⟩ body 0)
      ((repeatUpTo round 3).run (Chart.enter {} ⟨⟨0⟩, 0⟩)).any fun reached =>
        reached.1.isNone && ((repeatUpTo round 2).run reached.2).any fun again =>
          again.1.isNone && decide (reached.2.sketch Registry.restless 1 =
            again.2.sketch Registry.restless 1)) = true := by
    cbv
  refine ⟨?_, ?_⟩
  · cases hg : Grammar.parse
      "s = ( p q ) ; p = m? ; q = W: m | S: s a ; m = L: s q a | P: p ; a = 'a' ;" with
    | error e =>
      rw [hg] at hcompile
      cases hcompile
    | ok g =>
      rw [hg] at hcompile
      exact ⟨g, rfl, Option.some.inj hcompile⟩
  · obtain ⟨body, hbody, hrounds⟩ := (Option.any_eq_true _ _).mp hcycle
    obtain ⟨⟨answer, c⟩, hreach, hrest⟩ := (Option.any_eq_true _ _).mp hrounds
    obtain ⟨hnone, hagain⟩ := Bool.and_eq_true_iff.mp hrest
    obtain rfl := Option.isNone_iff_eq_none.mp hnone
    obtain ⟨⟨answer', d⟩, hback, hrest'⟩ := (Option.any_eq_true _ _).mp hagain
    obtain ⟨hnone', hsame⟩ := Bool.and_eq_true_iff.mp hrest'
    obtain rfl := Option.isNone_iff_eq_none.mp hnone'
    exact Registry.run?_eq_none_of_recurring hbody (firstUndefined?_ofBodies _) hreach hback
      (of_decide_eq_true hsame)

end ChartGrammar
