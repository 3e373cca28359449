/-
  Proofs/AlikeCharts.lean --- charts that runs cannot tell apart.

  How a run goes on is decided by what the chart holds of each key: whether it is
  finished, growing and read since, whether it is provisional, which keys it depends
  on, and which ends it has, in which order and with derivations of which kind.  Charts
  that agree on all this are alike, and a run from one of them is a run from the other,
  step by step.

  A chart is alike to itself if it is within bounds: every key in it belongs to a rule
  that was issued and starts within the input, every end lies within the input and comes
  once, no derivation has more fields than the rules ask for, and nothing is finished
  while it grows.  So that runs keep charts alike also says that they keep these bounds.
-/
import ChartGrammar.Proofs.ParserCompleteness
import ChartGrammar.Proofs.Simulation

set_option autoImplicit false

namespace ChartGrammar

open ChartM

/-! ## Looking up keys -/

theorem Key.order_eq_iff {a b : Key} : Key.order a b = .eq ↔ a = b :=
  Std.LawfulEqCmp.compare_eq_iff_eq

section Lookup

variable {β : Type} (m : Std.TreeMap Key β Key.order) (key k : Key)

theorem lookup_insert (v : β) : (m.insert key v)[k]? = if key = k then some v else m[k]? := by
  simp only [Std.TreeMap.getElem?_insert, Key.order_eq_iff]

theorem lookup_erase : (m.erase key)[k]? = if key = k then none else m[k]? := by
  simp only [Std.TreeMap.getElem?_erase, Key.order_eq_iff]

theorem lookup_modify (f : β → β) :
    (m.modify key f)[k]? = if key = k then m[key]?.map f else m[k]? := by
  simp only [Std.TreeMap.getElem?_modify, Key.order_eq_iff]

end Lookup

namespace Chart

/-- A body depends on what it depended on, and on the given keys that are growing. -/
theorem mem_deps_depend (c : Chart) (keys : List Key) (k : Key) :
    k ∈ (c.depend keys).deps ↔ k ∈ c.deps ∨ k ∈ keys ∧ c.growing.contains k = true := by
  have hfold : ∀ (keys deps : List Key), k ∈ keys.foldl (fun deps k =>
      if c.growing.contains k && !deps.contains k then deps ++ [k] else deps) deps ↔
        k ∈ deps ∨ k ∈ keys ∧ c.growing.contains k = true := by
    intro keys
    induction keys with
    | nil => simp
    | cons k' keys ih =>
      intro deps
      rw [List.foldl_cons, ih]
      by_cases hgrow : c.growing.contains k' = true <;> by_cases hmem : k' ∈ deps <;>
        grind
  exact hfold keys c.deps

/-- What a key makes the chart forget: the provisional results that depend on it. -/
theorem lookup_forget (c : Chart) (key k : Key) :
    (∀ entry, (c.forget key).finished[k]? = some entry ↔
      c.finished[k]? = some entry ∧ (k ∈ c.provisional → key ∉ entry.deps)) ∧
    (k ∈ (c.forget key).provisional ↔
      k ∈ c.provisional ∧ ∃ entry, c.finished[k]? = some entry ∧ key ∉ entry.deps) := by
  have hfold : ∀ (ks : List Key) (acc : Std.TreeMap Key Finished Key.order × List Key),
      let final := ks.foldl (dropEntry key) acc
      (∀ entry, final.1[k]? = some entry ↔
        acc.1[k]? = some entry ∧ (k ∈ ks → key ∉ entry.deps)) ∧
      (k ∈ final.2 ↔
        k ∈ acc.2 ∨ k ∈ ks ∧ ∃ entry, acc.1[k]? = some entry ∧ key ∉ entry.deps) := by
    intro ks
    induction ks with
    | nil =>
      intro acc
      simp
    | cons k' ks ih =>
      intro acc
      simp only [List.foldl_cons]
      obtain ⟨hfinished, hkept⟩ := ih _
      refine ⟨fun entry => (hfinished entry).trans ?_, hkept.trans ?_⟩
      all_goals
        clear hfinished hkept ih
        unfold dropEntry
        rcases hentry : acc.1[k']? with _ | found
        · grind
        · by_cases hdep : key ∈ found.deps
          · simp only [List.contains_iff_mem, hdep, if_true, lookup_erase]
            grind
          · simp only [List.contains_iff_mem, hdep, if_false]
            grind
  have hall := hfold c.provisional (c.finished, [])
  refine ⟨hall.1, ?_⟩
  have hkept : k ∈ (c.forget key).provisional ↔ k ∈ ([] : List Key) ∨ k ∈ c.provisional ∧
      ∃ entry, c.finished[k]? = some entry ∧ key ∉ entry.deps := List.mem_reverse.trans hall.2
  simpa using hkept

end Chart

/-! ## Charts that are alike -/

/-- A key of a rule that was issued, at a position of the input. -/
def Key.InRange (rules : Registry) (length : Nat) (k : Key) : Prop :=
  k.handle.index < rules.size ∧ k.start ≤ length

section Alike

variable (rules : Registry) (length : Nat)

/-- The same keys, all of them in range. -/
def SameKeys (ks ks' : List Key) : Prop :=
  ∀ k, (k ∈ ks ↔ k ∈ ks') ∧ (k ∈ ks → k.InRange rules length)

/-- The same ends in the same order, with derivations of the same kinds. -/
def Results.Akin : Results → Results → Prop :=
  Matches (· ≤ length) (Deriv.Akin rules.width)

/-- Finished results that runs cannot tell apart. -/
structure Finished.Akin (entry entry' : Finished) : Prop where
  results : Results.Akin rules length entry.results entry'.results
  deps : SameKeys rules length entry.deps entry'.deps

/-- Unfinished results that runs cannot tell apart. -/
structure Growth.Akin (growth growth' : Growth) : Prop where
  results : Results.Akin rules length growth.results growth'.results
  deps : SameKeys rules length growth.deps growth'.deps
  readSince : growth.readSince = growth'.readSince

namespace Chart

/-- Charts that runs cannot tell apart. -/
structure Alike (c c' : Chart) : Prop where
  finished : ∀ k : Key, Option.Rel (Finished.Akin rules length) c.finished[k]? c'.finished[k]?
  growing : ∀ k : Key, Option.Rel (Growth.Akin rules length) c.growing[k]? c'.growing[k]?
  provisional : SameKeys rules length c.provisional c'.provisional
  deps : SameKeys rules length c.deps c'.deps
  inRange : ∀ k : Key, c.finished[k]? ≠ none ∨ c.growing[k]? ≠ none → k.InRange rules length
  apart : ∀ k : Key, c.finished[k]? = none ∨ c.growing[k]? = none

end Chart

end Alike

section Rel

variable {α β : Type} {r : α → β → Prop} {x : Option α} {y : Option β}

theorem exists_of_rel_some {a : α} (h : Option.Rel r x y) (hx : x = some a) :
    ∃ b, y = some b ∧ r a b := by
  subst hx
  cases h with
  | some hab => exact ⟨_, rfl, hab⟩

theorem eq_none_of_rel (h : Option.Rel r x y) (hx : x = none) : y = none := by
  subst hx
  cases h
  rfl

theorem isSome_eq_of_rel (h : Option.Rel r x y) : x.isSome = y.isSome := by
  cases h <;> rfl

/-- Filtering two related options by related tests leaves them related. -/
theorem rel_of_filtered {x₁ : Option α} {y₁ : Option β} {P : α → Prop} {P' : β → Prop}
    (h : Option.Rel r x y) (hx : ∀ a, x₁ = some a ↔ x = some a ∧ P a)
    (hy : ∀ b, y₁ = some b ↔ y = some b ∧ P' b) (hP : ∀ a b, r a b → (P a ↔ P' b)) :
    Option.Rel r x₁ y₁ := by
  have hnone : ∀ {γ : Type} {z : Option γ}, (∀ c, z ≠ some c) → z = none :=
    Option.eq_none_iff_forall_ne_some.mpr
  cases h with
  | none =>
    have hx₁ : x₁ = none := hnone fun a ha => by cases ((hx a).mp ha).1
    have hy₁ : y₁ = none := hnone fun b hb => by cases ((hy b).mp hb).1
    rw [hx₁, hy₁]
    exact .none
  | @some a b hab =>
    by_cases ha : P a
    · rw [(hx a).mpr ⟨rfl, ha⟩, (hy b).mpr ⟨rfl, (hP a b hab).mp ha⟩]
      exact .some hab
    · have hx₁ : x₁ = none := hnone fun a' ha' => by
        obtain ⟨heq, hPa⟩ := (hx a').mp ha'
        cases heq
        exact ha hPa
      have hy₁ : y₁ = none := hnone fun b' hb' => by
        obtain ⟨heq, hPb⟩ := (hy b').mp hb'
        cases heq
        exact ha ((hP a b hab).mpr hPb)
      rw [hx₁, hy₁]
      exact .none

end Rel

namespace Chart

variable {rules : Registry} {length : Nat} {c c' : Chart} {key : Key}

theorem sameKeys_nil : SameKeys rules length [] [] :=
  fun _ => ⟨Iff.rfl, fun hk => absurd hk List.not_mem_nil⟩

theorem alike_empty : Alike rules length {} {} where
  finished k := by simp
  growing k := by simp
  provisional := sameKeys_nil
  deps := sameKeys_nil
  inRange k h := by simp at h
  apart k := by simp

/-- Charts that hold the same entries, whatever they note beside them. -/
structure SameEntries (c d : Chart) : Prop where
  finished : d.finished = c.finished
  growing : d.growing = c.growing
  provisional : d.provisional = c.provisional
  deps : d.deps = c.deps

theorem sameEntries_expect (c : Chart) (pos : Nat) (what : String) :
    SameEntries c (c.expect pos what) := by
  unfold expect
  split
  · exact ⟨rfl, rfl, rfl, rfl⟩
  · split <;> exact ⟨rfl, rfl, rfl, rfl⟩

theorem sameEntries_noteMismatch (c : Chart) (ctor : Constructor) :
    SameEntries c (c.noteMismatch ctor) := by
  unfold noteMismatch
  split <;> exact ⟨rfl, rfl, rfl, rfl⟩

theorem sameEntries_settle (c : Chart) (key : Key) : SameEntries c (c.settle key) := by
  unfold settle
  split
  · split <;> exact ⟨rfl, rfl, rfl, rfl⟩
  · exact ⟨rfl, rfl, rfl, rfl⟩

/-- Whether charts are alike depends on their entries only. -/
theorem Alike.of_sameEntries {d d' : Chart} (h : Alike rules length c c')
    (hd : SameEntries c d) (hd' : SameEntries c' d') : Alike rules length d d' where
  finished k := by rw [hd.finished, hd'.finished]; exact h.finished k
  growing k := by rw [hd.growing, hd'.growing]; exact h.growing k
  provisional := by rw [hd.provisional, hd'.provisional]; exact h.provisional
  deps := by rw [hd.deps, hd'.deps]; exact h.deps
  inRange k hk := by rw [hd.finished, hd.growing] at hk; exact h.inRange k hk
  apart k := by rw [hd.finished, hd.growing]; exact h.apart k

theorem keepsNotes_alike : KeepsNotes (Alike rules length) where
  expect pos what h :=
    h.of_sameEntries (sameEntries_expect _ pos what) (sameEntries_expect _ pos what)
  noteMismatch ctor h :=
    h.of_sameEntries (sameEntries_noteMismatch _ ctor) (sameEntries_noteMismatch _ ctor)

/-! ## Operations on charts that are alike -/

theorem Alike.contains_growing (h : Alike rules length c c') (k : Key) :
    c.growing.contains k = c'.growing.contains k := by
  rw [Std.TreeMap.contains_eq_isSome_getElem?, Std.TreeMap.contains_eq_isSome_getElem?]
  exact isSome_eq_of_rel (h.growing k)

theorem Alike.inRange_of_growing (h : Alike rules length c c') {k : Key}
    (hk : c.growing.contains k = true) : k.InRange rules length := by
  refine h.inRange k (.inr fun hnone => ?_)
  rw [Std.TreeMap.contains_eq_isSome_getElem?, hnone] at hk
  cases hk

theorem Alike.depend (h : Alike rules length c c') {keys keys' : List Key}
    (hkeys : ∀ k, k ∈ keys ↔ k ∈ keys') :
    Alike rules length (c.depend keys) (c'.depend keys') where
  finished := h.finished
  growing := h.growing
  provisional := h.provisional
  deps k := by
    rw [mem_deps_depend, mem_deps_depend, (h.deps k).1, hkeys k, h.contains_growing k]
    refine ⟨Iff.rfl, ?_⟩
    rintro (hk | ⟨-, hk⟩)
    · exact (h.deps k).2 ((h.deps k).1.mpr hk)
    · exact h.inRange_of_growing (h.contains_growing k ▸ hk)
  inRange := h.inRange
  apart := h.apart

theorem Alike.withDeps (h : Alike rules length c c') {deps deps' : List Key}
    (hdeps : SameKeys rules length deps deps') :
    Alike rules length { c with deps := deps } { c' with deps := deps' } :=
  ⟨h.finished, h.growing, h.provisional, hdeps, h.inRange, h.apart⟩

/-- Growing keys may be replaced by others that are in range and not finished. -/
theorem Alike.withGrowing (h : Alike rules length c c')
    {growing growing' : Std.TreeMap Key Growth Key.order}
    (hakin : ∀ k : Key, Option.Rel (Growth.Akin rules length) growing[k]? growing'[k]?)
    (hnew : ∀ k : Key, growing[k]? ≠ none → k.InRange rules length ∧ c.finished[k]? = none) :
    Alike rules length { c with growing := growing } { c' with growing := growing' } where
  finished := h.finished
  growing := hakin
  provisional := h.provisional
  deps := h.deps
  inRange k hk := by
    rcases hk with hk | hk
    · exact h.inRange k (.inl hk)
    · exact (hnew k hk).1
  apart k := by
    by_cases hk : growing[k]? = none
    · exact .inr hk
    · exact .inl (hnew k hk).2

theorem Alike.finished_eq_none (h : Alike rules length c c') {k : Key}
    (hk : c.growing[k]? ≠ none) : c.finished[k]? = none :=
  (h.apart k).resolve_right hk

theorem Alike.insertGrowing (h : Alike rules length c c') (hrange : key.InRange rules length)
    (hfin : c.finished[key]? = none) {growth growth' : Growth}
    (hakin : Growth.Akin rules length growth growth') :
    Alike rules length { c with growing := c.growing.insert key growth }
      { c' with growing := c'.growing.insert key growth' } := by
  refine h.withGrowing (fun k => ?_) fun k hk => ?_
  · rw [lookup_insert, lookup_insert]
    split
    · exact .some hakin
    · exact h.growing k
  · rw [lookup_insert] at hk
    split at hk
    · next heq => exact heq ▸ ⟨hrange, hfin⟩
    · exact ⟨h.inRange k (.inr hk), h.finished_eq_none hk⟩

/-- What is remembered of a key is the same in both charts, and reading it leaves charts
that are alike. -/
theorem Alike.remembered (h : Alike rules length c c') (key : Key) :
    Option.Rel (fun x x' => Results.Akin rules length x.1 x'.1 ∧ Alike rules length x.2 x'.2)
      (c.remembered? key) (c'.remembered? key) := by
  unfold remembered?
  rcases hfin : c.finished[key]? with _ | entry
  · rw [eq_none_of_rel (h.finished key) hfin]
    rcases hgrow : c.growing[key]? with _ | growth
    · rw [eq_none_of_rel (h.growing key) hgrow]
      exact .none
    · obtain ⟨growth', hgrow', hakin⟩ := exists_of_rel_some (h.growing key) hgrow
      rw [hgrow']
      have hrange : key.InRange rules length :=
        h.inRange key (.inr (by rw [hgrow]; exact Option.some_ne_none growth))
      refine .some ⟨hakin.results, Alike.depend ?_ fun k => ?_⟩
      · exact h.insertGrowing hrange hfin ⟨hakin.results, hakin.deps, rfl⟩
      · rw [List.mem_append, List.mem_append, (hakin.deps k).1]
  · obtain ⟨entry', hfin', hakin⟩ := exists_of_rel_some (h.finished key) hfin
    rw [hfin']
    exact .some ⟨hakin.results, h.depend fun k => (hakin.deps k).1⟩

theorem Alike.enter (h : Alike rules length c c') (hrange : key.InRange rules length)
    (hfresh : c.remembered? key = none) :
    Alike rules length (c.enter key) (c'.enter key) := by
  have hfin : c.finished[key]? = none := by
    unfold remembered? at hfresh
    split at hfresh
    · cases hfresh
    · assumption
  have hakin : Growth.Akin rules length ⟨[], [], false, 1⟩ ⟨[], [], false, 1⟩ :=
    ⟨matches_nil, sameKeys_nil, rfl⟩
  exact (h.insertGrowing hrange hfin hakin).withDeps sameKeys_nil

theorem Alike.mustRegrow_eq (h : Alike rules length c c') {results results' : Results}
    (hresults : Results.Akin rules length results results') :
    c.mustRegrow key results = c'.mustRegrow key results' := by
  unfold mustRegrow
  rcases hgrow : c.growing[key]? with _ | growth
  · rw [eq_none_of_rel (h.growing key) hgrow]
  · obtain ⟨growth', hgrow', hakin⟩ := exists_of_rel_some (h.growing key) hgrow
    rw [hgrow']
    dsimp only
    rw [hakin.readSince, hakin.results.1.grew hresults.1]

theorem Alike.forget (h : Alike rules length c c') (key : Key) :
    Alike rules length (c.forget key) (c'.forget key) where
  finished k := by
    refine rel_of_filtered (h.finished k) (lookup_forget c key k).1 (lookup_forget c' key k).1 ?_
    intro entry entry' hakin
    rw [(h.provisional k).1, (hakin.deps key).1]
  growing := h.growing
  provisional k := by
    rw [(lookup_forget c key k).2, (lookup_forget c' key k).2, (h.provisional k).1]
    refine ⟨and_congr_right fun _ => ⟨?_, ?_⟩, fun hk => (h.provisional k).2 ?_⟩
    · rintro ⟨entry, hfin, hdep⟩
      obtain ⟨entry', hfin', hakin⟩ := exists_of_rel_some (h.finished k) hfin
      exact ⟨entry', hfin', by rwa [← (hakin.deps key).1]⟩
    · rintro ⟨entry', hfin', hdep⟩
      rcases hfin : c.finished[k]? with _ | entry
      · rw [eq_none_of_rel (h.finished k) hfin] at hfin'
        cases hfin'
      · obtain ⟨entry'', hfin'', hakin⟩ := exists_of_rel_some (h.finished k) hfin
        cases hfin'.symm.trans hfin''
        exact ⟨entry, rfl, by rwa [(hakin.deps key).1]⟩
    · exact (h.provisional k).1.mpr hk.1
  deps := h.deps
  inRange k hk := by
    refine h.inRange k (hk.imp_left fun hfin hnone => hfin ?_)
    refine Option.eq_none_iff_forall_ne_some.mpr fun e he => ?_
    rw [finished_of_forget he] at hnone
    cases hnone
  apart k := by
    refine (h.apart k).imp_left fun hnone => ?_
    refine Option.eq_none_iff_forall_ne_some.mpr fun e he => ?_
    rw [finished_of_forget he] at hnone
    cases hnone

theorem Alike.regrow (h : Alike rules length c c') {results results' : Results}
    (hresults : Results.Akin rules length results results') {deps deps' : List Key}
    (hdeps : SameKeys rules length deps deps') :
    Alike rules length (c.regrow key results deps) (c'.regrow key results' deps') := by
  refine Alike.forget (h.withGrowing (fun k => ?_) fun k hk => ?_) key
  · rw [lookup_modify, lookup_modify]
    split
    · rcases hgrow : c.growing[key]? with _ | growth
      · rw [eq_none_of_rel (h.growing key) hgrow]
        exact .none
      · obtain ⟨growth', hgrow', -⟩ := exists_of_rel_some (h.growing key) hgrow
        rw [hgrow']
        exact .some ⟨hresults, hdeps, rfl⟩
    · exact h.growing k
  · have hk' : c.growing[k]? ≠ none := by
      intro hnone
      rw [lookup_modify] at hk
      split at hk
      · next heq =>
        rw [heq, hnone] at hk
        exact hk rfl
      · exact hk hnone
    exact ⟨h.inRange k (.inr hk'), h.finished_eq_none hk'⟩

theorem Alike.insertFinished (h : Alike rules length c c') (hrange : key.InRange rules length)
    (hgrow : c.growing[key]? = none) {entry entry' : Finished}
    (hakin : Finished.Akin rules length entry entry') :
    Alike rules length { c with finished := c.finished.insert key entry }
      { c' with finished := c'.finished.insert key entry' } where
  finished k := by
    rw [lookup_insert, lookup_insert]
    split
    · exact .some hakin
    · exact h.finished k
  growing := h.growing
  provisional := h.provisional
  deps := h.deps
  inRange k hk := by
    dsimp only at hk
    rw [lookup_insert] at hk
    split at hk
    · next heq => exact heq ▸ hrange
    · exact h.inRange k hk
  apart k := by
    dsimp only
    rw [lookup_insert]
    split
    · next heq => exact .inr (heq ▸ hgrow)
    · exact h.apart k

theorem Alike.eraseGrowing (h : Alike rules length c c') (key : Key) :
    Alike rules length { c with growing := c.growing.erase key }
      { c' with growing := c'.growing.erase key } := by
  refine h.withGrowing (fun k => ?_) fun k hk => ?_
  · rw [lookup_erase, lookup_erase]
    split
    · exact .none
    · exact h.growing k
  · rw [lookup_erase] at hk
    split at hk
    · exact absurd rfl hk
    · exact ⟨h.inRange k (.inr hk), h.finished_eq_none hk⟩

theorem isEmpty_eq_of_sameKeys {ks ks' : List Key} (h : SameKeys rules length ks ks') :
    ks.isEmpty = ks'.isEmpty := by
  rw [Bool.eq_iff_iff, List.isEmpty_iff, List.isEmpty_iff, List.eq_nil_iff_forall_not_mem,
    List.eq_nil_iff_forall_not_mem]
  exact forall_congr' fun k => not_congr (h k).1

theorem Alike.leave (h : Alike rules length c c') (hrange : key.InRange rules length)
    {outer outer' : List Key} (houter : SameKeys rules length outer outer')
    {results results' : Results} (hresults : Results.Akin rules length results results')
    {deps deps' : List Key} (hdeps : SameKeys rules length deps deps') :
    Alike rules length (c.leave key outer results deps) (c'.leave key outer' results' deps') := by
  have hsettle := h.of_sameEntries (sameEntries_settle c key) (sameEntries_settle c' key)
  have hdepend := ((hsettle.eraseGrowing key).withDeps houter).depend fun k => (hdeps k).1
  have hgone : ((c.settle key).growing.erase key)[key]? = none := by
    rw [lookup_erase, if_pos rfl]
  have hakin : Finished.Akin rules length ⟨results, deps⟩ ⟨results', deps'⟩ := ⟨hresults, hdeps⟩
  have hkept := hdepend.insertFinished hrange hgone hakin
  refine ⟨hkept.finished, hkept.growing, ?_, hkept.deps, hkept.inRange, hkept.apart⟩
  simp only [Chart.leave, isEmpty_eq_of_sameKeys hdeps]
  split
  · exact hkept.provisional
  · intro k
    rw [List.mem_cons, List.mem_cons, (hkept.provisional k).1]
    refine ⟨Iff.rfl, ?_⟩
    rintro (rfl | hk)
    · exact hrange
    · exact (hkept.provisional k).2 ((hkept.provisional k).1.mpr hk)

end Chart

/-! ## Runs from charts that are alike -/

theorem Registry.width_le_of_get? {rules : Registry} {h : Handle} {body : Expr Handle}
    (hbody : rules.get? h = some body) : body.width ≤ rules.width := by
  have hmem : some body ∈ rules.bodies := by
    unfold Registry.get? at hbody
    rw [Option.join_eq_some_iff] at hbody
    exact Array.mem_of_getElem? hbody
  exact width_le_of_mem (List.mem_filterMap.mpr ⟨some body, hmem.val, rfl⟩)

section Call

variable {rules : Registry} {input : Array Token} {fuel : Nat} {h : Handle} {s : Nat}
  {c d : Chart} {results : Results}

theorem run_call_of_remembered (hremembered : c.remembered? ⟨h, s⟩ = some (results, d)) :
    (call rules input (fuel + 1) h s).run c = some (results, d) := by
  rw [call, StateT.run_bind]
  refine Option.bind_eq_some_iff.mpr ⟨(c, c), rfl, ?_⟩
  dsimp only
  rw [hremembered]
  rfl

theorem run_call_of_undefined (hfresh : c.remembered? ⟨h, s⟩ = none)
    (hbody : rules.get? h = none) :
    (call rules input (fuel + 1) h s).run c = some ([], c) := by
  rw [call, StateT.run_bind]
  refine Option.bind_eq_some_iff.mpr ⟨(c, c), rfl, ?_⟩
  dsimp only
  rw [hfresh, hbody]
  rfl

/-- A call whose body settles ends with the results of the last round. -/
theorem run_call_of_body {body : Expr Handle} {deps : List Key}
    (hfresh : c.remembered? ⟨h, s⟩ = none) (hbody : rules.get? h = some body)
    (hrounds : (untilAnswer (growRound ⟨h, s⟩ (evalBody input (call rules input fuel) h body s))
      (fuel + 1)).run (c.enter ⟨h, s⟩) = some ((results, deps), d)) :
    (call rules input (fuel + 1) h s).run c =
      some (results, d.leave ⟨h, s⟩ c.deps results deps) := by
  rw [call, StateT.run_bind]
  refine Option.bind_eq_some_iff.mpr ⟨(c, c), rfl, ?_⟩
  dsimp only
  rw [hfresh, hbody]
  dsimp only
  rw [StateT.run_bind]
  refine Option.bind_eq_some_iff.mpr ⟨(c.deps, c.enter ⟨h, s⟩), rfl, ?_⟩
  rw [StateT.run_bind]
  exact Option.bind_eq_some_iff.mpr ⟨((results, deps), d), hrounds, rfl⟩

end Call

variable {rules : Registry} {input : Array Token}

theorem succ_le_size {s : Nat} {t : Token} (h : input[s]? = some t) : s + 1 ≤ input.size := by
  obtain ⟨hlt, -⟩ := Array.getElem?_eq_some_iff.mp h
  exact hlt

/-- A round of a rule goes the same way from charts that are alike, if its references do. -/
theorem simulates_round_alike {h : Handle} {body : Expr Handle} (hbody : rules.get? h = some body)
    {s : Nat} (hs : s ≤ input.size) {call : Handle → Nat → ChartM Results}
    (hcall : ∀ h s, s ≤ input.size → Simulates (Chart.Alike rules input.size) (call h s)
      (call h s) (Results.Akin rules input.size)) :
    Simulates (Chart.Alike rules input.size) (growRound ⟨h, s⟩ (evalBody input call h body s))
      (growRound ⟨h, s⟩ (evalBody input call h body s))
      (Option.Rel fun a a' => Results.Akin rules input.size a.1 a'.1 ∧
        SameKeys rules input.size a.2 a'.2) := by
  have hrun := simulates_evalBody Chart.keepsNotes_alike (congruence_akin rules.width)
    (fun _ _ _ ht => succ_le_size ht) hcall h (Registry.width_le_of_get? hbody) hs
  refine simulates_growRound hrun (fun c c' hc => ⟨hc.withDeps Chart.sameKeys_nil, fun k => ?_⟩)
    (fun c c' results results' hc hresults => hc.mustRegrow_eq hresults)
    fun c c' results results' deps deps' hc hresults hdeps => hc.regrow hresults hdeps
  simp only [List.mem_filter, (hc.deps k).1, true_and]
  exact fun hk => (hc.deps k).2 ((hc.deps k).1.mpr hk.1)

/-- Runs from charts that are alike find the same ends, with derivations of the same kinds,
and leave charts that are alike. -/
theorem simulates_call_alike (fuel : Nat) :
    ∀ h s, s ≤ input.size → Simulates (Chart.Alike rules input.size)
      (call rules input fuel h s) (call rules input fuel h s) (Results.Akin rules input.size) := by
  induction fuel with
  | zero => exact fun h s _ => simulates_failure
  | succ fuel ih =>
    intro h s hs c c' results d hc hrun
    have hremembered := hc.remembered ⟨h, s⟩
    rcases call_cases hrun with hfound | ⟨hfresh, ⟨hbody, rfl, rfl⟩ |
      ⟨body, deps, settled, hbody, hrounds, rfl⟩⟩
    · obtain ⟨⟨results', d'⟩, hfound', hakin, hd⟩ := exists_of_rel_some hremembered hfound
      exact ⟨results', d', run_call_of_remembered hfound', hd, hakin⟩
    · exact ⟨[], c', run_call_of_undefined (eq_none_of_rel hremembered hfresh) hbody, hc,
        matches_nil⟩
    · have hrange : Key.InRange rules input.size ⟨h, s⟩ := ⟨Registry.index_lt_of_get? hbody, hs⟩
      obtain ⟨⟨results', deps'⟩, settled', hrounds', hsettled, hresults, hdeps⟩ :=
        simulates_untilAnswer (simulates_round_alike hbody hs ih) _ _ _ _ _
          (hc.enter hrange hfresh) hrounds
      exact ⟨results', _, run_call_of_body (eq_none_of_rel hremembered hfresh) hbody hrounds',
        hsettled.leave hrange hc.deps hresults hdeps, hresults⟩

end ChartGrammar
