/-
  Proofs/RenamedRules.lean --- the same rules under other handles.

  A run looks at handles only to find bodies and to tell keys apart.  So two registries
  that hold the same rules under different handles give the same answers, whatever other
  rules they hold beside these.  The two runs are followed side by side: their charts hold
  the same results under corresponding keys, and have noted the same.
-/
import ChartGrammar.Proofs.PlainEvaluation

set_option autoImplicit false

namespace ChartGrammar

open ChartM

/-! ## Expressions over other handles -/

namespace Expr

variable {ρ σ : Type}

theorem width_mapRefs (f : ρ → σ) (e : Expr ρ) : (e.mapRefs f).width = e.width := by
  induction e using Expr.induction with
  | seq es ih =>
    have hall : widthAll (es.map (mapRefs f)) = widthAll es := by
      induction es with
      | nil => rfl
      | cons e es ihes =>
        obtain ⟨he, hes⟩ := List.forall_mem_cons.mp ih
        rw [List.map_cons, widthAll, widthAll, he, ihes hes]
    rw [mapRefs, mapRefsAll_eq_map, width, width, List.length_map, hall]
  | just e ih => rw [mapRefs, width, width, ih]
  | alt a b iha ihb => rw [mapRefs, width, width, iha, ihb]
  | cons a b iha ihb => rw [mapRefs, width, width, iha, ihb]
  | pair a b iha ihb => rw [mapRefs, width, width, iha, ihb]
  | map c e ih => rw [mapRefs, width, width, ih]
  | label d e ih => rw [mapRefs, width, width, ih]
  | _ => rfl

end Expr

section Eval

variable {input : Array Token} {call : Handle → Nat → ChartM Results} {f : Handle → Handle}

theorem evalFields_mapRefs (es : List (Expr Handle))
    (hes : ∀ e ∈ es, eval input call (e.mapRefs f) = eval input (fun h => call (f h)) e) :
    ∀ partials, evalFields input call (es.map (Expr.mapRefs f)) partials =
      evalFields input (fun h => call (f h)) es partials := by
  induction es with
  | nil =>
    intro partials
    rw [List.map_nil, evalFields, evalFields]
  | cons e es ih =>
    intro partials
    obtain ⟨he, hes⟩ := List.forall_mem_cons.mp hes
    rw [List.map_cons, evalFields, evalFields, he]
    refine bind_congr fun next => ?_
    rw [ih hes next]

/-- To run an expression over other handles is to answer its references by other
handles. -/
theorem eval_mapRefs (e : Expr Handle) :
    eval input call (e.mapRefs f) = eval input (fun h => call (f h)) e := by
  induction e using Expr.induction with
  | seq es ih =>
    funext s
    rw [Expr.mapRefs, Expr.mapRefsAll_eq_map, eval, eval, evalFields_mapRefs es ih]
  | ref h =>
    funext s
    rw [Expr.mapRefs, eval, eval]
  | matchOne p =>
    funext s
    rw [Expr.mapRefs, eval, eval]
  | symbol literal =>
    funext s
    rw [Expr.mapRefs, eval, eval]
  | unit =>
    funext s
    rw [Expr.mapRefs, eval, eval]
  | nothing =>
    funext s
    rw [Expr.mapRefs, eval, eval]
  | nil =>
    funext s
    rw [Expr.mapRefs, eval, eval]
  | just e ih =>
    funext s
    rw [Expr.mapRefs, eval, eval, ih]
  | alt a b iha ihb =>
    funext s
    rw [Expr.mapRefs, eval, eval, iha, ihb]
  | cons a b iha ihb =>
    funext s
    rw [Expr.mapRefs, eval, eval, iha, ihb]
  | pair a b iha ihb =>
    funext s
    rw [Expr.mapRefs, eval, eval, iha, ihb]
  | map ctor e ih =>
    funext s
    rw [Expr.mapRefs, eval, eval, ih]
  | label d e ih =>
    funext s
    rw [Expr.mapRefs, eval, eval, ih]

/-- A rule that repeats an item repeats it under another handle too. -/
theorem repeatedItem?_mapRefs (hf : Function.Injective f) (h : Handle) (body : Expr Handle) :
    repeatedItem? (f h) (body.mapRefs f) = (repeatedItem? h body).map (Expr.mapRefs f) := by
  cases body with
  | alt a b =>
    cases a with
    | nil =>
      cases b with
      | cons item tail =>
        cases tail with
        | ref h' =>
          simp only [Expr.mapRefs, repeatedItem?, hf.eq_iff]
          split <;> rfl
        | _ => rfl
      | _ => rfl
    | _ => rfl
  | _ => rfl

theorem evalBody_mapRefs (hf : Function.Injective f) (h : Handle) (body : Expr Handle)
    (s : Nat) : evalBody input call (f h) (body.mapRefs f) s =
      evalBody input (fun h => call (f h)) h body s := by
  unfold evalBody
  rw [repeatedItem?_mapRefs hf]
  cases repeatedItem? h body with
  | none =>
    rw [Option.map_none]
    dsimp only
    rw [eval_mapRefs]
  | some item =>
    rw [Option.map_some]
    dsimp only
    rw [eval_mapRefs]

end Eval

/-! ## Keys under two namings -/

/-- The key of a rule that goes by another handle. -/
def Key.rename (f : Handle → Handle) (k : Key) : Key := ⟨f k.handle, k.start⟩

theorem Key.rename_injective {f : Handle → Handle} (hf : Function.Injective f) :
    Function.Injective (Key.rename f) := by
  rintro ⟨h, s⟩ ⟨h', s'⟩ heq
  obtain ⟨hhandle, hstart⟩ := Key.mk.inj heq
  exact congrArg₂ Key.mk (hf hhandle) hstart

section Along

variable {f f' : Handle → Handle} {key : Key} {ks ks' ls ls' : List Key}

/-- The same keys under two namings, and no others. -/
structure KeysAlong (f f' : Handle → Handle) (ks ks' : List Key) : Prop where
  mem : ∀ k : Key, k.rename f ∈ ks ↔ k.rename f' ∈ ks'
  left : ∀ k ∈ ks, ∃ l : Key, k = l.rename f
  right : ∀ k ∈ ks', ∃ l : Key, k = l.rename f'

theorem keysAlong_nil : KeysAlong f f' [] [] where
  mem k := by simp
  left k hk := absurd hk List.not_mem_nil
  right k hk := absurd hk List.not_mem_nil

theorem KeysAlong.cons (hf : Function.Injective f) (hf' : Function.Injective f')
    (h : KeysAlong f f' ks ks') (key : Key) :
    KeysAlong f f' (key.rename f :: ks) (key.rename f' :: ks') where
  mem k := by
    rw [List.mem_cons, List.mem_cons, h.mem k, (Key.rename_injective hf).eq_iff,
      (Key.rename_injective hf').eq_iff]
  left k hk := (List.mem_cons.mp hk).elim (fun heq => ⟨key, heq⟩) (h.left k)
  right k hk := (List.mem_cons.mp hk).elim (fun heq => ⟨key, heq⟩) (h.right k)

theorem KeysAlong.append (h : KeysAlong f f' ks ks') (h' : KeysAlong f f' ls ls') :
    KeysAlong f f' (ks ++ ls) (ks' ++ ls') where
  mem k := by rw [List.mem_append, List.mem_append, h.mem k, h'.mem k]
  left k hk := (List.mem_append.mp hk).elim (h.left k) (h'.left k)
  right k hk := (List.mem_append.mp hk).elim (h.right k) (h'.right k)

theorem KeysAlong.filter_ne (hf : Function.Injective f) (hf' : Function.Injective f')
    (h : KeysAlong f f' ks ks') (key : Key) :
    KeysAlong f f' (ks.filter (· ≠ key.rename f)) (ks'.filter (· ≠ key.rename f')) where
  mem k := by
    simp only [List.mem_filter, decide_eq_true_eq, h.mem k, ne_eq,
      (Key.rename_injective hf).eq_iff, (Key.rename_injective hf').eq_iff]
  left k hk := h.left k (List.mem_of_mem_filter hk)
  right k hk := h.right k (List.mem_of_mem_filter hk)

theorem KeysAlong.isEmpty_eq (h : KeysAlong f f' ks ks') : ks.isEmpty = ks'.isEmpty := by
  rw [Bool.eq_iff_iff, List.isEmpty_iff, List.isEmpty_iff, List.eq_nil_iff_forall_not_mem,
    List.eq_nil_iff_forall_not_mem]
  constructor
  · intro hnone k hk
    obtain ⟨l, rfl⟩ := h.right k hk
    exact hnone _ ((h.mem l).mpr hk)
  · intro hnone k hk
    obtain ⟨l, rfl⟩ := h.left k hk
    exact hnone _ ((h.mem l).mp hk)

/-- Related contents under corresponding keys, and nothing under any other. -/
structure MapsAlong {β : Type} (f f' : Handle → Handle) (E : β → β → Prop)
    (m m' : Std.TreeMap Key β Key.order) : Prop where
  lookup : ∀ k : Key, Option.Rel E m[k.rename f]? m'[k.rename f']?
  left : ∀ k : Key, m[k]? ≠ none → ∃ l : Key, k = l.rename f
  right : ∀ k : Key, m'[k]? ≠ none → ∃ l : Key, k = l.rename f'

section Maps

variable {β : Type} {E : β → β → Prop} {m m' : Std.TreeMap Key β Key.order}

theorem mapsAlong_empty : MapsAlong f f' E ∅ ∅ where
  lookup k := by simp
  left k hk := by simp at hk
  right k hk := by simp at hk

theorem MapsAlong.contains_eq (h : MapsAlong f f' E m m') (k : Key) :
    m.contains (k.rename f) = m'.contains (k.rename f') := by
  rw [Std.TreeMap.contains_eq_isSome_getElem?, Std.TreeMap.contains_eq_isSome_getElem?]
  exact isSome_eq_of_rel (h.lookup k)

variable (hf : Function.Injective f) (hf' : Function.Injective f')
include hf hf'

theorem MapsAlong.insert (h : MapsAlong f f' E m m') (key : Key) {v v' : β} (hv : E v v') :
    MapsAlong f f' E (m.insert (key.rename f) v) (m'.insert (key.rename f') v') where
  lookup k := by
    simp only [lookup_insert, (Key.rename_injective hf).eq_iff,
      (Key.rename_injective hf').eq_iff]
    split
    · exact .some hv
    · exact h.lookup k
  left k hk := by
    rw [lookup_insert] at hk
    split at hk
    · next heq => exact ⟨key, heq.symm⟩
    · exact h.left k hk
  right k hk := by
    rw [lookup_insert] at hk
    split at hk
    · next heq => exact ⟨key, heq.symm⟩
    · exact h.right k hk

theorem MapsAlong.erase (h : MapsAlong f f' E m m') (key : Key) :
    MapsAlong f f' E (m.erase (key.rename f)) (m'.erase (key.rename f')) where
  lookup k := by
    simp only [lookup_erase, (Key.rename_injective hf).eq_iff,
      (Key.rename_injective hf').eq_iff]
    split
    · exact .none
    · exact h.lookup k
  left k hk := by
    rw [lookup_erase] at hk
    split at hk
    · exact absurd rfl hk
    · exact h.left k hk
  right k hk := by
    rw [lookup_erase] at hk
    split at hk
    · exact absurd rfl hk
    · exact h.right k hk

theorem MapsAlong.modify (h : MapsAlong f f' E m m') (key : Key) {u u' : β → β}
    (hu : ∀ v v', E v v' → E (u v) (u' v')) :
    MapsAlong f f' E (m.modify (key.rename f) u) (m'.modify (key.rename f') u') where
  lookup k := by
    simp only [lookup_modify, (Key.rename_injective hf).eq_iff,
      (Key.rename_injective hf').eq_iff]
    split
    · rcases hm : m[key.rename f]? with _ | v
      · rw [eq_none_of_rel (h.lookup key) hm]
        exact .none
      · obtain ⟨v', hm', hv⟩ := exists_of_rel_some (h.lookup key) hm
        rw [hm']
        exact .some (hu v v' hv)
    · exact h.lookup k
  left k hk := by
    rw [lookup_modify] at hk
    split at hk
    · next heq => exact ⟨key, heq.symm⟩
    · exact h.left k hk
  right k hk := by
    rw [lookup_modify] at hk
    split at hk
    · next heq => exact ⟨key, heq.symm⟩
    · exact h.right k hk

end Maps

end Along

/-! ## Charts under two namings -/

section Renamed

variable (bound : Registry) (f f' : Handle → Handle)

/-- Finished results that are the same but for the names of rules. -/
structure Finished.Along (entry entry' : Finished) : Prop where
  results : Results.Equal bound entry.results entry'.results
  deps : KeysAlong f f' entry.deps entry'.deps

/-- Unfinished results that are the same but for the names of rules. -/
structure Growth.Along (growth growth' : Growth) : Prop where
  results : Results.Equal bound growth.results growth'.results
  deps : KeysAlong f f' growth.deps growth'.deps
  readSince : growth.readSince = growth'.readSince

/-- Charts that are the same but for the names of rules.  No result has more fields in a row
than the rules of `bound` ask for. -/
structure Chart.Renamed (c c' : Chart) : Prop where
  finished : MapsAlong f f' (Finished.Along bound f f') c.finished c'.finished
  growing : MapsAlong f f' (Growth.Along bound f f') c.growing c'.growing
  provisional : KeysAlong f f' c.provisional c'.provisional
  deps : KeysAlong f f' c.deps c'.deps
  furthest : c.furthest = c'.furthest
  expected : c.expected = c'.expected
  mismatch : c.mismatch = c'.mismatch

end Renamed

namespace Chart

variable {bound : Registry} {f f' : Handle → Handle} {c c' : Chart}

theorem renamed_empty : Renamed bound f f' {} {} :=
  ⟨mapsAlong_empty, mapsAlong_empty, keysAlong_nil, keysAlong_nil, rfl, rfl, rfl⟩

theorem keepsNotes_renamed : KeepsNotes (Renamed bound f f') where
  expect {c c'} pos what h := by
    unfold expect
    rw [h.furthest, h.expected]
    split
    · exact ⟨h.finished, h.growing, h.provisional, h.deps, rfl, rfl, h.mismatch⟩
    · split
      · exact ⟨h.finished, h.growing, h.provisional, h.deps, rfl, rfl, h.mismatch⟩
      · exact h
  noteMismatch {c c'} ctor h := by
    unfold noteMismatch
    rw [h.mismatch]
    split
    · exact ⟨h.finished, h.growing, h.provisional, h.deps, h.furthest, h.expected, rfl⟩
    · exact h

theorem Renamed.settle (h : Renamed bound f f' c c') (key key' : Key) :
    Renamed bound f f' (c.settle key) (c'.settle key') := by
  have hnotes : ∀ (d : Chart) k, (d.settle k).furthest = d.furthest ∧
      (d.settle k).expected = d.expected ∧ (d.settle k).mismatch = d.mismatch := by
    intro d k
    unfold Chart.settle
    split
    · split <;> exact ⟨rfl, rfl, rfl⟩
    · exact ⟨rfl, rfl, rfl⟩
  have hc := sameEntries_settle c key
  have hc' := sameEntries_settle c' key'
  obtain ⟨hfurthest, hexpected, hmismatch⟩ := hnotes c key
  obtain ⟨hfurthest', hexpected', hmismatch'⟩ := hnotes c' key'
  constructor
  · rw [hc.finished, hc'.finished]
    exact h.finished
  · rw [hc.growing, hc'.growing]
    exact h.growing
  · rw [hc.provisional, hc'.provisional]
    exact h.provisional
  · rw [hc.deps, hc'.deps]
    exact h.deps
  · rw [hfurthest, hfurthest', h.furthest]
  · rw [hexpected, hexpected', h.expected]
  · rw [hmismatch, hmismatch', h.mismatch]

theorem Renamed.withDeps (h : Renamed bound f f' c c') {deps deps' : List Key}
    (hdeps : KeysAlong f f' deps deps') :
    Renamed bound f f' { c with deps := deps } { c' with deps := deps' } :=
  ⟨h.finished, h.growing, h.provisional, hdeps, h.furthest, h.expected, h.mismatch⟩

theorem Renamed.withGrowing (h : Renamed bound f f' c c')
    {growing growing' : Std.TreeMap Key Growth Key.order}
    (hgrowing : MapsAlong f f' (Growth.Along bound f f') growing growing') :
    Renamed bound f f' { c with growing := growing } { c' with growing := growing' } :=
  ⟨h.finished, hgrowing, h.provisional, h.deps, h.furthest, h.expected, h.mismatch⟩

theorem Renamed.depend (h : Renamed bound f f' c c') {keys keys' : List Key}
    (hkeys : KeysAlong f f' keys keys') :
    Renamed bound f f' (c.depend keys) (c'.depend keys') := by
  refine ⟨h.finished, h.growing, h.provisional, ⟨fun k => ?_, fun k hk => ?_, fun k hk => ?_⟩,
    h.furthest, h.expected, h.mismatch⟩
  · rw [mem_deps_depend, mem_deps_depend, h.deps.mem k, hkeys.mem k, h.growing.contains_eq k]
  · rcases (mem_deps_depend c keys k).mp hk with hk | hk
    · exact h.deps.left k hk
    · exact hkeys.left k hk.1
  · rcases (mem_deps_depend c' keys' k).mp hk with hk | hk
    · exact h.deps.right k hk
    · exact hkeys.right k hk.1

theorem Renamed.forget (h : Renamed bound f f' c c') (key : Key) :
    Renamed bound f f' (c.forget (key.rename f)) (c'.forget (key.rename f')) := by
  refine ⟨⟨fun k => ?_, fun k hk => ?_, fun k hk => ?_⟩, h.growing,
    ⟨fun k => ?_, fun k hk => ?_, fun k hk => ?_⟩, h.deps, h.furthest, h.expected, h.mismatch⟩
  · refine rel_of_filtered (h.finished.lookup k) (lookup_forget c _ _).1
      (lookup_forget c' _ _).1 ?_
    intro entry entry' hentry
    rw [h.provisional.mem k, hentry.deps.mem key]
  · obtain ⟨entry, hentry⟩ := Option.ne_none_iff_exists'.mp hk
    refine h.finished.left k ?_
    rw [finished_of_forget hentry]
    exact Option.some_ne_none entry
  · obtain ⟨entry, hentry⟩ := Option.ne_none_iff_exists'.mp hk
    refine h.finished.right k ?_
    rw [finished_of_forget hentry]
    exact Option.some_ne_none entry
  · rw [(lookup_forget c _ _).2, (lookup_forget c' _ _).2, h.provisional.mem k]
    refine and_congr_right fun _ => ?_
    have hrel := h.finished.lookup k
    constructor
    · rintro ⟨entry, hentry, hdep⟩
      obtain ⟨entry', hentry', halong⟩ := exists_of_rel_some hrel hentry
      exact ⟨entry', hentry', by rwa [← halong.deps.mem key]⟩
    · rintro ⟨entry', hentry', hdep⟩
      rcases hentry : c.finished[k.rename f]? with _ | entry
      · rw [eq_none_of_rel hrel hentry] at hentry'
        cases hentry'
      · obtain ⟨entry'', hentry'', halong⟩ := exists_of_rel_some hrel hentry
        cases hentry'.symm.trans hentry''
        exact ⟨entry, rfl, by rwa [halong.deps.mem key]⟩
  · exact h.provisional.left k ((lookup_forget c _ k).2.mp hk).1
  · exact h.provisional.right k ((lookup_forget c' _ k).2.mp hk).1

section Injective

variable (hf : Function.Injective f) (hf' : Function.Injective f')
include hf hf'

/-- What is remembered of a key is the same in both charts, and reading it leaves charts
that are the same but for the names of rules. -/
theorem Renamed.remembered (h : Renamed bound f f' c c') (key : Key) :
    Option.Rel (fun x x' => Results.Equal bound x.1 x'.1 ∧ Renamed bound f f' x.2 x'.2)
      (c.remembered? (key.rename f)) (c'.remembered? (key.rename f')) := by
  unfold remembered?
  rcases hfin : c.finished[key.rename f]? with _ | entry
  · rw [eq_none_of_rel (h.finished.lookup key) hfin]
    rcases hgrow : c.growing[key.rename f]? with _ | growth
    · rw [eq_none_of_rel (h.growing.lookup key) hgrow]
      exact .none
    · obtain ⟨growth', hgrow', halong⟩ := exists_of_rel_some (h.growing.lookup key) hgrow
      rw [hgrow']
      have hreader : Growth.Along bound f f' { growth with readSince := true }
          { growth' with readSince := true } := ⟨halong.results, halong.deps, rfl⟩
      have hread := h.withGrowing (h.growing.insert hf hf' key hreader)
      exact .some ⟨halong.results,
        hread.depend (halong.deps.append (keysAlong_nil.cons hf hf' key))⟩
  · obtain ⟨entry', hfin', halong⟩ := exists_of_rel_some (h.finished.lookup key) hfin
    rw [hfin']
    exact .some ⟨halong.results, h.depend halong.deps⟩

theorem Renamed.enter (h : Renamed bound f f' c c') (key : Key) :
    Renamed bound f f' (c.enter (key.rename f)) (c'.enter (key.rename f')) := by
  have halong : Growth.Along bound f f' ⟨[], [], false, 1⟩ ⟨[], [], false, 1⟩ :=
    ⟨matches_nil, keysAlong_nil, rfl⟩
  exact (h.withGrowing (h.growing.insert hf hf' key halong)).withDeps keysAlong_nil

omit hf hf' in
theorem Renamed.mustRegrow_eq (h : Renamed bound f f' c c') (key : Key)
    {results results' : Results} (hresults : Results.Equal bound results results') :
    c.mustRegrow (key.rename f) results = c'.mustRegrow (key.rename f') results' := by
  unfold mustRegrow
  rcases hgrow : c.growing[key.rename f]? with _ | growth
  · rw [eq_none_of_rel (h.growing.lookup key) hgrow]
  · obtain ⟨growth', hgrow', halong⟩ := exists_of_rel_some (h.growing.lookup key) hgrow
    rw [hgrow']
    dsimp only
    rw [halong.readSince, halong.results.eq, hresults.eq]

theorem Renamed.regrow (h : Renamed bound f f' c c') (key : Key) {results results' : Results}
    (hresults : Results.Equal bound results results') {deps deps' : List Key}
    (hdeps : KeysAlong f f' deps deps') :
    Renamed bound f f' (c.regrow (key.rename f) results deps)
      (c'.regrow (key.rename f') results' deps') := by
  refine Renamed.forget (h.withGrowing (h.growing.modify hf hf' key ?_)) key
  exact fun growth growth' _ => ⟨hresults, hdeps, rfl⟩

theorem Renamed.leave (h : Renamed bound f f' c c') (key : Key) {outer outer' : List Key}
    (houter : KeysAlong f f' outer outer') {results results' : Results}
    (hresults : Results.Equal bound results results') {deps deps' : List Key}
    (hdeps : KeysAlong f f' deps deps') :
    Renamed bound f f' (c.leave (key.rename f) outer results deps)
      (c'.leave (key.rename f') outer' results' deps') := by
  have hsettled := h.settle (key.rename f) (key.rename f')
  have hleft := ((hsettled.withGrowing (hsettled.growing.erase hf hf' key)).withDeps
    houter).depend hdeps
  refine ⟨hleft.finished.insert hf hf' key ⟨hresults, hdeps⟩, hleft.growing, ?_, hleft.deps,
    hleft.furthest, hleft.expected, hleft.mismatch⟩
  unfold Chart.leave
  dsimp only
  rw [hdeps.isEmpty_eq]
  split
  · exact hleft.provisional
  · exact hleft.provisional.cons hf hf' key

end Injective

/-! ## What a chart reports -/

/-- The furthest end is the least bound of all ends that are remembered. -/
theorem reached_le_iff (c : Chart) (n : Nat) :
    c.reached ≤ n ↔ ∀ (k : Key) entry, c.finished[k]? = some entry →
      ∀ r ∈ entry.results, r.1 ≤ n := by
  have hresults : ∀ (rs : Results) (far : Nat),
      rs.foldl (fun far r => max far r.1) far ≤ n ↔ far ≤ n ∧ ∀ r ∈ rs, r.1 ≤ n := by
    intro rs
    induction rs with
    | nil => simp
    | cons r rs ih =>
      intro far
      rw [List.foldl_cons, ih, max_le_iff, List.forall_mem_cons, and_assoc]
  have hentries : ∀ (es : List (Key × Finished)) (far : Nat),
      es.foldl (fun far e => e.2.results.foldl (fun far r => max far r.1) far) far ≤ n ↔
        far ≤ n ∧ ∀ e ∈ es, ∀ r ∈ e.2.results, r.1 ≤ n := by
    intro es
    induction es with
    | nil => simp
    | cons e es ih =>
      intro far
      rw [List.foldl_cons, ih, hresults, List.forall_mem_cons, and_assoc]
  rw [reached, Std.TreeMap.foldl_eq_foldl_toList, hentries]
  simp only [Nat.zero_le, true_and, Prod.forall, Std.TreeMap.mem_toList_iff_getElem?_eq_some]

theorem Renamed.reached_eq (h : Renamed bound f f' c c') : c.reached = c'.reached := by
  refine le_antisymm ((reached_le_iff c _).mpr ?_) ((reached_le_iff c' _).mpr ?_)
  · intro k entry hentry r hr
    obtain ⟨l, rfl⟩ := h.finished.left k (by rw [hentry]; exact Option.some_ne_none entry)
    obtain ⟨entry', hentry', halong⟩ := exists_of_rel_some (h.finished.lookup l) hentry
    exact (reached_le_iff c' _).mp le_rfl _ entry' hentry' r (halong.results.eq ▸ hr)
  · intro k entry' hentry' r hr
    obtain ⟨l, rfl⟩ := h.finished.right k (by rw [hentry']; exact Option.some_ne_none entry')
    rcases hentry : c.finished[l.rename f]? with _ | entry
    · rw [eq_none_of_rel (h.finished.lookup l) hentry] at hentry'
      cases hentry'
    · obtain ⟨entry'', hentry'', halong⟩ := exists_of_rel_some (h.finished.lookup l) hentry
      cases hentry'.symm.trans hentry''
      exact (reached_le_iff c _).mp le_rfl _ entry hentry r (halong.results.eq ▸ hr)

/-- What the two charts conclude is the same. -/
theorem Renamed.conclude_eq (h : Renamed bound f f' c c') (input : Array Token)
    (results : Results) : c.conclude input results = c'.conclude input results := by
  have hreport : c.report input = c'.report input := by
    rw [report, report, h.furthest, h.expected, h.reached_eq]
  rw [conclude, conclude, h.mismatch, hreport]

end Chart

/-! ## Runs under two namings -/

/-- A registry holds rules that are given by their bodies: the rule of `h` is at `f h`.
Handles that have no rule go by handles without a body. -/
structure Registry.Holds (rules : Registry) (bodies : Handle → Option (Expr Handle))
    (f : Handle → Handle) : Prop where
  injective : Function.Injective f
  get? : ∀ h, rules.get? (f h) = (bodies h).map (Expr.mapRefs f)

section Runs

variable {rules rules' : Registry} {bodies : Handle → Option (Expr Handle)}
  {f f' : Handle → Handle} {input : Array Token}

theorem Registry.Holds.width_le (h : rules.Holds bodies f) {k : Handle} {body : Expr Handle}
    (hbody : bodies k = some body) : body.width ≤ rules.width := by
  have hget := h.get? k
  rw [hbody, Option.map_some] at hget
  rw [← Expr.width_mapRefs f]
  exact width_le_of_get? hget

/-- A round of a rule goes the same way under both namings, if its references do. -/
theorem simulates_round_renamed (hf : rules.Holds bodies f) (hf' : rules'.Holds bodies f')
    {call call' : Handle → Nat → ChartM Results}
    (hcall : ∀ h s, Simulates (Chart.Renamed rules f f') (call (f h) s) (call' (f' h) s)
      (Results.Equal rules))
    {h : Handle} {body : Expr Handle} (hbody : bodies h = some body) (s : Nat) :
    Simulates (Chart.Renamed rules f f')
      (growRound ⟨f h, s⟩ (evalBody input call (f h) (body.mapRefs f) s))
      (growRound ⟨f' h, s⟩ (evalBody input call' (f' h) (body.mapRefs f') s))
      (Option.Rel fun a a' => Results.Equal rules a.1 a'.1 ∧ KeysAlong f f' a.2 a'.2) := by
  rw [evalBody_mapRefs hf.injective, evalBody_mapRefs hf'.injective]
  have hrun : Simulates (Chart.Renamed rules f f')
      (evalBody input (fun h => call (f h)) h body s)
      (evalBody input (fun h => call' (f' h)) h body s) (Results.Equal rules) :=
    simulates_evalBody Chart.keepsNotes_renamed (congruence_eq rules.width)
      (fun _ _ _ _ => trivial) (fun h s _ => hcall h s) h (hf.width_le hbody) trivial
  refine simulates_growRound hrun (fun c c' hc => ⟨hc.withDeps keysAlong_nil, ?_⟩)
    (fun c c' results results' hc hresults => hc.mustRegrow_eq ⟨h, s⟩ hresults)
    fun c c' results results' deps deps' hc hresults hdeps =>
      hc.regrow hf.injective hf'.injective ⟨h, s⟩ hresults hdeps
  exact hc.deps.filter_ne hf.injective hf'.injective ⟨h, s⟩

/-- The same rules find the same under both namings. -/
theorem simulates_call_renamed (hf : rules.Holds bodies f) (hf' : rules'.Holds bodies f')
    (fuel : Nat) : ∀ h s, Simulates (Chart.Renamed rules f f') (call rules input fuel (f h) s)
      (call rules' input fuel (f' h) s) (Results.Equal rules) := by
  induction fuel with
  | zero => exact fun h s => simulates_failure
  | succ fuel ih =>
    intro h s c c' results d hc hrun
    have hremembered := hc.remembered hf.injective hf'.injective ⟨h, s⟩
    rcases call_cases hrun with hfound | ⟨hfresh, ⟨hnone, rfl, rfl⟩ |
      ⟨_, deps, settled, hget, hrounds, rfl⟩⟩
    · obtain ⟨⟨results', d'⟩, hfound', hresults, hd⟩ := exists_of_rel_some hremembered hfound
      exact ⟨results', d', run_call_of_remembered hfound', hd, hresults⟩
    · rw [hf.get?, Option.map_eq_none_iff] at hnone
      have hnone' : rules'.get? (f' h) = none := by rw [hf'.get?, hnone, Option.map_none]
      exact ⟨[], c', run_call_of_undefined (eq_none_of_rel hremembered hfresh) hnone', hc,
        matches_nil⟩
    · rw [hf.get?] at hget
      obtain ⟨body, hbody, rfl⟩ := Option.map_eq_some_iff.mp hget
      have hget' : rules'.get? (f' h) = some (body.mapRefs f') := by
        rw [hf'.get?, hbody, Option.map_some]
      obtain ⟨⟨results', deps'⟩, settled', hrounds', hsettled, hresults, hdeps⟩ :=
        simulates_untilAnswer (simulates_round_renamed hf hf' ih hbody s) _ _ _ _ _
          (hc.enter hf.injective hf'.injective ⟨h, s⟩) hrounds
      exact ⟨results', _, run_call_of_body (eq_none_of_rel hremembered hfresh) hget' hrounds',
        hsettled.leave hf.injective hf'.injective ⟨h, s⟩ hc.deps hresults hdeps, hresults⟩

end Runs

namespace Registry

variable {rules rules' : Registry} {bodies : Handle → Option (Expr Handle)}
  {f f' : Handle → Handle} {root : Handle} {body : Expr Handle} {fuel : Nat}
  {tokens : List Token}

/-- Where the run of one registry ends, that of the other ends on the same fuel, with the same
outcome. -/
theorem Holds.exists_run? (hf : rules.Holds bodies f) (hf' : rules'.Holds bodies f')
    (hdefined : rules.firstUndefined? = none) (hdefined' : rules'.firstUndefined? = none)
    (hbody : bodies root = some body) {report : Report}
    (hrun : rules.run? fuel (f root) tokens = some report) :
    ∃ report', rules'.run? fuel (f' root) tokens = some report' ∧
      report'.outcome = report.outcome := by
  have hroot : (f root).index < rules.size :=
    index_lt_of_get? (by rw [hf.get?, hbody, Option.map_some])
  have hroot' : (f' root).index < rules'.size :=
    index_lt_of_get? (by rw [hf'.get?, hbody, Option.map_some])
  rw [run?, if_pos hroot, hdefined] at hrun
  rw [run?, if_pos hroot', hdefined']
  dsimp only at hrun ⊢
  split at hrun
  · next results c hcall =>
    cases hrun
    obtain ⟨results', c', hcall', hc, hresults⟩ :=
      simulates_call_renamed hf hf' fuel root 0 _ _ _ _ Chart.renamed_empty hcall
    obtain rfl := hresults.eq
    refine ⟨⟨c'.conclude tokens.toArray results, c'.settled.reverse⟩, ?_, ?_⟩
    · rw [hcall']
    · exact (hc.conclude_eq _ _).symm
  · cases hrun

/-- Registries that hold the same rules give the same outcome on every fuel. -/
theorem Holds.run?_eq (hf : rules.Holds bodies f) (hf' : rules'.Holds bodies f')
    (hdefined : rules.firstUndefined? = none) (hdefined' : rules'.firstUndefined? = none)
    (hbody : bodies root = some body) (fuel : Nat) (tokens : List Token) :
    (rules.run? fuel (f root) tokens).map Report.outcome =
      (rules'.run? fuel (f' root) tokens).map Report.outcome := by
  refine Option.ext fun outcome => ?_
  rw [Option.map_eq_some_iff, Option.map_eq_some_iff]
  constructor
  · rintro ⟨report, hrun, rfl⟩
    exact hf.exists_run? hf' hdefined hdefined' hbody hrun
  · rintro ⟨report', hrun, rfl⟩
    exact hf'.exists_run? hf hdefined' hdefined hbody hrun

/-- A parse gives the outcome of any run that ends. -/
theorem parse_of_run? {report : Report} (hrun : rules.run? fuel root tokens = some report) :
    rules.parse root tokens = report.outcome := by
  rw [parse, parseReport, run?_of_fuel (Nat.min_le_right _ _) hrun, Option.getD_some]

/-- A parse whose run does not end says so. -/
theorem parse_of_endless (hrun : ∀ fuel, rules.run? fuel root tokens = none) :
    rules.parse root tokens = .error .unsettled := by
  rw [parse, parseReport, hrun, Option.getD_none]

/-- Registries that hold the same rules parse alike. -/
theorem Holds.parse_eq (hf : rules.Holds bodies f) (hf' : rules'.Holds bodies f')
    (hdefined : rules.firstUndefined? = none) (hdefined' : rules'.firstUndefined? = none)
    (hbody : bodies root = some body) (tokens : List Token) :
    rules.parse (f root) tokens = rules'.parse (f' root) tokens := by
  by_cases hends : ∃ fuel report, rules.run? fuel (f root) tokens = some report
  · obtain ⟨fuel, report, hrun⟩ := hends
    obtain ⟨report', hrun', houtcome⟩ := hf.exists_run? hf' hdefined hdefined' hbody hrun
    rw [parse_of_run? hrun, parse_of_run? hrun', houtcome]
  · push Not at hends
    have hnone : ∀ fuel, rules.run? fuel (f root) tokens = none := fun fuel =>
      Option.eq_none_iff_forall_ne_some.mpr (hends fuel)
    have hnone' : ∀ fuel, rules'.run? fuel (f' root) tokens = none := by
      intro fuel
      have hsame := hf.run?_eq hf' hdefined hdefined' hbody fuel tokens
      rw [hnone fuel, Option.map_none] at hsame
      exact Option.map_eq_none_iff.mp hsame.symm
    rw [parse_of_endless hnone, parse_of_endless hnone']

end Registry

end ChartGrammar
