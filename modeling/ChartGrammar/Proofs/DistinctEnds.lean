/-
  Proofs/DistinctEnds.lean --- one derivation for each end, within the input.

  Whatever is found at a position has each of its ends once, behind that position and within
  the input.  Alternatives and parts that follow each other take the first derivation of each
  end, a search visits no position twice, and everything else passes on what it got.  What
  results depend on starts where they start: whatever is growing was entered at or before the
  position of the body being run, and only what is growing is depended on.  All this holds of
  every event in the log of every run, with or without an end.
-/
import ChartGrammar.Proofs.EnoughFuel
import ChartGrammar.Proofs.Tracing

set_option autoImplicit false

namespace ChartGrammar

open LogM

/-! ## Ends -/

section Ends

variable {α β : Type} {s n : Nat} {rs rs' : List (Nat × α)}

/-- All ends lie between a start and the end of the input. -/
def Between (s n : Nat) (rs : List (Nat × α)) : Prop := ∀ r ∈ rs, s ≤ r.1 ∧ r.1 ≤ n

/-- All ends lie between a start and the end of the input, and each of them comes once. -/
structure EndsIn (s n : Nat) (rs : List (Nat × α)) : Prop where
  nodup : (rs.map Prod.fst).Nodup
  between : Between s n rs

theorem endsIn_nil : EndsIn s n ([] : List (Nat × α)) :=
  ⟨List.nodup_nil, fun _ hr => absurd hr List.not_mem_nil⟩

theorem endsIn_single {e : Nat} {a : α} (hs : s ≤ e) (hn : e ≤ n) : EndsIn s n [(e, a)] := by
  refine ⟨List.nodup_singleton e, fun r hr => ?_⟩
  rw [List.mem_singleton.mp hr]
  exact ⟨hs, hn⟩

theorem Between.append (h : Between s n rs) (h' : Between s n rs') : Between s n (rs ++ rs') :=
  List.forall_mem_append.mpr ⟨h, h'⟩

theorem Between.from_earlier {p : Nat} (h : Between p n rs) (hs : s ≤ p) : Between s n rs :=
  fun r hr => ⟨hs.trans (h r hr).1, (h r hr).2⟩

theorem Between.firstPerEnd (h : Between s n rs) : EndsIn s n (firstPerEnd rs) :=
  ⟨(nodup_firstPerEndFrom rs ∅).1, fun r hr => h r (mem_of_mem_firstPerEnd hr)⟩

theorem EndsIn.map (h : EndsIn s n rs) (f : α → β) :
    EndsIn s n (rs.map fun r => (r.1, f r.2)) := by
  constructor
  · rw [List.map_map]
    exact h.nodup
  · intro r hr
    obtain ⟨r', hr', rfl⟩ := List.mem_map.mp hr
    exact h.between r' hr'

theorem map_fst_filterMap_sublist {f : Nat × α → Option (Nat × β)}
    (hf : ∀ r q, f r = some q → q.1 = r.1) (rs : List (Nat × α)) :
    ((rs.filterMap f).map Prod.fst).Sublist (rs.map Prod.fst) := by
  induction rs with
  | nil => exact .slnil
  | cons r rs ih =>
    cases hr : f r with
    | none =>
      rw [List.filterMap_cons_none hr]
      exact ih.cons _
    | some q =>
      rw [List.filterMap_cons_some hr, List.map_cons, hf r q hr]
      exact ih.cons_cons _

/-- Leaving out results keeps the ends of the others apart. -/
theorem EndsIn.filterMap (h : EndsIn s n rs) {f : Nat × α → Option (Nat × β)}
    (hf : ∀ r q, f r = some q → q.1 = r.1) : EndsIn s n (rs.filterMap f) := by
  refine ⟨h.nodup.sublist (map_fst_filterMap_sublist hf rs), fun q hq => ?_⟩
  obtain ⟨r, hr, hrq⟩ := List.mem_filterMap.mp hq
  rw [hf r q hrq]
  exact h.between r hr

theorem EndsIn.nodes {rs : Results} (h : EndsIn s n rs) : EndsIn s n rs.nodes := by
  refine h.filterMap fun r q hq => ?_
  split at hq
  · cases hq
    rfl
  · cases hq

theorem EndsIn.lists {rs : Results} (h : EndsIn s n rs) : EndsIn s n rs.lists := by
  refine h.filterMap fun r q hq => ?_
  split at hq
  · cases hq
    rfl
  · cases hq

theorem EndsIn.onward {stop : Repeat.Stop} {rs : Results} (h : EndsIn s n rs) :
    EndsIn s n (Repeat.onward stop rs) := by
  refine h.filterMap fun r q hq => ?_
  split at hq
  · split at hq
    · cases hq
    · cases hq
      rfl
  · cases hq

end Ends

/-! ## Charts and events -/

/-- What is known of a key starts within the input, ends apart within it, and depends on keys
with the same start only. -/
structure Key.Bounds (n : Nat) (k : Key) (results : Results) (deps : List Key) : Prop where
  start : k.start ≤ n
  ends : EndsIn k.start n results
  deps : ∀ d ∈ deps, d.start = k.start

/-- All that a chart holds is within bounds, be it finished or growing. -/
structure Chart.Bounded (n : Nat) (c : Chart) : Prop where
  finished : ∀ (k : Key) entry, c.finished[k]? = some entry → k.Bounds n entry.results entry.deps
  growing : ∀ (k : Key) growth, c.growing[k]? = some growth →
    k.Bounds n growth.results growth.deps

/-- Events within an input of `n` tokens. -/
def Event.InBounds (n : Nat) : Event → Prop
  | .chart c => c.Bounded n
  | .begun s => s ≤ n
  | .found s rs => EndsIn s n rs

/-- The chart while a body is run at a position: only the given keys are growing, and what the
body has read of them starts where it starts. -/
structure Chart.Framed (n s : Nat) (K : Key → Prop) (c : Chart) : Prop where
  bounded : c.Bounded n
  growing : ∀ k, c.growing.contains k = true → K k
  deps : ∀ k ∈ c.deps, k.start = s

namespace Chart

variable {n s p : Nat} {K : Key → Prop} {c d : Chart} {key : Key} {results : Results}

theorem framed_empty (n s : Nat) (K : Key → Prop) : ({} : Chart).Framed n s K := by
  refine ⟨⟨fun k entry h => ?_, fun k growth h => ?_⟩, fun k h => ?_, fun k h => ?_⟩
  · simp at h
  · simp at h
  · simp at h
  · exact absurd h List.not_mem_nil

theorem Framed.of_sameEntries (h : c.Framed n s K) (hsame : c.SameEntries d) :
    d.Framed n s K := by
  refine ⟨⟨?_, ?_⟩, ?_, ?_⟩
  · rw [hsame.finished]
    exact h.bounded.finished
  · rw [hsame.growing]
    exact h.bounded.growing
  · rw [hsame.growing]
    exact h.growing
  · rw [hsame.deps]
    exact h.deps

/-- Of keys that start at or behind a frame, only those that start with it are growing. -/
theorem Framed.depend (h : c.Framed n s K) (hK : ∀ k, K k → k.start ≤ s) (hp : s ≤ p)
    {keys : List Key} (hkeys : ∀ k ∈ keys, k.start = p) : (c.depend keys).Framed n s K := by
  refine ⟨⟨h.bounded.finished, h.bounded.growing⟩, h.growing, fun k hk => ?_⟩
  rcases (mem_deps_depend c keys k).mp hk with hk | ⟨hk, hgrow⟩
  · exact h.deps k hk
  · have hstart := hkeys k hk
    have := hK k (h.growing k hgrow)
    omega

/-- Reading what is remembered of a key. -/
theorem Framed.remembered (h : c.Framed n s K) (hK : ∀ k, K k → k.start ≤ s)
    (hs : s ≤ key.start) (hrem : c.remembered? key = some (results, d)) :
    d.Framed n s K ∧ EndsIn key.start n results := by
  have hcontains := contains_growing_remembered hrem
  unfold remembered? at hrem
  split at hrem
  · next entry hentry =>
    cases hrem
    have hbounds := h.bounded.finished key entry hentry
    exact ⟨h.depend hK hs hbounds.deps, hbounds.ends⟩
  · split at hrem
    · next growth hgrow =>
      cases hrem
      have hbounds := h.bounded.growing key growth hgrow
      have hread : Framed n s K
          { c with growing := c.growing.insert key { growth with readSince := true } } := by
        refine ⟨⟨h.bounded.finished, fun k growth' hk => ?_⟩, fun k hk => ?_, h.deps⟩
        · rw [lookup_insert] at hk
          split at hk
          · next heq =>
            cases hk
            exact heq ▸ hbounds
          · exact h.bounded.growing k growth' hk
        · exact h.growing k ((hcontains k).symm.trans hk)
      refine ⟨hread.depend hK hs (List.forall_mem_append.mpr ⟨hbounds.deps, fun k hk => ?_⟩),
        hbounds.ends⟩
      rw [List.mem_singleton.mp hk]
    · cases hrem

/-- Starting a body at or behind a frame. -/
theorem Framed.enter (h : c.Framed n s K) (key : Key) (hn : key.start ≤ n) :
    (c.enter key).Framed n key.start fun k => k = key ∨ K k := by
  refine ⟨⟨h.bounded.finished, fun k growth hk => ?_⟩, fun k hk => ?_, fun k hk => ?_⟩
  · simp only [Chart.enter, lookup_insert] at hk
    split at hk
    · next heq =>
      cases hk
      subst heq
      exact ⟨hn, endsIn_nil, fun d hd => absurd hd List.not_mem_nil⟩
    · exact h.bounded.growing k growth hk
  · simp only [Chart.enter, Std.TreeMap.contains_eq_isSome_getElem?, lookup_insert] at hk
    split at hk
    · next heq => exact .inl heq.symm
    · exact .inr (h.growing k (by rwa [Std.TreeMap.contains_eq_isSome_getElem?]))
  · exact absurd hk List.not_mem_nil

/-- A frame whose body has read nothing yet. -/
theorem Framed.withoutDeps (h : c.Framed n s K) : Framed n s K { c with deps := [] } :=
  ⟨⟨h.bounded.finished, h.bounded.growing⟩, h.growing, fun _ hk => absurd hk List.not_mem_nil⟩

theorem Framed.regrow (h : c.Framed n s K) {deps : List Key} (hkey : key.Bounds n results deps) :
    (c.regrow key results deps).Framed n s K := by
  refine ⟨⟨fun k entry hk => ?_, fun k growth hk => ?_⟩, fun k hk => ?_, h.deps⟩
  · exact h.bounded.finished k entry (finished_of_forget hk)
  · have hk' : (c.growing.modify key fun growth =>
        ⟨results, deps, false, growth.round + 1⟩)[k]? = some growth := hk
    rw [lookup_modify] at hk'
    split at hk'
    · next heq =>
      obtain ⟨old, -, rfl⟩ := Option.map_eq_some_iff.mp hk'
      exact heq ▸ hkey
    · exact h.bounded.growing k growth hk'
  · have hmodify : (c.regrow key results deps).growing.contains k =
        (c.growing.modify key fun growth => ⟨results, deps, false, growth.round + 1⟩).contains k :=
      rfl
    rw [hmodify, Std.TreeMap.contains_modify] at hk
    exact h.growing k hk

/-- Back to the frame that a body was started from. -/
theorem Framed.leave (h : c.Framed n key.start fun k => k = key ∨ K k)
    (hK : ∀ k, K k → k.start ≤ s) (hs : s ≤ key.start) {outer deps : List Key}
    (houter : ∀ k ∈ outer, k.start = s) (hkey : key.Bounds n results deps) :
    (c.leave key outer results deps).Framed n s K := by
  have hsettle := h.of_sameEntries (sameEntries_settle c key)
  have hback : Framed n s K
      { c.settle key with growing := (c.settle key).growing.erase key, deps := outer } := by
    refine ⟨⟨hsettle.bounded.finished, fun k growth hk => ?_⟩, fun k hk => ?_, houter⟩
    · rw [lookup_erase] at hk
      split at hk
      · cases hk
      · exact hsettle.bounded.growing k growth hk
    · rw [Std.TreeMap.contains_eq_isSome_getElem?, lookup_erase] at hk
      split at hk
      · cases hk
      · next hne =>
        rw [← Std.TreeMap.contains_eq_isSome_getElem?] at hk
        exact (hsettle.growing k hk).resolve_left (Ne.symm hne)
  have hdepend := hback.depend hK hs hkey.deps
  refine ⟨⟨fun k entry hk => ?_, hdepend.bounded.growing⟩, hdepend.growing, hdepend.deps⟩
  have hleave : (c.leave key outer results deps).finished =
      (c.settle key).finished.insert key ⟨results, deps⟩ := rfl
  rw [hleave, lookup_insert] at hk
  split at hk
  · next heq =>
    cases hk
    exact heq ▸ hkey
  · exact hsettle.bounded.finished k entry hk

end Chart

/-! ## Running expressions -/

section Eval

variable {n s p : Nat} {K : Key → Prop} {I : Chart → Prop}

/-- While a body is run at `s`, a computation at a position from `s` on logs nothing out of
bounds and finds each end once, behind that position. -/
def InFrame (n s : Nat) (K : Key → Prop) (m : Nat → LogM Results) (m' : Nat → ChartM Results) :
    Prop :=
  ∀ p, s ≤ p → p ≤ n →
    Keeps (Event.InBounds n) (Chart.Framed n s K) (m p) (m' p) (EndsIn p n)

theorem LogM.Keeps.announce {m : LogM Results} {m' : ChartM Results}
    (h : Keeps (Event.InBounds n) I m m' (EndsIn p n)) (hp : p ≤ n) :
    Keeps (Event.InBounds n) I (announce p m) m' (EndsIn p n) :=
  Mirrors.announce h hp fun _ _ hd => hd.2

theorem keeps_missing {α : Type} (pos : Nat) (what : String) :
    Keeps (Event.InBounds n) (Chart.Framed n s K) (Logged.missing pos what) (missing pos what)
      (EndsIn (α := α) p n) := by
  refine keeps_bind (keeps_modify fun c hc => ?_) fun _ _ => keeps_pure endsIn_nil
  have hd := hc.of_sameEntries (Chart.sameEntries_expect c pos what)
  exact ⟨hd.bounded, hd⟩

theorem keeps_gather {α β : Type} {G : Event → Prop} {f : Nat × α → LogM (List (Nat × β))}
    {f' : Nat × α → ChartM (List (Nat × β))} (rs : List (Nat × α))
    (hf : ∀ r ∈ rs, Keeps G I (f r) (f' r) (Between p n)) :
    Keeps G I (Logged.gather f rs) (gather f' rs) (Between p n) := by
  induction rs with
  | nil => exact keeps_pure fun _ hr => absurd hr List.not_mem_nil
  | cons r rs ih =>
    obtain ⟨hr, hrs⟩ := List.forall_mem_cons.mp hf
    exact keeps_bind hr fun found hfound => keeps_bind (ih hrs) fun rest hrest =>
      keeps_pure (hfound.append hrest)

theorem keeps_construct (ctor : Constructor) {rs : Results} (hrs : EndsIn p n rs) :
    Keeps (Event.InBounds n) (Chart.Framed n s K) (Logged.construct ctor rs) (construct ctor rs)
      (EndsIn p n) := by
  have hmade : EndsIn p n
      (rs.filterMap fun r => (Node.make? ctor r.2).map fun n => (r.1, Deriv.node n)) := by
    refine hrs.filterMap fun r q hq => ?_
    obtain ⟨n, -, rfl⟩ := Option.map_eq_some_iff.mp hq
    rfl
  unfold Logged.construct construct
  split
  · exact keeps_pure hmade
  · refine keeps_bind (keeps_modify fun c hc => ?_) fun _ _ => keeps_pure hmade
    have hd := hc.of_sameEntries (Chart.sameEntries_noteMismatch c ctor)
    exact ⟨hd.bounded, hd⟩

theorem inFrame_evalPair {join : Node → Chain Node → Deriv} {head tail : Nat → LogM Results}
    {head' tail' : Nat → ChartM Results} (hhead : InFrame n s K head head')
    (htail : InFrame n s K tail tail') :
    InFrame n s K (Logged.evalPair join head tail) (evalPair join head' tail') := by
  intro p hs hn
  refine keeps_bind (hhead p hs hn) fun heads hheads => ?_
  refine keeps_bind (keeps_gather heads.nodes ?_) fun joined hjoined =>
    keeps_pure hjoined.firstPerEnd
  rintro ⟨mid, node⟩ hmid
  obtain ⟨hp, hmid⟩ := hheads.nodes.between _ hmid
  refine keeps_bind (htail mid (hs.trans hp) hmid) fun tails htails => keeps_pure ?_
  exact (htails.lists.map (join node)).between.from_earlier hp

theorem keeps_extendFields {field : Nat → LogM Results} {field' : Nat → ChartM Results}
    (hfield : InFrame n s K field field') (hs : s ≤ p) {partials : List (Nat × List Node)}
    (hpartials : EndsIn p n partials) :
    Keeps (Event.InBounds n) (Chart.Framed n s K) (Logged.extendFields field partials)
      (extendFields field' partials) (EndsIn p n) := by
  refine keeps_bind (keeps_gather partials ?_) fun next hnext => keeps_pure hnext.firstPerEnd
  rintro ⟨pos, ns⟩ hpos
  obtain ⟨hp, hpos⟩ := hpartials.between _ hpos
  refine keeps_bind (hfield pos (hs.trans hp) hpos) fun found hfound => keeps_pure ?_
  exact (hfound.nodes.map (· :: ns)).between.from_earlier hp

variable {input : Array Token} {lcall : Handle → Nat → LogM Results}
  {call : Handle → Nat → ChartM Results}

theorem keeps_evalFields (es : List (Expr Handle))
    (hes : ∀ e ∈ es, InFrame n s K (Logged.eval input lcall e) (eval input call e)) (hs : s ≤ p) :
    ∀ {partials : List (Nat × List Node)}, EndsIn p n partials →
      Keeps (Event.InBounds n) (Chart.Framed n s K) (Logged.evalFields input lcall es partials)
        (evalFields input call es partials) (EndsIn p n) := by
  induction es with
  | nil =>
    intro partials hpartials
    rw [Logged.evalFields, evalFields]
    exact keeps_pure hpartials
  | cons e es ih =>
    intro partials hpartials
    obtain ⟨he, hes⟩ := List.forall_mem_cons.mp hes
    rw [Logged.evalFields, evalFields]
    refine keeps_bind (keeps_extendFields he hs hpartials) fun next hnext => ?_
    split
    · exact keeps_pure endsIn_nil
    · exact ih hes hnext

/-- Running an expression stays within bounds, if its references do. -/
theorem inFrame_eval (hcall : ∀ h, InFrame input.size s K (lcall h) (call h)) (e : Expr Handle) :
    InFrame input.size s K (Logged.eval input lcall e) (eval input call e) := by
  induction e using Expr.induction with
  | ref h =>
    intro p hs hn
    rw [Logged.eval, eval]
    exact (hcall h p hs hn).announce hn
  | matchOne pred =>
    intro p hs hn
    rw [Logged.eval, eval]
    refine Keeps.announce ?_ hn
    cases ht : input[p]? with
    | none => exact keeps_missing p _
    | some t =>
      by_cases htest : pred.test t.char = true
      · simp only [htest, if_true]
        exact keeps_pure (endsIn_single (Nat.le_succ p) (succ_le_size ht))
      · simp only [htest]
        exact keeps_missing p _
  | symbol literal =>
    intro p hs hn
    rw [Logged.eval, eval]
    refine Keeps.announce ?_ hn
    cases hts : spell input literal.toList p with
    | error pos => exact keeps_missing pos _
    | ok ts =>
      refine keeps_pure (endsIn_single (Nat.le_add_right _ _) ?_)
      exact stop_of_spell (S := (· ≤ input.size)) (fun _ _ _ ht => succ_le_size ht) hn hts
  | unit | nothing | nil =>
    intro p hs hn
    rw [Logged.eval, eval]
    exact (keeps_pure (endsIn_single (Nat.le_refl p) hn)).announce hn
  | just e ih =>
    intro p hs hn
    rw [Logged.eval, eval]
    refine Keeps.announce (keeps_bind (ih p hs hn) fun found hfound => ?_) hn
    exact keeps_pure (hfound.nodes.map Deriv.just)
  | alt a b iha ihb =>
    intro p hs hn
    rw [Logged.eval, eval]
    refine Keeps.announce (keeps_bind (iha p hs hn) fun left hleft => ?_) hn
    refine keeps_bind (ihb p hs hn) fun right hright => keeps_pure ?_
    exact (hleft.between.append hright.between).firstPerEnd
  | seq es ih =>
    intro p hs hn
    rw [Logged.eval, eval]
    refine Keeps.announce (keeps_bind (keeps_evalFields es ih hs ?_) fun found hfound => ?_) hn
    · exact endsIn_single (Nat.le_refl p) hn
    · exact keeps_pure (hfound.map fun ns => Deriv.fields ns.reverse)
  | cons a b iha ihb | pair a b iha ihb =>
    intro p hs hn
    rw [Logged.eval, eval]
    exact (inFrame_evalPair iha ihb p hs hn).announce hn
  | map ctor e ih =>
    intro p hs hn
    rw [Logged.eval, eval]
    exact (keeps_bind (ih p hs hn) fun found hfound => keeps_construct ctor hfound).announce hn
  | label description e ih =>
    intro p hs hn
    rw [Logged.eval, eval]
    refine Keeps.announce (keeps_bind (ih p hs hn) fun found hfound => ?_) hn
    split
    · exact keeps_missing p description
    · exact keeps_pure hfound

/-! ## Repetition -/

/-- A search stays within bounds and visits no position twice. -/
theorem keeps_search {item : Nat → LogM Results} {item' : Nat → ChartM Results}
    (hitem : InFrame n s K item item') (hs : s ≤ p) (room : Nat) :
    ∀ {stack visited : List Repeat.Stop} {seen : Std.HashSet Nat}, Between p n stack →
      EndsIn p n visited → (∀ stop ∈ visited, seen.contains stop.1 = true) →
      Keeps (Event.InBounds n) (Chart.Framed n s K) (Logged.search item room stack seen visited)
        (Repeat.search item' room stack seen visited) (EndsIn p n) := by
  have hdone : ∀ {visited : List Repeat.Stop}, EndsIn p n visited → EndsIn p n visited.reverse := by
    intro visited hvisited
    refine ⟨?_, fun r hr => hvisited.between r (List.mem_reverse.mp hr)⟩
    rw [List.map_reverse, List.nodup_reverse]
    exact hvisited.nodup
  induction room with
  | zero =>
    intro stack visited seen _ hvisited _
    unfold Logged.search Repeat.search
    cases stack.dropWhile fun stop => seen.contains stop.1 with
    | nil => exact keeps_pure (hdone hvisited)
    | cons stop rest => exact mirrors_fail
  | succ room ih =>
    intro stack visited seen hstack hvisited hseen
    unfold Logged.search Repeat.search
    cases hdrop : stack.dropWhile fun stop => seen.contains stop.1 with
    | nil => exact keeps_pure (hdone hvisited)
    | cons stop rest =>
      have hleft : Between p n (stop :: rest) := by
        intro r hr
        rw [← hdrop] at hr
        exact hstack r ((List.dropWhile_suffix _).subset hr)
      obtain ⟨hstop, hrest⟩ := List.forall_mem_cons.mp hleft
      obtain ⟨hnodup, hseen⟩ :=
        nodup_visit (dropWhile_eq_cons stack hdrop).1 hvisited.nodup hseen
      refine keeps_bind (hitem stop.1 (hs.trans hstop.1) hstop.2) fun found hfound => ?_
      refine ih (Between.append ?_ hrest) ⟨hnodup, ?_⟩ hseen
      · exact hfound.onward.between.from_earlier hstop.1
      · exact List.forall_mem_cons.mpr ⟨hstop, hvisited.between⟩

theorem inFrame_repeatItem {item : Nat → LogM Results} {item' : Nat → ChartM Results}
    (hitem : InFrame n s K item item') (length : Nat) :
    InFrame n s K (Logged.repeatItem length item) (repeatItem length item') := by
  intro p hs hn
  refine Keeps.announce (keeps_bind (keeps_search hitem hs (length + 1) ?_ endsIn_nil ?_)
    fun stops hstops => ?_) hn
  · exact (endsIn_single (Nat.le_refl p) hn).between
  · exact fun _ hstop => absurd hstop List.not_mem_nil
  · exact keeps_pure (hstops.map Deriv.list)

theorem inFrame_evalBody (hcall : ∀ h, InFrame input.size s K (lcall h) (call h)) (h : Handle)
    (body : Expr Handle) :
    InFrame input.size s K (Logged.evalBody input lcall h body) (evalBody input call h body) := by
  intro p hs hn
  unfold Logged.evalBody evalBody
  cases repeatedItem? h body with
  | some item => exact inFrame_repeatItem (inFrame_eval hcall item) _ p hs hn
  | none => exact inFrame_eval hcall body p hs hn

end Eval

/-! ## Calls -/

section Call

variable {n s : Nat} {K : Key → Prop}

/-- The rounds of a rule stay within bounds, and so does what they depend on. -/
theorem keeps_growRound (key : Key) (hn : key.start ≤ n) {body : LogM Results}
    {body' : ChartM Results}
    (hbody : Keeps (Event.InBounds n) (Chart.Framed n key.start K) body body'
      (EndsIn key.start n)) :
    Keeps (Event.InBounds n) (Chart.Framed n key.start K) (Logged.growRound key body)
      (growRound key body') fun answer => ∀ a, answer = some a → key.Bounds n a.1 a.2 := by
  refine keeps_bind hbody fun results hresults => ?_
  refine mirrors_bind (J := fun deps d => Chart.Framed n key.start K d ∧
    key.Bounds n results deps) (mirrors_modifyGet fun c hc => ?_) fun deps => ?_
  · refine ⟨hc.withoutDeps.bounded, hc.withoutDeps, hn, hresults, fun k hk => ?_⟩
    exact hc.deps k (List.mem_of_mem_filter hk)
  · refine mirrors_bind mirrors_get fun c => ?_
    cases hmust : c.mustRegrow key results with
    | true =>
      simp only [if_true]
      refine mirrors_bind (J := fun _ d => Chart.Framed n key.start K d)
        (mirrors_modify fun d hd => ?_) fun _ => mirrors_pure fun d hd => ⟨hd, nofun⟩
      have hd' := hd.2.1.regrow hd.2.2
      exact ⟨hd'.bounded, hd'⟩
    | false =>
      simp only [Bool.false_eq_true, if_false]
      refine mirrors_pure fun d hd => ⟨hd.2.1, fun a ha => ?_⟩
      cases ha
      exact hd.2.2

/-- A call stays within bounds, whatever is growing, and comes back to the frame it was made
from. -/
theorem inFrame_call (rules : Registry) (input : Array Token) (fuel : Nat) :
    ∀ {s : Nat} {K : Key → Prop}, (∀ k, K k → k.start ≤ s) → ∀ h,
      InFrame input.size s K (Logged.call rules input fuel h) (call rules input fuel h) := by
  induction fuel with
  | zero => exact fun _ h p _ _ => mirrors_fail
  | succ fuel ih =>
    intro s K hK h p hs hn
    unfold Logged.call call
    refine Keeps.announce (mirrors_bind mirrors_get fun c => ?_) hn
    cases hrem : c.remembered? ⟨h, p⟩ with
    | some found =>
      obtain ⟨results, d⟩ := found
      refine mirrors_bind (J := fun _ d => Chart.Framed input.size s K d ∧
        EndsIn p input.size results) ?_ fun _ => mirrors_pure fun d hd => hd
      rintro _ ⟨rfl, hc⟩
      have hd := hc.remembered hK hs hrem
      exact mirrors_set ⟨hd.1.bounded, hd⟩ c hc
    | none =>
      cases hget : rules.get? h with
      | none => exact mirrors_pure fun d hd => ⟨hd.2, endsIn_nil⟩
      | some body =>
        -- the body is run in a frame of its own, in which the rule itself is growing too
        have hK' : ∀ k, k = ⟨h, p⟩ ∨ K k → k.start ≤ p := by
          rintro k (rfl | hk)
          · exact Nat.le_refl p
          · exact (hK k hk).trans hs
        have hround := keeps_growRound ⟨h, p⟩ hn
          (inFrame_evalBody (ih hK') h body p (Nat.le_refl p) hn)
        refine mirrors_bind (J := fun outer d =>
          Chart.Framed input.size p (fun k => k = ⟨h, p⟩ ∨ K k) d ∧ ∀ k ∈ outer, k.start = s)
          (mirrors_modifyGet fun c hc => ?_) fun outer => ?_
        · have henter := hc.2.enter ⟨h, p⟩ hn
          exact ⟨henter.bounded, henter, hc.2.deps⟩
        · rintro d ⟨hd, houter⟩
          refine mirrors_bind (keeps_untilAnswer hround (fuel + 1)) ?_ d hd
          rintro ⟨results, deps⟩
          refine mirrors_bind (J := fun _ d => Chart.Framed input.size s K d ∧
            EndsIn p input.size results) (mirrors_modify fun d hd => ?_) fun _ =>
            mirrors_pure fun d hd => hd
          have hleave := hd.1.leave hK hs houter hd.2
          exact ⟨hleave.bounded, hleave, hd.2.ends⟩

end Call

/-- Every run on every fuel has the same outcome as a run that logs what it does, and nothing
in the log is out of bounds: results that are returned, finished or growing have each end once,
between their start and the end of the input; nothing is begun behind the end of the input; and
results depend only on rules with the same start. -/
theorem Registry.trace_in_bounds (rules : Registry) (fuel : Nat) (root : Handle)
    (tokens : List Token) :
    (rules.trace fuel root tokens).2 = (call rules tokens.toArray fuel root 0).run {} ∧
      ∀ e ∈ (rules.trace fuel root tokens).1, e.InBounds tokens.length := by
  have hempty := Chart.framed_empty tokens.toArray.size 0 fun _ => False
  obtain ⟨hsame, hlog, -⟩ := inFrame_call rules tokens.toArray fuel
    (fun _ hk => hk.elim) root 0 (Nat.le_refl 0) (Nat.zero_le _) {} hempty
  refine ⟨hsame, List.forall_mem_cons.mpr ⟨?_, fun e he => ?_⟩⟩
  · exact hempty.bounded
  · exact hlog e he

/-- Digits are looked for up to the end of the input, where there is none, and not behind it. -/
theorem Registry.trace_in_bounds_digits :
    let rules : Registry := .ofBodies [
      .alt (.map (.wrap "digits") (.ref ⟨1⟩))
        (.map (.record "digits" 2) (.seq [.ref ⟨0⟩, .ref ⟨1⟩])),
      .map (.terminal "digit") (.matchOne .digit)]
    .begun 2 ∈ (rules.trace 4 ⟨0⟩ (Token.stream "77")).1 ∧
      (Event.begun 2).InBounds (Token.stream "77").length := by
  intro rules
  have hlogged : .begun 2 ∈ (rules.trace 4 ⟨0⟩ (Token.stream "77")).1 := by
    refine List.mem_of_getElem? (i := 80) ?_
    cbv
  obtain ⟨-, hbounds⟩ := Registry.trace_in_bounds rules 4 ⟨0⟩ (Token.stream "77")
  exact ⟨hlogged, hbounds _ hlogged⟩

/-- A rule that begins with itself, on two digits: the charts in the log hold no end of it at
first, then one, then both. -/
example :
    let rules : Registry := .ofBodies [
      .alt (.map (.wrap "digits") (.ref ⟨1⟩))
        (.map (.record "digits" 2) (.seq [.ref ⟨0⟩, .ref ⟨1⟩])),
      .map (.terminal "digit") (.matchOne .digit)]
    ((rules.trace 4 ⟨0⟩ (Token.stream "77")).1.filterMap fun
      | .chart c => c.growing[(⟨⟨0⟩, 0⟩ : Key)]?.map fun growth => growth.results.map Prod.fst
      | _ => none).eraseReps = [[], [1], [1, 2]] := by
  cbv

end ChartGrammar
