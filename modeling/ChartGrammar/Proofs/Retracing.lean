/-
  Proofs/Retracing.lean --- runs that go over the same ground.

  A run that has ended is compared with a run that has yet to be found.  The first run may
  look at more than the second one can follow; whether it did shows only in the chart that it
  leaves.  So a computation retraces another if, whenever the first one ended and its chart
  shows that it stayed near, the second one takes the same steps to the same end.

  That a run stayed near must be a matter of its last chart alone, so what shows that it did
  not is never lost on the way.  This is what a watch asks for, and then there is one rule for
  each way in which computations are put together.
-/
import ChartGrammar.Proofs.EnoughFuel

set_option autoImplicit false

namespace ChartGrammar

open ChartM

/-- What is watched of the charts of a run. -/
structure Watch where
  /-- what every run keeps -/
  steady : Chart → Prop
  /-- how a run may change a chart -/
  later : Chart → Chart → Prop
  /-- what shows that a run stayed near -/
  near : Chart → Prop
  /-- what a run keeps that stays near -/
  held : Chart → Prop
  refl : ∀ c, later c c
  trans : ∀ {c d e}, later c d → later d e → later c e
  near_of_later : ∀ {c d}, later c d → near d → near c
  /-- notes for diagnostics change nothing else -/
  note : ∀ {c d}, c.SameEntries d → c.furthest ≤ d.furthest → steady c →
    steady d ∧ later c d ∧ (held c → held d)

namespace Watch

variable {w : Watch} {α β : Type} {pre pre' : Prop}

/-- Whenever the first computation has a result and its chart shows that it stayed near, the
second one has the same result and leaves the same chart, if `pre` holds. -/
def Retraces (w : Watch) (pre : Prop) (m m' : ChartM α) (Q : α → Prop) : Prop :=
  ∀ c a d, w.steady c → m.run c = some (a, d) → w.steady d ∧ w.later c d ∧
    (w.near d → w.held c → pre → m'.run c = some (a, d) ∧ w.held d ∧ Q a)

theorem Retraces.imp {m m' : ChartM α} {Q Q' : α → Prop} (h : w.Retraces pre m m' Q)
    (hpre : pre' → pre) (hQ : ∀ a, pre' → Q a → Q' a) : w.Retraces pre' m m' Q' := by
  intro c a d hc hrun
  obtain ⟨hd, hlater, hnear⟩ := h c a d hc hrun
  refine ⟨hd, hlater, fun hnd hhc hpre' => ?_⟩
  obtain ⟨hrun', hhd, ha⟩ := hnear hnd hhc (hpre hpre')
  exact ⟨hrun', hhd, hQ a hpre' ha⟩

theorem Retraces.under {m m' : ChartM α} {Q : α → Prop} (h : w.Retraces pre m m' Q)
    (hpre : pre' → pre) : w.Retraces pre' m m' Q :=
  h.imp hpre fun _ _ ha => ha

/-- Nothing is asked of the second computation if the condition fails. -/
theorem Retraces.vacuous {m m' m'' : ChartM α} {Q Q' : α → Prop} (h : w.Retraces pre m m' Q)
    (hpre : ¬ pre') : w.Retraces pre' m m'' Q' := by
  intro c a d hc hrun
  obtain ⟨hd, hlater, -⟩ := h c a d hc hrun
  exact ⟨hd, hlater, fun _ _ hpre' => absurd hpre' hpre⟩

theorem retraces_pure {a : α} {Q : α → Prop} (ha : pre → Q a) :
    w.Retraces pre (pure a) (pure a) Q := by
  intro c b d hc hrun
  cases hrun
  exact ⟨hc, w.refl c, fun _ hhc hpre => ⟨rfl, hhc, ha hpre⟩⟩

theorem retraces_failure {m' : ChartM α} {Q : α → Prop} : w.Retraces pre failure m' Q := by
  intro c a d _ hrun
  cases hrun

theorem retraces_bind {m m' : ChartM α} {f f' : α → ChartM β} {Q : α → Prop} {P : β → Prop}
    (hm : w.Retraces pre m m' Q) (hf : ∀ a, w.Retraces (pre ∧ Q a) (f a) (f' a) P) :
    w.Retraces pre (m >>= f) (m' >>= f') P := by
  intro c b d hc hrun
  rw [StateT.run_bind] at hrun
  obtain ⟨⟨a, e⟩, hrun₁, hrun₂⟩ := Option.bind_eq_some_iff.mp hrun
  obtain ⟨he, hce, hnear₁⟩ := hm c a e hc hrun₁
  obtain ⟨hd, hed, hnear₂⟩ := hf a e b d he hrun₂
  refine ⟨hd, w.trans hce hed, fun hnd hhc hpre => ?_⟩
  obtain ⟨hrun₁', hhe, ha⟩ := hnear₁ (w.near_of_later hed hnd) hhc hpre
  obtain ⟨hrun₂', hhd, hb⟩ := hnear₂ hnd hhe ⟨hpre, ha⟩
  refine ⟨?_, hhd, hb⟩
  rw [StateT.run_bind]
  exact Option.bind_eq_some_iff.mpr ⟨(a, e), hrun₁', hrun₂'⟩

theorem retraces_get : w.Retraces pre get get fun _ => True := by
  intro c a d hc hrun
  cases hrun
  exact ⟨hc, w.refl c, fun _ hhc _ => ⟨rfl, hhc, trivial⟩⟩

theorem retraces_modifyGet {f : Chart → α × Chart}
    (hf : ∀ c, w.steady c → w.steady (f c).2 ∧ w.later c (f c).2 ∧
      (w.held c → pre → w.held (f c).2)) :
    w.Retraces pre (modifyGet f) (modifyGet f) fun _ => True := by
  intro c a d hc hrun
  have heq : f c = (a, d) := Option.some.inj hrun
  have hd := hf c hc
  rw [heq] at hd
  exact ⟨hd.1, hd.2.1, fun _ hhc hpre => ⟨hrun, hd.2.2 hhc hpre, trivial⟩⟩

theorem retraces_modify {f : Chart → Chart}
    (hf : ∀ c, w.steady c → w.steady (f c) ∧ w.later c (f c) ∧ (w.held c → pre → w.held (f c))) :
    w.Retraces pre (modify f) (modify f) fun _ => True :=
  retraces_modifyGet hf

/-! ## Loops -/

theorem retraces_repeatUpTo {step step' : ChartM (Option α)} {Q : α → Prop}
    (hstep : w.Retraces pre step step' fun answer => ∀ a, answer = some a → Q a) (n : Nat) :
    w.Retraces pre (repeatUpTo step n) (repeatUpTo step' n)
      fun answer => ∀ a, answer = some a → Q a := by
  induction n with
  | zero =>
    refine retraces_pure fun _ a ha => ?_
    cases ha
  | succ n ih =>
    refine retraces_bind hstep fun answer => ?_
    cases answer with
    | none => exact ih.under And.left
    | some a => exact retraces_pure And.right

theorem retraces_untilAnswer {step step' : ChartM (Option α)} {Q : α → Prop}
    (hstep : w.Retraces pre step step' fun answer => ∀ a, answer = some a → Q a) (fuel : Nat) :
    w.Retraces pre (untilAnswer step fuel) (untilAnswer step' fuel) Q := by
  rw [untilAnswer_eq, untilAnswer_eq]
  refine retraces_bind (retraces_repeatUpTo hstep _) fun answer => ?_
  cases answer with
  | none => exact retraces_failure
  | some a => exact retraces_pure fun h => h.2 a rfl

end Watch

open Watch

/-! ## Ends -/

section Within

variable {α β : Type} {size : Nat}

/-- All ends lie within an input of the given size. -/
def Within (size : Nat) (rs : List (Nat × α)) : Prop := ∀ r ∈ rs, r.1 ≤ size

theorem within_nil : Within size ([] : List (Nat × α)) := fun _ hr => absurd hr List.not_mem_nil

theorem within_single {s : Nat} {a : α} (hs : s ≤ size) : Within size [(s, a)] := by
  intro r hr
  rwa [List.mem_singleton.mp hr]

theorem Within.append {rs rs' : List (Nat × α)} (h : Within size rs) (h' : Within size rs') :
    Within size (rs ++ rs') := by
  intro r hr
  rcases List.mem_append.mp hr with hr | hr
  · exact h r hr
  · exact h' r hr

theorem Within.firstPerEnd {rs : List (Nat × α)} (h : Within size rs) :
    Within size (firstPerEnd rs) :=
  fun r hr => h r (mem_of_mem_firstPerEnd hr)

theorem Within.map {rs : List (Nat × α)} (h : Within size rs) (f : α → β) :
    Within size (rs.map fun r => (r.1, f r.2)) := by
  intro r hr
  obtain ⟨r', hr', rfl⟩ := List.mem_map.mp hr
  exact h r' hr'

theorem Within.filterMap {rs : List (Nat × α)} (h : Within size rs)
    {f : Nat × α → Option (Nat × β)} (hf : ∀ r q, f r = some q → q.1 = r.1) :
    Within size (rs.filterMap f) := by
  intro q hq
  obtain ⟨r, hr, hrq⟩ := List.mem_filterMap.mp hq
  rw [hf r q hrq]
  exact h r hr

theorem Within.nodes {rs : Results} (h : Within size rs) : Within size rs.nodes := by
  refine h.filterMap fun r q hq => ?_
  split at hq
  · cases hq
    rfl
  · cases hq

theorem Within.lists {rs : Results} (h : Within size rs) : Within size rs.lists := by
  refine h.filterMap fun r q hq => ?_
  split at hq
  · cases hq
    rfl
  · cases hq

theorem Within.onward {stop : Repeat.Stop} {rs : Results} (h : Within size rs) :
    Within size (Repeat.onward stop rs) := by
  refine h.filterMap fun r q hq => ?_
  split at hq
  · split at hq
    · cases hq
    · cases hq
      rfl
  · cases hq

end Within

/-! ## Running expressions -/

theorem Chart.furthest_le_expect (c : Chart) (pos : Nat) (what : String) :
    c.furthest ≤ (c.expect pos what).furthest ∧ pos ≤ (c.expect pos what).furthest := by
  unfold Chart.expect
  split
  · next hlt => exact ⟨Nat.le_of_lt hlt, Nat.le_refl pos⟩
  · next hge =>
    split
    · next heq => exact ⟨Nat.le_refl _, Nat.le_of_eq heq⟩
    · exact ⟨Nat.le_refl _, Nat.not_lt.mp hge⟩

theorem Chart.furthest_noteMismatch (c : Chart) (ctor : Constructor) :
    (c.noteMismatch ctor).furthest = c.furthest := by
  unfold Chart.noteMismatch
  split <;> rfl

section Eval

variable {w : Watch} {pre : Prop} {size : Nat}

theorem retraces_missing {α : Type} (pos : Nat) (what : String) :
    w.Retraces pre (missing pos what) (missing pos what) (Within (α := α) size) := by
  refine retraces_bind (retraces_modify fun c hc => ?_) fun _ => retraces_pure fun _ => within_nil
  obtain ⟨hsteady, hlater, hheld⟩ := w.note (Chart.sameEntries_expect c pos what)
    (c.furthest_le_expect pos what).1 hc
  exact ⟨hsteady, hlater, fun hhc _ => hheld hhc⟩

theorem retraces_gather {α β : Type} {f f' : Nat × α → ChartM (List (Nat × β))}
    (hf : ∀ r, w.Retraces (r.1 ≤ size) (f r) (f' r) (Within size)) (rs : List (Nat × α)) :
    w.Retraces (Within size rs) (gather f rs) (gather f' rs) (Within size) := by
  induction rs with
  | nil => exact retraces_pure fun _ => within_nil
  | cons r rs ih =>
    refine retraces_bind ((hf r).under fun h => h r List.mem_cons_self) fun found => ?_
    refine retraces_bind (ih.under fun h q hq => h.1 q (List.mem_cons_of_mem _ hq)) fun rest => ?_
    exact retraces_pure fun h => h.1.2.append h.2

theorem retraces_construct (ctor : Constructor) (rs : Results) :
    w.Retraces (Within size rs) (construct ctor rs) (construct ctor rs) (Within size) := by
  have hmade : Within size rs → Within size
      (rs.filterMap fun r => (Node.make? ctor r.2).map fun n => (r.1, Deriv.node n)) := by
    refine fun h => h.filterMap fun r q hq => ?_
    obtain ⟨n, -, rfl⟩ := Option.map_eq_some_iff.mp hq
    rfl
  unfold construct
  split
  · exact retraces_pure hmade
  · refine retraces_bind (retraces_modify fun c hc => ?_) fun _ =>
      retraces_pure fun h => hmade h.1
    obtain ⟨hsteady, hlater, hheld⟩ := w.note (Chart.sameEntries_noteMismatch c ctor)
      (c.furthest_noteMismatch ctor).ge hc
    exact ⟨hsteady, hlater, fun hhc _ => hheld hhc⟩

theorem retraces_evalPair {join : Node → Chain Node → Deriv}
    {head head' tail tail' : Nat → ChartM Results}
    (hhead : ∀ s, w.Retraces (s ≤ size) (head s) (head' s) (Within size))
    (htail : ∀ s, w.Retraces (s ≤ size) (tail s) (tail' s) (Within size)) (s : Nat) :
    w.Retraces (s ≤ size) (evalPair join head tail s) (evalPair join head' tail' s)
      (Within size) := by
  refine retraces_bind (hhead s) fun heads => ?_
  refine retraces_bind ((retraces_gather ?_ heads.nodes).under fun h => h.2.nodes) fun joined =>
    retraces_pure fun h => h.2.firstPerEnd
  rintro ⟨mid, n⟩
  refine retraces_bind (htail mid) fun tails => retraces_pure fun h => ?_
  exact h.2.lists.map (join n)

theorem retraces_extendFields {field field' : Nat → ChartM Results}
    (hfield : ∀ s, w.Retraces (s ≤ size) (field s) (field' s) (Within size))
    (partials : List (Nat × List Node)) :
    w.Retraces (Within size partials) (extendFields field partials) (extendFields field' partials)
      (Within size) := by
  refine retraces_bind (retraces_gather ?_ partials) fun next =>
    retraces_pure fun h => h.2.firstPerEnd
  rintro ⟨pos, ns⟩
  refine retraces_bind (hfield pos) fun found => retraces_pure fun h => ?_
  exact h.2.nodes.map (· :: ns)

variable {input : Array Token} {call call' : Handle → Nat → ChartM Results}

theorem retraces_evalFields (es : List (Expr Handle))
    (hes : ∀ e ∈ es, ∀ s, w.Retraces (s ≤ size) (eval input call e s) (eval input call' e s)
      (Within size)) :
    ∀ partials : List (Nat × List Node), w.Retraces (Within size partials)
      (evalFields input call es partials) (evalFields input call' es partials) (Within size) := by
  induction es with
  | nil =>
    intro partials
    rw [evalFields, evalFields]
    exact retraces_pure id
  | cons e es ih =>
    intro partials
    obtain ⟨he, hes⟩ := List.forall_mem_cons.mp hes
    rw [evalFields, evalFields]
    refine retraces_bind (retraces_extendFields he partials) fun next => ?_
    split
    · exact retraces_pure fun _ => within_nil
    · exact (ih hes next).under And.right

/-- Running an expression retraces running it, if this holds of its references. -/
theorem retraces_eval
    (hcall : ∀ h s, w.Retraces (s ≤ input.size) (call h s) (call' h s) (Within input.size))
    (e : Expr Handle) :
    ∀ s, w.Retraces (s ≤ input.size) (eval input call e s) (eval input call' e s)
      (Within input.size) := by
  induction e using Expr.induction with
  | ref h =>
    intro s
    rw [eval, eval]
    exact hcall h s
  | matchOne p =>
    intro s
    rw [eval, eval]
    split
    · next t ht =>
      split
      · exact retraces_pure fun _ => within_single (succ_le_size ht)
      · exact retraces_missing s _
    · exact retraces_missing s _
  | symbol literal =>
    intro s
    rw [eval, eval]
    split
    · next ts hts =>
      refine retraces_pure fun hs => within_single ?_
      exact stop_of_spell (S := (· ≤ input.size)) (fun _ _ _ ht => succ_le_size ht) hs hts
    · exact retraces_missing _ _
  | unit | nothing | nil =>
    intro s
    rw [eval, eval]
    exact retraces_pure within_single
  | just e ih =>
    intro s
    rw [eval, eval]
    exact retraces_bind (ih s) fun found => retraces_pure fun h => h.2.nodes.map Deriv.just
  | alt a b iha ihb =>
    intro s
    rw [eval, eval]
    refine retraces_bind (iha s) fun left => ?_
    exact retraces_bind ((ihb s).under And.left) fun right => retraces_pure fun h =>
      (h.1.2.append h.2).firstPerEnd
  | seq es ih =>
    intro s
    rw [eval, eval]
    refine retraces_bind ((retraces_evalFields es ih [(s, [])]).under within_single) fun found => ?_
    exact retraces_pure fun h => h.2.map fun ns => Deriv.fields ns.reverse
  | cons a b iha ihb | pair a b iha ihb =>
    intro s
    rw [eval, eval]
    exact retraces_evalPair iha ihb s
  | map ctor e ih =>
    intro s
    rw [eval, eval]
    exact retraces_bind (ih s) fun found => (retraces_construct ctor found).under And.right
  | label description e ih =>
    intro s
    rw [eval, eval]
    refine retraces_bind (ih s) fun found => ?_
    split
    · exact retraces_missing s description
    · exact retraces_pure And.right

/-! ## Repetition -/

/-- A search retraces a search that may have had more room than it needs. -/
theorem retraces_search {item item' : Nat → ChartM Results}
    (hitem : ∀ s, w.Retraces (s ≤ size) (item s) (item' s) (Within size)) (room : Nat) :
    ∀ (room' : Nat) (stack : List Repeat.Stop) (seen : Std.HashSet Nat)
      (visited : List Repeat.Stop),
      w.Retraces (Within size stack ∧ Within size visited ∧ (unseen size seen).card ≤ room')
        (Repeat.search item room stack seen visited)
        (Repeat.search item' room' stack seen visited) (Within size) := by
  induction room with
  | zero =>
    intro room' stack seen visited
    unfold Repeat.search
    split
    · exact retraces_pure fun h r hr => h.2.1 r (List.mem_reverse.mp hr)
    · exact retraces_failure
  | succ room ih =>
    intro room' stack seen visited
    unfold Repeat.search
    split
    · exact retraces_pure fun h r hr => h.2.1 r (List.mem_reverse.mp hr)
    · next stop rest hdrop =>
      have hfresh := (dropWhile_eq_cons stack hdrop).1
      have hleft : Within size stack → Within size (stop :: rest) := by
        intro hstack s hs
        rw [← hdrop] at hs
        exact hstack s ((List.dropWhile_suffix _).subset hs)
      have hunseen : Within size stack → stop.1 ∈ unseen size seen := fun hstack =>
        Finset.mem_filter.mpr ⟨Finset.mem_range.mpr
          (Nat.lt_succ_of_le (hleft hstack stop List.mem_cons_self)), hfresh⟩
      have hnext : ∀ room', w.Retraces
          (Within size stack ∧ Within size visited ∧ (unseen size seen).card ≤ room' + 1)
          (item stop.1 >>= fun found => Repeat.search item room
            (Repeat.onward stop found ++ rest) (seen.insert stop.1) (stop :: visited))
          (item' stop.1 >>= fun found => Repeat.search item' room'
            (Repeat.onward stop found ++ rest) (seen.insert stop.1) (stop :: visited))
          (Within size) := by
        intro room'
        refine retraces_bind ((hitem stop.1).under fun h => ?_) fun found => ?_
        · exact hleft h.1 stop List.mem_cons_self
        · refine (ih room' _ _ _).under fun h => ⟨?_, ?_, ?_⟩
          · exact h.2.onward.append fun s hs => hleft h.1.1 s (List.mem_cons_of_mem _ hs)
          · exact List.forall_mem_cons.mpr ⟨hleft h.1.1 stop List.mem_cons_self, h.1.2.1⟩
          · rw [unseen_insert, Finset.card_erase_of_mem (hunseen h.1.1)]
            exact Nat.sub_le_of_le_add h.1.2.2
      cases room' with
      | zero =>
        -- there is room for every position that has not been seen
        refine (hnext 0).vacuous fun h => ?_
        have hempty := Finset.card_eq_zero.mp (Nat.le_zero.mp h.2.2)
        exact absurd (hunseen h.1) (hempty ▸ Finset.notMem_empty _)
      | succ room' => exact hnext room'

theorem retraces_repeatItem {item item' : Nat → ChartM Results}
    (hitem : ∀ s, w.Retraces (s ≤ size) (item s) (item' s) (Within size)) (length s : Nat) :
    w.Retraces (s ≤ size) (repeatItem length item s) (repeatItem size item' s) (Within size) := by
  have hsearch := retraces_search hitem (length + 1) (size + 1) [(s, .empty)] ∅ []
  have hroom : (unseen size ∅).card ≤ size + 1 := by
    refine (Finset.card_filter_le _ _).trans ?_
    rw [Finset.card_range]
  refine retraces_bind (hsearch.under fun hs => ⟨within_single hs, within_nil, hroom⟩) fun stops =>
    retraces_pure fun h => ?_
  exact h.2.map Deriv.list

end Eval

/-! ## Expressions that look at no token -/

/-- An expression that looks at no token by itself, only through its references. -/
inductive Expr.Blind : Expr Handle → Prop where
  | ref (h : Handle) : Blind (.ref h)
  | unit : Blind .unit
  | nothing : Blind .nothing
  | nil : Blind .nil
  | just {e : Expr Handle} (h : Blind e) : Blind (.just e)
  | alt {a b : Expr Handle} (ha : Blind a) (hb : Blind b) : Blind (.alt a b)
  | seq {es : List (Expr Handle)} (h : ∀ e ∈ es, Blind e) : Blind (.seq es)
  | cons {a b : Expr Handle} (ha : Blind a) (hb : Blind b) : Blind (.cons a b)
  | pair {a b : Expr Handle} (ha : Blind a) (hb : Blind b) : Blind (.pair a b)
  | map {e : Expr Handle} (ctor : Constructor) (h : Blind e) : Blind (.map ctor e)
  | label {e : Expr Handle} (description : String) (h : Blind e) : Blind (.label description e)

theorem evalFields_congr {input input' : Array Token} {call : Handle → Nat → ChartM Results}
    {es : List (Expr Handle)} (h : ∀ e ∈ es, eval input call e = eval input' call e) :
    evalFields input call es = evalFields input' call es := by
  induction es with
  | nil =>
    funext partials
    rw [evalFields, evalFields]
  | cons e es ih =>
    funext partials
    obtain ⟨he, hes⟩ := List.forall_mem_cons.mp h
    rw [evalFields, evalFields, he, ih hes]

/-- Such an expression runs alike on all inputs. -/
theorem Expr.Blind.eval_eq {e : Expr Handle} (h : e.Blind) (input input' : Array Token)
    (call : Handle → Nat → ChartM Results) : eval input call e = eval input' call e := by
  induction h with
  | ref | unit | nothing | nil =>
    funext s
    rw [eval, eval]
  | just _ ih | map _ _ ih | label _ _ ih =>
    funext s
    rw [eval, eval, ih]
  | alt _ _ iha ihb | cons _ _ iha ihb | pair _ _ iha ihb =>
    funext s
    rw [eval, eval, iha, ihb]
  | seq _ ih =>
    funext s
    rw [eval, eval, evalFields_congr ih]

/-- Running such a body on one input retraces running it on another, if this holds of its
references. -/
theorem retraces_evalBody {w : Watch} {input input' : Array Token}
    {call call' : Handle → Nat → ChartM Results}
    (hcall : ∀ h s, w.Retraces (s ≤ input'.size) (call h s) (call' h s) (Within input'.size))
    (h : Handle) {body : Expr Handle} (hblind : body.Blind) (s : Nat) :
    w.Retraces (s ≤ input'.size) (evalBody input call h body s) (evalBody input' call' h body s)
      (Within input'.size) := by
  unfold evalBody
  split
  · next item hitem =>
    rw [repeatedItem?_eq_some hitem] at hblind
    cases hblind with
    | alt _ hcons =>
      cases hcons with
      | cons hblind _ =>
        rw [hblind.eval_eq input input' call]
        exact retraces_repeatItem (retraces_eval hcall item) _ s
  · rw [hblind.eval_eq input input' call]
    exact retraces_eval hcall body s

end ChartGrammar
