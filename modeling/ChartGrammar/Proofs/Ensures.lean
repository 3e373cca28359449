/-
  Proofs/Ensures.lean --- what a computation on a chart keeps and what it finds.

  A computation ensures something of its result if it does so from every chart that
  satisfies an invariant, and leaves a chart that satisfies it too.  There is one
  rule for each way in which computations are put together; a loop needs only what
  one step ensures.  For each form of expression there is a rule too: what holds of
  each result of an expression follows from what holds of each result of its parts.
-/
import ChartGrammar.Chart.Call

set_option autoImplicit false

namespace ChartGrammar

namespace ChartM

variable {α β : Type} {I : Chart → Prop}

/-- Whenever the computation has a result, the invariant still holds and the result is as
promised. -/
def Ensures (I : Chart → Prop) (m : ChartM α) (Q : α → Prop) : Prop :=
  ∀ c a c', I c → m.run c = some (a, c') → I c' ∧ Q a

theorem ensures_pure {a : α} {Q : α → Prop} (ha : Q a) : Ensures I (pure a) Q := by
  intro c a' c' hc hrun
  cases hrun
  exact ⟨hc, ha⟩

theorem ensures_single {a : α} {P : α → Prop} (ha : P a) :
    Ensures I (pure [a]) fun as => ∀ b ∈ as, P b := by
  refine ensures_pure fun b hb => ?_
  rwa [List.mem_singleton.mp hb]

theorem ensures_bind {m : ChartM α} {f : α → ChartM β} {Q : α → Prop} {R : β → Prop}
    (hm : Ensures I m Q) (hf : ∀ a, Q a → Ensures I (f a) R) : Ensures I (m >>= f) R := by
  intro c b c' hc hrun
  rw [StateT.run_bind] at hrun
  obtain ⟨⟨a, c₁⟩, hm', hf'⟩ := Option.bind_eq_some_iff.mp hrun
  obtain ⟨hc₁, ha⟩ := hm c a c₁ hc hm'
  exact hf a ha c₁ b c' hc₁ hf'

theorem ensures_mono {m : ChartM α} {Q R : α → Prop} (hm : Ensures I m Q)
    (himp : ∀ a, Q a → R a) : Ensures I m R := by
  intro c a c' hc hrun
  obtain ⟨hc', ha⟩ := hm c a c' hc hrun
  exact ⟨hc', himp a ha⟩

theorem ensures_and {m : ChartM α} {Q R : α → Prop} (hQ : Ensures I m Q) (hR : Ensures I m R) :
    Ensures I m fun a => Q a ∧ R a := by
  intro c a c' hc hrun
  obtain ⟨hc', ha⟩ := hQ c a c' hc hrun
  exact ⟨hc', ha, (hR c a c' hc hrun).2⟩

theorem ensures_failure {Q : α → Prop} : Ensures I (failure : ChartM α) Q := by
  intro c a c' _ hrun
  cases hrun

theorem ensures_get : Ensures I (get : ChartM Chart) I := by
  intro c a c' hc hrun
  cases hrun
  exact ⟨hc, hc⟩

theorem ensures_set {c₀ : Chart} (h : I c₀) : Ensures I (set c₀ : ChartM PUnit) fun _ => True := by
  intro c a c' _ hrun
  cases hrun
  exact ⟨h, trivial⟩

theorem ensures_modifyGet {f : Chart → α × Chart} (hf : ∀ c, I c → I (f c).2) :
    Ensures I (modifyGet f : ChartM α) fun _ => True := by
  intro c a c' hc hrun
  have heq : f c = (a, c') := Option.some.inj hrun
  have hc' := hf c hc
  rw [heq] at hc'
  exact ⟨hc', trivial⟩

theorem ensures_modify {f : Chart → Chart} (hf : ∀ c, I c → I (f c)) :
    Ensures I (modify f : ChartM PUnit) fun _ => True :=
  ensures_modifyGet hf

/-! ## Loops -/

/-- A repeated step keeps what it keeps, and answers with an answer of the step. -/
theorem ensures_repeatUpTo {step : ChartM (Option α)} {Q : α → Prop}
    (hstep : Ensures I step fun answer => ∀ a, answer = some a → Q a) (n : Nat) :
    Ensures I (repeatUpTo step n) fun answer => ∀ a, answer = some a → Q a := by
  induction n with
  | zero =>
    refine ensures_pure ?_
    intro a ha
    cases ha
  | succ n ih =>
    refine ensures_bind hstep fun answer hanswer => ?_
    cases answer with
    | none => exact ih
    | some a => exact ensures_pure hanswer

theorem ensures_untilAnswer {step : ChartM (Option α)} {Q : α → Prop}
    (hstep : Ensures I step fun answer => ∀ a, answer = some a → Q a) (fuel : Nat) :
    Ensures I (untilAnswer step fuel) Q := by
  rw [untilAnswer_eq]
  refine ensures_bind (ensures_repeatUpTo hstep _) fun answer hanswer => ?_
  cases answer with
  | none => exact ensures_failure
  | some a => exact ensures_pure (hanswer a rfl)

/-- Results gathered from the members of a list are each found for one of them. -/
theorem ensures_gather {f : α → ChartM (List β)} (P : β → Prop) (as : List α)
    (hf : ∀ a ∈ as, Ensures I (f a) fun bs => ∀ b ∈ bs, P b) :
    Ensures I (gather f as) fun bs => ∀ b ∈ bs, P b := by
  induction as with
  | nil => exact ensures_pure fun b hb => absurd hb List.not_mem_nil
  | cons a as ih =>
    obtain ⟨ha, has⟩ := List.forall_mem_cons.mp hf
    refine ensures_bind ha fun bs hbs => ensures_bind (ih has) fun rest hrest => ?_
    refine ensures_pure fun b hb => ?_
    rcases List.mem_append.mp hb with hb | hb
    · exact hbs b hb
    · exact hrest b hb

/-- Whatever is found for a member of a list is gathered. -/
theorem ensures_gather_all {f : α → ChartM (List β)} (P : α → List β → Prop) (as : List α)
    (hf : ∀ a ∈ as, Ensures I (f a) (P a)) :
    Ensures I (gather f as) fun found => ∀ a ∈ as, ∃ bs, P a bs ∧ ∀ b ∈ bs, b ∈ found := by
  induction as with
  | nil => exact ensures_pure fun a ha => absurd ha List.not_mem_nil
  | cons a as ih =>
    obtain ⟨ha, has⟩ := List.forall_mem_cons.mp hf
    refine ensures_bind ha fun bs hbs => ensures_bind (ih has) fun rest hrest => ?_
    refine ensures_pure fun a' ha' => ?_
    rcases List.mem_cons.mp ha' with rfl | ha'
    · exact ⟨bs, hbs, fun b hb => List.mem_append_left _ hb⟩
    · obtain ⟨bs', hbs', hsub⟩ := hrest a' ha'
      exact ⟨bs', hbs', fun b hb => List.mem_append_right _ (hsub b hb)⟩

end ChartM

/-! ## One result for each end -/

section FirstPerEnd

variable {α : Type}

theorem mem_of_mem_firstPerEndFrom {r : Nat × α} {rs : List (Nat × α)} {seen : Std.HashSet Nat}
    (h : r ∈ firstPerEndFrom seen rs) : r ∈ rs := by
  fun_induction firstPerEndFrom seen rs with
  | case1 => exact h
  | case2 seen e a rest hseen ih => exact List.mem_cons_of_mem _ (ih h)
  | case3 seen e a rest hseen ih =>
    rcases List.mem_cons.mp h with rfl | h
    · exact List.mem_cons_self
    · exact List.mem_cons_of_mem _ (ih h)

/-- Taking the first result of each end takes results that were there. -/
theorem mem_of_mem_firstPerEnd {r : Nat × α} {rs : List (Nat × α)} (h : r ∈ firstPerEnd rs) :
    r ∈ rs :=
  mem_of_mem_firstPerEndFrom h

theorem exists_mem_firstPerEndFrom {r : Nat × α} {rs : List (Nat × α)} {seen : Std.HashSet Nat}
    (h : r ∈ rs) (hseen : seen.contains r.1 = false) :
    ∃ a, (r.1, a) ∈ firstPerEndFrom seen rs := by
  fun_induction firstPerEndFrom seen rs with
  | case1 => cases h
  | case2 seen e a rest hmem ih =>
    rcases List.mem_cons.mp h with rfl | h
    · rw [hseen] at hmem
      cases hmem
    · exact ih h hseen
  | case3 seen e a rest hmem ih =>
    by_cases heq : e = r.1
    · exact ⟨a, by rw [heq]; exact List.mem_cons_self⟩
    · rcases List.mem_cons.mp h with rfl | h
      · exact absurd rfl heq
      · obtain ⟨b, hb⟩ := ih h (by simp [Std.HashSet.contains_insert, heq, hseen])
        exact ⟨b, List.mem_cons_of_mem _ hb⟩

/-- Taking the first result of each end loses no end. -/
theorem exists_mem_firstPerEnd {r : Nat × α} {rs : List (Nat × α)} (h : r ∈ rs) :
    ∃ a, (r.1, a) ∈ firstPerEnd rs :=
  exists_mem_firstPerEndFrom h Std.HashSet.contains_empty

end FirstPerEnd

/-! ## Each result of an expression -/

theorem mem_nodes {rs : Results} {j : Nat} {n : Node} :
    (j, n) ∈ rs.nodes ↔ (j, Deriv.node n) ∈ rs := by
  simp only [Results.nodes, List.mem_filterMap]
  constructor
  · rintro ⟨⟨e, d⟩, hr, heq⟩
    cases d <;> simp at heq
    obtain ⟨rfl, rfl⟩ := heq
    exact hr
  · intro h
    exact ⟨_, h, rfl⟩

theorem mem_lists {rs : Results} {j : Nat} {items : Chain Node} :
    (j, items) ∈ rs.lists ↔ (j, Deriv.list items) ∈ rs := by
  simp only [Results.lists, List.mem_filterMap]
  constructor
  · rintro ⟨⟨e, d⟩, hr, heq⟩
    cases d <;> simp at heq
    obtain ⟨rfl, rfl⟩ := heq
    exact hr
  · intro h
    exact ⟨_, h, rfl⟩

namespace ChartM

variable {input : Array Token} {I : Chart → Prop} {call : Handle → Nat → ChartM Results}
  {P P' Q : Nat × Deriv → Prop} {e a b : Expr Handle} {i : Nat}

theorem ensures_missing {α : Type} {Q : α → Prop}
    (hexpect : ∀ c pos what, I c → I (c.expect pos what)) (pos : Nat) (what : String) :
    Ensures I (missing pos what) fun rs => ∀ r ∈ rs, Q r := by
  refine ensures_bind (ensures_modify fun c hc => hexpect c pos what hc) fun _ _ => ?_
  exact ensures_pure fun r hr => absurd hr List.not_mem_nil

theorem ensures_matchOne (hexpect : ∀ c pos what, I c → I (c.expect pos what)) {p : Predicate}
    (hfound : ∀ t, input[i]? = some t → p.test t.char = true → Q (i + 1, .token t)) :
    Ensures I (eval input call (.matchOne p) i) fun rs => ∀ r ∈ rs, Q r := by
  rw [eval]
  split
  · next t ht =>
    split
    · next htest => exact ensures_single (hfound t ht htest)
    · exact ensures_missing hexpect i p.render
  · exact ensures_missing hexpect i p.render

theorem ensures_symbol (hexpect : ∀ c pos what, I c → I (c.expect pos what)) {literal : String}
    (hfound : ∀ ts, spell input literal.toList i = .ok ts → Q (i + ts.length, .tokens ts)) :
    Ensures I (eval input call (.symbol literal) i) fun rs => ∀ r ∈ rs, Q r := by
  rw [eval]
  split
  · next ts hts => exact ensures_single (hfound ts hts)
  · exact ensures_missing hexpect _ _

theorem ensures_just (he : Ensures I (eval input call e i) fun rs => ∀ r ∈ rs, P r)
    (hjust : ∀ j n, P (j, .node n) → Q (j, .just n)) :
    Ensures I (eval input call (.just e) i) fun rs => ∀ r ∈ rs, Q r := by
  rw [eval]
  refine ensures_bind he fun found hfound => ensures_pure fun r hr => ?_
  obtain ⟨⟨j, n⟩, hn, rfl⟩ := List.mem_map.mp hr
  exact hjust j n (hfound _ (mem_nodes.mp hn))

theorem ensures_alt (ha : Ensures I (eval input call a i) fun rs => ∀ r ∈ rs, P r)
    (hb : Ensures I (eval input call b i) fun rs => ∀ r ∈ rs, P' r)
    (hleft : ∀ r, P r → Q r) (hright : ∀ r, P' r → Q r) :
    Ensures I (eval input call (.alt a b) i) fun rs => ∀ r ∈ rs, Q r := by
  rw [eval]
  refine ensures_bind ha fun left hl => ensures_bind hb fun right hr => ensures_pure ?_
  intro r hmem
  rcases List.mem_append.mp (mem_of_mem_firstPerEnd hmem) with hmem | hmem
  · exact hleft r (hl r hmem)
  · exact hright r (hr r hmem)

theorem ensures_label (hexpect : ∀ c pos what, I c → I (c.expect pos what)) {d : String}
    (he : Ensures I (eval input call e i) fun rs => ∀ r ∈ rs, P r) (hlabel : ∀ r, P r → Q r) :
    Ensures I (eval input call (.label d e) i) fun rs => ∀ r ∈ rs, Q r := by
  rw [eval]
  refine ensures_bind he fun found hfound => ?_
  split
  · exact ensures_missing hexpect i d
  · exact ensures_pure fun r hr => hlabel r (hfound r hr)

/-- What a constructor makes of each result that it accepts.  A mismatch is noted only for a
result that it does not accept. -/
theorem ensures_map {ctor : Constructor}
    (hnote : ∀ r, P r → ctor.fits r.2 = false → ∀ c, I c → I (c.noteMismatch ctor))
    (he : Ensures I (eval input call e i) fun rs => ∀ r ∈ rs, P r)
    (hmake : ∀ j d n, P (j, d) → Node.make? ctor d = some n → Q (j, .node n)) :
    Ensures I (eval input call (.map ctor e) i) fun rs => ∀ r ∈ rs, Q r := by
  rw [eval]
  refine ensures_bind he fun found hfound => ?_
  have hmade : ∀ r ∈ found.filterMap fun r => (Node.make? ctor r.2).map fun n =>
      (r.1, Deriv.node n), Q r := by
    intro r hr
    obtain ⟨⟨j, d⟩, hd, hmap⟩ := List.mem_filterMap.mp hr
    obtain ⟨n, hn, rfl⟩ := Option.map_eq_some_iff.mp hmap
    exact hmake j d n (hfound _ hd) hn
  unfold construct
  split
  · exact ensures_pure hmade
  · next hfits =>
    obtain ⟨r, hr, hfit⟩ := List.all_eq_false.mp (Bool.not_eq_true _ ▸ hfits)
    have hkeep := hnote r (hfound r hr) (Bool.not_eq_true _ ▸ hfit)
    exact ensures_bind (ensures_modify hkeep) fun _ _ => ensures_pure hmade

/-- What two parts that follow each other are joined to, a node and then a list. -/
theorem ensures_evalPair {head tail : Nat → ChartM Results} {join : Node → Chain Node → Deriv}
    {H T R : Nat → Nat × Deriv → Prop}
    (hhead : ∀ i, Ensures I (head i) fun rs => ∀ r ∈ rs, H i r)
    (htail : ∀ i, Ensures I (tail i) fun rs => ∀ r ∈ rs, T i r)
    (hjoin : ∀ {i j k n items}, H i (j, .node n) → T j (k, .list items) → R i (k, join n items))
    (i : Nat) : Ensures I (evalPair join head tail i) fun rs => ∀ r ∈ rs, R i r := by
  refine ensures_bind (hhead i) fun heads hheads => ?_
  refine ensures_bind (ensures_gather (R i) heads.nodes fun p hp => ?_) fun joined hjoined => ?_
  · obtain ⟨j, n⟩ := p
    refine ensures_bind (htail j) fun tails htails => ensures_pure fun r hr => ?_
    obtain ⟨⟨k, items⟩, hitems, rfl⟩ := List.mem_map.mp hr
    exact hjoin (hheads _ (mem_nodes.mp hp)) (htails _ (mem_lists.mp hitems))
  · exact ensures_pure fun r hr => hjoined r (mem_of_mem_firstPerEnd hr)

section Fields

-- what is known of a partial list of fields, given the fields that it holds
variable {F : Expr Handle → Nat → Nat × Deriv → Prop}
  {K : List (Expr Handle) → Nat × List Node → Prop}

/-- One more field keeps what is known of partial lists of fields. -/
theorem ensures_extendFields {done : List (Expr Handle)} {field : Nat → ChartM Results}
    {partials : List (Nat × List Node)}
    (hstep : ∀ {done e p j n}, K done p → F e p.1 (j, .node n) → K (done ++ [e]) (j, n :: p.2))
    (hfield : ∀ i, Ensures I (field i) fun rs => ∀ r ∈ rs, F e i r)
    (hpartials : ∀ p ∈ partials, K done p) :
    Ensures I (extendFields field partials) fun next => ∀ p ∈ next, K (done ++ [e]) p := by
  refine ensures_bind (ensures_gather (K (done ++ [e])) partials fun p hp => ?_)
    fun next hnext => ?_
  · refine ensures_bind (hfield p.1) fun found hfound => ensures_pure fun q hq => ?_
    obtain ⟨⟨j, n⟩, hn, rfl⟩ := List.mem_map.mp hq
    exact hstep (hpartials p hp) (hfound _ (mem_nodes.mp hn))
  · exact ensures_pure fun p hp => hnext p (mem_of_mem_firstPerEnd hp)

/-- All fields keep what each of them keeps. -/
theorem ensures_evalFields
    (hstep : ∀ {done e p j n}, K done p → F e p.1 (j, .node n) → K (done ++ [e]) (j, n :: p.2))
    (es : List (Expr Handle))
    (hes : ∀ e ∈ es, ∀ i, Ensures I (eval input call e i) fun rs => ∀ r ∈ rs, F e i r) :
    ∀ (done : List (Expr Handle)) (partials : List (Nat × List Node)),
      (∀ p ∈ partials, K done p) →
      Ensures I (evalFields input call es partials) fun found => ∀ p ∈ found, K (done ++ es) p := by
  induction es with
  | nil =>
    intro done partials hpartials
    rw [evalFields, List.append_nil]
    exact ensures_pure hpartials
  | cons e es ih =>
    intro done partials hpartials
    obtain ⟨he, hes⟩ := List.forall_mem_cons.mp hes
    rw [evalFields]
    refine ensures_bind (ensures_extendFields hstep he hpartials) fun next hnext => ?_
    split
    · exact ensures_pure fun p hp => absurd hp List.not_mem_nil
    · have hrest := ih hes (done ++ [e]) next hnext
      rwa [List.append_assoc, List.singleton_append] at hrest

theorem ensures_seq {es : List (Expr Handle)}
    (hstep : ∀ {done e p j n}, K done p → F e p.1 (j, .node n) → K (done ++ [e]) (j, n :: p.2))
    (hes : ∀ e ∈ es, ∀ i, Ensures I (eval input call e i) fun rs => ∀ r ∈ rs, F e i r)
    (hstart : K [] (i, [])) (hdone : ∀ j ns, K es (j, ns) → Q (j, .fields ns.reverse)) :
    Ensures I (eval input call (.seq es) i) fun rs => ∀ r ∈ rs, Q r := by
  have hpartials : ∀ p ∈ [((i, []) : Nat × List Node)], K [] p :=
    List.forall_mem_singleton.mpr hstart
  rw [eval]
  refine ensures_bind (ensures_evalFields hstep es hes [] _ hpartials) fun found hfound => ?_
  refine ensures_pure fun r hr => ?_
  obtain ⟨⟨j, ns⟩, hp, rfl⟩ := List.mem_map.mp hr
  exact hdone j ns (hfound _ hp)

end Fields

/-! ## Searching -/

/-- A search visits only stops that have a property which the stops on its stack have and
which going on from a stop keeps. -/
theorem ensures_search {item : Nat → ChartM Results} {P : Repeat.Stop → Prop}
    (hitem : ∀ stop, P stop →
      Ensures I (item stop.1) fun found => ∀ next ∈ Repeat.onward stop found, P next)
    (room : Nat) :
    ∀ stack seen visited, (∀ stop ∈ stack, P stop) → (∀ stop ∈ visited, P stop) →
      Ensures I (Repeat.search item room stack seen visited) fun stops =>
        ∀ stop ∈ stops, P stop := by
  induction room with
  | zero =>
    intro stack seen visited hstack hvisited
    unfold Repeat.search
    split
    · exact ensures_pure fun stop hstop => hvisited stop (List.mem_reverse.mp hstop)
    · exact ensures_failure
  | succ room ih =>
    intro stack seen visited hstack hvisited
    unfold Repeat.search
    split
    · exact ensures_pure fun stop hstop => hvisited stop (List.mem_reverse.mp hstop)
    · next stop rest hdrop =>
      have hrest : ∀ s ∈ stop :: rest, P s := by
        intro s hs
        rw [← hdrop] at hs
        exact hstack s ((List.dropWhile_suffix _).subset hs)
      refine ensures_bind (hitem stop (hrest stop List.mem_cons_self)) fun found hfound => ?_
      refine ih _ _ _ ?_ ?_
      · intro s hs
        rcases List.mem_append.mp hs with hs | hs
        · exact hfound s hs
        · exact hrest s (List.mem_cons_of_mem _ hs)
      · exact List.forall_mem_cons.mpr ⟨hrest stop List.mem_cons_self, hvisited⟩

end ChartM

theorem mem_onward {stop next : Repeat.Stop} {found : Results} :
    next ∈ Repeat.onward stop found ↔
      ∃ n, (next.1, .node n) ∈ found ∧ next.1 ≠ stop.1 ∧ next.2 = stop.2.snoc n := by
  obtain ⟨e, items⟩ := next
  simp only [Repeat.onward, List.mem_filterMap]
  constructor
  · rintro ⟨⟨e', d⟩, hr, heq⟩
    cases d with
    | node n =>
      by_cases he : e' = stop.1
      · simp [he] at heq
      · simp only [he, if_false, Option.some.injEq, Prod.mk.injEq] at heq
        obtain ⟨rfl, rfl⟩ := heq
        exact ⟨n, hr, he, rfl⟩
    | _ => cases heq
  · rintro ⟨n, hr, hne, rfl⟩
    exact ⟨_, hr, by simp [hne]⟩

end ChartGrammar
