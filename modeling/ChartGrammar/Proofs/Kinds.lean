/-
  Proofs/Kinds.lean --- constructors of compiled rules always accept what they get.

  A constructor only looks at the kind of a derivation.  An expression has a kind if
  everything it can find is of that kind, and the bodies of compiled rules have one:
  nodes for rules, lists for the lists of repetitions.  So a run of compiled rules
  never notes a mismatch.
-/
import ChartGrammar.Proofs.ChartSoundness

set_option autoImplicit false

namespace ChartGrammar

open ChartM

/-! ## Kinds -/

/-- What constructors can tell about a derivation. -/
inductive Kind where
  | token
  | tokens
  | node
  | fields (arity : Nat)
  /-- a value or its absence -/
  | optional
  | list
  | pair
  deriving DecidableEq, Repr

/-- The kind of a derivation. -/
def Deriv.kind : Deriv → Kind
  | token _ => .token
  | tokens _ => .tokens
  | node _ => .node
  | fields ns => .fields ns.length
  | nothing | just _ => .optional
  | list _ => .list
  | pair _ _ => .pair

/-- The kind that a constructor accepts. -/
def Constructor.accepts : Constructor → Kind
  | terminal _ => .token
  | branch _ _ arity | record _ arity => .fields arity
  | wrap _ => .node
  | opt _ => .optional
  | star _ => .list
  | plus _ => .pair
  | series _ => .tokens

theorem Constructor.fits_iff_kind (ctor : Constructor) (d : Deriv) :
    ctor.fits d = true ↔ d.kind = ctor.accepts := by
  cases ctor <;> cases d <;> simp [fits, Deriv.kind, accepts]

/-- The kind of a semantic value. -/
def SemanticValue.kind : SemanticValue → Kind
  | token _ => .token
  | tokens _ => .tokens
  | node _ => .node
  | fields vs => .fields vs.length
  | nothing | just _ => .optional
  | list _ => .list
  | pair _ _ => .pair

theorem Constructor.exists_apply {ctor : Constructor} {sv : SemanticValue}
    (h : sv.kind = ctor.accepts) : ∃ v, ctor.apply sv = some v := by
  cases ctor <;> cases sv <;> simp_all [SemanticValue.kind, accepts, apply]

theorem SemanticValue.exists_node {sv : SemanticValue} (h : sv.kind = .node) :
    ∃ v, sv = .node v := by
  cases sv with
  | node v => exact ⟨v, rfl⟩
  | _ => cases h

theorem SemanticValue.exists_list {sv : SemanticValue} (h : sv.kind = .list) :
    ∃ vs, sv = .list vs := by
  cases sv with
  | list vs => exact ⟨vs, rfl⟩
  | _ => cases h

theorem Deriv.exists_node {d : Deriv} (h : d.kind = .node) : ∃ n, d = .node n := by
  cases d with
  | node n => exact ⟨n, rfl⟩
  | _ => cases h

theorem Deriv.exists_list {d : Deriv} (h : d.kind = .list) : ∃ items, d = .list items := by
  cases d with
  | list items => exact ⟨items, rfl⟩
  | _ => cases h

/-- The kind of what an expression finds, given the kinds of what references find. -/
inductive Expr.HasKind (κ : Handle → Kind) : Expr Handle → Kind → Prop where
  | ref {h : Handle} : HasKind κ (.ref h) (κ h)
  | matchOne {p : Predicate} : HasKind κ (.matchOne p) .token
  | symbol {literal : String} : HasKind κ (.symbol literal) .tokens
  | unit : HasKind κ .unit (.fields 0)
  | nothing : HasKind κ .nothing .optional
  | nil : HasKind κ .nil .list
  | just {e : Expr Handle} (h : HasKind κ e .node) : HasKind κ (.just e) .optional
  | alt {a b : Expr Handle} {k : Kind} (ha : HasKind κ a k) (hb : HasKind κ b k) :
      HasKind κ (.alt a b) k
  | seq {es : List (Expr Handle)} (h : ∀ e ∈ es, HasKind κ e .node) :
      HasKind κ (.seq es) (.fields es.length)
  | cons {a b : Expr Handle} (ha : HasKind κ a .node) (hb : HasKind κ b .list) :
      HasKind κ (.cons a b) .list
  | pair {a b : Expr Handle} (ha : HasKind κ a .node) (hb : HasKind κ b .list) :
      HasKind κ (.pair a b) .pair
  | map {ctor : Constructor} {e : Expr Handle} (h : HasKind κ e ctor.accepts) :
      HasKind κ (.map ctor e) .node
  | label {d : String} {e : Expr Handle} {k : Kind} (h : HasKind κ e k) :
      HasKind κ (.label d e) k

/-- Every rule finds what its handle is known for. -/
def Registry.Kinded (rules : Registry) (κ : Handle → Kind) : Prop :=
  ∀ h body, rules.get? h = some body → body.HasKind κ (κ h)

/-- Whatever an expression means is of its kind. -/
theorem Registry.Means.kind {rules : Registry} {κ : Handle → Kind} (hκ : rules.Kinded κ)
    {e : Expr Handle} {ts : List Token} {sv : SemanticValue} (h : rules.Means e ts sv) :
    ∀ {k}, e.HasKind κ k → sv.kind = k := by
  induction h with
  | ref hbody _ ih =>
    intro k hk
    cases hk
    exact ih (hκ _ _ hbody)
  | seqCons _ _ ihhead ihtail =>
    intro k hk
    cases hk with
    | seq hes =>
      obtain ⟨-, htail⟩ := List.forall_mem_cons.mp hes
      have hlen := ihtail (.seq htail)
      rw [SemanticValue.kind, Kind.fields.injEq] at hlen ⊢
      rw [List.length_cons, List.length_cons, hlen]
  | altLeft _ ih =>
    intro k hk
    cases hk with
    | alt ha _ => exact ih ha
  | altRight _ ih =>
    intro k hk
    cases hk with
    | alt _ hb => exact ih hb
  | label _ ih =>
    intro k hk
    cases hk with
    | label he => exact ih he
  | _ =>
    intro k hk
    cases hk
    rfl

/-- All results are of one kind. -/
def Results.AllOf (k : Kind) (rs : Results) : Prop := ∀ r ∈ rs, r.2.kind = k

/-! ## Running an expression -/

section Eval

variable {input : Array Token} {I : Chart → Prop} {κ : Handle → Kind}
  {call : Handle → Nat → ChartM Results}

/-- Running an expression that has a kind finds only results of that kind, and no
constructor refuses any of them. -/
theorem ensures_eval_kind (hexpect : ∀ c pos what, I c → I (c.expect pos what))
    (hcall : ∀ h s, Ensures I (call h s) (Results.AllOf (κ h))) (e : Expr Handle) :
    ∀ k, e.HasKind κ k → ∀ s, Ensures I (eval input call e s) (Results.AllOf k) := by
  induction e using Expr.induction with
  | ref h =>
    intro k hk s
    cases hk
    rw [eval]
    exact hcall h s
  | matchOne p =>
    intro k hk s
    cases hk
    exact ensures_matchOne hexpect fun _ _ _ => rfl
  | symbol literal =>
    intro k hk s
    cases hk
    exact ensures_symbol hexpect fun _ _ => rfl
  | unit =>
    intro k hk s
    cases hk
    rw [eval]
    exact ensures_single rfl
  | nothing =>
    intro k hk s
    cases hk
    rw [eval]
    exact ensures_single rfl
  | nil =>
    intro k hk s
    cases hk
    rw [eval]
    exact ensures_single rfl
  | just e ih =>
    intro k hk s
    cases hk with
    | just he => exact ensures_just (ih _ he s) fun _ _ _ => rfl
  | alt a b iha ihb =>
    intro k hk s
    cases hk with
    | alt ha hb => exact ensures_alt (iha k ha s) (ihb k hb s) (fun _ h => h) fun _ h => h
  | seq es ih =>
    intro k hk s
    cases hk with
    | seq hes =>
      -- a partial list has as many fields as have been asked for
      refine ensures_seq (K := fun done p => p.2.length = done.length) (fun hp _ => ?_)
        (fun e he i => ih e he _ (hes e he) i) rfl fun j ns hns => ?_
      · rw [List.length_append, List.length_cons, hp, List.length_singleton]
      · rw [Deriv.kind, List.length_reverse, hns]
  | cons a b iha ihb =>
    intro k hk s
    cases hk with
    | cons ha hb =>
      rw [eval]
      exact ensures_evalPair (R := fun _ r => r.2.kind = .list) (iha _ ha) (ihb _ hb)
        (fun _ _ => rfl) s
  | pair a b iha ihb =>
    intro k hk s
    cases hk with
    | pair ha hb =>
      rw [eval]
      exact ensures_evalPair (R := fun _ r => r.2.kind = .pair) (iha _ ha) (ihb _ hb)
        (fun _ _ => rfl) s
  | map ctor e ih =>
    intro k hk s
    cases hk with
    | map he =>
      refine ensures_map (fun r hr hfits => ?_) (ih _ he s) fun _ _ _ _ _ => rfl
      rw [(ctor.fits_iff_kind r.2).mpr hr] at hfits
      cases hfits
  | label d e ih =>
    intro k hk s
    cases hk with
    | label he => exact ensures_label hexpect (ih _ he s) fun _ h => h

/-- Running the body of a rule that has a kind finds only results of that kind. -/
theorem ensures_evalBody_kind {h : Handle} {body : Expr Handle} {k : Kind}
    (hexpect : ∀ c pos what, I c → I (c.expect pos what)) (hbody : body.HasKind κ k)
    (hcall : ∀ h s, Ensures I (call h s) (Results.AllOf (κ h))) (s : Nat) :
    Ensures I (evalBody input call h body s) (Results.AllOf k) := by
  unfold evalBody
  split
  · next item hitem =>
    rw [repeatedItem?_eq_some hitem] at hbody
    cases hbody with
    | alt hnil hcons =>
      cases hnil
      cases hcons with
      | cons hitemKind _ =>
        have hitems : ∀ stop : Repeat.Stop, True → Ensures I (eval input call item stop.1)
            fun found => ∀ next ∈ Repeat.onward stop found, True :=
          fun stop _ => ensures_mono (ensures_eval_kind hexpect hcall item _ hitemKind stop.1)
            fun _ _ _ _ => trivial
        refine ensures_bind (ensures_search hitems (input.size + 1) _ ∅ [] (fun _ _ => trivial)
          fun _ _ => trivial) fun stops _ => ensures_pure fun r hr => ?_
        obtain ⟨stop, -, rfl⟩ := List.mem_map.mp hr
        rfl
  · exact ensures_eval_kind hexpect hcall body k hbody s

end Eval

/-- A chart all of whose results are of the kinds that their rules are known for, and in
which no mismatch is noted. -/
def Chart.Kinded (κ : Handle → Kind) : Chart → Prop :=
  Chart.Holds (fun h _ => Results.AllOf (κ h)) (· = none)

/-- Runs of a registry whose rules have kinds find results of these kinds and note no
mismatch. -/
theorem Registry.Runs.kinded {rules : Registry} {κ : Handle → Kind} (hκ : rules.Kinded κ)
    {root : Handle} {tokens : List Token} {results : Results} {c : Chart}
    (h : rules.Runs root tokens results c) : c.Kinded κ ∧ results.AllOf (κ root) := by
  have hcall : Ensures (Chart.Kinded κ)
      (call rules tokens.toArray (rules.fuelFor tokens.length) root 0)
      (Results.AllOf (κ root)) := by
    refine ensures_call (fun h s r hr => absurd hr List.not_mem_nil) ?_ _ root 0
    intro h body hbody call hcall s
    exact ensures_evalBody_kind (fun c pos what hc => hc.expect pos what) (hκ h body hbody) hcall s
  exact hcall {} results c (Chart.holds_empty rfl) h

/-! ## Compiled rules -/

/-- The kind of a handle of compiled rules: only the list of a repetition is an
alternative, every other rule is labelled. -/
def Registry.kindOf (rules : Registry) (h : Handle) : Kind :=
  match rules.get? h with
  | some (.alt _ _) => .list
  | _ => .node

section Expr

variable {κ : Handle → Kind}

theorem hasKind_ofFields {hs : List Handle} (h : ∀ c ∈ hs, κ c = .node) :
    (Expr.ofFields hs).HasKind κ (.fields hs.length) := by
  cases hs with
  | nil => exact .unit
  | cons c hs =>
    have hseq : Expr.HasKind κ (.seq ((c :: hs).map .ref)) (.fields ((c :: hs).map
        (Expr.ref : Handle → Expr Handle)).length) := by
      refine .seq fun e he => ?_
      obtain ⟨c', hc', rfl⟩ := List.mem_map.mp he
      exact h c' hc' ▸ .ref
    rwa [List.length_map] at hseq

theorem hasKind_oneOf {k : Kind} (others : List (Expr Handle)) :
    ∀ {first : Expr Handle}, (∀ e ∈ first :: others, e.HasKind κ k) →
      (Expr.oneOf first others).HasKind κ k := by
  induction others with
  | nil => exact fun {first} h => h first List.mem_cons_self
  | cons e others ih =>
    intro first h
    obtain ⟨hfirst, hrest⟩ := List.forall_mem_cons.mp h
    obtain ⟨he, hothers⟩ := List.forall_mem_cons.mp hrest
    exact ih (List.forall_mem_cons.mpr ⟨.alt hfirst he, hothers⟩)

/-- The expression of a right-hand side finds nodes, if its children do. -/
theorem hasKind_expr {name : String} {list : Handle} {rhs : Rhs Handle}
    (hbranches : rhs ≠ .choice []) (hchildren : ∀ c ∈ rhs.children, κ c = .node)
    (hlist : rhs.repeated?.isSome = true → κ list = .list) :
    (rhs.expr name list).HasKind κ .node := by
  cases rhs with
  | terminal p => exact .map .matchOne
  | series literal => exact .map .symbol
  | choice branches =>
    cases branches with
    | nil => exact absurd rfl hbranches
    | cons b bs =>
      refine hasKind_oneOf _ fun e he => ?_
      have : ∃ b' ∈ b :: bs, e = Rhs.branchExpr name b' := by
        rcases List.mem_cons.mp he with rfl | he
        · exact ⟨b, List.mem_cons_self, rfl⟩
        · obtain ⟨b', hb', rfl⟩ := List.mem_map.mp he
          exact ⟨b', List.mem_cons_of_mem _ hb', rfl⟩
      obtain ⟨b', hb', rfl⟩ := this
      exact .map (hasKind_ofFields fun c hc =>
        hchildren c (List.mem_flatMap.mpr ⟨b', hb', hc⟩))
  | wrap r =>
    have hr : κ r = .node := hchildren r (List.mem_singleton_self _)
    refine .map ?_
    exact (show κ r = (Constructor.wrap name).accepts from hr) ▸ .ref
  | record fields => exact .map (hasKind_ofFields hchildren)
  | opt r =>
    have hr : κ r = .node := hchildren r (List.mem_singleton_self _)
    exact .map (.alt .nothing (.just (hr ▸ .ref)))
  | star r =>
    have hl : κ list = (Constructor.star name).accepts := hlist rfl
    exact .map (hl ▸ .ref)
  | plus r =>
    have hr : κ r = .node := hchildren r (List.mem_singleton_self _)
    have hl : κ list = .list := hlist rfl
    exact .map (.pair (hr ▸ .ref) (hl ▸ .ref))

end Expr

/-- Compiled rules have kinds: a rule finds nodes, the list of a repetition finds lists. -/
theorem CompiledRules.kinded {g : Grammar} {ids : List RuleId} {rules : Registry}
    {place : RuleId → Handle} (hc : CompiledRules g ids rules place) (hg : g.WellFormed) :
    rules.Kinded rules.kindOf ∧ ∀ id ∈ ids, rules.kindOf (place id) = .node := by
  have hnode : ∀ id ∈ ids, rules.kindOf (place id) = .node := by
    intro id hid
    obtain ⟨r, list, -, hrule, -⟩ := hc.body id hid
    rw [Registry.kindOf, hrule]
  have hlists : ∀ {inner list}, rules.get? list = some (.listOf (place inner) list) →
      rules.kindOf list = .list := by
    intro inner list hlist
    rw [Registry.kindOf, hlist, Expr.listOf]
  refine ⟨fun h body hbody => ?_, hnode⟩
  rcases hc.covered h body hbody with ⟨id, hid, rfl⟩ | ⟨inner, hinner, rfl⟩
  · obtain ⟨r, list, hr, hrule, hlist⟩ := hc.body id hid
    rw [hbody] at hrule
    cases hrule
    rw [hnode id hid]
    refine .label (hasKind_expr ?_ ?_ ?_)
    · intro hempty
      cases hrhs : r.rhs with
      | choice branches =>
        rw [hrhs, Rhs.map, Rhs.choice.injEq, List.map_eq_nil_iff] at hempty
        exact (hg.rules r (Grammar.mem_of_get? hr)).branches_ne_nil hrhs hempty
      | _ => simp [hrhs, Rhs.map] at hempty
    · intro c hchild
      rw [Rhs.children_map] at hchild
      obtain ⟨c', hc', rfl⟩ := List.mem_map.mp hchild
      exact hnode c' (hc.closed id hid r hr c' hc')
    · intro hrepeated
      rw [Rhs.repeated?_map, Option.isSome_map] at hrepeated
      obtain ⟨inner, hinner⟩ := Option.isSome_iff_exists.mp hrepeated
      exact hlists (hlist inner hinner)
  · rw [hlists hbody]
    exact .alt .nil (.cons (hnode inner hinner ▸ .ref) (hlists hbody ▸ .ref))

end ChartGrammar
