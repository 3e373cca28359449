/-
  Proofs/Preference.lean --- of several branches the first one is taken.

  Alternatives are tried in order, and of two results with the same end the first one is
  kept.  So an alternative is found only at ends that none before it reaches.  Results are
  shared and dropped in many places on the way to a value; `Picks` says what comes through
  for one expression, given what comes through for its references.  On a straight run
  nothing is lost: an end that an alternative can derive is an end that it reaches, and so
  every choice in a value is the first one that the grammar allows for its tokens.
-/
import ChartGrammar.Proofs.Repetition
import ChartGrammar.Proofs.StraightRuns

set_option autoImplicit false

namespace ChartGrammar

open ChartM

/-! ## What an expression picks -/

/-- The first result for an end among results in two parts comes from the second part only if
no result of the first part has that end. -/
theorem mem_firstPerEndFrom_append {α : Type} {seen : Std.HashSet Nat} {r : Nat × α}
    {left right : List (Nat × α)} (h : r ∈ firstPerEndFrom seen (left ++ right)) :
    r ∈ left ∨ r ∈ right ∧ ∀ l ∈ left, l.1 ≠ r.1 := by
  induction left generalizing seen with
  | nil =>
    refine .inr ⟨mem_of_mem_firstPerEndFrom h, fun l hl => absurd hl List.not_mem_nil⟩
  | cons l left ih =>
    obtain ⟨e, a⟩ := l
    -- an end that is seen, now or already, comes no more
    have hrest : ∀ seen : Std.HashSet Nat, seen.contains e = true →
        r ∈ firstPerEndFrom seen (left ++ right) →
        r ∈ (e, a) :: left ∨ r ∈ right ∧ ∀ l ∈ (e, a) :: left, l.1 ≠ r.1 := by
      intro seen hseen hr
      have hne : e ≠ r.1 := by
        intro heq
        rw [heq, (nodup_firstPerEndFrom _ seen).2 r hr] at hseen
        cases hseen
      exact (ih hr).imp (List.mem_cons_of_mem _) fun ⟨hr, hleft⟩ =>
        ⟨hr, List.forall_mem_cons.mpr ⟨hne, hleft⟩⟩
    rw [List.cons_append, firstPerEndFrom] at h
    split at h
    · next hseen => exact hrest seen hseen h
    · rcases List.mem_cons.mp h with rfl | h
      · exact .inl List.mem_cons_self
      · exact hrest _ (by simp) h

namespace Expr

mutual

/-- What an expression picks between two positions, if references pick what `picks` says and
lead where `known` says.  The second of two alternatives is picked only where the first one
does not lead. -/
def Picks (input : Array Token) (known : Handle → Nat → Nat → Prop)
    (picks : Handle → Nat → Nat → Deriv → Prop) : Expr Handle → Nat → Nat → Deriv → Prop
  | ref h, i, j, d => picks h i j d
  | matchOne p, i, j, d =>
    ∃ t, input[i]? = some t ∧ p.test t.char = true ∧ j = i + 1 ∧ d = .token t
  | symbol literal, i, j, d =>
    ∃ ts, spell input literal.toList i = .ok ts ∧ j = i + ts.length ∧ d = .tokens ts
  | unit, i, j, d => j = i ∧ d = .fields []
  | nothing, i, j, d => j = i ∧ d = .nothing
  | nil, i, j, d => j = i ∧ d = .list .empty
  | just e, i, j, d => ∃ n, Picks input known picks e i j (.node n) ∧ d = .just n
  | alt a b, i, j, d => Picks input known picks a i j d ∨
      ¬ a.LeadsTo input known i j ∧ Picks input known picks b i j d
  | seq es, i, j, d => ∃ ns, AllPick input known picks es i j ns ∧ d = .fields ns
  | cons a b, i, j, d => ∃ m n items, Picks input known picks a i m (.node n) ∧
      Picks input known picks b m j (.list items) ∧ d = .list (items.cons n)
  | pair a b, i, j, d => ∃ m n items, Picks input known picks a i m (.node n) ∧
      Picks input known picks b m j (.list items) ∧ d = .pair n items
  | map ctor e, i, j, d => ∃ d' n, Picks input known picks e i j d' ∧
      Node.make? ctor d' = some n ∧ d = .node n
  | label _ e, i, j, d => Picks input known picks e i j d

/-- What expressions one after another pick. -/
def AllPick (input : Array Token) (known : Handle → Nat → Nat → Prop)
    (picks : Handle → Nat → Nat → Deriv → Prop) :
    List (Expr Handle) → Nat → Nat → List Node → Prop
  | [], i, j, ns => j = i ∧ ns = []
  | e :: es, i, j, ns => ∃ m n rest, Picks input known picks e i m (.node n) ∧
      AllPick input known picks es m j rest ∧ ns = n :: rest

end

end Expr

section Eval

variable {input : Array Token} {I : Chart → Prop} {κ : Handle → Kind}
  {call : Handle → Nat → ChartM Results} {known : Handle → Nat → Nat → Prop}
  {picks : Handle → Nat → Nat → Deriv → Prop}

/-- Running an expression that has a kind finds only what the expression picks, if references
do and find every end that they are known for. -/
theorem ensures_eval_picks (hexpect : ∀ c pos what, I c → I (c.expect pos what))
    (hnote : ∀ c ctor, I c → I (c.noteMismatch ctor))
    (hcall : ∀ h i, Ensures I (call h i) fun rs => rs.AllOf (κ h) ∧
      (∀ j, known h i j → rs.Reach j) ∧ ∀ r ∈ rs, picks h i r.1 r.2) (e : Expr Handle) :
    ∀ {k}, e.HasKind κ k → ∀ i, Ensures I (eval input call e i) fun rs =>
      ∀ r ∈ rs, e.Picks input known picks i r.1 r.2 := by
  have hreach : ∀ {e k}, Expr.HasKind κ e k → ∀ i, Ensures I (eval input call e i) fun rs =>
      ∀ j, e.LeadsTo input known i j → rs.Reach j := fun {e k} he i =>
    ensures_eval_reach hexpect (fun h i => ensures_mono (hcall h i) fun _ h => ⟨h.1, h.2.1⟩) e he i
  induction e using Expr.induction with
  | ref h =>
    intro k _ i
    rw [eval]
    refine ensures_mono (hcall h i) fun rs hrs r hr => ?_
    rw [Expr.Picks]
    exact hrs.2.2 r hr
  | matchOne p =>
    intro k _ i
    refine ensures_matchOne hexpect fun t ht htest => ?_
    rw [Expr.Picks]
    exact ⟨t, ht, htest, rfl, rfl⟩
  | symbol literal =>
    intro k _ i
    refine ensures_symbol hexpect fun ts hts => ?_
    rw [Expr.Picks]
    exact ⟨ts, hts, rfl, rfl⟩
  | unit | nothing | nil =>
    intro k _ i
    rw [eval]
    refine ensures_single ?_
    rw [Expr.Picks]
    exact ⟨rfl, rfl⟩
  | just e ih =>
    intro k hk i
    cases hk with
    | just he =>
      refine ensures_just (ih he i) fun j n hn => ?_
      rw [Expr.Picks]
      exact ⟨n, hn, rfl⟩
  | alt a b iha ihb =>
    intro k hk i
    cases hk with
    | alt ha hb =>
      rw [eval]
      refine ensures_bind (ensures_and (iha ha i) (hreach ha i)) fun left hleft =>
        ensures_bind (ihb hb i) fun right hright => ensures_pure fun r hr => ?_
      rw [Expr.Picks]
      rcases mem_firstPerEndFrom_append hr with hr | ⟨hr, hnone⟩
      · exact .inl (hleft.1 r hr)
      · refine .inr ⟨fun hlead => ?_, hright r hr⟩
        obtain ⟨d, hd⟩ := hleft.2 r.1 hlead
        exact hnone _ hd rfl
  | seq es ih =>
    intro k hk i
    cases hk with
    | seq hes =>
      -- `AllPick` takes its list apart from the front, so a partial list is known by what
      -- any fields after it would make of it
      refine ensures_seq (K := fun done p => ∀ es j ns,
          Expr.AllPick input known picks es p.1 j ns →
          Expr.AllPick input known picks (done ++ es) i j (p.2.reverse ++ ns))
        ?_ (fun e he i => ih e he (hes e he) i) (fun es j ns h => h) ?_
      · intro done e p j n hdone he es k ns hes
        rw [List.append_assoc, List.reverse_cons, List.append_assoc]
        refine hdone _ _ _ ?_
        rw [List.singleton_append, Expr.AllPick]
        exact ⟨j, n, ns, he, hes, rfl⟩
      · intro j ns hdone
        have hall := hdone [] j [] (by rw [Expr.AllPick]; exact ⟨rfl, rfl⟩)
        rw [List.append_nil, List.append_nil] at hall
        rw [Expr.Picks]
        exact ⟨ns.reverse, hall, rfl⟩
  | cons a b iha ihb =>
    intro k hk i
    cases hk with
    | cons ha hb =>
      rw [eval]
      refine ensures_evalPair (R := fun i r => (Expr.cons a b).Picks input known picks i r.1 r.2)
        (iha ha) (ihb hb) (fun {i j k n items} hn hitems => ?_) i
      rw [Expr.Picks]
      exact ⟨j, n, items, hn, hitems, rfl⟩
  | pair a b iha ihb =>
    intro k hk i
    cases hk with
    | pair ha hb =>
      rw [eval]
      refine ensures_evalPair (R := fun i r => (Expr.pair a b).Picks input known picks i r.1 r.2)
        (iha ha) (ihb hb) (fun {i j k n items} hn hitems => ?_) i
      rw [Expr.Picks]
      exact ⟨j, n, items, hn, hitems, rfl⟩
  | map ctor e ih =>
    intro k hk i
    cases hk with
    | map he =>
      refine ensures_map (fun _ _ _ c hc => hnote c ctor hc) (ih he i) fun j d n hd hn => ?_
      rw [Expr.Picks]
      exact ⟨d, n, hd, hn, rfl⟩
  | label d e ih =>
    intro k hk i
    cases hk with
    | label he =>
      refine ensures_label hexpect (ih he i) fun r hr => ?_
      rw [Expr.Picks]
      exact hr

end Eval

/-! ## Values that take the first branch -/

/-- The value is neither of a choice nor of an optional rule. -/
def Value.isPlain : Value → Bool
  | branch .. => false
  | opt .. => false
  | _ => true

namespace Grammar

/-- A value of a choice is of the first branch whose fields can hold the tokens, and one of an
optional rule holds some tokens or is absent. -/
structure TakesFirst (g : Grammar) (v : Value) (ts : List Token) : Prop where
  branch : ∀ name label fields, v = .branch name label fields →
    ∃ id r before b after, g.find? name = some id ∧ g.get? id = some r ∧
      r.rhs = .choice (before ++ b :: after) ∧ b.label = label ∧
      List.Forall₂ g.IsValue b.fields fields ∧
      ∀ b' ∈ before, ¬ ∃ us, List.Forall₂ g.IsValue b'.fields us ∧ Value.leavesAll us = ts
  opt : ∀ name inner, v = .opt name inner → ts = [] → inner = none

/-- A value takes the first branch everywhere. -/
inductive Prefers (g : Grammar) : Value → Prop where
  | mk {v : Value} (hfirst : g.TakesFirst v v.leaves) (hbelow : ∀ w ∈ v.children, Prefers g w) :
      Prefers g v

variable {g : Grammar}

/-- Nothing is chosen at the top of a plain value. -/
theorem prefers_of_plain {v : Value} (hplain : v.isPlain = true)
    (hbelow : ∀ w ∈ v.children, g.Prefers w) : g.Prefers v := by
  refine .mk ⟨?_, ?_⟩ hbelow
  · rintro name label fields rfl
    cases hplain
  · rintro name inner rfl
    cases hplain

/-- A value of a rule that stands at a position and takes the first branch everywhere. -/
def PicksValue (g : Grammar) (input : Array Token) (id : RuleId) (i j : Nat) (d : Deriv) : Prop :=
  ∃ n v, d = .node n ∧ n.Builds v ∧ g.IsValue id v ∧ g.Prefers v ∧ Spans input i v.leaves j

/-- Values of a rule that stand one after another. -/
def PicksList (g : Grammar) (input : Array Token) (inner : RuleId) (i j : Nat) (d : Deriv) : Prop :=
  ∃ items vs, d = .list items ∧ List.Forall₂ Node.Builds items.toList vs ∧
    (∀ v ∈ vs, g.IsValue inner v ∧ g.Prefers v) ∧ Spans input i (Value.leavesAll vs) j

end Grammar

theorem Spans.append {input : Array Token} {i m j : Nat} {ts us : List Token}
    (hts : Spans input i ts m) (hus : Spans input m us j) : Spans input i (ts ++ us) j :=
  ⟨hts.1.trans hus.1, by rw [← span_append hts.1 hus.1, hts.2, hus.2]⟩

theorem spans_nil (input : Array Token) (i : Nat) : Spans input i [] i :=
  ⟨Forward.refl input i, span_self⟩

theorem Value.leavesAll_append (vs ws : List Value) :
    leavesAll (vs ++ ws) = leavesAll vs ++ leavesAll ws := by
  induction vs with
  | nil => rfl
  | cons v vs ih => rw [List.cons_append, leavesAll, leavesAll, ih, List.append_assoc]

/-- What a handle of compiled rules picks: values of the rule at its place, or lists of values
of the rule that it repeats. -/
structure Preference (g : Grammar) (ids : List RuleId) (rules : Registry)
    (place : RuleId → Handle) (input : Array Token) (h : Handle) (i j : Nat) (d : Deriv) :
    Prop where
  rule : ∀ id ∈ ids, h = place id → g.PicksValue input id i j d
  list : ∀ inner ∈ ids, rules.get? h = some (.listOf (place inner) h) →
    g.PicksList input inner i j d

namespace CompiledRules

variable {g : Grammar} {ids : List RuleId} {rules : Registry} {place : RuleId → Handle}
  {input : Array Token} {i j : Nat} {d : Deriv}

theorem picks_allRefs {fields : List RuleId} (hfields : ∀ id ∈ fields, id ∈ ids) {ns : List Node}
    (h : Expr.AllPick input (rules.Derives input) (Preference g ids rules place input)
      ((fields.map place).map .ref) i j ns) :
    ∃ vs, List.Forall₂ Node.Builds ns vs ∧ List.Forall₂ g.IsValue fields vs ∧
      (∀ v ∈ vs, g.Prefers v) ∧ Spans input i (Value.leavesAll vs) j := by
  induction fields generalizing i ns with
  | nil =>
    rw [List.map_nil, List.map_nil, Expr.AllPick] at h
    obtain ⟨rfl, rfl⟩ := h
    exact ⟨[], .nil, .nil, fun v hv => absurd hv List.not_mem_nil, spans_nil input _⟩
  | cons id fields ih =>
    obtain ⟨hid, hrest⟩ := List.forall_mem_cons.mp hfields
    rw [List.map_cons, List.map_cons, Expr.AllPick] at h
    obtain ⟨m, n, rest, hn, hns, rfl⟩ := h
    rw [Expr.Picks] at hn
    obtain ⟨n', v, heq, hv, hvalue, hprefers, hspans⟩ := hn.rule id hid rfl
    cases heq
    obtain ⟨vs, hvs, hvalues, hall, hspans'⟩ := ih hrest hns
    exact ⟨v :: vs, .cons hv hvs, .cons hvalue hvalues,
      List.forall_mem_cons.mpr ⟨hprefers, hall⟩, hspans.append hspans'⟩

theorem picks_ofFields {fields : List RuleId} (hfields : ∀ id ∈ fields, id ∈ ids)
    (h : (Expr.ofFields (fields.map place)).Picks input (rules.Derives input)
      (Preference g ids rules place input) i j d) :
    ∃ vs, d.Builds (.fields vs) ∧ List.Forall₂ g.IsValue fields vs ∧
      (∀ v ∈ vs, g.Prefers v) ∧ Spans input i (Value.leavesAll vs) j := by
  cases fields with
  | nil =>
    rw [List.map_nil, Expr.ofFields, Expr.Picks] at h
    obtain ⟨rfl, rfl⟩ := h
    exact ⟨[], Deriv.builds_fields .nil, .nil, fun v hv => absurd hv List.not_mem_nil,
      spans_nil input _⟩
  | cons id fields =>
    rw [List.map_cons, Expr.ofFields, Expr.Picks, ← List.map_cons] at h
    · obtain ⟨ns, hns, rfl⟩ := h
      obtain ⟨vs, hvs, hrest⟩ := picks_allRefs hfields hns
      exact ⟨vs, Deriv.builds_fields hvs, hrest⟩
    · exact List.cons_ne_nil _ _

/-- One of several expressions is picked only where none before it leads. -/
theorem picks_oneOf {known : Handle → Nat → Nat → Prop}
    {picks : Handle → Nat → Nat → Deriv → Prop} (others : List (Expr Handle)) :
    ∀ {first : Expr Handle}, (Expr.oneOf first others).Picks input known picks i j d →
      ∃ before e after, first :: others = before ++ e :: after ∧ e.Picks input known picks i j d ∧
        ∀ e' ∈ before, ¬ e'.LeadsTo input known i j := by
  induction others with
  | nil =>
    intro first h
    exact ⟨[], first, [], rfl, h, fun e' he' => absurd he' List.not_mem_nil⟩
  | cons e others ih =>
    intro first h
    obtain ⟨before, e', after, hsplit, hpicks, hbefore⟩ := ih h
    cases before with
    | nil =>
      cases hsplit
      rw [Expr.Picks] at hpicks
      rcases hpicks with hpicks | ⟨hfirst, hpicks⟩
      · exact ⟨[], first, e :: others, rfl, hpicks, fun e' he' => absurd he' List.not_mem_nil⟩
      · refine ⟨[first], e, others, rfl, hpicks, fun e' he' => ?_⟩
        rwa [List.mem_singleton.mp he']
    | cons top before =>
      cases hsplit
      obtain ⟨htop, hbefore⟩ := List.forall_mem_cons.mp hbefore
      rw [Expr.LeadsTo, not_or] at htop
      refine ⟨first :: e :: before, e', after, rfl, hpicks, ?_⟩
      exact List.forall_mem_cons.mpr ⟨htop.1, List.forall_mem_cons.mpr ⟨htop.2, hbefore⟩⟩

/-- Where the fields of a branch can hold the tokens, its expression leads. -/
theorem leadsTo_branchExpr (hc : CompiledRules g ids rules place) {name : String}
    {b : Branch RuleId} (hb : ∀ c ∈ b.fields, c ∈ ids) {us : List Value}
    (hus : List.Forall₂ g.IsValue b.fields us) (hspans : Spans input i (Value.leavesAll us) j) :
    (Rhs.branchExpr name ⟨b.label, b.fields.map place⟩).LeadsTo input (rules.Derives input)
      i j := by
  have hfields : List.Forall₂ (fun c w => rules.Means (.ref (place c)) w.leaves (.node w))
      b.fields us := by
    rw [List.forall₂_iff_zip] at hus ⊢
    refine ⟨hus.1, fun {c w} hmem => ?_⟩
    exact hc.means_of_isValue w c (hb c (List.of_mem_zip hmem).1) (hus.2 hmem)
  have hbranch : rules.Means (Rhs.branchExpr name ⟨b.label, b.fields.map place⟩)
      (Value.leavesAll us) (.node (.branch name b.label us)) := by
    refine .map (means_ofFields hfields) ?_
    rw [Constructor.apply, if_pos (by rw [List.length_map, hus.length_eq])]
  exact leadsTo_of_means (fun _ _ _ _ _ hderives _ => hderives) hbranch hspans

/-- A choice picks values of the first branch whose fields can hold the tokens. -/
theorem picks_choice (hc : CompiledRules g ids rules place) (hg : g.WellFormed) {id : RuleId}
    {r : Rule} {branches : List (Branch RuleId)} {list : Handle} (hr : g.get? id = some r)
    (hrhs : r.rhs = .choice branches) (hbranches : branches ≠ [])
    (hfields : ∀ b ∈ branches, ∀ c ∈ b.fields, c ∈ ids)
    (h : ((r.rhs.map place).expr r.name list).Picks input (rules.Derives input)
      (Preference g ids rules place input) i j d) : g.PicksValue input id i j d := by
  obtain ⟨b₀, bs, rfl⟩ := List.exists_cons_of_ne_nil hbranches
  simp only [hrhs, Rhs.map, List.map_cons, Rhs.expr, List.map_map] at h
  obtain ⟨exprs, e, exprs', hsplit, hpicks, hexprs⟩ := picks_oneOf _ h
  -- the alternatives are the branches in their order
  have hmap : (b₀ :: bs).map (fun b => Rhs.branchExpr r.name ⟨b.label, b.fields.map place⟩) =
      exprs ++ e :: exprs' := hsplit
  obtain ⟨before, rest, hbefore, rfl, hrest⟩ := List.map_eq_append_iff.mp hmap
  obtain ⟨b, after, rfl, rfl, -⟩ := List.map_eq_cons_iff.mp hrest
  rw [hbefore] at hrhs hfields
  have hb : b ∈ before ++ b :: after := List.mem_append_right _ List.mem_cons_self
  rw [Rhs.branchExpr, Expr.Picks] at hpicks
  obtain ⟨d', n, hpicks, hmake, rfl⟩ := hpicks
  obtain ⟨vs, hbuilds, hvalues, hprefers, hspans⟩ := picks_ofFields (hfields b hb) hpicks
  obtain ⟨v, happly, hv⟩ := Node.builds_of_make? hmake hbuilds
  rw [Constructor.apply, if_pos (by rw [List.length_map, hvalues.length_eq])] at happly
  cases happly
  refine ⟨n, _, rfl, hv, .branch hr hrhs hb hvalues, .mk ⟨?_, ?_⟩ hprefers, hspans⟩
  · rintro name label fields heq
    cases heq
    refine ⟨id, r, before, b, after, hg.find?_name hr, hr, hrhs, rfl, hvalues, ?_⟩
    rintro b' hb' ⟨us, hus, hleaves⟩
    have hspans' : Spans input i (Value.leavesAll us) j := hleaves ▸ hspans
    refine hexprs _ (List.mem_map.mpr ⟨b', hb', rfl⟩) ?_
    exact hc.leadsTo_branchExpr (hfields b' (List.mem_append_left _ hb')) hus hspans'
  · rintro name inner heq
    cases heq

/-- An optional rule picks a value that holds tokens, or none. -/
theorem picks_opt {id inner : RuleId} {r : Rule} {list : Handle} (hr : g.get? id = some r)
    (hrhs : r.rhs = .opt inner) (hinner : inner ∈ ids)
    (h : ((r.rhs.map place).expr r.name list).Picks input (rules.Derives input)
      (Preference g ids rules place input) i j d) : g.PicksValue input id i j d := by
  simp only [hrhs, Rhs.map, Rhs.expr, Expr.Picks, Expr.LeadsTo] at h
  obtain ⟨d', n, ⟨rfl, rfl⟩ | ⟨hne, m, hpicks, rfl⟩, hmake, rfl⟩ := h
  · obtain ⟨v, happly, hv⟩ := Node.builds_of_make? hmake Deriv.builds_nothing
    cases happly
    refine ⟨n, _, rfl, hv, .absent hr hrhs, .mk ⟨?_, ?_⟩ ?_, spans_nil input _⟩
    · rintro name label fields heq
      cases heq
    · rintro name inner heq -
      cases heq
      rfl
    · exact fun w hw => absurd hw List.not_mem_nil
  · obtain ⟨m', w, heq, hw, hvalue, hprefers, hspans⟩ := hpicks.rule inner hinner rfl
    cases heq
    obtain ⟨v, happly, hv⟩ := Node.builds_of_make? hmake (Deriv.builds_just hw)
    cases happly
    refine ⟨n, _, rfl, hv, .present hr hrhs hvalue, .mk ⟨?_, ?_⟩ ?_, hspans⟩
    · rintro name label fields heq
      cases heq
    · rintro name inner heq hnil
      rw [show w.leaves = [] from hnil] at hspans
      exact absurd hspans.eq_of_nil hne
    · intro u hu
      rwa [List.mem_singleton.mp hu]

/-- The expression of a right-hand side picks values of its rule that take the first branch
everywhere. -/
theorem picks_expr (hc : CompiledRules g ids rules place) (hg : g.WellFormed) {id : RuleId}
    {r : Rule} {list : Handle} (hr : g.get? id = some r) (hbranches : r.rhs ≠ .choice [])
    (hchildren : ∀ c ∈ r.rhs.children, c ∈ ids)
    (hlist : ∀ inner, r.rhs.repeated? = some inner →
      rules.get? list = some (.listOf (place inner) list))
    (h : ((r.rhs.map place).expr r.name list).Picks input (rules.Derives input)
      (Preference g ids rules place input) i j d) : g.PicksValue input id i j d := by
  cases hrhs : r.rhs with
  | choice branches =>
    refine hc.picks_choice hg hr hrhs (fun heq => hbranches (heq ▸ hrhs)) (fun b hb c hcb => ?_) h
    apply hchildren
    rw [hrhs, Rhs.children]
    exact List.mem_flatMap.mpr ⟨b, hb, hcb⟩
  | opt inner =>
    have hinner : inner ∈ ids := hchildren inner (by rw [hrhs]; exact List.mem_singleton_self _)
    exact picks_opt hr hrhs hinner h
  | terminal p =>
    simp only [hrhs, Rhs.map, Rhs.expr, Expr.Picks] at h
    obtain ⟨d', n, ⟨t, ht, htest, rfl, rfl⟩, hmake, rfl⟩ := h
    obtain ⟨v, happly, hv⟩ := Node.builds_of_make? hmake (Deriv.builds_token t)
    cases happly
    refine ⟨n, _, rfl, hv, .terminal hr hrhs htest, Grammar.prefers_of_plain rfl ?_,
      Forward.succ ht, span_succ ht⟩
    exact fun w hw => absurd hw List.not_mem_nil
  | series literal =>
    simp only [hrhs, Rhs.map, Rhs.expr, Expr.Picks] at h
    obtain ⟨d', n, ⟨ts, hts, rfl, rfl⟩, hmake, rfl⟩ := h
    obtain ⟨hchars, hspans⟩ := spell_eq_ok hts
    obtain ⟨v, happly, hv⟩ := Node.builds_of_make? hmake (Deriv.builds_tokens ts)
    cases happly
    refine ⟨n, _, rfl, hv, .series hr hrhs hchars, Grammar.prefers_of_plain rfl ?_, hspans⟩
    exact fun w hw => absurd hw List.not_mem_nil
  | wrap inner =>
    have hinner : inner ∈ ids := hchildren inner (by rw [hrhs]; exact List.mem_singleton_self _)
    simp only [hrhs, Rhs.map, Rhs.expr, Expr.Picks] at h
    obtain ⟨d', n, hpicks, hmake, rfl⟩ := h
    obtain ⟨m, w, rfl, hw, hvalue, hprefers, hspans⟩ := hpicks.rule inner hinner rfl
    obtain ⟨v, happly, hv⟩ :=
      Node.builds_of_make? hmake (Deriv.builds_node_iff.mpr ⟨w, hw, rfl⟩)
    cases happly
    refine ⟨n, _, rfl, hv, .wrap hr hrhs hvalue, Grammar.prefers_of_plain rfl ?_, hspans⟩
    intro u hu
    rwa [List.mem_singleton.mp hu]
  | record fields =>
    simp only [hrhs, Rhs.map, Rhs.expr, Expr.Picks] at h
    obtain ⟨d', n, hpicks, hmake, rfl⟩ := h
    obtain ⟨vs, hbuilds, hvalues, hprefers, hspans⟩ :=
      picks_ofFields (fun c hc => hchildren c (by rw [hrhs]; exact hc)) hpicks
    obtain ⟨v, happly, hv⟩ := Node.builds_of_make? hmake hbuilds
    rw [Constructor.apply, if_pos (by rw [List.length_map, hvalues.length_eq])] at happly
    cases happly
    exact ⟨n, _, rfl, hv, .record hr hrhs hvalues, Grammar.prefers_of_plain rfl hprefers, hspans⟩
  | star inner =>
    have hinner : inner ∈ ids := hchildren inner (by rw [hrhs]; exact List.mem_singleton_self _)
    simp only [hrhs, Rhs.map, Rhs.expr, Expr.Picks] at h
    obtain ⟨d', n, hpicks, hmake, rfl⟩ := h
    obtain ⟨items, vs, rfl, hvs, hall, hspans⟩ :=
      hpicks.list inner hinner (hlist inner (by rw [hrhs]; rfl))
    obtain ⟨v, happly, hv⟩ :=
      Node.builds_of_make? hmake (Deriv.builds_list_iff.mpr ⟨vs, hvs, rfl⟩)
    cases happly
    exact ⟨n, _, rfl, hv, .star hr hrhs fun v hv => (hall v hv).1,
      Grammar.prefers_of_plain rfl fun v hv => (hall v hv).2, hspans⟩
  | plus inner =>
    have hinner : inner ∈ ids := hchildren inner (by rw [hrhs]; exact List.mem_singleton_self _)
    simp only [hrhs, Rhs.map, Rhs.expr, Expr.Picks] at h
    obtain ⟨d', n, ⟨m, n', items, hhead, htail, rfl⟩, hmake, rfl⟩ := h
    obtain ⟨n'', w, heq, hw, hvalue, hprefers, hspans⟩ := hhead.rule inner hinner rfl
    cases heq
    obtain ⟨items', vs, heq, hvs, hall, hspans'⟩ :=
      htail.list inner hinner (hlist inner (by rw [hrhs]; rfl))
    cases heq
    obtain ⟨v, happly, hv⟩ := Node.builds_of_make? hmake (Deriv.builds_pair hw hvs)
    cases happly
    refine ⟨n, _, rfl, hv, .plus hr hrhs hvalue fun v hv => (hall v hv).1,
      Grammar.prefers_of_plain rfl ?_, hspans.append hspans'⟩
    exact List.forall_mem_cons.mpr ⟨hprefers, fun v hv => (hall v hv).2⟩

/-! ## Running compiled rules -/

/-- The results of a handle are complete, and what is found is picked. -/
structure FindsPicked (g : Grammar) (ids : List RuleId) (rules : Registry)
    (place : RuleId → Handle) (input : Array Token) (h : Handle) (i : Nat) (rs : Results) :
    Prop where
  kind : rs.AllOf (rules.kindOf h)
  reach : ∀ j, rules.Derives input h i j → rs.Reach j
  picked : ∀ r ∈ rs, Preference g ids rules place input h i r.1 r.2

/-- A list of values is derived item by item. -/
theorem reaches_of_derives (hc : CompiledRules g ids rules place) (hg : g.WellFormed)
    {inner : RuleId} (hinner : inner ∈ ids) {list : Handle}
    (hlist : rules.get? list = some (.listOf (place inner) list))
    (h : rules.Derives input list i j) :
    Relation.ReflTransGen (rules.Derives input (place inner)) i j := by
  obtain ⟨hforward, sv, hmeans⟩ := h
  obtain ⟨vs, -, hvs, hleaves⟩ := (hc.means_list_iff hg hinner hlist).mp hmeans
  have hspans : Spans input i (Value.leavesAll vs) j := ⟨hforward, hleaves.symm⟩
  clear hforward hmeans hleaves
  induction vs generalizing i with
  | nil =>
    rw [hspans.eq_of_nil]
  | cons v vs ih =>
    obtain ⟨hv, hvs⟩ := List.forall_mem_cons.mp hvs
    obtain ⟨m, hhead, htail⟩ := hspans.exists_of_append
    refine .head ⟨hhead.1, .node v, ?_⟩ (ih hvs htail)
    rw [hhead.2]
    exact hc.means_of_isValue v inner hinner hv

section Run

variable {I : Chart → Prop} {call : Handle → Nat → ChartM Results}

/-- Repeating a rule finds lists of values that take the first branch everywhere. -/
theorem ensures_repeatItem_picked (hc : CompiledRules g ids rules place) (hg : g.WellFormed)
    {inner : RuleId} (hinner : inner ∈ ids) {list : Handle}
    (hlist : rules.get? list = some (.listOf (place inner) list))
    (hcall : ∀ h s, Ensures I (call h s) (FindsPicked g ids rules place input h s))
    (length s : Nat) :
    Ensures I (repeatItem length (call (place inner)) s) fun rs =>
      (∀ j, rules.Derives input list s j → rs.Reach j) ∧
        ∀ r ∈ rs, g.PicksList input inner s r.1 r.2 := by
  have hreach : Ensures I (repeatItem length (call (place inner)) s) fun rs =>
      ∀ j, Relation.ReflTransGen (rules.Derives input (place inner)) s j → rs.Reach j := by
    refine ensures_repeatItem_reach (fun i => ?_) length s
    refine ensures_mono (hcall (place inner) i) fun rs hrs j hj => ?_
    obtain ⟨d, hd⟩ := hrs.reach j hj
    obtain ⟨n, v, rfl, -⟩ := (hrs.picked _ hd).rule inner hinner rfl
    exact ⟨n, hd⟩
  have hpicked : Ensures I (repeatItem length (call (place inner)) s) fun rs =>
      ∀ r ∈ rs, g.PicksList input inner s r.1 r.2 := by
    refine ensures_bind (ensures_search (P := fun stop =>
      g.PicksList input inner s stop.1 (.list stop.2)) (fun stop hstop => ?_) (length + 1) _ ∅ []
      ?_ fun stop hstop => absurd hstop List.not_mem_nil) fun stops hstops => ?_
    · refine ensures_mono (hcall (place inner) stop.1) fun rs hrs next hnext => ?_
      obtain ⟨n, hn, -, hitems⟩ := mem_onward.mp hnext
      obtain ⟨items, vs, heq, hvs, hall, hspans⟩ := hstop
      cases heq
      obtain ⟨n', v, heq, hv, hvalue, hprefers, hspans'⟩ := (hrs.picked _ hn).rule inner hinner rfl
      cases heq
      refine ⟨next.2, vs ++ [v], rfl, ?_, ?_, ?_⟩
      · rw [hitems, Chain.toList_snoc]
        exact List.rel_append hvs (.cons hv .nil)
      · intro w hw
        rcases List.mem_append.mp hw with hw | hw
        · exact hall w hw
        · rw [List.mem_singleton.mp hw]
          exact ⟨hvalue, hprefers⟩
      · rw [Value.leavesAll_append, Value.leavesAll, Value.leavesAll, List.append_nil]
        exact hspans.append hspans'
    · intro stop hstop
      rw [List.mem_singleton.mp hstop]
      exact ⟨.empty, [], rfl, .nil, fun v hv => absurd hv List.not_mem_nil, spans_nil input s⟩
    · refine ensures_pure fun r hr => ?_
      obtain ⟨stop, hstop, rfl⟩ := List.mem_map.mp hr
      exact hstops stop hstop
  exact ensures_and (ensures_mono hreach fun rs hrs j hj =>
    hrs j (hc.reaches_of_derives hg hinner hlist hj)) hpicked

/-- Running the body of a compiled rule finds all that the rule derives, and what is picked, if
references do. -/
theorem ensures_evalBody_picked (hc : CompiledRules g ids rules place) (hg : g.WellFormed)
    (hexpect : ∀ c pos what, I c → I (c.expect pos what))
    (hnote : ∀ c ctor, I c → I (c.noteMismatch ctor)) {h : Handle} {body : Expr Handle}
    (hbody : rules.get? h = some body)
    (hcall : ∀ h s, Ensures I (call h s) (FindsPicked g ids rules place input h s)) (s : Nat) :
    Ensures I (evalBody input call h body s) (FindsPicked g ids rules place input h s) := by
  have hkinded := (hc.kinded hg).1 h body hbody
  have hkind : Ensures I (evalBody input call h body s) (Results.AllOf (rules.kindOf h)) :=
    ensures_evalBody_kind hexpect hkinded
      (fun h s => ensures_mono (hcall h s) fun _ hrs => hrs.kind) s
  rcases hc.covered h body hbody with ⟨id, hid, rfl⟩ | ⟨inner, hinner, rfl⟩
  · obtain ⟨r, list, -, hrule, -⟩ := hc.body id hid
    have hwritten : evalBody input call (place id) body s = eval input call body s := by
      rw [Option.some.inj (hbody.symm.trans hrule)]
      rfl
    have hreach : Ensures I (eval input call body s) fun rs =>
        ∀ j, body.LeadsTo input (rules.Derives input) s j → rs.Reach j :=
      ensures_eval_reach hexpect (fun h i => ensures_mono (hcall h i)
        fun _ hrs => ⟨hrs.kind, hrs.reach⟩) body hkinded s
    have hpicks : Ensures I (eval input call body s) fun rs => ∀ r ∈ rs, body.Picks input
        (rules.Derives input) (Preference g ids rules place input) s r.1 r.2 :=
      ensures_eval_picks hexpect hnote (fun h i => ensures_mono (hcall h i)
        fun _ hrs => ⟨hrs.kind, hrs.reach, hrs.picked⟩) body hkinded s
    rw [hwritten] at hkind ⊢
    refine ensures_mono (ensures_and hkind (ensures_and hreach hpicks))
      fun rs ⟨hkind, hreach, hpicks⟩ => ⟨hkind, ?_, fun res hres => ⟨?_, ?_⟩⟩
    · rintro j ⟨hforward, sv, hmeans⟩
      cases hmeans with
      | ref hbody' hmeans =>
        cases hbody.symm.trans hbody'
        exact hreach j (leadsTo_of_means (fun _ _ _ _ _ hderives _ => hderives) hmeans
          ⟨hforward, rfl⟩)
    · intro id' hid' hplace
      obtain ⟨r', list', hr', hrule', hlist'⟩ := hc.body id' hid'
      have hpick := hpicks res hres
      rw [← hplace, hbody] at hrule'
      rw [Option.some.inj hrule', Expr.Picks] at hpick
      have hbranches : r'.rhs ≠ .choice [] := fun hrhs =>
        (hg.rules r' (Grammar.mem_of_get? hr')).branches_ne_nil hrhs rfl
      exact hc.picks_expr hg hr' hbranches (hc.closed id' hid' r' hr') hlist' hpick
    · intro inner _ hlist
      cases hrule.symm.trans hlist
  · have hrepeat : ∀ inner' ∈ ids, rules.get? h = some (.listOf (place inner') h) →
        Ensures I (evalBody input call h (.listOf (place inner) h) s) fun rs =>
          (∀ j, rules.Derives input h s j → rs.Reach j) ∧
            ∀ r ∈ rs, g.PicksList input inner' s r.1 r.2 := by
      intro inner' hinner' hlist
      rw [Option.some.inj (hbody.symm.trans hlist), evalBody_listOf]
      exact hc.ensures_repeatItem_picked hg hinner' hlist hcall input.size s
    intro c rs c' hI hrun
    obtain ⟨hI', hkind⟩ := hkind c rs c' hI hrun
    obtain ⟨-, hreach, -⟩ := hrepeat inner hinner hbody c rs c' hI hrun
    refine ⟨hI', hkind, hreach, fun res hres => ⟨?_, ?_⟩⟩
    · intro id hid hplace
      obtain ⟨r, list, -, hrule, -⟩ := hc.body id hid
      rw [← hplace] at hrule
      cases hbody.symm.trans hrule
    · intro inner' hinner' hlist
      exact (hrepeat inner' hinner' hlist c rs c' hI hrun).2.2 res hres

/-- On a straight run every handle finds all that it derives, and what is picked. -/
theorem ensures_straightCall_picked (hc : CompiledRules g ids rules place) (hg : g.WellFormed)
    (fuel : Nat) (h : Handle) (s : Nat) :
    Ensures (Chart.Finishes (FindsPicked g ids rules place input))
      (straightCall rules input fuel h s) (FindsPicked g ids rules place input h s) := by
  refine ensures_straightCall ?_ ?_ fuel h s
  · intro h s hbody
    refine ⟨fun r hr => absurd hr List.not_mem_nil, ?_, fun r hr => absurd hr List.not_mem_nil⟩
    rintro j ⟨-, sv, hmeans⟩
    cases hmeans with
    | ref hbody' _ => cases hbody.symm.trans hbody'
  · intro h body hbody call hcall s
    exact hc.ensures_evalBody_picked hg
      (fun c pos what hc => hc.of_eq (Chart.sameEntries_expect c pos what).finished)
      (fun c ctor hc => hc.of_eq (Chart.sameEntries_noteMismatch c ctor).finished) hbody hcall s

end Run

end CompiledRules

/-! ## Where the nodes of a value stand -/

/-- A value directly below another, each with the position at which its tokens begin. -/
inductive Value.Part : Value × Nat → Value × Nat → Prop where
  | mk {v w : Value} {before after : List Value} {i : Nat}
      (h : v.children = before ++ w :: after) :
      Part (v, i) (w, i + (leavesAll before).length)

theorem Value.leaves_eq_of_children {v w : Value} {before after : List Value}
    (h : v.children = before ++ w :: after) :
    v.leaves = leavesAll before ++ (w.leaves ++ leavesAll after) := by
  have hleaves : v.leaves = leavesAll v.children := by
    cases v with
    | terminal _ _ => simp [children] at h
    | series _ _ => simp [children] at h
    | opt _ inner =>
      cases inner with
      | none => rfl
      | some inner => exact (List.append_nil _).symm
    | wrap _ inner => exact (List.append_nil _).symm
    | _ => rfl
  rw [hleaves, h, leavesAll_append, leavesAll]

/-- A node of a value stands where its part of the value's tokens stands, and takes the first
branch everywhere if the value does. -/
theorem Grammar.Prefers.part {g : Grammar} {input : Array Token} {v w : Value} {i k j : Nat}
    (hprefers : g.Prefers v) (hspans : Spans input i v.leaves j)
    (h : Relation.ReflTransGen Value.Part (v, i) (w, k)) :
    g.Prefers w ∧ ∃ l, Spans input k w.leaves l := by
  generalize hfrom : (v, i) = start at h
  generalize hto : (w, k) = stop at h
  induction h generalizing w k with
  | refl =>
    cases hfrom.trans hto.symm
    exact ⟨hprefers, j, hspans⟩
  | tail _ hpart ih =>
    cases hpart with
    | @mk u _ before after m hchildren =>
      cases hto
      obtain ⟨⟨-, hbelow⟩, l, hspans⟩ := ih rfl
      refine ⟨hbelow w (by rw [hchildren]; exact List.mem_append_right _ List.mem_cons_self), ?_⟩
      rw [Value.leaves_eq_of_children hchildren] at hspans
      obtain ⟨m', hbefore, hrest⟩ := hspans.exists_of_append
      obtain ⟨l', hw, -⟩ := hrest.exists_of_append
      exact ⟨l', hbefore.stop_eq ▸ hw⟩

/-- Let no rule be reached again at a position at which it is being run.  Then at every node of
the value that a compiled parser gives, the tokens that it covers being those between two
positions, a choice takes the first of its branches whose fields can derive these tokens in
the grammar, and an optional rule that covers no tokens is absent. -/
theorem Parser.prefers_first_branch {g : Grammar} {sig : Signature} {root : RuleId} {p : Parser}
    {ts : List Token} {v : Value} (hg : g.Built) (hp : Parser.compile sig g root = .ok p)
    (hstraight : p.rules.RunsStraight p.root ts) (h : p.parse ts = .ok v) :
    ∀ w i, Relation.ReflTransGen Value.Part (v, 0) (w, i) →
      ∃ j, Spans ts.toArray i w.leaves j ∧ g.TakesFirst w (span ts.toArray i j) := by
  obtain ⟨place, hc, hroot, hmem, -⟩ := Parser.compile_spec hg.wellFormed hp
  obtain ⟨fuel, results, c, hrun⟩ := hstraight
  obtain ⟨results', c', hruns, hconclude⟩ := Registry.exists_runs_of_parse h
  -- the straight run is the run that the value comes from
  cases (Registry.runs_of_straightCall hrun).symm.trans hruns
  obtain ⟨n, hn, hbuild⟩ := Registry.exists_mem_of_conclude hconclude
  obtain ⟨-, hpicked⟩ := hc.ensures_straightCall_picked hg.wellFormed fuel p.root 0 _ _ _
    Chart.finishes_empty hrun
  obtain ⟨n', v', heq, hv', -, hprefers, hspans⟩ :=
    (hpicked.picked _ hn).rule root hmem hroot
  cases heq
  cases (Node.build_eq_ok hv').symm.trans hbuild
  intro w i hpart
  obtain ⟨⟨hfirst, -⟩, j, hw⟩ := hprefers.part hspans hpart
  exact ⟨j, hw, hw.2 ▸ hfirst⟩

/-- Two digits are a pair and also many, and no digits are a gap with none of them and also an
absent one. -/
def Grammar.entries : Grammar := ⟨#[
  ⟨"entry", none, .record [⟨1⟩, ⟨2⟩]⟩,
  ⟨"item", none, .choice [⟨"Pair", [⟨4⟩, ⟨4⟩]⟩, ⟨"Many", [⟨3⟩]⟩]⟩,
  ⟨"gap", none, .opt ⟨3⟩⟩,
  ⟨"many", none, .star ⟨4⟩⟩,
  ⟨"digit", none, .terminal .digit⟩]⟩

theorem Grammar.parse_entries : Grammar.parse
    "entry = ( item gap ) ; item = Pair: digit digit | Many: many ; gap = many? ;
     many = digit* ; digit = @digit ;" = .ok entries := by
  cbv

theorem Parser.prefers_first_branch_entries :
    ∃ p v, Parser.compile (Signature.ofGrammar Grammar.entries) Grammar.entries ⟨0⟩ = .ok p ∧
      p.rules.RunsStraight p.root (Token.stream "12") ∧ p.parse (Token.stream "12") = .ok v ∧
      ∀ w i, Relation.ReflTransGen Value.Part (v, 0) (w, i) →
        ∃ j, Spans (Token.stream "12").toArray i w.leaves j ∧
          Grammar.entries.TakesFirst w (span (Token.stream "12").toArray i j) := by
  have hok : (Parser.compile (Signature.ofGrammar Grammar.entries) Grammar.entries
      ⟨0⟩).toOption.any (fun p => (p.parse (Token.stream "12")).isOk) = true := by
    cbv
  have hrun : (Parser.compile (Signature.ofGrammar Grammar.entries) Grammar.entries
      ⟨0⟩).toOption.any (fun p =>
        ((straightCall p.rules (Token.stream "12").toArray 8 p.root 0).run {}).isSome) = true := by
    cbv
  obtain ⟨p, hp, hok⟩ := exists_ok_of_any hok
  obtain ⟨v, hv⟩ := exists_ok_of_isOk hok
  obtain ⟨_, hp', hsome⟩ := exists_ok_of_any hrun
  cases hp.symm.trans hp'
  obtain ⟨⟨results, c⟩, hcall⟩ := Option.isSome_iff_exists.mp hsome
  have hstraight : p.rules.RunsStraight p.root (Token.stream "12") := ⟨8, results, c, hcall⟩
  exact ⟨p, v, hp, hstraight, hv,
    Parser.prefers_first_branch (Grammar.built_of_parse Grammar.parse_entries) hp hstraight hv⟩

end ChartGrammar
