/-
  Proofs/SharedTerminalizers.lean --- terminalizers over one table.

  Terminalizers for several roots share a table, in which a rule may have another slot than
  in the table of a single root.  The yield rules in two slots of the same rule are alike:
  they check the same, join the same, and refer to slots of the same rules.  Walks by tables
  that are alike take the same steps side by side, so a shared terminalizer gives back what
  the one of its root alone does, and refuses a value for the same reason.
-/
import ChartGrammar.Proofs.ExactTerminalizing
import ChartGrammar.Proofs.Refusals

set_option autoImplicit false

namespace ChartGrammar

/-! ## Yield rules that are alike -/

/-- Plans that join the same results to the same, for slots that belong together. -/
structure JoinPlan.Alike (L : Slot → Slot → Prop) (plan plan' : JoinPlan Slot) : Prop where
  join : ∀ results, plan.join results = plan'.join results
  targets : List.Forall₂ L (plan.parts.map Part.target) (plan'.parts.map Part.target)

/-- Projections of the same form, for slots that belong together. -/
inductive YieldShape.Alike (L : Slot → Slot → Prop) : YieldShape Slot → YieldShape Slot → Prop where
  | terminal : Alike L .terminal .terminal
  | choice {plans plans' : List (String × JoinPlan Slot)}
      (h : List.Forall₂ (fun e e' => e.1 = e'.1 ∧ e.2.Alike L e'.2) plans plans') :
    Alike L (.choice plans) (.choice plans')
  | wrap {p p' : Part Slot} (h : L p.target p'.target) : Alike L (.wrap p) (.wrap p')
  | record {plan plan' : JoinPlan Slot} (h : plan.Alike L plan') :
    Alike L (.record plan) (.record plan')
  | opt {p p' : Part Slot} (h : L p.target p'.target) : Alike L (.opt p) (.opt p')
  | star {p p' : Part Slot} (h : L p.target p'.target) : Alike L (.star p) (.star p')
  | plus {p p' : Part Slot} (h : L p.target p'.target) : Alike L (.plus p) (.plus p')
  | series {literal : String} : Alike L (.series literal) (.series literal)

/-- Yield rules of the same name, promise and form, for slots that belong together. -/
structure YieldRule.Alike (L : Slot → Slot → Prop) (p p' : YieldRule Slot) : Prop where
  rule : p.rule = p'.rule
  nonempty : p.nonempty = p'.nonempty
  projection : p.projection.Alike L p'.projection

section Descend

variable {L : Slot → Slot → Prop}

/-- The same values, for slots that belong together. -/
def BelowAlike (L : Slot → Slot → Prop) : List (Slot × Value) → List (Slot × Value) → Prop :=
  List.Forall₂ fun x x' => L x.1 x'.1 ∧ x.2 = x'.2

/-- A value is refused for the same reason, or the values below it are passed on alike. -/
inductive PassedAlike (L : Slot → Slot → Prop) :
    Except TerminalizeError (Option (JoinPlan Slot) × List (Slot × Value)) →
    Except TerminalizeError (Option (JoinPlan Slot) × List (Slot × Value)) → Prop where
  | refused (e : TerminalizeError) : PassedAlike L (.error e) (.error e)
  | passed {plan plan' : Option (JoinPlan Slot)} {below below' : List (Slot × Value)}
      (hplan : Option.Rel (JoinPlan.Alike L) plan plan') (hbelow : BelowAlike L below below') :
    PassedAlike L (.ok (plan, below)) (.ok (plan', below'))

theorem belowAlike_zip {slots slots' : List Slot} (h : List.Forall₂ L slots slots') :
    ∀ vs : List Value, BelowAlike L (slots.zip vs) (slots'.zip vs) := by
  induction h with
  | nil => exact fun vs => .nil
  | cons hslot _ ih =>
    intro vs
    cases vs with
    | nil => exact .nil
    | cons v vs => exact .cons ⟨hslot, rfl⟩ (ih vs)

theorem belowAlike_map {slot slot' : Slot} (h : L slot slot') (vs : List Value) :
    BelowAlike L (vs.map (slot, ·)) (vs.map (slot', ·)) := by
  refine List.forall₂_map_left_iff.mpr (List.forall₂_map_right_iff.mpr ?_)
  exact List.forall₂_same.mpr fun v _ => ⟨h, rfl⟩

/-- The fields of a product are passed on alike, or there are not as many as expected. -/
theorem JoinPlan.Alike.passed {plan plan' : JoinPlan Slot} (h : plan.Alike L plan')
    (rule : String) (fields : List Value) :
    PassedAlike L
      (match YieldRule.pairFields rule plan fields with
        | .ok below => .ok (some plan, below)
        | .error e => .error e)
      (match YieldRule.pairFields rule plan' fields with
        | .ok below => .ok (some plan', below)
        | .error e => .error e) := by
  have harity : plan.arity = plan'.arity := by
    have hlength := h.targets.length_eq
    rwa [List.length_map, List.length_map, ← arity_eq_length, ← arity_eq_length] at hlength
  unfold YieldRule.pairFields
  rw [← harity]
  by_cases hfields : plan.arity = fields.length
  · rw [if_pos hfields, if_pos hfields]
    exact .passed (.some h) (belowAlike_zip h.targets fields)
  · rw [if_neg hfields, if_neg hfields]
    exact .refused _

theorem lookup_alike {plans plans' : List (String × JoinPlan Slot)}
    (h : List.Forall₂ (fun e e' => e.1 = e'.1 ∧ e.2.Alike L e'.2) plans plans') (label : String) :
    Option.Rel (JoinPlan.Alike L) (plans.lookup label) (plans'.lookup label) := by
  induction h with
  | nil => exact .none
  | @cons e e' _ _ he _ ih =>
    obtain ⟨l, plan⟩ := e
    obtain ⟨l', plan'⟩ := e'
    obtain ⟨rfl, hplan⟩ := he
    rw [List.lookup_cons, List.lookup_cons]
    dsimp only
    cases label == l with
    | true => exact .some hplan
    | false => exact ih

/-- Yield rules that are alike check a value alike. -/
theorem YieldRule.Alike.descend {p p' : YieldRule Slot} (h : p.Alike L p') (v : Value) :
    PassedAlike L (p.descend v) (p'.descend v) := by
  obtain ⟨rule, nonempty, shape⟩ := p
  obtain ⟨rule', nonempty', shape'⟩ := p'
  obtain ⟨rfl, rfl, hshape⟩ := h
  have hkind : shape.kind = shape'.kind := by cases hshape <;> rfl
  unfold YieldRule.descend
  dsimp only at hshape ⊢
  rw [← hkind]
  split
  · cases hshape with
    | terminal =>
      cases v with
      | terminal _ _ => exact .passed .none .nil
      | _ => exact .refused _
    | series =>
      cases v with
      | series _ _ => exact .passed .none .nil
      | _ => exact .refused _
    | choice hplans =>
      cases v with
      | branch _ label fields =>
        have hlookup := lookup_alike hplans label
        dsimp only
        generalize List.lookup label _ = plan at hlookup ⊢
        generalize List.lookup label _ = plan' at hlookup ⊢
        cases hlookup with
        | none => exact .refused _
        | some hplan => exact hplan.passed rule fields
      | _ => exact .refused _
    | record hplan =>
      cases v with
      | record _ fields => exact hplan.passed rule fields
      | _ => exact .refused _
    | wrap hslot =>
      cases v with
      | wrap _ inner => exact .passed .none (.cons ⟨hslot, rfl⟩ .nil)
      | _ => exact .refused _
    | opt hslot =>
      cases v with
      | opt _ inner =>
        cases inner with
        | none => exact .passed .none .nil
        | some inner => exact .passed .none (.cons ⟨hslot, rfl⟩ .nil)
      | _ => exact .refused _
    | star hslot =>
      cases v with
      | star _ items => exact .passed .none (belowAlike_map hslot items)
      | _ => exact .refused _
    | plus hslot =>
      cases v with
      | plus _ head tail => exact .passed .none (belowAlike_map hslot (head :: tail))
      | _ => exact .refused _
  · exact .refused _

/-- Yield rules that are alike join results alike. -/
theorem YieldRule.Alike.ascend {p p' : YieldRule Slot} (h : p.Alike L p')
    {plan plan' : Option (JoinPlan Slot)} (hplan : Option.Rel (JoinPlan.Alike L) plan plan')
    (v : Value) (results : List Yield) :
    p.ascend v plan results = p'.ascend v plan' results := by
  have hcombine : p.combine v plan results = p'.combine v plan' results := by
    unfold combine
    cases hplan with
    | some hplan => exact hplan.join results
    | none =>
      obtain ⟨rule, nonempty, shape⟩ := p
      obtain ⟨rule', nonempty', shape'⟩ := p'
      obtain ⟨-, -, hshape⟩ := h
      -- without a plan only the form of the projection counts
      cases hshape <;> cases v <;> rfl
  unfold YieldRule.ascend
  rw [hcombine, h.rule, h.nonempty]

end Descend

/-! ## Walks side by side -/

namespace Terminalizer

variable {L : Slot → Slot → Prop} {table table' : YieldTable}

/-- The same step, for slots that belong together. -/
inductive Step.Alike (L : Slot → Slot → Prop) : Step → Step → Prop where
  | enter {slot slot' : Slot} {v : Value} (h : L slot slot') :
    Alike L (.enter slot v) (.enter slot' v)
  | leave {slot slot' : Slot} {v : Value} {plan plan' : Option (JoinPlan Slot)} {below : Nat}
      (h : L slot slot') (hplan : Option.Rel (JoinPlan.Alike L) plan plan') :
    Alike L (.leave slot v plan below) (.leave slot' v plan' below)

/-- Slots that belong together have yield rules that are alike. -/
def TablesAlike (L : Slot → Slot → Prop) (table table' : YieldTable) : Prop :=
  ∀ slot slot', L slot slot' → (table.get slot).Alike L (table'.get slot')

theorem alike_below {below below' : List (Slot × Value)} (h : BelowAlike L below below') :
    List.Forall₂ (Step.Alike L) (below.map Step.below) (below'.map Step.below) := by
  refine List.forall₂_map_left_iff.mpr (List.forall₂_map_right_iff.mpr (h.imp ?_))
  rintro ⟨slot, v⟩ ⟨slot', v'⟩ ⟨hslot, rfl⟩
  exact .enter hslot

/-- Walks by tables that are alike come to the same from the same steps. -/
theorem walk_eq_of_alike (htables : TablesAlike L table table') (steps : List Step)
    (done : List Yield) : ∀ {steps' : List Step}, List.Forall₂ (Step.Alike L) steps steps' →
      walk table steps done = walk table' steps' done := by
  fun_induction walk table steps done with
  | case1 done =>
    intro steps' h
    cases h
    rw [walk]
  | case2 slot v steps done e hdescend =>
    intro steps' h
    obtain ⟨step', rest', hstep, -, rfl⟩ := List.forall₂_cons_left_iff.mp h
    cases hstep with
    | enter hslot =>
      have hpassed := (htables _ _ hslot).descend v
      rw [hdescend] at hpassed
      generalize hdescend' : YieldRule.descend _ v = outcome at hpassed
      cases hpassed
      exact (refuses_of_descend hdescend' rest' done).symm
  | case3 slot v steps done plan below hdescend ih =>
    intro steps' h
    obtain ⟨step', rest', hstep, hrest, rfl⟩ := List.forall₂_cons_left_iff.mp h
    cases hstep with
    | enter hslot =>
      have hpassed := (htables _ _ hslot).descend v
      rw [hdescend] at hpassed
      generalize hdescend' : YieldRule.descend _ v = outcome at hpassed
      cases hpassed with
      | passed hplan hbelow =>
        rw [walk_eq_of_moves (.enter hdescend' : Moves table' (_ :: rest', done) _),
          ← hbelow.length_eq]
        exact ih (List.rel_append (alike_below hbelow) (.cons (.leave hslot hplan) hrest))
  | case4 slot v plan below steps done e hascend =>
    intro steps' h
    obtain ⟨step', rest', hstep, -, rfl⟩ := List.forall₂_cons_left_iff.mp h
    cases hstep with
    | leave hslot hplan =>
      rw [(htables _ _ hslot).ascend hplan] at hascend
      rw [walk, hascend]
  | case5 slot v plan below steps done out hascend ih =>
    intro steps' h
    obtain ⟨step', rest', hstep, hrest, rfl⟩ := List.forall₂_cons_left_iff.mp h
    cases hstep with
    | leave hslot hplan =>
      rw [(htables _ _ hslot).ascend hplan] at hascend
      rw [walk_eq_of_moves (.leave hascend : Moves table' (_ :: rest', done) _)]
      exact ih hrest

/-- Terminalizers that cannot be told apart by what they say of themselves or of a value. -/
structure Alike (t t' : Terminalizer) : Prop where
  rule : t.rule = t'.rule
  nonempty : t.nonempty = t'.nonempty
  terminalize : ∀ v, t.terminalize v = t'.terminalize v

theorem alike_of_tables (htables : TablesAlike L table table') {slot slot' : Slot}
    (hslot : L slot slot') : Alike ⟨table, slot⟩ ⟨table', slot'⟩ where
  rule := (htables slot slot' hslot).rule
  nonempty := (htables slot slot' hslot).nonempty
  terminalize v := by
    have hwalk := walk_eq_of_alike htables [.enter slot v] [] (.cons (.enter hslot) .nil)
    have hrule : rule ⟨table, slot⟩ = rule ⟨table', slot'⟩ := (htables slot slot' hslot).rule
    unfold terminalize
    rw [hwalk, hrule]

end Terminalizer

/-! ## Tables of one grammar -/

section Planned

variable {L : Slot → Slot → Prop} {ρ : Type} {rule : String} {place place' : ρ → Slot}
  {flag : ρ → Bool} {nonempty : Bool}

/-- Plans for the same fields are alike, since only classifications decide how to join. -/
theorem JoinPlan.alike_of_make {fields : List ρ} {plan plan' : JoinPlan Slot}
    (h : make rule (fields.map fun c => ⟨place c, flag c⟩) nonempty = .ok plan)
    (h' : make rule (fields.map fun c => ⟨place' c, flag c⟩) nonempty = .ok plan')
    (hL : ∀ c ∈ fields, L (place c) (place' c)) : plan.Alike L plan' where
  targets := by
    rw [parts_of_make h, parts_of_make h', List.map_map, List.map_map]
    refine List.forall₂_map_left_iff.mpr (List.forall₂_map_right_iff.mpr ?_)
    exact List.forall₂_same.mpr hL
  join results := by
    unfold make at h h'
    split at h
    · next hnonempty =>
      rw [if_pos hnonempty] at h'
      split at h
      · split at h'
        · cases h
          cases h'
          simp only [join, List.takeWhile_map, List.length_map]
          rfl
        · cases h'
      · cases h
    · next hnonempty =>
      rw [if_neg hnonempty] at h'
      cases h
      cases h'
      rfl

/-- Projections that are planned by the same right-hand side are alike. -/
theorem Rhs.Planned.alike {rhs : Rhs ρ} {shape shape' : YieldShape Slot}
    (h : Planned rule (fun c => ⟨place c, flag c⟩) nonempty rhs shape)
    (h' : Planned rule (fun c => ⟨place' c, flag c⟩) nonempty rhs shape')
    (hL : ∀ c ∈ rhs.children, L (place c) (place' c)) : shape.Alike L shape' := by
  cases h with
  | terminal =>
    cases h'
    exact .terminal
  | series =>
    cases h'
    exact .series
  | @choice branches plans hplans =>
    cases h' with
    | @choice _ plans' hplans' =>
      refine .choice ?_
      rw [children, List.forall_mem_flatMap] at hL
      induction hplans generalizing plans' with
      | nil =>
        cases hplans'
        exact .nil
      | cons he _ ih =>
        obtain ⟨e', rest', he', hrest', rfl⟩ := List.forall₂_cons_left_iff.mp hplans'
        obtain ⟨hfields, hL⟩ := List.forall_mem_cons.mp hL
        exact .cons ⟨he.1.trans he'.1.symm, JoinPlan.alike_of_make he.2 he'.2 hfields⟩
          (ih hL hrest')
  | record hmake =>
    cases h' with
    | record hmake' => exact .record (JoinPlan.alike_of_make hmake hmake' hL)
  | wrap =>
    cases h'
    exact .wrap (hL _ (List.mem_singleton_self _))
  | opt =>
    cases h'
    exact .opt (hL _ (List.mem_singleton_self _))
  | star =>
    cases h'
    exact .star (hL _ (List.mem_singleton_self _))
  | plus =>
    cases h'
    exact .plus (hL _ (List.mem_singleton_self _))

end Planned

namespace Terminalizer

variable {sig : Signature} {g : Grammar} {a : NonEmptiness} {ids ids' roots : List RuleId}
  {table table' : YieldTable} {place place' : RuleId → Slot}

/-- Slots of the same rule, which both of two tables hold. -/
def SameRule (ids ids' : List RuleId) (place place' : RuleId → Slot) (slot slot' : Slot) : Prop :=
  ∃ id, id ∈ ids ∧ id ∈ ids' ∧ slot = place id ∧ slot' = place' id

/-- Tables that hold rules of one grammar are alike in the slots of the same rule. -/
theorem tablesAlike_of_yieldRules (hy : YieldRules g a ids table place)
    (hy' : YieldRules g a ids' table' place') :
    TablesAlike (SameRule ids ids' place place') table table' := by
  rintro slot slot' ⟨id, hid, hid', rfl, rfl⟩
  obtain ⟨r, shape, hr, hget, hplanned⟩ := hy.rule id hid
  obtain ⟨r', shape', hr', hget', hplanned'⟩ := hy'.rule id hid'
  cases hr.symm.trans hr'
  rw [hget, hget']
  refine ⟨rfl, rfl, hplanned.alike hplanned' fun c hc => ?_⟩
  exact ⟨c, hy.closed id hid r hr c hc, hy'.closed id hid' r hr c hc, rfl, rfl⟩

/-- A table for some roots compiles if and only if they are rules and the signature answers
for all that they reach. -/
theorem exists_compileTable_iff (hg : g.WellFormed) :
    (∃ table, compileTable sig g roots = .ok table) ↔
      (∀ root ∈ roots, g.contains root = true) ∧ sig.AgreesOn g (g.reachable roots) := by
  constructor
  · rintro ⟨table, h⟩
    obtain ⟨_, hroots, h⟩ := bind_eq_ok_iff.mp h
    obtain ⟨⟨_, u⟩, hrun, -⟩ := bind_eq_ok_iff.mp h
    obtain ⟨bindings, t, hbindings, -⟩ := run_bind_eq_ok_iff.mp hrun
    refine ⟨Grammar.forM_rule_eq_ok_iff.mp hroots, fun id hid => ?_⟩
    obtain ⟨r, hr⟩ := Grammar.exists_get?_of_reachable hid
    refine ⟨r, hr, ?_⟩
    by_contra hagrees
    obtain ⟨c, hlacks⟩ := Signature.exists_lacks hagrees
    obtain ⟨b, -, v, w, hrule⟩ := forall₂_exists_left (forall₂_of_mapM_run hbindings) hid
    rw [compileYieldRule_of_lacks hr hlacks (NonEmptiness.vouches_of_isNonempty hr)] at hrule
    cases hrule
  · rintro ⟨hroots, hagrees⟩
    exact exists_compileTable hg hroots hagrees

theorem exists_compileAll_iff (hg : g.WellFormed) :
    (∃ ts, compileAll sig g roots = .ok ts) ↔ ∀ root ∈ roots, ∃ t, compile sig g root = .ok t := by
  have htable : (∃ ts, compileAll sig g roots = .ok ts) ↔
      ∃ table, compileTable sig g roots = .ok table := by
    constructor
    · rintro ⟨ts, h⟩
      obtain ⟨table, htable, -⟩ := bind_eq_ok_iff.mp h
      exact ⟨table, htable⟩
    · rintro ⟨table, htable⟩
      exact ⟨_, bind_eq_ok_iff.mpr ⟨table, htable, rfl⟩⟩
  simp only [htable, exists_compileTable_iff hg, exists_compile_iff hg]
  exact Signature.agreesOn_reachable_iff

/-- Terminalizers that share a table compile exactly if each of their roots has a terminalizer
of its own.  There is one for each root, in their order, and it is like the root's own. -/
theorem compileAll_alike (hg : g.Built) (sig : Signature) (roots : List RuleId) :
    ((∃ ts, compileAll sig g roots = .ok ts) ↔
      ∀ root ∈ roots, ∃ t, compile sig g root = .ok t) ∧
    ∀ ts, compileAll sig g roots = .ok ts →
      List.Forall₂ (fun root t => ∃ t', compile sig g root = .ok t' ∧ t.Alike t') roots ts := by
  have hwf := hg.wellFormed
  refine ⟨exists_compileAll_iff hwf, fun ts hts => ?_⟩
  have halone := (exists_compileAll_iff hwf).mp ⟨ts, hts⟩
  obtain ⟨table, htable, hpure⟩ := bind_eq_ok_iff.mp hts
  cases hpure
  obtain ⟨hroots, -⟩ := (exists_compileTable_iff hwf).mp ⟨table, htable⟩
  obtain ⟨place, hy, hbody⟩ := compileTable_spec hwf htable
  have hmem : ∀ root ∈ roots, root ∈ g.reachable roots :=
    fun root hroot => Grammar.mem_reachable_root hroot (hroots root hroot)
  rw [hbody hmem, List.map_map]
  refine List.forall₂_map_right_iff.mpr (List.forall₂_same.mpr fun root hroot => ?_)
  obtain ⟨t', ht'⟩ := halone root hroot
  obtain ⟨place', hy', hroot'⟩ := compile_spec hwf (hroots root hroot) ht'
  have hself : root ∈ g.reachable [root] :=
    Grammar.mem_reachable_root (List.mem_singleton_self root) (hroots root hroot)
  obtain ⟨table', slot'⟩ := t'
  refine ⟨⟨table', slot'⟩, ht', alike_of_tables (tablesAlike_of_yieldRules hy hy') ?_⟩
  exact ⟨root, hmem root hroot, hself, rfl, hroot'⟩

/-- Numbers, sums, and numbers again: the slot of sums is the third in the shared table and the
first in their own. -/
theorem compileAll_alike_sums :
    Grammar.sums.Built ∧
    ∃ number sum number' alone,
      compileAll (.ofGrammar Grammar.sums) Grammar.sums [⟨3⟩, ⟨0⟩, ⟨3⟩] =
        .ok [number, sum, number'] ∧
      compile (.ofGrammar Grammar.sums) Grammar.sums ⟨0⟩ = .ok alone ∧
      sum.root = ⟨2⟩ ∧ alone.root = ⟨0⟩ ∧ sum.Alike alone := by
  have hbuilt := Grammar.built_of_parse Grammar.parse_sums
  obtain ⟨hiff, halike⟩ :=
    compileAll_alike hbuilt (.ofGrammar Grammar.sums) [⟨3⟩, ⟨0⟩, ⟨3⟩]
  have hroots : ((compileAll (.ofGrammar Grammar.sums) Grammar.sums
      [⟨3⟩, ⟨0⟩, ⟨3⟩]).toOption.map fun ts => ts.map root) = some [⟨0⟩, ⟨2⟩, ⟨0⟩] := by
    decide +kernel
  have hroot : (compile (.ofGrammar Grammar.sums) Grammar.sums ⟨0⟩).toOption.map root =
      some ⟨0⟩ := by
    decide +kernel
  obtain ⟨ts, hts⟩ := hiff.mpr fun root hroot => exists_compile hbuilt.wellFormed (by
    revert root
    decide)
  obtain ⟨number, _, -, hsums, rfl⟩ := List.forall₂_cons_left_iff.mp (halike ts hts)
  obtain ⟨sum, _, ⟨alone, halone, hsum⟩, hnumbers, rfl⟩ := List.forall₂_cons_left_iff.mp hsums
  obtain ⟨number', _, -, hnil, rfl⟩ := List.forall₂_cons_left_iff.mp hnumbers
  cases hnil
  rw [hts] at hroots
  rw [halone] at hroot
  have hslots := List.cons.inj (Option.some.inj hroots)
  exact ⟨hbuilt, number, sum, number', alone, hts, halone, (List.cons.inj hslots.2).1,
    Option.some.inj hroot, hsum⟩

end Terminalizer

end ChartGrammar
