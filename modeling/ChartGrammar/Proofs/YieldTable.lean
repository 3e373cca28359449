/-
  Proofs/YieldTable.lean --- the table that a terminalizer walks by.

  Compiling yield rules goes the way of compiling parsers: identifiers, bindings,
  slots.  Seen from its two ends it gives every rule a slot whose yield rule is
  planned by the rule's right-hand side, with the slots and the classifications of
  the rule's children as parts.
-/
import ChartGrammar.Proofs.CompiledRules
import ChartGrammar.Yield.Terminalizer

set_option autoImplicit false

namespace ChartGrammar

/-! ## Plans over other references -/

section Map

variable {ρ σ τ ε : Type}

/-- The same part with another reference. -/
def Part.map (f : ρ → σ) (p : Part ρ) : Part σ := ⟨f p.target, p.nonempty⟩

/-- The same plan over other references. -/
def JoinPlan.map (f : ρ → σ) : JoinPlan ρ → JoinPlan σ
  | flat ps => flat (ps.map (Part.map f))
  | pivot before p after => pivot (before.map (Part.map f)) (p.map f) (after.map (Part.map f))

/-- The same projection over other references. -/
def YieldShape.map (f : ρ → σ) : YieldShape ρ → YieldShape σ
  | terminal => terminal
  | choice branches => choice (branches.map fun e => (e.1, e.2.map f))
  | wrap p => wrap (p.map f)
  | record plan => record (plan.map f)
  | opt p => opt (p.map f)
  | star p => star (p.map f)
  | plus p => plus (p.map f)
  | series literal => series literal

/-- A plan is made of parts in the same way whatever they refer to. -/
theorem JoinPlan.make_map (f : ρ → σ) {rule : String} {ps : List (Part ρ)} {nonempty : Bool}
    {plan : JoinPlan ρ} (h : JoinPlan.make rule ps nonempty = .ok plan) :
    JoinPlan.make rule (ps.map (Part.map f)) nonempty = .ok (plan.map f) := by
  have hflag : (fun p : Part σ => !p.nonempty) ∘ Part.map f = fun p => !p.nonempty := rfl
  unfold make at h ⊢
  split at h
  · next hnonempty =>
    rw [if_pos hnonempty, List.dropWhile_map, List.takeWhile_map, hflag]
    split at h
    · next p after hdrop =>
      cases h
      rw [hdrop, List.map_cons]
      rfl
    · cases h
  · next hnonempty =>
    cases h
    rw [if_neg hnonempty]
    rfl

section Resolve

variable {f : ρ → Except ε σ} {place : ρ → σ} (hf : ∀ i j, f i = .ok j → j = place i)
include hf

theorem Part.resolve_eq_map {p : Part ρ} {p' : Part σ} (h : p.resolve f = .ok p') :
    p' = p.map place := by
  obtain ⟨j, hj, hpure⟩ := bind_eq_ok_iff.mp h
  cases hpure
  rw [Part.map, hf _ _ hj]

theorem Part.mapM_resolve_eq_map {ps : List (Part ρ)} {ps' : List (Part σ)}
    (h : ps.mapM (Part.resolve f) = .ok ps') : ps' = ps.map (Part.map place) :=
  eq_map_of_mapM_eq_ok (fun _ _ hp => Part.resolve_eq_map hf hp) h

theorem JoinPlan.resolve_eq_map {plan : JoinPlan ρ} {plan' : JoinPlan σ}
    (h : plan.resolve f = .ok plan') : plan' = plan.map place := by
  cases plan with
  | flat ps =>
    obtain ⟨ps', hps, hpure⟩ := bind_eq_ok_iff.mp h
    cases hpure
    rw [JoinPlan.map, Part.mapM_resolve_eq_map hf hps]
  | pivot before p after =>
    obtain ⟨before', hbefore, h⟩ := bind_eq_ok_iff.mp h
    obtain ⟨p', hp, h⟩ := bind_eq_ok_iff.mp h
    obtain ⟨after', hafter, hpure⟩ := bind_eq_ok_iff.mp h
    cases hpure
    rw [JoinPlan.map, Part.mapM_resolve_eq_map hf hbefore, Part.resolve_eq_map hf hp,
      Part.mapM_resolve_eq_map hf hafter]

/-- Resolving a projection replaces its references. -/
theorem YieldShape.resolve_eq_map {shape : YieldShape ρ} {shape' : YieldShape σ}
    (h : shape.resolve f = .ok shape') : shape' = shape.map place := by
  cases shape with
  | terminal =>
    cases h
    rfl
  | series literal =>
    cases h
    rfl
  | choice branches =>
    obtain ⟨branches', hbranches, hpure⟩ := bind_eq_ok_iff.mp h
    cases hpure
    rw [YieldShape.map, choice.injEq]
    refine eq_map_of_mapM_eq_ok (fun e e' he => ?_) hbranches
    obtain ⟨plan, hplan, hpure⟩ := bind_eq_ok_iff.mp he
    cases hpure
    rw [JoinPlan.resolve_eq_map hf hplan]
  | record plan =>
    obtain ⟨plan', hplan, hpure⟩ := bind_eq_ok_iff.mp h
    cases hpure
    rw [YieldShape.map, JoinPlan.resolve_eq_map hf hplan]
  | wrap p | opt p | star p | plus p =>
    obtain ⟨p', hp, hpure⟩ := bind_eq_ok_iff.mp h
    cases hpure
    rw [YieldShape.map, Part.resolve_eq_map hf hp]

end Resolve

end Map

/-! ## The plan of a right-hand side -/

section Planned

variable {ρ σ τ : Type}

/-- The projection of a right-hand side over parts for its children. -/
inductive Rhs.Planned (rule : String) (part : ρ → Part σ) (nonempty : Bool) :
    Rhs ρ → YieldShape σ → Prop where
  | terminal {p : Predicate} : Planned rule part nonempty (.terminal p) .terminal
  | choice {branches : List (Branch ρ)} {plans : List (String × JoinPlan σ)}
      (h : List.Forall₂ (fun b e => e.1 = b.label ∧
        JoinPlan.make rule (b.fields.map part) nonempty = .ok e.2) branches plans) :
      Planned rule part nonempty (.choice branches) (.choice plans)
  | wrap {r : ρ} : Planned rule part nonempty (.wrap r) (.wrap (part r))
  | record {fields : List ρ} {plan : JoinPlan σ}
      (h : JoinPlan.make rule (fields.map part) nonempty = .ok plan) :
      Planned rule part nonempty (.record fields) (.record plan)
  | opt {r : ρ} : Planned rule part nonempty (.opt r) (.opt (part r))
  | star {r : ρ} : Planned rule part nonempty (.star r) (.star (part r))
  | plus {r : ρ} : Planned rule part nonempty (.plus r) (.plus (part r))
  | series {literal : String} : Planned rule part nonempty (.series literal) (.series literal)

variable {rule : String} {part : ρ → Part σ} {nonempty : Bool} {rhs : Rhs ρ}
  {shape : YieldShape σ}

theorem Rhs.Planned.map (f : σ → τ) (h : Planned rule part nonempty rhs shape) :
    Planned rule (fun r => (part r).map f) nonempty rhs (shape.map f) := by
  cases h with
  | terminal => exact .terminal
  | series => exact .series
  | choice hplans =>
    refine .choice (List.forall₂_map_right_iff.mpr (hplans.imp fun b e he => ⟨he.1, ?_⟩))
    have hmake := JoinPlan.make_map f he.2
    rwa [List.map_map] at hmake
  | record hplan =>
    have hmake := JoinPlan.make_map f hplan
    rw [List.map_map] at hmake
    exact .record hmake
  | wrap => exact .wrap
  | opt => exact .opt
  | star => exact .star
  | plus => exact .plus

/-- Only the parts of the children matter. -/
theorem Rhs.Planned.congr {part' : ρ → Part σ} (heq : ∀ c ∈ rhs.children, part c = part' c)
    (h : Planned rule part nonempty rhs shape) : Planned rule part' nonempty rhs shape := by
  cases h with
  | terminal => exact .terminal
  | series => exact .series
  | @choice branches plans hplans =>
    refine .choice ?_
    rw [List.forall₂_iff_zip] at hplans ⊢
    refine ⟨hplans.1, fun {b e} hmem => ?_⟩
    have hfields : b.fields.map part = b.fields.map part' :=
      List.map_congr_left fun c hc =>
        heq c (List.mem_flatMap.mpr ⟨b, (List.of_mem_zip hmem).1, hc⟩)
    exact hfields ▸ hplans.2 hmem
  | @record fields plan hplan =>
    have hfields : fields.map part = fields.map part' := List.map_congr_left heq
    exact .record (hfields ▸ hplan)
  | wrap =>
    rw [heq _ (List.mem_singleton_self _)]
    exact .wrap
  | opt =>
    rw [heq _ (List.mem_singleton_self _)]
    exact .opt
  | star =>
    rw [heq _ (List.mem_singleton_self _)]
    exact .star
  | plus =>
    rw [heq _ (List.mem_singleton_self _)]
    exact .plus

end Planned

/-! ## Compiling yield rules -/

section Compile

open NameSupply

variable {sig : Signature} {g : Grammar} {a : NonEmptiness} {s t : NameSupply}

/-- The part of a rule: its identifier and its classification. -/
def NameSupply.partOf (s : NameSupply) (a : NonEmptiness) (id : RuleId) : Part Ident :=
  ⟨s.identOf id, a.isNonempty id⟩

theorem Knows.map_partOf {ids : List RuleId} (h : Knows s ids) (hext : s.Extends t) :
    ids.map (t.partOf a) = ids.map (s.partOf a) :=
  List.map_congr_left fun c hc => by rw [partOf, partOf, hext.identOf_eq (h c hc)]

theorem run_compilePart {id : RuleId} {p : Part Ident} (hs : s.WellFormed)
    (h : (compilePart g a id).run s = .ok (p, t)) :
    t.WellFormed ∧ s.Extends t ∧ Knows t [id] ∧ p = t.partOf a id := by
  obtain ⟨i, u, hi, h⟩ := run_bind_eq_ok_iff.mp h
  obtain ⟨rfl, rfl⟩ := run_pure_eq_ok_iff.mp h
  obtain ⟨ht, hext, hlookup⟩ := CompileM.run_rule hs hi
  refine ⟨ht, hext, ?_, by rw [partOf, identOf_eq hlookup]⟩
  intro c hc
  cases List.mem_singleton.mp hc
  exact ⟨i, hlookup⟩

/-- A plan is made of the parts of its fields. -/
theorem run_compilePlan {rule : String} {fields : List RuleId} {nonempty : Bool}
    {plan : JoinPlan Ident} (hs : s.WellFormed)
    (h : (compilePlan g a rule fields nonempty).run s = .ok (plan, t)) :
    t.WellFormed ∧ s.Extends t ∧ Knows t fields ∧
      JoinPlan.make rule (fields.map (t.partOf a)) nonempty = .ok plan := by
  obtain ⟨ps, u, hps, h⟩ := run_bind_eq_ok_iff.mp h
  obtain ⟨hmake, rfl⟩ := run_liftM_eq_ok_iff.mp h
  obtain ⟨hu, hext, hall⟩ := mapM_run_ok
    (R := fun (c : RuleId) p (v : NameSupply) => Knows v [c] ∧ p = v.partOf a c)
    Extends.refl (fun _ _ _ => Extends.trans)
    (fun c p v w hR hext =>
      ⟨hR.1.extend hext, by rw [hR.2, partOf, partOf, hext.identOf_eq (hR.1 c (by simp))]⟩)
    (fun c _ _ _ hv hrun => run_compilePart hv hrun) fields hs hps
  obtain ⟨hknows, rfl⟩ := forall_and_eq_map hall
  exact ⟨hu, hext, fun c hc => hknows c hc c (List.mem_singleton_self c), hmake⟩

theorem run_compileBranchPlans {r : Rule} {nonempty : Bool} {branches : List (Branch RuleId)}
    {plans : List (String × JoinPlan Ident)} (hs : s.WellFormed)
    (h : (branches.mapM fun b => do
      let _ ← (liftM (sig.resolveBranch r b) : CompileM Constructor)
      return (b.label, ← compilePlan g a r.name b.fields nonempty)).run s = .ok (plans, t)) :
    t.WellFormed ∧ s.Extends t ∧ Knows t (branches.flatMap Branch.fields) ∧
      List.Forall₂ (fun b e => e.1 = b.label ∧
        JoinPlan.make r.name (b.fields.map (t.partOf a)) nonempty = .ok e.2) branches plans := by
  obtain ⟨ht, hext, hall⟩ := mapM_run_ok
    (R := fun (b : Branch RuleId) (e : String × JoinPlan Ident) (u : NameSupply) =>
      Knows u b.fields ∧ e.1 = b.label ∧
      JoinPlan.make r.name (b.fields.map (u.partOf a)) nonempty = .ok e.2)
    Extends.refl (fun _ _ _ => Extends.trans)
    (fun b e v w hR hext =>
      ⟨hR.1.extend hext, hR.2.1, by rw [hR.1.map_partOf hext]; exact hR.2.2⟩)
    (fun b u e v hu hrun => by
      obtain ⟨ctor, w, hask, hrun⟩ := run_bind_eq_ok_iff.mp hrun
      obtain ⟨-, rfl⟩ := run_liftM_eq_ok_iff.mp hask
      obtain ⟨plan, w, hplan, hrun⟩ := run_bind_eq_ok_iff.mp hrun
      obtain ⟨rfl, rfl⟩ := run_pure_eq_ok_iff.mp hrun
      obtain ⟨hw, huw, hknows, hmake⟩ := run_compilePlan hu hplan
      exact ⟨hw, huw, hknows, rfl, hmake⟩) branches hs h
  refine ⟨ht, hext, ?_, hall.imp fun b e he => he.2⟩
  intro c hc
  obtain ⟨b, hb, hcb⟩ := List.mem_flatMap.mp hc
  obtain ⟨e, -, hknows, -⟩ := exists_of_mem_right hall.flip hb
  exact hknows c hcb

/-- A projection is planned by its right-hand side. -/
theorem run_compileYieldShape {r : Rule} {nonempty : Bool} {shape : YieldShape Ident}
    (hs : s.WellFormed) (h : (compileYieldShape sig g a r nonempty).run s = .ok (shape, t)) :
    t.WellFormed ∧ s.Extends t ∧ Knows t r.rhs.children ∧
      Rhs.Planned r.name (t.partOf a) nonempty r.rhs shape := by
  unfold compileYieldShape at h
  cases hrhs : r.rhs with
  | terminal p =>
    rw [hrhs] at h
    obtain ⟨ctor, -, h⟩ := run_resolveRule_bind h
    obtain ⟨rfl, rfl⟩ := run_pure_eq_ok_iff.mp h
    exact ⟨hs, .refl _, fun c hc => absurd hc List.not_mem_nil, .terminal⟩
  | series literal =>
    rw [hrhs] at h
    obtain ⟨ctor, -, h⟩ := run_resolveRule_bind h
    obtain ⟨rfl, rfl⟩ := run_pure_eq_ok_iff.mp h
    exact ⟨hs, .refl _, fun c hc => absurd hc List.not_mem_nil, .series⟩
  | choice branches =>
    rw [hrhs] at h
    obtain ⟨plans, u, hplans, h⟩ := run_bind_eq_ok_iff.mp h
    obtain ⟨rfl, rfl⟩ := run_pure_eq_ok_iff.mp h
    obtain ⟨hu, hext, hknows, hall⟩ := run_compileBranchPlans hs hplans
    exact ⟨hu, hext, hknows, .choice hall⟩
  | record fields =>
    rw [hrhs] at h
    obtain ⟨ctor, -, h⟩ := run_resolveRule_bind h
    obtain ⟨plan, u, hplan, h⟩ := run_bind_eq_ok_iff.mp h
    obtain ⟨rfl, rfl⟩ := run_pure_eq_ok_iff.mp h
    obtain ⟨hu, hext, hknows, hmake⟩ := run_compilePlan hs hplan
    exact ⟨hu, hext, hknows, .record hmake⟩
  | wrap inner =>
    rw [hrhs] at h
    obtain ⟨ctor, -, h⟩ := run_resolveRule_bind h
    obtain ⟨p, u, hp, h⟩ := run_bind_eq_ok_iff.mp h
    obtain ⟨rfl, rfl⟩ := run_pure_eq_ok_iff.mp h
    obtain ⟨hu, hext, hknows, rfl⟩ := run_compilePart hs hp
    exact ⟨hu, hext, hknows, .wrap⟩
  | opt inner =>
    rw [hrhs] at h
    obtain ⟨ctor, -, h⟩ := run_resolveRule_bind h
    obtain ⟨p, u, hp, h⟩ := run_bind_eq_ok_iff.mp h
    obtain ⟨rfl, rfl⟩ := run_pure_eq_ok_iff.mp h
    obtain ⟨hu, hext, hknows, rfl⟩ := run_compilePart hs hp
    exact ⟨hu, hext, hknows, .opt⟩
  | star inner =>
    rw [hrhs] at h
    obtain ⟨ctor, -, h⟩ := run_resolveRule_bind h
    obtain ⟨p, u, hp, h⟩ := run_bind_eq_ok_iff.mp h
    obtain ⟨rfl, rfl⟩ := run_pure_eq_ok_iff.mp h
    obtain ⟨hu, hext, hknows, rfl⟩ := run_compilePart hs hp
    exact ⟨hu, hext, hknows, .star⟩
  | plus inner =>
    rw [hrhs] at h
    obtain ⟨ctor, -, h⟩ := run_resolveRule_bind h
    obtain ⟨p, u, hp, h⟩ := run_bind_eq_ok_iff.mp h
    obtain ⟨rfl, rfl⟩ := run_pure_eq_ok_iff.mp h
    obtain ⟨hu, hext, hknows, rfl⟩ := run_compilePart hs hp
    exact ⟨hu, hext, hknows, .plus⟩

/-- What the binding of a yield rule holds. -/
def YieldRuleCompiled (g : Grammar) (a : NonEmptiness) (t : NameSupply) (id : RuleId)
    (b : Binding (YieldRule Ident)) : Prop :=
  ∃ r shape, g.get? id = some r ∧ Knows t (id :: r.rhs.children) ∧
    Rhs.Planned r.name (t.partOf a) (a.isNonempty id) r.rhs shape ∧
    b = ⟨t.identOf id, ⟨r.name, a.isNonempty id, shape⟩⟩

theorem YieldRuleCompiled.extend {id : RuleId} {b : Binding (YieldRule Ident)}
    (h : YieldRuleCompiled g a s id b) (hext : s.Extends t) : YieldRuleCompiled g a t id b := by
  obtain ⟨r, shape, hr, hknows, hplanned, rfl⟩ := h
  refine ⟨r, shape, hr, hknows.extend hext, hplanned.congr ?_, ?_⟩
  · intro c hc
    rw [partOf, partOf, hext.identOf_eq (hknows c (List.mem_cons_of_mem _ hc))]
  · rw [hext.identOf_eq (hknows id List.mem_cons_self)]

theorem run_compileYieldRule {id : RuleId} {b : Binding (YieldRule Ident)} (hs : s.WellFormed)
    (h : (compileYieldRule sig g a id).run s = .ok (b, t)) :
    t.WellFormed ∧ s.Extends t ∧ YieldRuleCompiled g a t id b := by
  obtain ⟨r, u, hask, h⟩ := run_bind_eq_ok_iff.mp h
  obtain ⟨hr, rfl⟩ := run_liftM_eq_ok_iff.mp hask
  obtain ⟨shape, u, hshape, h⟩ := run_bind_eq_ok_iff.mp h
  obtain ⟨i, v, hi, h⟩ := run_bind_eq_ok_iff.mp h
  obtain ⟨rfl, rfl⟩ := run_pure_eq_ok_iff.mp h
  obtain ⟨hu, hsu, hknows, hplanned⟩ := run_compileYieldShape hs hshape
  obtain ⟨hv, huv, hlookup⟩ := CompileM.run_rule hu hi
  refine ⟨hv, hsu.trans huv, r, shape, Grammar.rule_eq_ok_iff.mp hr, ?_, hplanned.congr ?_, ?_⟩
  · intro c hc
    rcases List.mem_cons.mp hc with rfl | hc
    · exact ⟨i, hlookup⟩
    · exact hknows.extend huv c hc
  · intro c hc
    rw [partOf, partOf, huv.identOf_eq (hknows c hc)]
  · rw [identOf_eq hlookup]

end Compile

/-! ## The compiled table -/

/-- A table that holds the yield rules of `ids`, each in its slot. -/
structure YieldRules (g : Grammar) (a : NonEmptiness) (ids : List RuleId) (table : YieldTable)
    (place : RuleId → Slot) : Prop where
  rule : ∀ id ∈ ids, ∃ r shape, g.get? id = some r ∧
    table.get (place id) = ⟨r.name, a.isNonempty id, shape⟩ ∧
    Rhs.Planned r.name (fun c => ⟨place c, a.isNonempty c⟩) (a.isNonempty id) r.rhs shape
  closed : ∀ id ∈ ids, ∀ r, g.get? id = some r → ∀ c ∈ r.rhs.children, c ∈ ids

/-- A table that was compiled holds the yield rules of everything that the roots reach,
and its result are the slots of the roots. -/
theorem Terminalizer.compileTable_spec {sig : Signature} {g : Grammar} {roots : List RuleId}
    {table : YieldTable} (hg : g.WellFormed) (h : compileTable sig g roots = .ok table) :
    ∃ place, YieldRules g (NonEmptiness.analyze g) (g.reachable roots) table place ∧
      ((∀ root ∈ roots, root ∈ g.reachable roots) → table.body = roots.map place) := by
  unfold compileTable at h
  obtain ⟨_, -, h⟩ := bind_eq_ok_iff.mp h
  obtain ⟨⟨⟨bindings, idents⟩, u⟩, hrun, hclose⟩ := bind_eq_ok_iff.mp h
  obtain ⟨bindings', t, hbindings, hrun⟩ := run_bind_eq_ok_iff.mp hrun
  obtain ⟨idents', u', hidents, hrun⟩ := run_bind_eq_ok_iff.mp hrun
  obtain ⟨heq, rfl⟩ := run_pure_eq_ok_iff.mp hrun
  cases heq
  obtain ⟨ht, -, hall⟩ := mapM_run_ok
    (R := fun id b (v : NameSupply) => YieldRuleCompiled g (NonEmptiness.analyze g) v id b)
    NameSupply.Extends.refl (fun _ _ _ => NameSupply.Extends.trans)
    (fun id b v w hR hext => hR.extend hext)
    (fun id v b w hv hrun => run_compileYieldRule hv hrun) _ NameSupply.wellFormed_empty hbindings
  obtain ⟨-, hext, -, rfl⟩ := CompileM.run_rules ht hidents
  refine ⟨Group.slotOf (bindings.map Binding.ident) ∘ t.identOf, ⟨?_, ?_⟩, ?_⟩
  · intro id hid
    obtain ⟨b, hb, r, shape, hr, -, hplanned, rfl⟩ := exists_of_mem_right hall.flip hid
    obtain ⟨slot, hslot, hresolve⟩ := Group.exists_slot_of_close hclose hb
    obtain ⟨shape', hshape, hpure⟩ := bind_eq_ok_iff.mp hresolve
    cases hpure
    refine ⟨r, shape', hr, ?_, ?_⟩
    · rw [Group.get, Array.getD_eq_getD_getElem?, Function.comp_apply, hslot, Option.getD_some]
    · rw [YieldShape.resolve_eq_map (fun i j hij => (Group.lookup_eq_ok_iff.mp hij).2) hshape]
      exact hplanned.map _
  · exact fun id hid r hr c hc => hg.mem_reachable_child hid hr hc
  · intro hroots
    obtain ⟨-, -, -, hbody⟩ := Group.close_eq_ok hclose
    rw [hbody, List.map_map]
    refine List.map_congr_left fun id hid => ?_
    obtain ⟨b, -, r, -, -, hknows, -, -⟩ := exists_of_mem_right hall.flip (hroots id hid)
    rw [Function.comp_apply, Function.comp_apply,
      hext.identOf_eq (hknows id List.mem_cons_self)]

/-- The terminalizer of a rule starts from the slot of that rule. -/
theorem Terminalizer.compile_spec {sig : Signature} {g : Grammar} {root : RuleId}
    {t : Terminalizer} (hg : g.WellFormed) (hroot : g.contains root = true)
    (h : compile sig g root = .ok t) :
    ∃ place, YieldRules g (NonEmptiness.analyze g) (g.reachable [root]) t.table place ∧
      t.root = place root := by
  obtain ⟨table, htable, hpure⟩ := bind_eq_ok_iff.mp h
  cases hpure
  obtain ⟨place, hrules, hbody⟩ := compileTable_spec hg htable
  refine ⟨place, hrules, ?_⟩
  have hmem : ∀ id ∈ [root], id ∈ g.reachable [root] :=
    fun id hid => Grammar.mem_reachable_root hid (List.mem_singleton.mp hid ▸ hroot)
  rw [hbody hmem]
  rfl

end ChartGrammar
