/-
  Proofs/TerminalizerExists.lean --- every rule has a terminalizer.

  Over the signature of its own grammar no rule fails to compile.  Constructors resolve,
  since the signature names them all; a rule that is called nonempty has a nonempty part
  to join the others to, since its right-hand side vouches for it; and every identifier
  that a projection mentions is bound, since the rules that the root reaches are closed
  under children.
-/
import ChartGrammar.Proofs.Terminalizing

set_option autoImplicit false

namespace ChartGrammar

/-! ## Plans -/

section Plans

variable {ρ σ τ ε : Type}

/-- There is a plan for fields one of which is nonempty if their rule is. -/
theorem JoinPlan.exists_make (rule : String) {ps : List (Part ρ)} {nonempty : Bool}
    (h : nonempty = true → ps.any Part.nonempty = true) :
    ∃ plan, make rule ps nonempty = .ok plan := by
  unfold make
  split
  · next hnonempty =>
    split
    · exact ⟨_, rfl⟩
    · next hdrop =>
      obtain ⟨p, hp, hflag⟩ := List.any_eq_true.mp (h hnonempty)
      have := List.dropWhile_eq_nil_iff.mp hdrop p hp
      simp [hflag] at this
  · exact ⟨_, rfl⟩

theorem Part.exists_resolve {f : ρ → Except ε σ} {p : Part ρ} (h : ∃ j, f p.target = .ok j) :
    ∃ q, p.resolve f = .ok q := by
  obtain ⟨j, hj⟩ := h
  exact ⟨_, bind_eq_ok_iff.mpr ⟨j, hj, rfl⟩⟩

theorem JoinPlan.exists_resolve {f : ρ → Except ε σ} {plan : JoinPlan ρ}
    (h : ∀ p ∈ plan.parts, ∃ j, f p.target = .ok j) : ∃ plan', plan.resolve f = .ok plan' := by
  have hparts : ∀ ps : List (Part ρ), (∀ p ∈ ps, p ∈ plan.parts) →
      ∃ qs, ps.mapM (Part.resolve f) = .ok qs :=
    fun ps hsub => exists_mapM_eq_ok fun p hp => Part.exists_resolve (h p (hsub p hp))
  cases plan with
  | flat ps =>
    obtain ⟨qs, hqs⟩ := hparts ps fun p hp => hp
    exact ⟨_, bind_eq_ok_iff.mpr ⟨qs, hqs, rfl⟩⟩
  | pivot before p after =>
    obtain ⟨qs, hqs⟩ := hparts before fun p hp => List.mem_append_left _ hp
    obtain ⟨q, hq⟩ :=
      Part.exists_resolve (h p (List.mem_append_right _ List.mem_cons_self))
    obtain ⟨rs, hrs⟩ := hparts after fun p hp =>
      List.mem_append_right _ (List.mem_cons_of_mem _ hp)
    exact ⟨_, bind_eq_ok_iff.mpr ⟨qs, hqs, bind_eq_ok_iff.mpr ⟨q, hq,
      bind_eq_ok_iff.mpr ⟨rs, hrs, rfl⟩⟩⟩⟩

/-- A planned projection resolves if the parts of the children do. -/
theorem Rhs.Planned.exists_resolve {rule : String} {part : ρ → Part σ} {nonempty : Bool}
    {rhs : Rhs ρ} {shape : YieldShape σ} {f : σ → Except ε τ}
    (h : Planned rule part nonempty rhs shape)
    (hf : ∀ c ∈ rhs.children, ∃ j, f (part c).target = .ok j) :
    ∃ shape', shape.resolve f = .ok shape' := by
  have hplan : ∀ (fields : List ρ) (plan : JoinPlan σ), (∀ c ∈ fields, c ∈ rhs.children) →
      JoinPlan.make rule (fields.map part) nonempty = .ok plan →
      ∃ plan', plan.resolve f = .ok plan' := by
    intro fields plan hsub hmake
    refine JoinPlan.exists_resolve fun p hp => ?_
    rw [JoinPlan.parts_of_make hmake] at hp
    obtain ⟨c, hc, rfl⟩ := List.mem_map.mp hp
    exact hf c (hsub c hc)
  have hpart : ∀ c ∈ rhs.children, ∃ q, (part c).resolve f = .ok q :=
    fun c hc => Part.exists_resolve (hf c hc)
  cases h with
  | terminal => exact ⟨_, rfl⟩
  | series => exact ⟨_, rfl⟩
  | @choice branches plans hplans =>
    have hbranches : ∀ e ∈ plans, ∃ e', (do
        return (e.1, ← e.2.resolve f) : Except ε (String × JoinPlan τ)) = .ok e' := by
      intro e he
      obtain ⟨b, hb, -, hmake⟩ := exists_of_mem_right hplans he
      obtain ⟨plan', hplan'⟩ := hplan b.fields e.2
        (fun c hc => List.mem_flatMap.mpr ⟨b, hb, hc⟩) hmake
      exact ⟨_, bind_eq_ok_iff.mpr ⟨plan', hplan', rfl⟩⟩
    obtain ⟨es, hes⟩ := exists_mapM_eq_ok hbranches
    exact ⟨_, bind_eq_ok_iff.mpr ⟨es, hes, rfl⟩⟩
  | @record fields plan hmake =>
    obtain ⟨plan', hplan'⟩ := hplan fields plan (fun c hc => hc) hmake
    exact ⟨_, bind_eq_ok_iff.mpr ⟨plan', hplan', rfl⟩⟩
  | wrap | opt | star | plus =>
    obtain ⟨q, hq⟩ := hpart _ (List.mem_singleton_self _)
    exact ⟨_, bind_eq_ok_iff.mpr ⟨q, hq, rfl⟩⟩

end Plans

/-! ## Rules -/

section Compile

variable {sig : Signature} {g : Grammar} {a : NonEmptiness}

theorem exists_run_compilePlan (rule : String) {fields : List RuleId} {nonempty : Bool}
    (h : nonempty = true → fields.any a.isNonempty = true) (s : NameSupply) :
    ∃ plan t, (compilePlan g a rule fields nonempty).run s = .ok (plan, t) := by
  have hparts : ∀ c ∈ fields, ∀ s, ∃ p t, (compilePart g a c).run s = .ok (p, t) :=
    fun c _ s => ⟨_, _, rfl⟩
  obtain ⟨ps, t, hps⟩ := exists_mapM_run_eq_ok hparts s
  have hflags : List.Forall₂ (fun c (p : Part Ident) => p.nonempty = a.isNonempty c) fields ps :=
    (@mapM_run_ok _ _ _ _ (compilePart g a) (fun _ => True) (fun _ _ => True)
      (fun c p _ => p.nonempty = a.isNonempty c) (fun _ => trivial) (fun _ _ _ _ _ => trivial)
      (fun _ _ _ _ hR _ => hR)
      (fun c s p t _ hrun => by
        cases hrun
        exact ⟨trivial, trivial, rfl⟩) fields _ _ _ trivial hps).2.2
  have hany : nonempty = true → ps.any Part.nonempty = true := by
    intro hnonempty
    obtain ⟨c, hc, hflag⟩ := List.any_eq_true.mp (h hnonempty)
    obtain ⟨p, hp, heq⟩ := exists_of_mem_right hflags.flip hc
    exact List.any_eq_true.mpr ⟨p, hp, heq.trans hflag⟩
  obtain ⟨plan, hplan⟩ := JoinPlan.exists_make rule hany
  exact ⟨plan, t, run_bind_eq_ok_iff.mpr ⟨ps, t, hps, run_liftM_eq_ok_iff.mpr ⟨hplan, rfl⟩⟩⟩

theorem exists_run_compileBranchPlan {r : Rule} {b : Branch RuleId} {c : Constructor}
    {nonempty : Bool} (hask : sig.resolveBranch r b = .ok c)
    (h : nonempty = true → b.fields.any a.isNonempty = true) (s : NameSupply) :
    ∃ e t, (do
      let _ ← (liftM (sig.resolveBranch r b) : CompileM Constructor)
      return (b.label, ← compilePlan g a r.name b.fields nonempty) :
        CompileM (String × JoinPlan Ident)).run s = .ok (e, t) := by
  obtain ⟨plan, t, hplan⟩ := exists_run_compilePlan (g := g) r.name h s
  exact ⟨_, t, run_bind_eq_ok_iff.mpr ⟨c, s, run_liftM_eq_ok_iff.mpr ⟨hask, rfl⟩,
    run_bind_eq_ok_iff.mpr ⟨plan, t, hplan, rfl⟩⟩⟩

/-- A rule for which the signature answers has a projection, if it is vouched for whenever
it is called nonempty. -/
theorem exists_run_compileYieldShape {r : Rule} {nonempty : Bool} (hagrees : sig.Agrees r)
    (hvouches : nonempty = true → r.rhs.vouches a.isNonempty = true) (s : NameSupply) :
    ∃ shape t, (compileYieldShape sig g a r nonempty).run s = .ok (shape, t) := by
  have hresolve := @Signature.Agrees.resolveRule sig r hagrees
  unfold compileYieldShape
  cases hrhs : r.rhs with
  | choice branches =>
    rw [hrhs] at hvouches
    obtain ⟨es, t, hes⟩ := exists_mapM_run_eq_ok (fun b hb => exists_run_compileBranchPlan (g := g)
      (hagrees.resolveBranch (by simpa [Production.branches, hrhs] using hb))
      fun h => List.all_eq_true.mp (hvouches h) b hb) s
    exact ⟨_, t, run_bind_eq_ok_iff.mpr ⟨es, t, hes, rfl⟩⟩
  | record fields =>
    rw [hrhs] at hvouches
    have hctor := hresolve (by rw [Production.constructor?, hrhs])
    obtain ⟨plan, t, hplan⟩ := exists_run_compilePlan (g := g) r.name hvouches s
    exact ⟨_, t, run_bind_eq_ok_iff.mpr ⟨_, s, run_liftM_eq_ok_iff.mpr ⟨hctor, rfl⟩,
      run_bind_eq_ok_iff.mpr ⟨plan, t, hplan, rfl⟩⟩⟩
  | terminal | series | wrap | opt | star | plus =>
    have hctor := hresolve (by rw [Production.constructor?, hrhs])
    exact ⟨_, _, run_bind_eq_ok_iff.mpr ⟨_, s, run_liftM_eq_ok_iff.mpr ⟨hctor, rfl⟩, rfl⟩⟩

theorem exists_run_compileYieldRule {id : RuleId} {r : Rule} (hr : g.get? id = some r)
    (hagrees : sig.Agrees r)
    (hvouches : a.isNonempty id = true → r.rhs.vouches a.isNonempty = true) (s : NameSupply) :
    ∃ b t, (compileYieldRule sig g a id).run s = .ok (b, t) := by
  obtain ⟨shape, u, hshape⟩ := exists_run_compileYieldShape (g := g) hagrees hvouches s
  obtain ⟨i, t, hi⟩ := CompileM.exists_run_rule g id u
  exact ⟨_, t, run_bind_eq_ok_iff.mpr
    ⟨r, s, run_liftM_eq_ok_iff.mpr ⟨Grammar.rule_eq_ok_iff.mpr hr, rfl⟩,
      run_bind_eq_ok_iff.mpr ⟨shape, u, hshape, run_bind_eq_ok_iff.mpr ⟨i, t, hi, rfl⟩⟩⟩⟩

/-- Different rules that a supply knows have different identifiers. -/
theorem NameSupply.WellFormed.identOf_inj {s : NameSupply} (hs : s.WellFormed) {id id' : RuleId}
    (hid : ∃ i, s.rules.lookup id = some i) (hid' : ∃ i, s.rules.lookup id' = some i)
    (heq : s.identOf id = s.identOf id') : id = id' := by
  obtain ⟨i, hi⟩ := hid
  obtain ⟨i', hi'⟩ := hid'
  rw [identOf_eq hi, identOf_eq hi'] at heq
  exact hs.injective id id' i i' hi hi' (congrArg Ident.id heq)

/-- The yield rules of everything that some roots reach compile, if the signature answers
for all of it. -/
theorem Terminalizer.exists_compileTable {roots : List RuleId} (hg : g.WellFormed)
    (hroots : ∀ root ∈ roots, g.contains root = true)
    (hagrees : ∀ id ∈ g.reachable roots, ∃ r, g.get? id = some r ∧ sig.Agrees r) :
    ∃ table, compileTable sig g roots = .ok table := by
  have hrule : ∀ id ∈ g.reachable roots, ∀ s, ∃ b t,
      (compileYieldRule sig g (NonEmptiness.analyze g) id).run s = .ok (b, t) := by
    intro id hid s
    obtain ⟨r, hr, hagree⟩ := hagrees id hid
    exact exists_run_compileYieldRule hr hagree (NonEmptiness.vouches_of_isNonempty hr) s
  obtain ⟨bindings, t, hbindings⟩ := exists_mapM_run_eq_ok hrule {}
  obtain ⟨idents, u, hidents⟩ := CompileM.exists_run_rules g roots t
  obtain ⟨ht, -, hall⟩ := mapM_run_ok
    (R := fun id b (v : NameSupply) => YieldRuleCompiled g (NonEmptiness.analyze g) v id b)
    NameSupply.Extends.refl (fun _ _ _ => NameSupply.Extends.trans)
    (fun id b v w hR hext => hR.extend hext)
    (fun id v b w hv hrun => run_compileYieldRule hv hrun) _ NameSupply.wellFormed_empty hbindings
  obtain ⟨-, hext, -, rfl⟩ := CompileM.run_rules ht hidents
  have hpairs : List.Forall₂ (fun id (b : Binding (YieldRule Ident)) =>
      (∃ i, t.rules.lookup id = some i) ∧ b.ident = t.identOf id) (g.reachable roots) bindings := by
    refine hall.imp fun id b hb => ?_
    obtain ⟨r, shape, -, hknows, -, rfl⟩ := hb
    exact ⟨hknows id List.mem_cons_self, rfl⟩
  obtain ⟨hknown, hnames⟩ := forall_and_eq_map (List.forall₂_map_right_iff.mpr hpairs)
  have hbound : ∀ id ∈ g.reachable roots, t.identOf id ∈ bindings.map Binding.ident := by
    intro id hid
    rw [hnames]
    exact List.mem_map_of_mem hid
  obtain ⟨table, htable⟩ : ∃ table,
      Group.closeYieldRules bindings (roots.map u.identOf) = .ok table := by
    refine Group.exists_close_eq_ok ?_ ?_ ?_
    · rw [hnames]
      exact (Grammar.reachable_result g roots).nodup.map_on fun id hid id' hid' heq =>
        ht.identOf_inj (hknown id hid) (hknown id' hid') heq
    · intro b hb
      obtain ⟨id, hid, r, shape, hr, -, hplanned, rfl⟩ := exists_of_mem_right hall hb
      obtain ⟨shape', hshape⟩ := hplanned.exists_resolve fun c hc =>
        ⟨_, Group.lookup_eq_ok_iff.mpr ⟨hbound c (hg.mem_reachable_child hid hr hc), rfl⟩⟩
      exact ⟨_, bind_eq_ok_iff.mpr ⟨shape', hshape, rfl⟩⟩
    · intro i hi
      obtain ⟨id, hid, rfl⟩ := List.mem_map.mp hi
      have hmem := Grammar.mem_reachable_root hid (hroots id hid)
      rw [hext.identOf_eq (hknown id hmem)]
      exact hbound id hmem
  exact ⟨table, bind_eq_ok_iff.mpr ⟨(), Grammar.forM_rule_eq_ok_iff.mpr hroots, bind_eq_ok_iff.mpr
    ⟨((bindings, roots.map u.identOf), u), run_bind_eq_ok_iff.mpr ⟨_, t, hbindings,
      run_bind_eq_ok_iff.mpr ⟨_, u, hidents, rfl⟩⟩, htable⟩⟩⟩

/-- Over the signature of a well-formed grammar every rule has a terminalizer. -/
theorem Terminalizer.exists_compile {root : RuleId} (hg : g.WellFormed)
    (hroot : g.contains root = true) :
    ∃ t, compile (Signature.ofGrammar g) g root = .ok t := by
  have hroots : ∀ id ∈ [root], g.contains id = true :=
    fun id hid => List.mem_singleton.mp hid ▸ hroot
  obtain ⟨table, htable⟩ := exists_compileTable hg hroots fun id hid => by
    obtain ⟨r, hr⟩ := Grammar.exists_get?_of_reachable hid
    exact ⟨r, hr, Signature.agrees_ofGrammar hg hr⟩
  exact ⟨_, bind_eq_ok_iff.mpr ⟨table, htable, rfl⟩⟩

end Compile

end ChartGrammar
