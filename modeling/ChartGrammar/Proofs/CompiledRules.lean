/-
  Proofs/CompiledRules.lean --- the registry that a grammar is compiled to.

  Compiling issues identifiers, emits bindings, closes them into slots and turns
  slots into handles.  Seen from its two ends, the compiler gives every rule a
  handle whose body is a fixed expression over the handles of the rule's children,
  and every repetition a second handle for its list.
-/
import ChartGrammar.Parser.Compiled
import ChartGrammar.Proofs.Identifiers
import ChartGrammar.Proofs.Reachable
import ChartGrammar.Proofs.References
import ChartGrammar.Proofs.Signature

set_option autoImplicit false

namespace ChartGrammar

/-! ## The expression of a right-hand side -/

namespace Rhs

variable {ρ σ : Type}

/-- The expression of a branch over its fields. -/
def branchExpr (rule : String) (b : Branch ρ) : Expr ρ :=
  .map (.branch rule b.label b.fields.length) (.ofFields b.fields)

/-- The expression of a right-hand side; a repetition refers to `list` for its
items. -/
def expr (rule : String) (list : ρ) : Rhs ρ → Expr ρ
  | terminal p => .map (.terminal rule) (.matchOne p)
  | choice [] => .nothing
  | choice (b :: bs) => .oneOf (branchExpr rule b) (bs.map (branchExpr rule))
  | wrap r => .map (.wrap rule) (.ref r)
  | record fields => .map (.record rule fields.length) (.ofFields fields)
  | opt r => .map (.opt rule) (.alt .nothing (.just (.ref r)))
  | star _ => .map (.star rule) (.ref list)
  | plus r => .map (.plus rule) (.pair (.ref r) (.ref list))
  | series literal => .map (.series rule) (.symbol literal)

/-- The rule that a repetition repeats. -/
def repeated? : Rhs ρ → Option ρ
  | star r | plus r => some r
  | _ => none

theorem repeated?_mem_children {rhs : Rhs ρ} {r : ρ} (h : rhs.repeated? = some r) :
    r ∈ rhs.children := by
  cases rhs with
  | star r' =>
    cases h
    exact List.mem_singleton_self _
  | plus r' =>
    cases h
    exact List.mem_singleton_self _
  | _ => cases h

theorem mapRefs_ofFields (f : ρ → σ) (refs : List ρ) :
    (Expr.ofFields refs).mapRefs f = .ofFields (refs.map f) := by
  cases refs with
  | nil => simp only [Expr.ofFields, Expr.mapRefs, List.map_nil]
  | cons r refs =>
    simp only [Expr.ofFields, Expr.mapRefs, Expr.mapRefsAll_eq_map, List.map_map, List.map_cons,
      Function.comp_def]

theorem mapRefs_oneOf (f : ρ → σ) (others : List (Expr ρ)) :
    ∀ first : Expr ρ, (Expr.oneOf first others).mapRefs f =
      .oneOf (first.mapRefs f) (others.map (Expr.mapRefs f)) := by
  induction others with
  | nil => exact fun _ => rfl
  | cons e others ih =>
    intro first
    have := ih (.alt first e)
    simpa [Expr.oneOf, Expr.mapRefs] using this

theorem mapRefs_branchExpr (f : ρ → σ) (rule : String) (b : Branch ρ) :
    (branchExpr rule b).mapRefs f = branchExpr rule ⟨b.label, b.fields.map f⟩ := by
  simp only [branchExpr, Expr.mapRefs, mapRefs_ofFields, List.length_map]

/-- Replacing references in the expression of a right-hand side. -/
theorem mapRefs_expr (f : ρ → σ) (rule : String) (list : ρ) (rhs : Rhs ρ) :
    (rhs.expr rule list).mapRefs f = (rhs.map f).expr rule (f list) := by
  cases rhs with
  | choice branches =>
    cases branches with
    | nil => simp only [expr, map, Expr.mapRefs, List.map_nil]
    | cons b bs =>
      simp only [expr, map, List.map_cons, mapRefs_oneOf, mapRefs_branchExpr, List.map_map]
      congr 1
      exact List.map_congr_left fun b' _ => mapRefs_branchExpr f rule b'
  | record fields => simp only [expr, map, Expr.mapRefs, mapRefs_ofFields, List.length_map]
  | _ => simp only [expr, map, Expr.mapRefs]

theorem refs_ofFields (refs : List ρ) : (Expr.ofFields refs).refs = refs := by
  cases refs with
  | nil => simp only [Expr.ofFields, Expr.refs]
  | cons r refs =>
    simp only [Expr.ofFields, Expr.refs, Expr.refsAll_eq_flatMap, List.flatMap_map]
    simp

theorem refs_oneOf (others : List (Expr ρ)) :
    ∀ first : Expr ρ, (Expr.oneOf first others).refs = first.refs ++ others.flatMap Expr.refs := by
  induction others with
  | nil => exact fun first => (List.append_nil _).symm
  | cons e others ih =>
    intro first
    rw [Expr.oneOf, List.foldl_cons, ← Expr.oneOf, ih, Expr.refs, List.flatMap_cons,
      List.append_assoc]

theorem refs_branchExpr (rule : String) (b : Branch ρ) : (branchExpr rule b).refs = b.fields := by
  rw [branchExpr, Expr.refs, refs_ofFields]

/-- Without a list, an expression refers to the children in their order. -/
theorem refs_expr {rhs : Rhs ρ} (h : rhs.repeated? = none) (rule : String) (list : ρ) :
    (rhs.expr rule list).refs = rhs.children := by
  cases rhs with
  | choice branches =>
    cases branches with
    | nil => rfl
    | cons b bs =>
      rw [expr, refs_oneOf, refs_branchExpr, List.flatMap_map, children, List.flatMap_cons]
      simp only [refs_branchExpr]
  | record fields => rw [expr, Expr.refs, refs_ofFields, children]
  | star r => cases h
  | plus r => cases h
  | _ => rfl

/-- The expression of a right-hand side refers to its children, and to the list if it is
a repetition. -/
theorem mem_refs_expr {rule : String} {list r : ρ} {rhs : Rhs ρ}
    (h : r ∈ (rhs.expr rule list).refs) :
    r ∈ rhs.children ∨ (r = list ∧ rhs.repeated?.isSome = true) := by
  cases hrepeated : rhs.repeated? with
  | none =>
    rw [refs_expr hrepeated] at h
    exact .inl h
  | some inner =>
    have hrefs : r ∈ rhs.children ∨ r = list := by
      cases rhs with
      | star r' => exact .inr (by simpa [expr, Expr.refs] using h)
      | plus r' => simpa [expr, Expr.refs, children] using h
      | _ => cases hrepeated
    exact hrefs.imp_right fun heq => ⟨heq, rfl⟩

end Rhs

/-! ## The bindings of a rule -/

/-- The bindings of a rule under identifiers for rules and for its list. -/
def ruleBindings (f : RuleId → Ident) (list : Ident) (id : RuleId) (r : Rule) :
    List (Binding (Expr Ident)) :=
  ⟨f id, .label r.title ((r.rhs.map f).expr r.name list)⟩ ::
    (r.rhs.repeated?.map fun inner => (⟨list, .listOf (f inner) list⟩ : Binding _)).toList

theorem ruleBindings_congr {f h : RuleId → Ident} {list : Ident} {id : RuleId} {r : Rule}
    (hid : f id = h id) (heq : ∀ c ∈ r.rhs.children, f c = h c) :
    ruleBindings f list id r = ruleBindings h list id r := by
  rw [ruleBindings, ruleBindings, hid, Rhs.map_congr heq]
  cases hrepeated : r.rhs.repeated? with
  | none => rfl
  | some inner => simp only [heq inner (Rhs.repeated?_mem_children hrepeated), Option.map_some]

section Compile

open NameSupply

variable {sig : Signature} {g : Grammar} {s t u : NameSupply}

/-- All the rules that a list names have identifiers. -/
def Knows (s : NameSupply) (ids : List RuleId) : Prop := ∀ c ∈ ids, ∃ i, s.rules.lookup c = some i

theorem Knows.extend {ids : List RuleId} (h : Knows s ids) (hext : s.Extends t) :
    Knows t ids :=
  fun c hc => hext.known (h c hc)

theorem Knows.map_identOf {ids : List RuleId} (h : Knows s ids) (hext : s.Extends t) :
    ids.map t.identOf = ids.map s.identOf :=
  List.map_congr_left fun c hc => hext.identOf_eq (h c hc)

theorem run_compileBranch {r : Rule} {b : Branch RuleId} {e : Expr Ident}
    (hs : s.WellFormed) (h : (compileBranch sig g r b).run s = .ok (e, t)) :
    t.WellFormed ∧ s.Extends t ∧ Knows t b.fields ∧
      e = Rhs.branchExpr r.name ⟨b.label, b.fields.map t.identOf⟩ := by
  unfold compileBranch at h
  obtain ⟨ctor, u, hask, h⟩ := run_bind_eq_ok_iff.mp h
  obtain ⟨hctor, rfl⟩ := run_liftM_eq_ok_iff.mp hask
  obtain ⟨fields, u, hfields, h⟩ := run_bind_eq_ok_iff.mp h
  obtain ⟨rfl, rfl⟩ := run_pure_eq_ok_iff.mp h
  obtain ⟨ht, hext, hknows, rfl⟩ := CompileM.run_rules hs hfields
  refine ⟨ht, hext, hknows, ?_⟩
  rw [Signature.resolveBranch_eq_ok hctor, Production.branchConstructor, Rhs.branchExpr,
    List.length_map]

theorem run_compileBranches {r : Rule} {branches : List (Branch RuleId)}
    {es : List (Expr Ident)} (hs : s.WellFormed)
    (h : (branches.mapM (compileBranch sig g r)).run s = .ok (es, t)) :
    t.WellFormed ∧ s.Extends t ∧ Knows t (branches.flatMap Branch.fields) ∧
      es = branches.map fun b => Rhs.branchExpr r.name ⟨b.label, b.fields.map t.identOf⟩ := by
  obtain ⟨ht, hext, hall⟩ := mapM_run_ok
    (R := fun (b : Branch RuleId) e (u : NameSupply) => Knows u b.fields ∧
      e = Rhs.branchExpr r.name ⟨b.label, b.fields.map u.identOf⟩)
    Extends.refl (fun _ _ _ => Extends.trans)
    (fun b e v w hR hext => ⟨hR.1.extend hext, by rw [hR.1.map_identOf hext]; exact hR.2⟩)
    (fun b _ _ _ hv hrun => run_compileBranch (b := b) hv hrun) branches hs h
  obtain ⟨hknows, hes⟩ := forall_and_eq_map hall
  refine ⟨ht, hext, ?_, hes⟩
  intro c hc
  obtain ⟨b, hb, hcb⟩ := List.mem_flatMap.mp hc
  exact hknows b hb c hcb

theorem run_resolveRule_bind {α : Type} {r : Rule} {k : Constructor → CompileM α} {a : α}
    (h : (do let c ← (liftM (sig.resolveRule r) : CompileM Constructor); k c).run s =
      .ok (a, t)) :
    ∃ c, r.constructor? = some c ∧ (k c).run s = .ok (a, t) := by
  obtain ⟨c, u, hask, hk⟩ := run_bind_eq_ok_iff.mp h
  obtain ⟨hc, rfl⟩ := run_liftM_eq_ok_iff.mp hask
  exact ⟨c, Signature.resolveRule_eq_ok hc, hk⟩

/-- What compiling a right-hand side gives, and what it does to the supply. -/
theorem run_compileRhs {id : RuleId} {r : Rule} {e : Expr Ident}
    {helpers : List (Binding (Expr Ident))} (hs : s.WellFormed)
    (h : (compileRhs sig g id r).run s = .ok ((e, helpers), t)) :
    t.WellFormed ∧ s.Extends t ∧ Knows t r.rhs.children ∧
      ∃ list, (r.rhs.repeated?.isSome = true → Auxiliary s t list) ∧
        e = (r.rhs.map t.identOf).expr r.name list ∧
        helpers = (r.rhs.repeated?.map fun inner =>
          (⟨list, .listOf (t.identOf inner) list⟩ : Binding _)).toList := by
  unfold compileRhs at h
  cases hrhs : r.rhs with
  | terminal p =>
    rw [hrhs] at h
    obtain ⟨ctor, hctor, h⟩ := run_resolveRule_bind h
    simp only [Production.constructor?, hrhs, Option.some.injEq] at hctor
    obtain ⟨heq, rfl⟩ := run_pure_eq_ok_iff.mp h
    cases heq
    exact ⟨hs, .refl _, by simp [Knows, Rhs.children], default, by simp [Rhs.repeated?],
      by rw [← hctor]; rfl, rfl⟩
  | series literal =>
    rw [hrhs] at h
    obtain ⟨ctor, hctor, h⟩ := run_resolveRule_bind h
    simp only [Production.constructor?, hrhs, Option.some.injEq] at hctor
    obtain ⟨heq, rfl⟩ := run_pure_eq_ok_iff.mp h
    cases heq
    exact ⟨hs, .refl _, by simp [Knows, Rhs.children], default, by simp [Rhs.repeated?],
      by rw [← hctor]; rfl, rfl⟩
  | choice branches =>
    rw [hrhs] at h
    obtain ⟨es, u, hes, h⟩ := run_bind_eq_ok_iff.mp h
    obtain ⟨hu, hext, hknows, rfl⟩ := run_compileBranches hs hes
    cases branches with
    | nil => cases h
    | cons b bs =>
      obtain ⟨heq, rfl⟩ := run_pure_eq_ok_iff.mp h
      cases heq
      refine ⟨hu, hext, hknows, default, by simp [Rhs.repeated?], ?_, rfl⟩
      simp only [Rhs.map, List.map_cons, Rhs.expr, List.map_map]
      rfl
  | wrap inner =>
    rw [hrhs] at h
    obtain ⟨ctor, hctor, h⟩ := run_resolveRule_bind h
    simp only [Production.constructor?, hrhs, Option.some.injEq] at hctor
    obtain ⟨i, u, hi, h⟩ := run_bind_eq_ok_iff.mp h
    obtain ⟨heq, rfl⟩ := run_pure_eq_ok_iff.mp h
    cases heq
    obtain ⟨ht, hext, hlookup⟩ := CompileM.run_rule hs hi
    exact ⟨ht, hext, by simpa [Knows, Rhs.children] using ⟨i, hlookup⟩, default,
      by simp [Rhs.repeated?], by rw [← hctor, Rhs.map, identOf_eq hlookup]; rfl, rfl⟩
  | record fields =>
    rw [hrhs] at h
    obtain ⟨ctor, hctor, h⟩ := run_resolveRule_bind h
    simp only [Production.constructor?, hrhs, Option.some.injEq] at hctor
    obtain ⟨is, u, his, h⟩ := run_bind_eq_ok_iff.mp h
    obtain ⟨heq, rfl⟩ := run_pure_eq_ok_iff.mp h
    cases heq
    obtain ⟨ht, hext, hknows, rfl⟩ := CompileM.run_rules hs his
    refine ⟨ht, hext, hknows, default, by simp [Rhs.repeated?], ?_, rfl⟩
    rw [← hctor, Rhs.map, Rhs.expr, List.length_map]
  | opt inner =>
    rw [hrhs] at h
    obtain ⟨ctor, hctor, h⟩ := run_resolveRule_bind h
    simp only [Production.constructor?, hrhs, Option.some.injEq] at hctor
    obtain ⟨i, u, hi, h⟩ := run_bind_eq_ok_iff.mp h
    obtain ⟨heq, rfl⟩ := run_pure_eq_ok_iff.mp h
    cases heq
    obtain ⟨ht, hext, hlookup⟩ := CompileM.run_rule hs hi
    exact ⟨ht, hext, by simpa [Knows, Rhs.children] using ⟨i, hlookup⟩, default,
      by simp [Rhs.repeated?], by rw [← hctor, Rhs.map, identOf_eq hlookup]; rfl, rfl⟩
  | star inner =>
    rw [hrhs] at h
    obtain ⟨ctor, hctor, h⟩ := run_resolveRule_bind h
    simp only [Production.constructor?, hrhs, Option.some.injEq] at hctor
    obtain ⟨i, u, hi, h⟩ := run_bind_eq_ok_iff.mp h
    obtain ⟨list, v, hlist, h⟩ := run_bind_eq_ok_iff.mp h
    obtain ⟨heq, rfl⟩ := run_pure_eq_ok_iff.mp h
    cases heq
    obtain ⟨hu, hsu, hlookup⟩ := CompileM.run_rule hs hi
    obtain ⟨ht, hut, haux⟩ := CompileM.run_helper hu hlist
    have hi' := identOf_eq (hut.keeps _ _ hlookup)
    exact ⟨ht, hsu.trans hut,
      by simpa [Knows, Rhs.children] using ⟨i, hut.keeps _ _ hlookup⟩, list,
      fun _ => haux.since hsu, by rw [← hctor]; rfl, by simp [Rhs.repeated?, hi']⟩
  | plus inner =>
    rw [hrhs] at h
    obtain ⟨ctor, hctor, h⟩ := run_resolveRule_bind h
    simp only [Production.constructor?, hrhs, Option.some.injEq] at hctor
    obtain ⟨i, u, hi, h⟩ := run_bind_eq_ok_iff.mp h
    obtain ⟨list, v, hlist, h⟩ := run_bind_eq_ok_iff.mp h
    obtain ⟨heq, rfl⟩ := run_pure_eq_ok_iff.mp h
    cases heq
    obtain ⟨hu, hsu, hlookup⟩ := CompileM.run_rule hs hi
    obtain ⟨ht, hut, haux⟩ := CompileM.run_helper hu hlist
    have hi' := identOf_eq (hut.keeps _ _ hlookup)
    exact ⟨ht, hsu.trans hut,
      by simpa [Knows, Rhs.children] using ⟨i, hut.keeps _ _ hlookup⟩, list,
      fun _ => haux.since hsu, by rw [← hctor, Rhs.map, hi']; rfl, by simp [Rhs.repeated?, hi']⟩

/-! ## Compiling rules -/

/-- The bindings are those of a rule under the identifiers that a supply holds. -/
def RuleCompiled (g : Grammar) (t : NameSupply) (id : RuleId)
    (bs : List (Binding (Expr Ident))) : Prop :=
  ∃ r list, g.get? id = some r ∧ Knows t (id :: r.rhs.children) ∧
    bs = ruleBindings t.identOf list id r

theorem RuleCompiled.extend {id : RuleId} {bs : List (Binding (Expr Ident))}
    (h : RuleCompiled g s id bs) (hext : s.Extends t) : RuleCompiled g t id bs := by
  obtain ⟨r, list, hr, hknows, rfl⟩ := h
  refine ⟨r, list, hr, hknows.extend hext, ruleBindings_congr ?_ ?_⟩
  · exact (hext.identOf_eq (hknows id List.mem_cons_self)).symm
  · exact fun c hc => (hext.identOf_eq (hknows c (List.mem_cons_of_mem _ hc))).symm

/-- The identifiers of bindings: those of the given rules, and auxiliary ones. -/
def IdentsOf (s t : NameSupply) (ids : List RuleId) (is : List Ident) : Prop :=
  is.Nodup ∧ ∀ i ∈ is, (∃ id ∈ ids, t.rules.lookup id = some i) ∨ Auxiliary s t i

theorem run_compileRule {id : RuleId} {bs : List (Binding (Expr Ident))} (hs : s.WellFormed)
    (h : (compileRule sig g id).run s = .ok (bs, t)) :
    t.WellFormed ∧ s.Extends t ∧ RuleCompiled g t id bs ∧
      IdentsOf s t [id] (bs.map Binding.ident) := by
  unfold compileRule at h
  obtain ⟨r, u, hask, h⟩ := run_bind_eq_ok_iff.mp h
  obtain ⟨hrule, rfl⟩ := run_liftM_eq_ok_iff.mp hask
  obtain ⟨i, u, hi, h⟩ := run_bind_eq_ok_iff.mp h
  obtain ⟨⟨e, helpers⟩, v, hrhs, h⟩ := run_bind_eq_ok_iff.mp h
  obtain ⟨rfl, rfl⟩ := run_pure_eq_ok_iff.mp h
  have hr := Grammar.rule_eq_ok_iff.mp hrule
  obtain ⟨hu, hsu, hlookup⟩ := CompileM.run_rule hs hi
  obtain ⟨hv, huv, hknows, list, haux, rfl, rfl⟩ := run_compileRhs hu hrhs
  have hid := huv.keeps _ _ hlookup
  refine ⟨hv, hsu.trans huv, ⟨r, list, hr, ?_, ?_⟩, ?_⟩
  · exact List.forall_mem_cons.mpr ⟨⟨i, hid⟩, hknows⟩
  · rw [ruleBindings, identOf_eq hid]
  · cases hrepeated : r.rhs.repeated? with
    | none =>
      refine ⟨List.nodup_singleton _, ?_⟩
      intro j hj
      cases List.mem_singleton.mp hj
      exact .inl ⟨id, List.mem_singleton_self _, hid⟩
    | some inner =>
      have hlist := (haux (by rw [hrepeated]; rfl)).since hsu
      refine ⟨?_, ?_⟩
      · rw [Option.map_some, Option.toList_some, List.map_cons, List.map_singleton,
          List.nodup_cons, List.mem_singleton]
        refine ⟨?_, List.nodup_singleton _⟩
        intro hsame
        exact hlist.not_rule id i hid (congrArg Ident.id hsame)
      · intro j hj
        rw [Option.map_some, Option.toList_some, List.map_cons, List.map_singleton,
          List.mem_cons, List.mem_singleton] at hj
        rcases hj with rfl | rfl
        · exact .inl ⟨id, List.mem_singleton_self _, hid⟩
        · exact .inr hlist

/-- The identifiers of one rule's bindings in front of those of other rules. -/
theorem IdentsOf.append {ids : List RuleId} {id : RuleId} {is js : List Ident}
    (hu : u.WellFormed) (htu : t.Extends u) (hst : s.Extends t) (hid : id ∉ ids)
    (his : IdentsOf s t [id] is) (hjs : IdentsOf t u ids js) :
    IdentsOf s u (id :: ids) (is ++ js) := by
  refine ⟨List.nodup_append.mpr ⟨his.1, hjs.1, ?_⟩, ?_⟩
  · rintro i hi j hj rfl
    rcases his.2 i hi with ⟨id', hid', hlookup⟩ | haux
    · cases List.mem_singleton.mp hid'
      have hlookup := htu.keeps _ _ hlookup
      rcases hjs.2 i hj with ⟨id'', hid'', hlookup'⟩ | haux'
      · exact hid (hu.injective _ _ _ _ hlookup hlookup' rfl ▸ hid'')
      · exact haux'.not_rule _ _ hlookup rfl
    · rcases hjs.2 i hj with ⟨id'', -, hlookup'⟩ | haux'
      · exact (haux.extend htu).not_rule _ _ hlookup' rfl
      · have := haux.lt_next
        have := haux'.next_le
        omega
  · intro i hi
    rcases List.mem_append.mp hi with hi | hi
    · rcases his.2 i hi with ⟨id', hid', hlookup⟩ | haux
      · cases List.mem_singleton.mp hid'
        exact .inl ⟨id, List.mem_cons_self, htu.keeps _ _ hlookup⟩
      · exact .inr (haux.extend htu)
    · rcases hjs.2 i hi with ⟨id', hid', hlookup⟩ | haux
      · exact .inl ⟨id', List.mem_cons_of_mem _ hid', hlookup⟩
      · exact .inr (haux.since hst)

theorem run_mapM_compileRule (ids : List RuleId) :
    ∀ {s t : NameSupply} {bss : List (List (Binding (Expr Ident)))}, ids.Nodup → s.WellFormed →
      (ids.mapM (compileRule sig g)).run s = .ok (bss, t) →
      t.WellFormed ∧ s.Extends t ∧ List.Forall₂ (RuleCompiled g t) ids bss ∧
        IdentsOf s t ids (bss.flatten.map Binding.ident) := by
  induction ids with
  | nil =>
    intro s t bss _ hs h
    obtain ⟨rfl, rfl⟩ := run_pure_eq_ok_iff.mp h
    exact ⟨hs, .refl _, .nil, List.nodup_nil, by simp⟩
  | cons id ids ih =>
    intro s t bss hnodup hs h
    rw [List.nodup_cons] at hnodup
    rw [List.mapM_cons] at h
    obtain ⟨bs, u, hbs, h⟩ := run_bind_eq_ok_iff.mp h
    obtain ⟨bss', v, hbss', h⟩ := run_bind_eq_ok_iff.mp h
    obtain ⟨rfl, rfl⟩ := run_pure_eq_ok_iff.mp h
    obtain ⟨hu, hsu, hcompiled, hidents⟩ := run_compileRule hs hbs
    obtain ⟨hv, huv, hall, hidents'⟩ := ih hnodup.2 hu hbss'
    refine ⟨hv, hsu.trans huv, .cons (hcompiled.extend huv) hall, ?_⟩
    rw [List.flatten_cons, List.map_append]
    exact hidents.append hv huv hsu hnodup.1 hidents'

/-- What compiling several rules gives. -/
theorem run_compileRules {ids : List RuleId} {bindings : List (Binding (Expr Ident))}
    (hnodup : ids.Nodup) (hs : s.WellFormed)
    (h : (compileRules sig g ids).run s = .ok (bindings, t)) :
    t.WellFormed ∧ s.Extends t ∧ IdentsOf s t ids (bindings.map Binding.ident) ∧
      ∃ bss, bindings = bss.flatten ∧ List.Forall₂ (RuleCompiled g t) ids bss := by
  unfold compileRules at h
  obtain ⟨bss, u, hbss, h⟩ := run_bind_eq_ok_iff.mp h
  obtain ⟨rfl, rfl⟩ := run_pure_eq_ok_iff.mp h
  obtain ⟨hu, hsu, hall, hidents⟩ := run_mapM_compileRule ids hnodup hs hbss
  exact ⟨hu, hsu, hidents, bss, rfl, hall⟩

/-! ## Success -/

theorem exists_run_compileBranch {r : Rule} {b : Branch RuleId} {c : Constructor}
    (h : sig.resolveBranch r b = .ok c) (s : NameSupply) :
    ∃ e t, (compileBranch sig g r b).run s = .ok (e, t) := by
  obtain ⟨is, t, his⟩ := CompileM.exists_run_rules g b.fields s
  exact ⟨_, t, run_bind_eq_ok_iff.mpr ⟨c, s, run_liftM_eq_ok_iff.mpr ⟨h, rfl⟩,
    run_bind_eq_ok_iff.mpr ⟨is, t, his, rfl⟩⟩⟩

theorem exists_run_compileRhs (id : RuleId) {r : Rule} (hagrees : sig.Agrees r)
    (hbranches : r.rhs ≠ .choice []) (s : NameSupply) :
    ∃ x t, (compileRhs sig g id r).run s = .ok (x, t) := by
  have hresolve := @Signature.Agrees.resolveRule sig r hagrees
  unfold compileRhs
  cases hrhs : r.rhs with
  | choice branches =>
    have hbranch : ∀ b ∈ branches, ∀ s, ∃ e t, (compileBranch sig g r b).run s = .ok (e, t) := by
      intro b hb s
      have hb : b ∈ r.branches := by simpa [Production.branches, hrhs] using hb
      exact exists_run_compileBranch (hagrees.resolveBranch hb) s
    obtain ⟨es, t, hes⟩ := exists_mapM_run_eq_ok hbranch s
    cases branches with
    | nil => exact absurd hrhs hbranches
    | cons b bs =>
      have hlen : es.length = (b :: bs).length := (forall₂_of_mapM_run hes).length_eq.symm
      cases es with
      | nil => simp at hlen
      | cons e es => exact ⟨_, t, run_bind_eq_ok_iff.mpr ⟨_, t, hes, rfl⟩⟩
  | terminal p =>
    have hctor := hresolve (c := .terminal r.name) (by simp [Production.constructor?, hrhs])
    exact ⟨_, s, run_bind_eq_ok_iff.mpr ⟨_, s, run_liftM_eq_ok_iff.mpr ⟨hctor, rfl⟩, rfl⟩⟩
  | series literal =>
    have hctor := hresolve (c := .series r.name) (by simp [Production.constructor?, hrhs])
    exact ⟨_, s, run_bind_eq_ok_iff.mpr ⟨_, s, run_liftM_eq_ok_iff.mpr ⟨hctor, rfl⟩, rfl⟩⟩
  | wrap inner =>
    have hctor := hresolve (c := .wrap r.name) (by simp [Production.constructor?, hrhs])
    exact ⟨_, _, run_bind_eq_ok_iff.mpr ⟨_, s, run_liftM_eq_ok_iff.mpr ⟨hctor, rfl⟩, rfl⟩⟩
  | record fields =>
    have hctor := hresolve (c := .record r.name fields.length)
      (by simp [Production.constructor?, hrhs])
    obtain ⟨is, t, his⟩ := CompileM.exists_run_rules g fields s
    exact ⟨_, t, run_bind_eq_ok_iff.mpr ⟨_, s, run_liftM_eq_ok_iff.mpr ⟨hctor, rfl⟩,
      run_bind_eq_ok_iff.mpr ⟨is, t, his, rfl⟩⟩⟩
  | opt inner =>
    have hctor := hresolve (c := .opt r.name) (by simp [Production.constructor?, hrhs])
    exact ⟨_, _, run_bind_eq_ok_iff.mpr ⟨_, s, run_liftM_eq_ok_iff.mpr ⟨hctor, rfl⟩, rfl⟩⟩
  | star inner =>
    have hctor := hresolve (c := .star r.name) (by simp [Production.constructor?, hrhs])
    exact ⟨_, _, run_bind_eq_ok_iff.mpr ⟨_, s, run_liftM_eq_ok_iff.mpr ⟨hctor, rfl⟩, rfl⟩⟩
  | plus inner =>
    have hctor := hresolve (c := .plus r.name) (by simp [Production.constructor?, hrhs])
    exact ⟨_, _, run_bind_eq_ok_iff.mpr ⟨_, s, run_liftM_eq_ok_iff.mpr ⟨hctor, rfl⟩, rfl⟩⟩

theorem exists_run_compileRule {id : RuleId} {r : Rule} (hr : g.get? id = some r)
    (hagrees : sig.Agrees r) (hbranches : r.rhs ≠ .choice []) (s : NameSupply) :
    ∃ bs t, (compileRule sig g id).run s = .ok (bs, t) := by
  have hrule := Grammar.rule_eq_ok_iff.mpr hr
  obtain ⟨i, u, hi⟩ := CompileM.exists_run_rule g id s
  obtain ⟨x, t, hx⟩ := exists_run_compileRhs (g := g) id hagrees hbranches u
  exact ⟨_, t, run_bind_eq_ok_iff.mpr ⟨r, s, run_liftM_eq_ok_iff.mpr ⟨hrule, rfl⟩,
    run_bind_eq_ok_iff.mpr ⟨i, u, hi, run_bind_eq_ok_iff.mpr ⟨x, t, hx, rfl⟩⟩⟩⟩

end Compile

end ChartGrammar
