/-
  Proofs/CompiledParser.lean --- the rules of a compiled parser, by handle.

  `CompiledRules` is all that later proofs know of the compiler: which body stands
  under the handle of each rule.  A parser that was compiled has such rules, and
  over the signature of a well-formed grammar every rule compiles.
-/
import ChartGrammar.Proofs.CompiledRules

set_option autoImplicit false

namespace ChartGrammar

/-! ## From bindings to bodies -/

/-- The handle of the slot at which an identifier is bound. -/
def handleOf (bindings : List (Binding (Expr Ident))) (i : Ident) : Handle :=
  (Group.slotOf (bindings.map Binding.ident) i).toHandle

/-- The handle to which a rule is bound when `ids` are compiled: its identifier's. -/
def ruleHandle? (sig : Signature) (g : Grammar) (ids : List RuleId) (id : RuleId) :
    Option Handle :=
  match (compileRules sig g ids).run {} with
  | .ok (bindings, supply) => (supply.rules.lookup id).map (handleOf bindings)
  | .error _ => none

theorem resolve_eq_ok_iff {idents : List Ident} {owner : String} {e : Expr Ident}
    {e' : Expr Slot} :
    e.resolveRefs (Group.lookup idents owner) = .ok e' ↔
      (∀ i ∈ e.refs, i ∈ idents) ∧ e' = e.mapRefs (Group.slotOf idents) :=
  Expr.resolveRefs_eq_ok_iff (fun _ _ => Group.lookup_eq_ok_iff) e e'

/-- In a closed group every binding is found under the handle of its identifier. -/
theorem get?_toRegistry {bindings : List (Binding (Expr Ident))} {body : List Ident}
    {group : Group (Expr Slot)} (h : Group.closeExprs bindings body = .ok group)
    {b : Binding (Expr Ident)} (hb : b ∈ bindings) :
    group.toRegistry.get? (handleOf bindings b.ident) =
      some (b.expr.mapRefs (handleOf bindings)) := by
  obtain ⟨slot, hslot, hresolve⟩ := Group.exists_slot_of_close h hb
  rw [← Array.getElem?_toList] at hslot
  rw [Registry.get?, Group.toRegistry, Registry.ofBodies, List.getElem?_toArray, List.getElem?_map,
    List.getElem?_map, handleOf, Slot.toHandle, hslot, (resolve_eq_ok_iff.mp hresolve).2]
  simp only [Option.map_some, Option.join_some, Expr.mapRefs_mapRefs]
  rfl

/-- Every rule of a closed group's registry stands for a binding. -/
theorem exists_binding_of_get? {bindings : List (Binding (Expr Ident))} {body : List Ident}
    {group : Group (Expr Slot)} (h : Group.closeExprs bindings body = .ok group)
    {handle : Handle} {e : Expr Handle} (hget : group.toRegistry.get? handle = some e) :
    ∃ b ∈ bindings, handle = handleOf bindings b.ident ∧
      e = b.expr.mapRefs (handleOf bindings) := by
  obtain ⟨hnodup, hslots, -, -⟩ := Group.close_eq_ok h
  have hlt : handle.index < bindings.length := by
    rw [hslots.length_eq]
    by_contra hle
    simp [Registry.get?, Group.toRegistry, Registry.ofBodies,
      Array.getElem?_eq_none (Nat.le_of_not_lt hle)] at hget
  have hidx : (bindings.map Binding.ident).idxOf bindings[handle.index].ident = handle.index := by
    have := hnodup.idxOf_getElem handle.index (by simpa using hlt)
    simpa using this
  have hhandle : handle = handleOf bindings bindings[handle.index].ident := by
    rw [handleOf, Group.slotOf, hidx]
    rfl
  refine ⟨bindings[handle.index], List.getElem_mem hlt, hhandle, ?_⟩
  have hbody := get?_toRegistry h (List.getElem_mem hlt)
  rw [← hhandle, hget] at hbody
  exact Option.some.inj hbody

theorem firstUndefined?_ofBodies (bodies : List (Expr Handle)) :
    (Registry.ofBodies bodies).firstUndefined? = none := by
  rw [Registry.firstUndefined?, Option.map_eq_none_iff, Array.findIdx?_eq_none_iff]
  intro body hbody
  simp only [Registry.ofBodies, List.mem_toArray, List.mem_map] at hbody
  obtain ⟨e, -, rfl⟩ := hbody
  rfl

/-! ## Compiled rules -/

/-- A registry that holds the rules `ids` of a grammar, each under its handle. -/
structure CompiledRules (g : Grammar) (ids : List RuleId) (rules : Registry)
    (place : RuleId → Handle) : Prop where
  body : ∀ id ∈ ids, ∃ r list, g.get? id = some r ∧
    rules.get? (place id) =
      some (.label r.title ((r.rhs.map place).expr r.name list)) ∧
    ∀ inner, r.rhs.repeated? = some inner →
      rules.get? list = some (.listOf (place inner) list)
  closed : ∀ id ∈ ids, ∀ r, g.get? id = some r → ∀ c ∈ r.rhs.children, c ∈ ids
  covered : ∀ h e, rules.get? h = some e → (∃ id ∈ ids, h = place id) ∨
    ∃ inner ∈ ids, e = .listOf (place inner) h
  defined : rules.firstUndefined? = none

theorem Rhs.repeated?_map {ρ σ : Type} (f : ρ → σ) (rhs : Rhs ρ) :
    (rhs.map f).repeated? = rhs.repeated?.map f := by
  cases rhs <;> rfl

section Group

variable {sig : Signature} {g : Grammar} {ids body : List RuleId}

theorem forall₂_exists_left {α β : Type} {R : α → β → Prop} {as : List α} {bs : List β}
    (h : List.Forall₂ R as bs) {a : α} (ha : a ∈ as) : ∃ b ∈ bs, R a b :=
  exists_of_mem_right h.flip ha

/-- Every compiled rule has its own binding, and its list binding if it repeats. -/
theorem exists_binding {t : NameSupply} {bss : List (List (Binding (Expr Ident)))}
    (hall : List.Forall₂ (RuleCompiled g t) ids bss) {id : RuleId} (hid : id ∈ ids) :
    ∃ r list, g.get? id = some r ∧ Knows t (id :: r.rhs.children) ∧
      ⟨t.identOf id, .label r.title ((r.rhs.map t.identOf).expr r.name list)⟩ ∈ bss.flatten ∧
      ∀ inner, r.rhs.repeated? = some inner →
        ⟨list, .listOf (t.identOf inner) list⟩ ∈ bss.flatten := by
  obtain ⟨bs, hbs, r, list, hr, hknows, rfl⟩ := forall₂_exists_left hall hid
  refine ⟨r, list, hr, hknows, ?_, ?_⟩
  · exact List.mem_flatten.mpr ⟨_, hbs, List.mem_cons_self⟩
  · intro inner hinner
    refine List.mem_flatten.mpr ⟨_, hbs, List.mem_cons_of_mem _ ?_⟩
    rw [hinner]
    exact List.mem_singleton_self _

theorem run_compile_group {bindings : List (Binding (Expr Ident))} {idents : List Ident}
    {u : NameSupply}
    (h : (do
      let bindings ← compileRules sig g ids
      return (bindings, ← CompileM.rules g body) :
        CompileM (List (Binding (Expr Ident)) × List Ident)).run {} =
          .ok ((bindings, idents), u)) :
    ∃ t, (compileRules sig g ids).run {} = .ok (bindings, t) ∧
      (CompileM.rules g body).run t = .ok (idents, u) := by
  obtain ⟨bindings', t, hcompile, h⟩ := run_bind_eq_ok_iff.mp h
  obtain ⟨idents', u', hidents, h⟩ := run_bind_eq_ok_iff.mp h
  obtain ⟨heq, rfl⟩ := run_pure_eq_ok_iff.mp h
  cases heq
  exact ⟨t, hcompile, hidents⟩

/-- A group that was compiled holds its rules, and its result are the handles that were
asked for. -/
theorem compileGroup_spec {group : Group (Expr Slot)} (hnodup : ids.Nodup)
    (hclosed : ∀ id ∈ ids, ∀ r, g.get? id = some r → ∀ c ∈ r.rhs.children, c ∈ ids)
    (hbody : ∀ id ∈ body, id ∈ ids) (h : compileGroup sig g ids body = .ok group) :
    ∃ place, CompiledRules g ids group.toRegistry place ∧
      group.body.map Slot.toHandle = body.map place ∧
      ∀ id ∈ ids, ruleHandle? sig g ids id = some (place id) := by
  unfold compileGroup at h
  obtain ⟨⟨⟨bindings, idents⟩, u⟩, hrun, hclose⟩ := bind_eq_ok_iff.mp h
  obtain ⟨t, hcompile, hidents⟩ := run_compile_group hrun
  obtain ⟨ht, -, -, bss, rfl, hall⟩ :=
    run_compileRules hnodup NameSupply.wellFormed_empty hcompile
  obtain ⟨-, hext, -, rfl⟩ := CompileM.run_rules ht hidents
  refine ⟨handleOf bss.flatten ∘ t.identOf,
    ⟨?_, hclosed, ?_, firstUndefined?_ofBodies _⟩, ?_, ?_⟩
  · intro id hid
    obtain ⟨r, list, hr, -, hrule, hlist⟩ := exists_binding hall hid
    refine ⟨r, handleOf bss.flatten list, hr, ?_, ?_⟩
    · have := get?_toRegistry hclose hrule
      rwa [Expr.mapRefs, Rhs.mapRefs_expr, Rhs.map_map] at this
    · intro inner hinner
      have := get?_toRegistry hclose (hlist inner hinner)
      simpa only [Expr.listOf, Expr.mapRefs, Function.comp_apply] using this
  · intro h e hget
    obtain ⟨b, hb, rfl, rfl⟩ := exists_binding_of_get? hclose hget
    obtain ⟨bs, hbs, hbmem⟩ := List.mem_flatten.mp hb
    obtain ⟨id, hid, r, list, hr, -, rfl⟩ := exists_of_mem_right hall hbs
    rcases List.mem_cons.mp hbmem with rfl | hhelper
    · exact .inl ⟨id, hid, rfl⟩
    · rw [Option.mem_toList, Option.map_eq_some_iff] at hhelper
      obtain ⟨inner, hinner, rfl⟩ := hhelper
      refine .inr ⟨inner, hclosed id hid r hr inner (Rhs.repeated?_mem_children hinner), ?_⟩
      simp only [Expr.listOf, Expr.mapRefs, Function.comp_apply]
  · obtain ⟨-, -, -, hresult⟩ := Group.close_eq_ok hclose
    rw [hresult, List.map_map, List.map_map]
    refine List.map_congr_left fun id hid => ?_
    obtain ⟨r, -, -, hknows, -, -⟩ := exists_binding hall (hbody id hid)
    simp only [Function.comp_apply, hext.identOf_eq (hknows id List.mem_cons_self)]
    rfl
  · intro id hid
    obtain ⟨r, -, -, hknows, -, -⟩ := exists_binding hall hid
    obtain ⟨i, hi⟩ := hknows id List.mem_cons_self
    simp only [ruleHandle?, hcompile, hi, Option.map_some, Function.comp_apply,
      NameSupply.identOf_eq hi]

/-- Rules for which the signature answers compile into a group, if they refer only to
each other. -/
theorem exists_compileGroup (hnodup : ids.Nodup)
    (hrules : ∀ id ∈ ids, ∃ r, g.get? id = some r ∧ sig.Agrees r ∧ r.rhs ≠ .choice [])
    (hclosed : ∀ id ∈ ids, ∀ r, g.get? id = some r → ∀ c ∈ r.rhs.children, c ∈ ids)
    (hbody : ∀ id ∈ body, id ∈ ids) :
    ∃ group, compileGroup sig g ids body = .ok group := by
  have hrun : ∀ id ∈ ids, ∀ s, ∃ bs t, (compileRule sig g id).run s = .ok (bs, t) := by
    intro id hid s
    obtain ⟨r, hr, hagrees, hbranches⟩ := hrules id hid
    exact exists_run_compileRule hr hagrees hbranches s
  obtain ⟨bss, t, hbss⟩ := exists_mapM_run_eq_ok hrun {}
  obtain ⟨idents, u, hidents⟩ := CompileM.exists_run_rules g body t
  obtain ⟨ht, -, hall, hnodupIdents, -⟩ :=
    run_mapM_compileRule ids hnodup NameSupply.wellFormed_empty hbss
  obtain ⟨-, hext, -, rfl⟩ := CompileM.run_rules ht hidents
  have hcompile : (compileRules sig g ids).run {} = .ok (bss.flatten, t) :=
    run_bind_eq_ok_iff.mpr ⟨bss, t, hbss, rfl⟩
  have hbound : ∀ id ∈ ids, t.identOf id ∈ bss.flatten.map Binding.ident := by
    intro id hid
    obtain ⟨r, list, -, -, hrule, -⟩ := exists_binding hall hid
    exact List.mem_map.mpr ⟨_, hrule, rfl⟩
  obtain ⟨group, hgroup⟩ : ∃ group,
      Group.closeExprs bss.flatten (body.map u.identOf) = .ok group := by
    refine Group.exists_close_eq_ok hnodupIdents ?_ ?_
    · intro b hb
      refine ⟨_, resolve_eq_ok_iff.mpr ⟨?_, rfl⟩⟩
      intro i hi
      obtain ⟨bs, hbs, hbmem⟩ := List.mem_flatten.mp hb
      obtain ⟨id, hid, r, list, hr, -, rfl⟩ := exists_of_mem_right hall hbs
      have hchild : ∀ c ∈ r.rhs.children, t.identOf c ∈ bss.flatten.map Binding.ident :=
        fun c hc => hbound c (hclosed id hid r hr c hc)
      have hlist : r.rhs.repeated?.isSome = true → list ∈ bss.flatten.map Binding.ident := by
        intro hrepeated
        obtain ⟨inner, hinner⟩ := Option.isSome_iff_exists.mp hrepeated
        refine List.mem_map.mpr ⟨⟨list, .listOf (t.identOf inner) list⟩, ?_, rfl⟩
        refine List.mem_flatten.mpr ⟨_, hbs, List.mem_cons_of_mem _ ?_⟩
        rw [hinner]
        exact List.mem_singleton_self _
      rcases List.mem_cons.mp hbmem with rfl | hhelper
      · rcases Rhs.mem_refs_expr hi with hmem | ⟨rfl, hrepeated⟩
        · rw [Rhs.children_map] at hmem
          obtain ⟨c, hc, rfl⟩ := List.mem_map.mp hmem
          exact hchild c hc
        · rw [Rhs.repeated?_map, Option.isSome_map] at hrepeated
          exact hlist hrepeated
      · rw [Option.mem_toList, Option.map_eq_some_iff] at hhelper
        obtain ⟨inner, hinner, rfl⟩ := hhelper
        have : i = t.identOf inner ∨ i = list := by simpa [Expr.listOf, Expr.refs] using hi
        rcases this with rfl | rfl
        · exact hchild inner (Rhs.repeated?_mem_children hinner)
        · exact hlist (by rw [hinner]; rfl)
    · intro i hi
      obtain ⟨id, hid, rfl⟩ := List.mem_map.mp hi
      obtain ⟨r, list, -, hknows, -, -⟩ := exists_binding hall (hbody id hid)
      rw [hext.identOf_eq (hknows id List.mem_cons_self)]
      exact hbound id (hbody id hid)
  refine ⟨group, ?_⟩
  unfold compileGroup
  refine bind_eq_ok_iff.mpr ⟨((bss.flatten, body.map u.identOf), u), ?_, hgroup⟩
  exact run_bind_eq_ok_iff.mpr ⟨_, t, hcompile, run_bind_eq_ok_iff.mpr ⟨_, u, hidents, rfl⟩⟩

end Group

/-! ## Compiled parsers -/

namespace Parser

variable {sig : Signature} {g : Grammar} {root : RuleId} {p : Parser}

/-- A compiled parser holds every rule that its root reaches. -/
theorem compile_spec (hg : g.WellFormed) (h : compile sig g root = .ok p) :
    ∃ place, CompiledRules g (g.reachable [root]) p.rules place ∧ p.root = place root ∧
      root ∈ g.reachable [root] ∧
      ∀ id ∈ g.reachable [root], ruleHandle? sig g (g.reachable [root]) id = some (place id) := by
  unfold compile at h
  obtain ⟨r, hr, h⟩ := bind_eq_ok_iff.mp h
  obtain ⟨group, hgroup, hp⟩ := bind_eq_ok_iff.mp h
  cases hp
  have hroot : root ∈ g.reachable [root] :=
    Grammar.mem_reachable_root (List.mem_singleton_self _)
      (Grammar.contains_iff.mpr ⟨r, Grammar.rule_eq_ok_iff.mp hr⟩)
  obtain ⟨place, hcompiled, hbody, hhandle⟩ :=
    compileGroup_spec (Grammar.reachable_result g [root]).nodup
      (fun id hid r hr c hc => hg.mem_reachable_child hid hr hc)
      (fun id hid => List.mem_singleton.mp hid ▸ hroot) hgroup
  refine ⟨place, hcompiled, ?_, hroot, hhandle⟩
  cases hslots : group.body with
  | nil => simp [hslots] at hbody
  | cons slot slots =>
    rw [hslots, List.map_cons, List.map_singleton, List.cons.injEq] at hbody
    exact hbody.1

/-- Over the signature of a well-formed grammar every rule compiles. -/
theorem exists_compile (hg : g.WellFormed) (hroot : g.contains root = true) :
    ∃ p, compile (Signature.ofGrammar g) g root = .ok p := by
  obtain ⟨r, hr⟩ := Grammar.contains_iff.mp hroot
  have hrules : ∀ id ∈ g.reachable [root], ∃ r, g.get? id = some r ∧
      (Signature.ofGrammar g).Agrees r ∧ r.rhs ≠ .choice [] := by
    intro id hid
    obtain ⟨r, hr⟩ := Grammar.exists_get?_of_reachable hid
    refine ⟨r, hr, Signature.agrees_ofGrammar hg hr, ?_⟩
    intro hrhs
    exact (hg.rules r (Grammar.mem_of_get? hr)).branches_ne_nil hrhs rfl
  have hmem := Grammar.mem_reachable_root (List.mem_singleton_self root) hroot
  obtain ⟨group, hgroup⟩ : ∃ group,
      compileGroup (Signature.ofGrammar g) g (g.reachable [root]) [root] = .ok group :=
    exists_compileGroup (Grammar.reachable_result g [root]).nodup hrules
      (fun id hid r hr c hc => hg.mem_reachable_child hid hr hc)
      (fun id hid => List.mem_singleton.mp hid ▸ hmem)
  exact ⟨_, bind_eq_ok_iff.mpr ⟨r, Grammar.rule_eq_ok_iff.mpr hr,
    bind_eq_ok_iff.mpr ⟨group, hgroup, rfl⟩⟩⟩

end Parser

end ChartGrammar
