/-
  Proofs/CompiledGroups.lean --- which rules close into a group.

  Rules may be compiled in any order, and any of them may be left out.  Their bindings close
  into a group exactly if each rule is listed once and all that they and the result refer to
  is listed.  Otherwise the group is refused for the first fault there is; a reference to a
  rule that is missing is blamed on the rule that makes it, also if it stands in the list
  binding of that rule.
-/
import ChartGrammar.Proofs.BindingGroups
import ChartGrammar.Proofs.Refusals

set_option autoImplicit false

namespace ChartGrammar

/-! ## The first failure -/

section Failure

variable {ε α β γ : Type}

theorem discard_bind_pure (x : Except ε α) (k : α → β) :
    discard (x >>= fun a => pure (k a)) = discard x := by
  cases x <;> rfl

theorem discard_bind_bind_pure (x : Except ε α) (y : Except ε β) (k : α → β → γ) :
    discard (x >>= fun a => y >>= fun b => pure (k a b)) = discard x >>= fun _ => discard y := by
  cases x
  · rfl
  · cases y <;> rfl

theorem discard_eq_error_iff {x : Except ε α} {e : ε} : discard x = .error e ↔ x = .error e := by
  cases x with
  | error e' =>
    exact ⟨fun h => congrArg _ (Except.error.inj h), fun h => congrArg _ (Except.error.inj h)⟩
  | ok a =>
    constructor
    · intro h
      cases h
    · intro h
      cases h

/-- Steps that fail alike one by one fail alike in a row. -/
theorem discard_mapM_congr {f : α → Except ε β} {k : α → Except ε γ} {as : List α}
    (h : ∀ a ∈ as, discard (f a) = discard (k a)) : discard (as.mapM f) = discard (as.mapM k) := by
  induction as with
  | nil => rfl
  | cons a as ih =>
    obtain ⟨ha, has⟩ := List.forall_mem_cons.mp h
    rw [List.mapM_cons, List.mapM_cons, discard_bind_bind_pure, discard_bind_bind_pure, ha, ih has]

/-- Rows of steps in a row fail as one row. -/
theorem discard_mapM_flatMap (f : β → Except ε γ) (k : α → List β) (as : List α) :
    discard ((as.flatMap k).mapM f) = discard (as.mapM fun a => (k a).mapM f) := by
  induction as with
  | nil => rfl
  | cons a as ih =>
    rw [List.flatMap_cons, List.mapM_append, List.mapM_cons, discard_bind_bind_pure,
      discard_bind_bind_pure, ih]

end Failure

/-! ## The first repeat -/

theorem firstRepeatFrom?_append {α : Type} [DecidableEq α] {a : α} {after before : List α} :
    ∀ {seen : List α}, before.Nodup → (∀ x ∈ before, x ∉ seen) → a ∈ before ∨ a ∈ seen →
      firstRepeatFrom? seen (before ++ a :: after) = some a := by
  induction before with
  | nil =>
    intro seen _ _ ha
    exact if_pos (ha.resolve_left List.not_mem_nil)
  | cons x before ih =>
    intro seen hnodup hseen ha
    obtain ⟨hx, hnodup⟩ := List.nodup_cons.mp hnodup
    obtain ⟨hxseen, hseen⟩ := List.forall_mem_cons.mp hseen
    rw [List.cons_append, firstRepeatFrom?, if_neg hxseen]
    refine ih hnodup (fun y hy => ?_) ?_
    · exact List.not_mem_cons_of_ne_of_not_mem (ne_of_mem_of_not_mem hy hx) (hseen y hy)
    · rw [List.mem_cons] at ha ⊢
      tauto

/-- The first member that stands earlier in a list too is the one after distinct members. -/
theorem firstRepeat?_append {α : Type} [DecidableEq α] {a : α} {before after : List α}
    (hnodup : before.Nodup) (ha : a ∈ before) : firstRepeat? (before ++ a :: after) = some a :=
  firstRepeatFrom?_append hnodup (fun _ _ => List.not_mem_nil) (.inl ha)

/-- A list with a repeat has a first one. -/
theorem exists_first_repeat {α : Type} {as : List α} (h : ¬ as.Nodup) :
    ∃ before a after, as = before ++ a :: after ∧ before.Nodup ∧ a ∈ before := by
  induction as using List.reverseRecOn with
  | nil => exact absurd List.nodup_nil h
  | append_singleton as a ih =>
    by_cases has : as.Nodup
    · refine ⟨as, a, [], rfl, has, ?_⟩
      by_contra ha
      exact h (List.nodup_append.mpr ⟨has, List.nodup_singleton a, fun x hx y hy =>
        List.mem_singleton.mp hy ▸ ne_of_mem_of_not_mem hx ha⟩)
    · obtain ⟨before, x, after, rfl, hbefore, hx⟩ := ih has
      exact ⟨before, x, after ++ [a], List.append_assoc _ _ _, hbefore, hx⟩

/-! ## The first unbound reference -/

/-- References are resolved from left to right, whatever stands between them. -/
theorem Expr.discard_resolveRefs {ρ σ ε : Type} (f : ρ → Except ε σ) (e : Expr ρ) :
    discard (e.resolveRefs f) = discard (e.refs.mapM f) := by
  have binary : ∀ (a b : Expr ρ) (k : Expr σ → Expr σ → Expr σ),
      discard (a.resolveRefs f) = discard (a.refs.mapM f) →
      discard (b.resolveRefs f) = discard (b.refs.mapM f) →
      discard (do return k (← a.resolveRefs f) (← b.resolveRefs f)) =
        discard ((a.refs ++ b.refs).mapM f) := by
    intro a b k iha ihb
    rw [List.mapM_append, discard_bind_bind_pure, discard_bind_bind_pure, iha, ihb]
  induction e using Expr.induction with
  | ref r =>
    rw [resolveRefs, discard_bind_pure, refs, List.mapM_cons]
    cases f r <;> rfl
  | seq es ih =>
    rw [resolveRefs, discard_bind_pure, resolveRefsAll_eq_mapM, refs, refsAll_eq_flatMap,
      discard_mapM_flatMap]
    exact discard_mapM_congr ih
  | just e ih => rw [resolveRefs, discard_bind_pure, ih, refs]
  | alt a b iha ihb => exact binary a b .alt iha ihb
  | cons a b iha ihb => exact binary a b .cons iha ihb
  | pair a b iha ihb => exact binary a b .pair iha ihb
  | map c e ih => rw [resolveRefs, discard_bind_pure, ih, refs]
  | label d e ih => rw [resolveRefs, discard_bind_pure, ih, refs]
  | _ => rfl

namespace Group

variable {bindings : List (Binding (Expr Ident))} {body : List Ident}

/-- The references of bindings in their order, each with the rule that is blamed for it. -/
def uses (bindings : List (Binding (Expr Ident))) : List (String × Ident) :=
  bindings.flatMap fun b => b.expr.refs.map (Prod.mk b.ident.owner)

theorem lookup_of_unbound {idents : List Ident} {i : Ident} (hi : i ∉ idents) (owner : String) :
    lookup idents owner i = .error (.unresolved owner i.render) := by
  have hnone : idents.findIdx? (· = i) = none := by
    rw [List.findIdx?_eq_none_iff]
    intro j hj
    exact decide_eq_false (ne_of_mem_of_not_mem hj hi)
  rw [lookup, hnone]

/-- Distinct bindings are refused for the first reference that is not bound. -/
theorem closeExprs_of_unbound {before after : List (String × Ident)} {owner : String} {i : Ident}
    (hnodup : (bindings.map Binding.ident).Nodup)
    (huses : uses bindings = before ++ (owner, i) :: after)
    (hbefore : ∀ use ∈ before, use.2 ∈ bindings.map Binding.ident)
    (hi : i ∉ bindings.map Binding.ident) :
    closeExprs bindings body = .error (.unresolved owner i.render) := by
  have hlookups : ((uses bindings).mapM fun use =>
      lookup (bindings.map Binding.ident) use.1 use.2) = .error (.unresolved owner i.render) := by
    refine mapM_eq_error_iff.mpr ⟨before, (owner, i), after, huses, fun use huse => ?_, ?_⟩
    · exact ⟨_, lookup_eq_ok_iff.mpr ⟨hbefore use huse, rfl⟩⟩
    · exact lookup_of_unbound hi owner
  have hslots : (bindings.mapM fun b =>
      b.expr.resolveRefs (lookup (bindings.map Binding.ident) b.ident.owner)) =
        .error (.unresolved owner i.render) := by
    rw [← discard_eq_error_iff] at hlookups ⊢
    rw [← hlookups, uses, discard_mapM_flatMap]
    refine discard_mapM_congr fun b _ => ?_
    rw [Expr.discard_resolveRefs, List.mapM_map]
    rfl
  rw [closeExprs_of_nodup hnodup, hslots]
  rfl

/-- Bindings that refer only to each other are refused for the first part of the result that
is not bound. -/
theorem closeExprs_of_unbound_body {before after : List Ident} {i : Ident}
    (hscoped : Scoped bindings before) (hi : i ∉ bindings.map Binding.ident) :
    closeExprs bindings (before ++ i :: after) = .error (.unresolved "letrec body" i.render) := by
  obtain ⟨slots, hslots⟩ := exists_mapM_eq_ok fun b hb =>
    ⟨_, resolve_eq_ok_iff.mpr ⟨hscoped.exprs b hb, rfl⟩⟩
  have hbody : (before ++ i :: after).mapM (lookup (bindings.map Binding.ident) "letrec body") =
      .error (.unresolved "letrec body" i.render) := by
    refine mapM_eq_error_iff.mpr ⟨before, i, after, rfl, fun j hj => ?_, lookup_of_unbound hi _⟩
    exact ⟨_, lookup_eq_ok_iff.mpr ⟨hscoped.body j hj, rfl⟩⟩
  rw [closeExprs_of_nodup hscoped.distinct, hbody, hslots]
  rfl

end Group

/-! ## Owners -/

namespace CompileM

variable {g : Grammar} {α β : Type}

/-- The identifier of every rule belongs to the rule. -/
def Owned (g : Grammar) (s : NameSupply) : Prop :=
  ∀ id i, s.rules.lookup id = some i → i.owner = g.nameOf id

/-- The computation leaves identifiers to their rules, and what it gives is as promised. -/
def Honours (g : Grammar) (x : CompileM α) (Q : α → Prop) : Prop :=
  ∀ s a t, Owned g s → x.run s = .ok (a, t) → Owned g t ∧ Q a

theorem honours_pure {a : α} {Q : α → Prop} (ha : Q a) : Honours g (pure a) Q := by
  intro s a' t hs hrun
  cases hrun
  exact ⟨hs, ha⟩

theorem honours_throw {e : CompileError} {Q : α → Prop} : Honours g (throw e) Q := by
  intro s a t _ hrun
  cases hrun

theorem honours_bind {x : CompileM α} {f : α → CompileM β} {P : α → Prop} {Q : β → Prop}
    (hx : Honours g x P) (hf : ∀ a, P a → Honours g (f a) Q) : Honours g (x >>= f) Q := by
  intro s b t hs hrun
  obtain ⟨a, u, ha, hb⟩ := run_bind_eq_ok_iff.mp hrun
  obtain ⟨hu, hP⟩ := hx s a u hs ha
  exact hf a hP u b t hu hb

theorem honours_liftM (x : Except CompileError α) :
    Honours g (liftM x : CompileM α) fun _ => True := by
  intro s a t hs hrun
  obtain ⟨-, rfl⟩ := run_liftM_eq_ok_iff.mp hrun
  exact ⟨hs, trivial⟩

theorem honours_mapM {f : α → CompileM β} (hf : ∀ a, Honours g (f a) fun _ => True) (as : List α) :
    Honours g (as.mapM f) fun _ => True := by
  induction as with
  | nil => exact honours_pure trivial
  | cons a as ih =>
    rw [List.mapM_cons]
    exact honours_bind (hf a) fun _ _ => honours_bind ih fun _ _ => honours_pure trivial

theorem honours_rule (id : RuleId) : Honours g (rule g id) fun i => i.owner = g.nameOf id := by
  intro s i t hs hrun
  have hissue : s.rule g id = (i, t) := Except.ok.inj hrun
  unfold NameSupply.rule at hissue
  split at hissue
  · next hlookup =>
    cases hissue
    exact ⟨hs, hs id i hlookup⟩
  · cases hissue
    refine ⟨fun id' j hj => ?_, rfl⟩
    rw [List.lookup_cons] at hj
    split at hj
    · next heq =>
      cases hj
      rw [eq_of_beq heq]
    · exact hs id' j hj

theorem honours_rules (ids : List RuleId) : Honours g (rules g ids) fun _ => True :=
  honours_mapM (fun id s i t hs hrun => ⟨(honours_rule id s i t hs hrun).1, trivial⟩) ids

theorem honours_helper (id : RuleId) : Honours g (helper g id) fun i => i.owner = g.nameOf id := by
  intro s i t hs hrun
  cases hrun
  exact ⟨hs, rfl⟩

/-- The list of a rule belongs to the rule. -/
theorem honours_compileRhs (sig : Signature) (id : RuleId) (r : Rule) :
    Honours g (compileRhs sig g id r) fun x => ∀ b ∈ x.2, b.ident.owner = g.nameOf id := by
  have hnone : ∀ e : Expr Ident, Honours g (pure (e, ([] : List (Binding (Expr Ident)))))
      fun x => ∀ b ∈ x.2, b.ident.owner = g.nameOf id :=
    fun e => honours_pure fun b hb => absurd hb List.not_mem_nil
  have hlist : ∀ (e : Expr Ident) (list item : Ident), list.owner = g.nameOf id →
      Honours g (pure (e, [(⟨list, .listOf item list⟩ : Binding (Expr Ident))]))
        fun x => ∀ b ∈ x.2, b.ident.owner = g.nameOf id :=
    fun e list item howner => honours_pure (List.forall_mem_singleton.mpr howner)
  unfold compileRhs
  cases r.rhs with
  | terminal p => exact honours_bind (honours_liftM _) fun _ _ => hnone _
  | series literal => exact honours_bind (honours_liftM _) fun _ _ => hnone _
  | choice branches =>
    have hbranch : ∀ b, Honours g (compileBranch sig g r b) fun _ => True := fun b =>
      honours_bind (honours_liftM _) fun _ _ => honours_bind (honours_rules _) fun _ _ =>
        honours_pure trivial
    refine honours_bind (honours_mapM hbranch branches) fun es _ => ?_
    cases es with
    | nil => exact honours_throw
    | cons first others => exact hnone _
  | wrap inner =>
    exact honours_bind (honours_liftM _) fun _ _ =>
      honours_bind (honours_rule _) fun _ _ => hnone _
  | record fields =>
    exact honours_bind (honours_liftM _) fun _ _ =>
      honours_bind (honours_rules _) fun _ _ => hnone _
  | opt inner =>
    exact honours_bind (honours_liftM _) fun _ _ =>
      honours_bind (honours_rule _) fun _ _ => hnone _
  | star inner =>
    exact honours_bind (honours_liftM _) fun _ _ => honours_bind (honours_rule _) fun _ _ =>
      honours_bind (honours_helper id) fun list howner => hlist _ list _ howner
  | plus inner =>
    exact honours_bind (honours_liftM _) fun _ _ => honours_bind (honours_rule _) fun _ _ =>
      honours_bind (honours_helper id) fun list howner => hlist _ list _ howner

/-- All bindings of a rule belong to the rule. -/
theorem honours_compileRule (sig : Signature) (id : RuleId) :
    Honours g (compileRule sig g id) fun bs => ∀ b ∈ bs, b.ident.owner = g.nameOf id :=
  honours_bind (honours_liftM _) fun r _ => honours_bind (honours_rule id) fun _ hident =>
    honours_bind (honours_compileRhs sig id r) fun _ hhelpers =>
      honours_pure (List.forall_mem_cons.mpr ⟨hident, hhelpers⟩)

end CompileM

/-! ## What the bindings of rules refer to -/

section Uses

variable {g : Grammar} {t : NameSupply} {id : RuleId} {bs : List (Binding (Expr Ident))}

/-- The bindings of a rule refer to the children of the rule in their order; those of a
repetition refer to the list as well, and more than once. -/
theorem refs_ruleBindings (f : RuleId → Ident) (list : Ident) (id : RuleId) (r : Rule) :
    (ruleBindings f list id r).flatMap (fun b => b.expr.refs) = r.rhs.children.map f ∨
    list ∈ (ruleBindings f list id r).map Binding.ident ∧ ∃ inner, r.rhs.children = [inner] ∧
      ∃ first, (first = [list] ∨ first = [f inner, list]) ∧
        (ruleBindings f list id r).flatMap (fun b => b.expr.refs) = first ++ [f inner, list] := by
  cases hrepeated : r.rhs.repeated? with
  | none =>
    have hplain : (r.rhs.map f).repeated? = none := by
      rw [Rhs.repeated?_map, hrepeated, Option.map_none]
    left
    rw [ruleBindings, hrepeated, Option.map_none, Option.toList_none, List.flatMap_singleton,
      Expr.refs, Rhs.refs_expr hplain, Rhs.children_map]
  | some inner =>
    right
    refine ⟨by simp [ruleBindings, hrepeated], ?_⟩
    cases hrhs : r.rhs with
    | star inner => exact ⟨inner, rfl, [list], .inl rfl, by rw [ruleBindings, hrhs]; rfl⟩
    | plus inner => exact ⟨inner, rfl, [f inner, list], .inr rfl, by rw [ruleBindings, hrhs]; rfl⟩
    | _ =>
      rw [hrhs] at hrepeated
      cases hrepeated

/-- All references of a rule's bindings are to these bindings or to children of the rule. -/
theorem mem_refs_ruleBindings {f : RuleId → Ident} {list : Ident} {r : Rule} {i : Ident}
    (hi : i ∈ (ruleBindings f list id r).flatMap fun b => b.expr.refs) :
    i ∈ (ruleBindings f list id r).map Binding.ident ∨ i ∈ r.rhs.children.map f := by
  rcases refs_ruleBindings f list id r with hrefs | ⟨hlist, inner, hinner, first, hfirst, hrefs⟩
  · exact .inr (hrefs ▸ hi)
  · have hcases : i = list ∨ i = f inner := by
      rw [hrefs] at hi
      rcases hfirst with rfl | rfl <;> simp at hi <;> tauto
    rcases hcases with rfl | rfl
    · exact .inl hlist
    · exact .inr (List.mem_map_of_mem (hinner ▸ List.mem_singleton_self inner))

/-- Before the first reference to a child there are only references to these bindings and to
the children before it. -/
theorem exists_refs_ruleBindings (f : RuleId → Ident) (list : Ident) (id : RuleId) {r : Rule}
    {cs cs' : List RuleId} {c : RuleId} (hchildren : r.rhs.children = cs ++ c :: cs') :
    ∃ before after, (ruleBindings f list id r).flatMap (fun b => b.expr.refs) =
        before ++ f c :: after ∧
      ∀ i ∈ before, i ∈ (ruleBindings f list id r).map Binding.ident ∨ i ∈ cs.map f := by
  rcases refs_ruleBindings f list id r with hrefs | ⟨hlist, inner, hinner, first, hfirst, hrefs⟩
  · refine ⟨cs.map f, cs'.map f, ?_, fun i hi => .inr hi⟩
    rw [hrefs, hchildren, List.map_append, List.map_cons]
  -- a star refers to its list first, which is one of its own bindings
  · obtain ⟨rfl, rfl, rfl⟩ : cs = [] ∧ c = inner ∧ cs' = [] := by
      rw [hinner] at hchildren
      cases cs <;> simp_all
    rcases hfirst with rfl | rfl
    · exact ⟨[list], [list], hrefs, List.forall_mem_singleton.mpr (.inl hlist)⟩
    · exact ⟨[], [list, f c, list], hrefs, fun i hi => absurd hi List.not_mem_nil⟩

end Uses

/-! ## Rules compiled in turn -/

section InTurn

open NameSupply (wellFormed_empty Extends)
open CompileM (Owned)

variable {sig : Signature} {g : Grammar} {s t : NameSupply} {ids before after : List RuleId}
  {id : RuleId} {bss : List (List (Binding (Expr Ident)))}

/-- The bindings of a rule, all of which belong to the rule. -/
def OwnBindings (g : Grammar) (t : NameSupply) (id : RuleId)
    (bs : List (Binding (Expr Ident))) : Prop :=
  RuleCompiled g t id bs ∧ ∀ b ∈ bs, b.ident.owner = g.nameOf id

theorem exists_forall₂_of_append {α β : Type} {R : α → β → Prop} {a : α} {after before : List α} :
    ∀ {bs : List β}, List.Forall₂ R (before ++ a :: after) bs →
      ∃ bs₁ b bs₂, bs = bs₁ ++ b :: bs₂ ∧ List.Forall₂ R before bs₁ ∧ R a b ∧
        List.Forall₂ R after bs₂ := by
  induction before with
  | nil =>
    intro bs h
    obtain ⟨b, bs₂, hab, hrest, rfl⟩ := List.forall₂_cons_left_iff.mp h
    exact ⟨[], b, bs₂, rfl, .nil, hab, hrest⟩
  | cons x before ih =>
    intro bs h
    obtain ⟨y, rest, hxy, hrest, rfl⟩ := List.forall₂_cons_left_iff.mp h
    obtain ⟨bs₁, b, bs₂, rfl, hbefore, hab, hafter⟩ := ih hrest
    exact ⟨y :: bs₁, b, bs₂, rfl, .cons hxy hbefore, hab, hafter⟩

/-- Rules can be compiled in any order, and more than once. -/
theorem run_mapM_ownBindings (hs : s.WellFormed) (howned : Owned g s)
    (h : (ids.mapM (compileRule sig g)).run s = .ok (bss, t)) :
    (t.WellFormed ∧ Owned g t) ∧ s.Extends t ∧ List.Forall₂ (OwnBindings g t) ids bss := by
  refine mapM_run_ok (I := fun s => s.WellFormed ∧ Owned g s)
    (R := fun id bs t => OwnBindings g t id bs) Extends.refl (fun _ _ _ => Extends.trans)
    (fun id bs u v hbs hext => ⟨hbs.1.extend hext, hbs.2⟩)
    (fun id u bs v hu hrun => ?_) ids ⟨hs, howned⟩ h
  obtain ⟨hv, hext, hcompiled, -⟩ := run_compileRule hu.1 hrun
  obtain ⟨howned, howner⟩ := CompileM.honours_compileRule sig id u bs v hu.2 hrun
  exact ⟨⟨hv, howned⟩, hext, hcompiled, howner⟩

theorem mem_idents (hall : List.Forall₂ (OwnBindings g t) ids bss) (hid : id ∈ ids) :
    t.identOf id ∈ bss.flatten.map Binding.ident := by
  obtain ⟨r, list, -, -, hmem, -⟩ := exists_binding (hall.imp fun _ _ => And.left) hid
  exact List.mem_map_of_mem hmem

theorem owned_empty (g : Grammar) : Owned g {} := fun _ _ hlookup => nomatch hlookup

/-- A rule that is compiled again binds its identifier again. -/
theorem firstRepeat?_idents (hrepeat : id ∈ before) (hnodup : before.Nodup)
    (h : ((before ++ id :: after).mapM (compileRule sig g)).run {} = .ok (bss, t)) :
    firstRepeat? (bss.flatten.map Binding.ident) = some (t.identOf id) := by
  rw [List.mapM_append] at h
  obtain ⟨bss₁, u, hbss₁, h⟩ := run_bind_eq_ok_iff.mp h
  obtain ⟨bss₂, v, hbss₂, h⟩ := run_bind_eq_ok_iff.mp h
  obtain ⟨rfl, rfl⟩ := run_pure_eq_ok_iff.mp h
  obtain ⟨-, -, -, hidents⟩ := run_mapM_compileRule before hnodup wellFormed_empty hbss₁
  obtain ⟨⟨hu, howned⟩, -, hbefore⟩ := run_mapM_ownBindings wellFormed_empty (owned_empty g) hbss₁
  obtain ⟨-, hext, hrest⟩ := run_mapM_ownBindings hu howned hbss₂
  obtain ⟨bs, bss₂, ⟨⟨r, list, -, -, rfl⟩, -⟩, -, rfl⟩ := List.forall₂_cons_left_iff.mp hrest
  obtain ⟨-, -, ⟨r', l', -, hknows, -⟩, -⟩ := forall₂_exists_left hbefore hrepeat
  have hmem := mem_idents hbefore hrepeat
  rw [← hext.identOf_eq (hknows id List.mem_cons_self)] at hmem
  rw [List.flatten_append, List.map_append]
  exact firstRepeat?_append hidents.1 hmem

theorem IdentsOf.extend {r : NameSupply} {is : List Ident} (h : IdentsOf r s ids is)
    (hext : s.Extends t) : IdentsOf r t ids is := by
  refine ⟨h.1, fun i hi => ?_⟩
  rcases h.2 i hi with ⟨id, hid, hlookup⟩ | haux
  · exact .inl ⟨id, hid, hext.keeps id i hlookup⟩
  · exact .inr (haux.extend hext)

/-- What is known of rules that were compiled one after another, at any later time: their
bindings belong to them, identifiers come again only if rules do, and the first rule that
comes again is the first whose identifier does. -/
structure InTurn (g : Grammar) (t : NameSupply) (ids : List RuleId)
    (bss : List (List (Binding (Expr Ident)))) : Prop where
  wellFormed : t.WellFormed
  own : List.Forall₂ (OwnBindings g t) ids bss
  idents : ids.Nodup → IdentsOf {} t ids (bss.flatten.map Binding.ident)
  again : ∀ {before after id}, ids = before ++ id :: after → before.Nodup → id ∈ before →
    firstRepeat? (bss.flatten.map Binding.ident) = some (t.identOf id)

theorem inTurn_of_run (h : (ids.mapM (compileRule sig g)).run {} = .ok (bss, s))
    (hext : s.Extends t) (ht : t.WellFormed) : InTurn g t ids bss where
  wellFormed := ht
  own := by
    obtain ⟨-, -, hall⟩ := run_mapM_ownBindings wellFormed_empty (owned_empty g) h
    exact hall.imp fun _ _ hown => ⟨hown.1.extend hext, hown.2⟩
  idents hnodup := (run_mapM_compileRule ids hnodup wellFormed_empty h).2.2.2.extend hext
  again := by
    rintro before after id rfl hnodup hrepeat
    obtain ⟨-, -, hall⟩ := run_mapM_ownBindings wellFormed_empty (owned_empty g) h
    obtain ⟨-, -, ⟨r, list, -, hknows, -⟩, -⟩ :=
      forall₂_exists_left hall (List.mem_append_left _ hrepeat)
    rw [firstRepeat?_idents hrepeat hnodup h, hext.identOf_eq (hknows id List.mem_cons_self)]

end InTurn

/-! ## Which rules close into a group -/

namespace Grammar

/-- Rules that can be bound together: each is listed once, and what they refer to and what is
asked for is listed too. -/
structure SelfContained (g : Grammar) (ids body : List RuleId) : Prop where
  nodup : ids.Nodup
  children : ∀ id ∈ ids, ∀ c ∈ g.childrenOf id, c ∈ ids
  body : ∀ id ∈ body, id ∈ ids

/-- The first reason why rules do not close into a group.  Identifiers are those of a supply. -/
inductive Blames (g : Grammar) (t : NameSupply) (ids body : List RuleId) : CompileError → Prop where
  /-- a rule is listed again -/
  | repeated {before after : List RuleId} {id : RuleId} {i : Ident}
      (hids : ids = before ++ id :: after) (hbefore : before.Nodup) (hid : id ∈ before)
      (hi : t.rules.lookup id = some i) : Blames g t ids body (.duplicateBinding i.render)
  /-- a rule refers to one that is not listed, and the rules before it do not -/
  | missing {before after cs cs' : List RuleId} {id c : RuleId} {r : Rule} {i : Ident}
      (hnodup : ids.Nodup) (hids : ids = before ++ id :: after)
      (hbefore : ∀ x ∈ before, ∀ y ∈ g.childrenOf x, y ∈ ids) (hr : g.get? id = some r)
      (hchildren : r.rhs.children = cs ++ c :: cs') (hcs : ∀ x ∈ cs, x ∈ ids) (hc : c ∉ ids)
      (hi : t.rules.lookup c = some i) : Blames g t ids body (.unresolved r.name i.render)
  /-- what is asked for is not listed, though all that rules refer to is -/
  | result {before after : List RuleId} {id : RuleId} {i : Ident} (hnodup : ids.Nodup)
      (hclosed : ∀ x ∈ ids, ∀ y ∈ g.childrenOf x, y ∈ ids) (hbody : body = before ++ id :: after)
      (hbefore : ∀ x ∈ before, x ∈ ids) (hid : id ∉ ids) (hi : t.rules.lookup id = some i) :
    Blames g t ids body (.unresolved "letrec body" i.render)

/-- Whether a rule repeats another one, and so has a list. -/
def repeats (g : Grammar) (id : RuleId) : Bool := (g.get? id).any fun r => r.rhs.repeated?.isSome

end Grammar

namespace InTurn

open NameSupply (identOf_eq)

variable {g : Grammar} {t : NameSupply} {ids body : List RuleId} {id : RuleId}
  {bss : List (List (Binding (Expr Ident)))} {e : CompileError}

theorem bound (h : InTurn g t ids bss) (hchildren : ∀ c ∈ g.childrenOf id, c ∈ ids)
    {bs : List (Binding (Expr Ident))} (hbs : bs ∈ bss) (hcompiled : RuleCompiled g t id bs) :
    ∀ i ∈ bs.flatMap (fun b => b.expr.refs), i ∈ bss.flatten.map Binding.ident := by
  obtain ⟨r, list, hr, -, rfl⟩ := hcompiled
  rw [Grammar.childrenOf_eq hr] at hchildren
  intro i hi
  rcases mem_refs_ruleBindings hi with hown | hchild
  · obtain ⟨b, hb, rfl⟩ := List.mem_map.mp hown
    exact List.mem_map_of_mem (List.mem_flatten.mpr ⟨_, hbs, hb⟩)
  · obtain ⟨c, hc, rfl⟩ := List.mem_map.mp hchild
    exact mem_idents h.own (hchildren c hc)

theorem unbound (h : InTurn g t ids bss) (hnodup : ids.Nodup) {c : RuleId} {i : Ident}
    (hc : c ∉ ids) (hi : t.rules.lookup c = some i) : i ∉ bss.flatten.map Binding.ident := by
  intro hmem
  rcases (h.idents hnodup).2 i hmem with ⟨id, hid, hlookup⟩ | haux
  · exact hc (h.wellFormed.injective id c i i hlookup hi rfl ▸ hid)
  · exact haux.not_rule c i hi rfl

theorem scoped_of_selfContained (h : InTurn g t ids bss) (hself : g.SelfContained ids body) :
    Group.Scoped bss.flatten (body.map t.identOf) where
  distinct := (h.idents hself.nodup).1
  exprs b hb i hi := by
    obtain ⟨bs, hbs, hb⟩ := List.mem_flatten.mp hb
    obtain ⟨id, hid, hcompiled, -⟩ := exists_of_mem_right h.own hbs
    exact h.bound (hself.children id hid) hbs hcompiled i (List.mem_flatMap.mpr ⟨b, hb, hi⟩)
  body i hi := by
    obtain ⟨id, hid, rfl⟩ := List.mem_map.mp hi
    exact mem_idents h.own (hself.body id hid)

/-- The first reference to a rule that is missing is made by a binding of the first rule that
refers to one. -/
theorem uses_of_missing (h : InTurn g t ids bss) {before after cs cs' : List RuleId} {c : RuleId}
    {r : Rule} (hids : ids = before ++ id :: after)
    (hbefore : ∀ x ∈ before, ∀ y ∈ g.childrenOf x, y ∈ ids) (hr : g.get? id = some r)
    (hchildren : r.rhs.children = cs ++ c :: cs') (hcs : ∀ x ∈ cs, x ∈ ids) :
    ∃ first rest, Group.uses bss.flatten = first ++ (r.name, t.identOf c) :: rest ∧
      ∀ use ∈ first, use.2 ∈ bss.flatten.map Binding.ident := by
  have hall := h.own
  rw [hids] at hall
  obtain ⟨bss₁, bs, bss₂, hbss, hearlier, ⟨⟨r', list, hr', -, hbs⟩, howner⟩, -⟩ :=
    exists_forall₂_of_append hall
  cases hr.symm.trans hr'
  obtain ⟨refs, refs', hrefs, hbound⟩ :=
    exists_refs_ruleBindings t.identOf list id hchildren
  have huses : Group.uses bs = (refs ++ t.identOf c :: refs').map (Prod.mk r.name) := by
    have hname : g.nameOf id = r.name := by rw [Grammar.nameOf, hr]
    rw [← hrefs, ← hbs, Group.uses, List.map_flatMap]
    exact List.flatMap_congr fun b hb => by rw [howner b hb, hname]
  refine ⟨Group.uses bss₁.flatten ++ refs.map (Prod.mk r.name),
    refs'.map (Prod.mk r.name) ++ Group.uses bss₂.flatten, ?_, ?_⟩
  · rw [hbss, List.flatten_append, List.flatten_cons]
    simp only [Group.uses, List.flatMap_append] at huses ⊢
    rw [huses]
    simp
  -- the rules before this one refer only to what is listed, and so does this one until then
  · intro use huse
    rcases List.mem_append.mp huse with huse | huse
    · obtain ⟨b, hb, huse⟩ := List.mem_flatMap.mp huse
      obtain ⟨i, hi, rfl⟩ := List.mem_map.mp huse
      obtain ⟨bs', hbs', hb⟩ := List.mem_flatten.mp hb
      obtain ⟨x, hx, hcompiled, -⟩ := exists_of_mem_right hearlier hbs'
      have hmem : bs' ∈ bss := hbss ▸ List.mem_append_left _ hbs'
      exact h.bound (hbefore x hx) hmem hcompiled i (List.mem_flatMap.mpr ⟨b, hb, hi⟩)
    · obtain ⟨i, hi, rfl⟩ := List.mem_map.mp huse
      rcases hbound i hi with hown | hchild
      · obtain ⟨b, hb, rfl⟩ := List.mem_map.mp hown
        have hmem : bs ∈ bss := hbss ▸ List.mem_append_right _ List.mem_cons_self
        exact List.mem_map_of_mem (List.mem_flatten.mpr ⟨bs, hmem, hbs ▸ hb⟩)
      · obtain ⟨x, hx, rfl⟩ := List.mem_map.mp hchild
        exact mem_idents h.own (hcs x hx)

/-- Rules are refused for the first reason there is. -/
theorem closeExprs_of_blames (h : InTurn g t ids bss) (hblames : g.Blames t ids body e) :
    Group.closeExprs bss.flatten (body.map t.identOf) = .error e := by
  cases hblames with
  | repeated hids hbefore hid hi =>
    rw [← identOf_eq hi]
    exact Group.closeExprs_of_repeat (h.again hids hbefore hid)
  | missing hnodup hids hbefore hr hchildren hcs hc hi =>
    obtain ⟨first, rest, huses, hbound⟩ := h.uses_of_missing hids hbefore hr hchildren hcs
    rw [identOf_eq hi] at huses
    exact Group.closeExprs_of_unbound (h.idents hnodup).1 huses hbound (h.unbound hnodup hc hi)
  | result hnodup hclosed hbody hbefore hid hi =>
    have hscoped := h.scoped_of_selfContained ⟨hnodup, hclosed, hbefore⟩
    rw [hbody, List.map_append, List.map_cons, identOf_eq hi]
    exact Group.closeExprs_of_unbound_body hscoped (h.unbound hnodup hid hi)

/-- What is not self-contained has a first fault. -/
theorem exists_blames (h : InTurn g t ids bss) (hbody : Knows t body)
    (hnot : ¬ g.SelfContained ids body) : ∃ e, g.Blames t ids body e := by
  have hknown : ∀ id ∈ ids, ∃ r, g.get? id = some r ∧ Knows t (id :: r.rhs.children) := by
    intro id hid
    obtain ⟨-, -, ⟨r, -, hr, hknows, -⟩, -⟩ := forall₂_exists_left h.own hid
    exact ⟨r, hr, hknows⟩
  by_cases hnodup : ids.Nodup
  · by_cases hclosed : ∀ x ∈ ids, ∀ y ∈ g.childrenOf x, y ∈ ids
    · have hresult : ¬ ∀ id ∈ body, id ∈ ids := fun hresult => hnot ⟨hnodup, hclosed, hresult⟩
      obtain ⟨before, id, after, hsplit, hbefore, hid⟩ := exists_first_of_not_forall hresult
      obtain ⟨i, hi⟩ := hbody id (hsplit ▸ List.mem_append_right _ List.mem_cons_self)
      exact ⟨_, .result hnodup hclosed hsplit hbefore hid hi⟩
    · obtain ⟨before, id, after, hsplit, hbefore, hid⟩ := exists_first_of_not_forall hclosed
      obtain ⟨r, hr, hknows⟩ := hknown id (hsplit ▸ List.mem_append_right _ List.mem_cons_self)
      rw [Grammar.childrenOf_eq hr] at hid
      obtain ⟨cs, c, cs', hchildren, hcs, hc⟩ := exists_first_of_not_forall hid
      have hmem : c ∈ r.rhs.children := hchildren ▸ List.mem_append_right _ List.mem_cons_self
      obtain ⟨i, hi⟩ := hknows c (List.mem_cons_of_mem id hmem)
      exact ⟨_, .missing hnodup hsplit hbefore hr hchildren hcs hc hi⟩
  · obtain ⟨before, id, after, hsplit, hbefore, hid⟩ := exists_first_repeat hnodup
    obtain ⟨r, -, hknows⟩ := hknown id (hsplit ▸ List.mem_append_right _ List.mem_cons_self)
    obtain ⟨i, hi⟩ := hknows id List.mem_cons_self
    exact ⟨_, .repeated hsplit hbefore hid hi⟩

end InTurn

/-! ## Slots of rules -/

namespace Group

variable {g : Grammar} {t : NameSupply} {ids body : List RuleId} {group : Group (Expr Slot)}

/-- The slots of a group are those of some rules in their order, each with the slot of its list
behind it if it repeats.  Every slot has the expression of its rule, in which all that it
refers to stands for the slot of what it refers to. -/
structure Places (g : Grammar) (t : NameSupply) (ids : List RuleId) (place list : RuleId → Slot)
    (group : Group (Expr Slot)) : Prop where
  slots : ids.flatMap (fun id => place id :: if g.repeats id then [list id] else []) =
    (List.range group.size).map Slot.mk
  ident : ∀ id ∈ ids, group.idents[(place id).index]? = t.rules.lookup id
  rule : ∀ id ∈ ids, ∀ r, g.get? id = some r → group.slots[(place id).index]? =
    some (.label r.title ((r.rhs.map place).expr r.name (list id)))
  list : ∀ id ∈ ids, ∀ r, g.get? id = some r → ∀ inner, r.rhs.repeated? = some inner →
    group.slots[(list id).index]? = some (.listOf (place inner) (list id))

theorem map_slotOf {idents : List Ident} (h : idents.Nodup) :
    idents.map (slotOf idents) = (List.range idents.length).map Slot.mk := by
  refine List.ext_getElem (by simp) fun k hk _ => ?_
  rw [List.length_map] at hk
  rw [List.getElem_map, List.getElem_map, List.getElem_range, slotOf, h.idxOf_getElem]

theorem getElem?_slotOf {bindings : List (Binding (Expr Ident))} {body : List Ident}
    (h : closeExprs bindings body = .ok group) {b : Binding (Expr Ident)} (hb : b ∈ bindings) :
    group.slots[(slotOf (bindings.map Binding.ident) b.ident).index]? =
      some (b.expr.mapRefs (slotOf (bindings.map Binding.ident))) := by
  obtain ⟨slot, hslot, hresolve⟩ := exists_slot_of_close h hb
  rw [hslot, (resolve_eq_ok_iff.mp hresolve).2]

theorem length_of_repeats {α : Type} (place list : RuleId → α) (p : RuleId → Bool) :
    (ids.flatMap fun id => place id :: if p id then [list id] else []).length =
      ids.length + ids.countP p := by
  induction ids with
  | nil => rfl
  | cons id ids ih =>
    rw [List.flatMap_cons, List.length_append, ih, List.countP_cons]
    split <;> simp <;> omega

theorem Places.size_eq {place list : RuleId → Slot} (h : Places g t ids place list group) :
    group.size = ids.length + ids.countP g.repeats := by
  have hlength := congrArg List.length h.slots
  rw [length_of_repeats, List.length_map, List.length_range] at hlength
  exact hlength.symm

theorem map_ident_bindingsOf_repeats (t : NameSupply) (list : RuleId → Ident)
    (hids : ∀ id ∈ ids, ∃ r, g.get? id = some r) :
    (bindingsOf g t list ids).map Binding.ident =
      ids.flatMap fun id => t.identOf id :: if g.repeats id then [list id] else [] := by
  rw [bindingsOf, List.map_flatMap]
  refine List.flatMap_congr fun id hid => ?_
  obtain ⟨r, hr⟩ := hids id hid
  cases hrepeated : r.rhs.repeated? <;> simp [hr, ruleBindings, Grammar.repeats, hrepeated]

/-- A group of rules that were compiled in turn has a slot for each of them. -/
theorem places_of_closeExprs {list : RuleId → Ident} {idents : List Ident}
    (hids : ∀ id ∈ ids, ∃ r, g.get? id = some r ∧ Knows t (id :: r.rhs.children))
    (h : closeExprs (bindingsOf g t list ids) idents = .ok group) :
    Places g t ids (slotOf group.idents ∘ t.identOf) (slotOf group.idents ∘ list) group := by
  obtain ⟨hscoped, hgroup⟩ := closeExprs_eq_ok_iff.mp h
  have hidents : group.idents = (bindingsOf g t list ids).map Binding.ident := by
    rw [hgroup, resolved]
  constructor
  · have hsize : group.size = group.idents.length := by simp [hgroup, resolved, size]
    have hbound := map_ident_bindingsOf_repeats t list fun id hid =>
      (hids id hid).imp fun r hr => hr.1
    rw [hsize, ← map_slotOf (hidents ▸ hscoped.distinct)]
    conv_rhs => arg 2; rw [hidents, hbound]
    rw [List.map_flatMap]
    refine List.flatMap_congr fun id _ => ?_
    cases g.repeats id <;> rfl
  · intro id hid
    obtain ⟨r, hr, hknows⟩ := hids id hid
    obtain ⟨i, hi⟩ := hknows id List.mem_cons_self
    have hmem : t.identOf id ∈ group.idents := by
      rw [hidents]
      exact List.mem_map_of_mem (mem_bindingsOf hid hr).1
    rw [hi, ← NameSupply.identOf_eq hi]
    exact List.getElem?_idxOf hmem
  · intro id hid r hr
    have hslot := getElem?_slotOf h (mem_bindingsOf hid hr).1
    rw [← hidents] at hslot
    rw [Function.comp_apply, hslot, Expr.mapRefs, Rhs.mapRefs_expr, Rhs.map_map]
    rfl
  · intro id hid r hr inner hinner
    have hslot := getElem?_slotOf h ((mem_bindingsOf hid hr).2 inner hinner)
    rw [← hidents] at hslot
    rw [Function.comp_apply, hslot]
    rfl

/-- Rules of a grammar can be compiled in any order, and more than once.  Their bindings close
into a group exactly if no rule is listed twice and all that the rules and the result refer to
is listed.  The group has a slot for each rule and one for each list, and wherever a rule is
referred to, it is by its slot.  Otherwise the group is refused for the first fault. -/
theorem closeExprs_compileRules (hg : g.Built) (hids : ∀ id ∈ ids, g.contains id = true)
    (body : List RuleId) :
    ∃ bindings s idents t,
      (compileRules (.ofGrammar g) g ids).run {} = .ok (bindings, s) ∧
      (CompileM.rules g body).run s = .ok (idents, t) ∧
      ((∃ group, closeExprs bindings idents = .ok group) ↔ g.SelfContained ids body) ∧
      (∀ group, closeExprs bindings idents = .ok group →
        group.size = ids.length + ids.countP g.repeats ∧
        ∃ place list, Places g t ids place list group ∧ group.body = body.map place) ∧
      ∀ e, closeExprs bindings idents = .error e ↔ g.Blames t ids body e := by
  have hwf := hg.wellFormed
  have hcompile : ∀ id ∈ ids, ∀ u, ∃ bs v,
      (compileRule (.ofGrammar g) g id).run u = .ok (bs, v) := by
    intro id hid
    obtain ⟨r, hr⟩ := Grammar.contains_iff.mp (hids id hid)
    refine exists_run_compileRule hr (Signature.agrees_ofGrammar hwf hr) fun hnone => ?_
    exact (hwf.rules r (Grammar.mem_of_get? hr)).branches_ne_nil hnone rfl
  obtain ⟨bss, s, hbss⟩ := exists_mapM_run_eq_ok hcompile {}
  obtain ⟨⟨hs, -⟩, -, -⟩ := run_mapM_ownBindings NameSupply.wellFormed_empty (owned_empty g) hbss
  obtain ⟨idents, t, hidents⟩ := CompileM.exists_run_rules g body s
  obtain ⟨ht, hext, hbody, rfl⟩ := CompileM.run_rules hs hidents
  have hturn := inTurn_of_run hbss hext ht
  have hself : (∃ group, closeExprs bss.flatten (body.map t.identOf) = .ok group) ↔
      g.SelfContained ids body := by
    constructor
    · rintro ⟨group, hgroup⟩
      by_contra hnot
      obtain ⟨e, he⟩ := hturn.exists_blames hbody hnot
      cases hgroup.symm.trans (hturn.closeExprs_of_blames he)
    · intro hself
      exact exists_closeExprs_iff.mpr (hturn.scoped_of_selfContained hself)
  refine ⟨bss.flatten, s, _, t, ?_, hidents, hself, fun group hgroup => ?_, fun e => ⟨fun he => ?_,
    hturn.closeExprs_of_blames⟩⟩
  · exact run_bind_eq_ok_iff.mpr ⟨bss, s, hbss, rfl⟩
  · have hcompiled := hturn.own.imp fun _ _ => And.left
    obtain ⟨list, hlist⟩ := exists_bindingsOf (hself.mp ⟨group, hgroup⟩).nodup hcompiled
    have hplaces : Places g t ids (slotOf group.idents ∘ t.identOf) (slotOf group.idents ∘ list)
        group := by
      refine places_of_closeExprs (fun id hid => ?_) (hlist ▸ hgroup)
      obtain ⟨-, -, r, -, hr, hknows, -⟩ := forall₂_exists_left hcompiled hid
      exact ⟨r, hr, hknows⟩
    refine ⟨hplaces.size_eq, _, _, hplaces, ?_⟩
    rw [(closeExprs_eq_ok_iff.mp hgroup).2, resolved, List.map_map]
  · have hnot : ¬ g.SelfContained ids body := by
      intro hcontained
      obtain ⟨group, hgroup⟩ := hself.mpr hcontained
      cases he.symm.trans hgroup
    obtain ⟨e', he'⟩ := hturn.exists_blames hbody hnot
    cases he.symm.trans (hturn.closeExprs_of_blames he')
    exact he'

/-- Blanks close together with the blank that they repeat, into three slots.  Without it they
are to blame for the reference in their list, and listed again they are bound twice. -/
theorem closeExprs_compileRules_sums :
    Grammar.sums.Built ∧
    (∃ bindings s idents t group,
      (compileRules (.ofGrammar Grammar.sums) Grammar.sums [⟨4⟩, ⟨2⟩]).run {} = .ok (bindings, s) ∧
      (CompileM.rules Grammar.sums [⟨2⟩]).run s = .ok (idents, t) ∧
      closeExprs bindings idents = .ok group ∧ group.size = 3) ∧
    (∃ bindings s,
      (compileRules (.ofGrammar Grammar.sums) Grammar.sums [⟨2⟩]).run {} = .ok (bindings, s) ∧
      closeExprs bindings [] = .error (.unresolved "blanks" "blank_1")) ∧
    ∃ bindings s,
      (compileRules (.ofGrammar Grammar.sums) Grammar.sums [⟨2⟩, ⟨4⟩, ⟨2⟩]).run {} =
        .ok (bindings, s) ∧
      closeExprs bindings [] = .error (.duplicateBinding "blanks_0") := by
  have hbuilt := Grammar.built_of_parse Grammar.parse_sums
  refine ⟨hbuilt, ?_, ?_, ?_⟩
  · have hids : ∀ id ∈ [(⟨4⟩ : RuleId), ⟨2⟩], Grammar.sums.contains id = true := by decide
    obtain ⟨bindings, s, idents, t, hrun, hrules, hself, hplaces, -⟩ :=
      closeExprs_compileRules hbuilt hids [⟨2⟩]
    obtain ⟨group, hgroup⟩ := hself.mpr ⟨by decide, by decide, by decide⟩
    exact ⟨bindings, s, idents, t, group, hrun, hrules, hgroup, (hplaces group hgroup).1⟩
  · have hids : ∀ id ∈ [(⟨2⟩ : RuleId)], Grammar.sums.contains id = true := by decide
    obtain ⟨bindings, s, idents, t, hrun, hrules, -, -, herror⟩ :=
      closeExprs_compileRules hbuilt hids []
    cases hrules
    have hsupply : ((compileRules (.ofGrammar Grammar.sums) Grammar.sums [⟨2⟩]).run {}).toOption.map
        (fun x => x.2.rules.lookup ⟨4⟩) = some (some ⟨"blank", "blank", 1⟩) := by decide +kernel
    rw [hrun] at hsupply
    refine ⟨bindings, s, hrun, (herror _).mpr ?_⟩
    exact @Grammar.Blames.missing _ _ _ _ [] [] [] [] ⟨2⟩ ⟨4⟩ ⟨"blanks", none, .star ⟨4⟩⟩
      ⟨"blank", "blank", 1⟩ (by decide) rfl (by simp) rfl rfl (by simp) (by decide)
      (Option.some.inj hsupply)
  · have hids : ∀ id ∈ [(⟨2⟩ : RuleId), ⟨4⟩, ⟨2⟩], Grammar.sums.contains id = true := by decide
    obtain ⟨bindings, s, idents, t, hrun, hrules, -, -, herror⟩ :=
      closeExprs_compileRules hbuilt hids []
    cases hrules
    have hsupply : ((compileRules (.ofGrammar Grammar.sums) Grammar.sums
        [⟨2⟩, ⟨4⟩, ⟨2⟩]).run {}).toOption.map (fun x => x.2.rules.lookup ⟨2⟩) =
          some (some ⟨"blanks", "blanks", 0⟩) := by decide +kernel
    rw [hrun] at hsupply
    refine ⟨bindings, s, hrun, (herror _).mpr ?_⟩
    exact @Grammar.Blames.repeated _ _ _ _ [⟨2⟩, ⟨4⟩] [] ⟨2⟩ ⟨"blanks", "blanks", 0⟩ rfl (by decide)
      (by decide) (Option.some.inj hsupply)

end Group

end ChartGrammar
