/-
  Proofs/Refusals.lean --- what compilers refuse.

  A parser and a terminalizer ask the signature for the same constructors, rule by rule in
  the order of the walk and branch by branch.  So both refuse a root for the same reason: it
  has no rule, or the signature lacks a constructor.  Nothing else goes wrong on the way,
  neither with the plans of products nor with the bindings nor with the registry.
-/
import ChartGrammar.Proofs.CompiledMeaning
import ChartGrammar.Proofs.CompiledProduct
import ChartGrammar.Proofs.TerminalizerExists

set_option autoImplicit false

namespace ChartGrammar

/-- A list whose members do not all have a property has a first one that lacks it. -/
theorem exists_first_of_not_forall {α : Type} {P : α → Prop} {as : List α}
    (h : ¬ ∀ a ∈ as, P a) :
    ∃ before a after, as = before ++ a :: after ∧ (∀ x ∈ before, P x) ∧ ¬ P a := by
  induction as with
  | nil => exact absurd (by simp) h
  | cons a as ih =>
    by_cases ha : P a
    · have hrest : ¬ ∀ x ∈ as, P x := fun hall => h (List.forall_mem_cons.mpr ⟨ha, hall⟩)
      obtain ⟨before, x, after, rfl, hbefore, hx⟩ := ih hrest
      exact ⟨a :: before, x, after, rfl, List.forall_mem_cons.mpr ⟨ha, hbefore⟩, hx⟩
    · exact ⟨[], a, as, rfl, by simp, ha⟩

/-! ## What a signature lacks -/

namespace Signature

variable {sig : Signature} {r : Rule} {c : Constructor}

/-- The first constructor that a rule needs and that the signature does not have for it. -/
inductive Lacks (sig : Signature) (r : Rule) : Constructor → Prop where
  | rule {c : Constructor} (hneeds : r.constructor? = some c) (h : sig.rule r.name ≠ some c) :
    Lacks sig r c
  | branch {before after : List (Branch RuleId)} {b : Branch RuleId}
      (hbranches : r.branches = before ++ b :: after)
      (hbefore : ∀ x ∈ before, sig.branch r.name x.label = some (r.branchConstructor x))
      (h : sig.branch r.name b.label ≠ some (r.branchConstructor b)) :
    Lacks sig r (r.branchConstructor b)

/-- A signature that does not answer for a rule lacks a constructor. -/
theorem exists_lacks (h : ¬ sig.Agrees r) : ∃ c, sig.Lacks r c := by
  by_cases hrule : ∀ c, r.constructor? = some c → sig.rule r.name = some c
  · have hbranch : ¬ ∀ b ∈ r.branches, sig.branch r.name b.label = some (r.branchConstructor b) :=
      fun hbranch => h ⟨hrule, hbranch⟩
    obtain ⟨before, b, after, hsplit, hbefore, hb⟩ := exists_first_of_not_forall hbranch
    exact ⟨_, .branch hsplit hbefore hb⟩
  · simp only [not_forall] at hrule
    obtain ⟨c, hneeds, hc⟩ := hrule
    exact ⟨c, .rule hneeds hc⟩

/-- The complaint about a constructor that is missing. -/
def complaint (r : Rule) (c : Constructor) : CompileError :=
  .unresolved r.name ("constructor " ++ c.render)

theorem resolveRule_of_lacks (hneeds : r.constructor? = some c) (h : sig.rule r.name ≠ some c) :
    sig.resolveRule r = .error (complaint r c) := by
  rw [resolveRule, hneeds]
  exact if_neg h

theorem resolveBranch_of_answer {b : Branch RuleId}
    (h : sig.branch r.name b.label = some (r.branchConstructor b)) :
    sig.resolveBranch r b = .ok (r.branchConstructor b) := if_pos h

theorem resolveBranch_of_lacks {b : Branch RuleId}
    (h : sig.branch r.name b.label ≠ some (r.branchConstructor b)) :
    sig.resolveBranch r b = .error (complaint r (r.branchConstructor b)) := if_neg h

end Signature

theorem Production.rhs_of_branches {r : Rule} {bs : List (Branch RuleId)} (h : r.branches = bs)
    (hne : bs ≠ []) : r.rhs = .choice bs := by
  unfold branches at h
  split at h
  · next hrhs => rw [hrhs, h]
  · exact absurd h.symm hne

/-! ## Rules -/

section Compile

open Signature (complaint)

variable {sig : Signature} {g : Grammar} {id : RuleId} {r : Rule} {c : Constructor}

/-- What lacks a constructor does not compile, whatever was compiled before. -/
theorem compileRhs_of_lacks (h : sig.Lacks r c) (s : NameSupply) :
    (compileRhs sig g id r).run s = .error (complaint r c) := by
  cases h with
  | rule hneeds hlacks =>
    have hask := Signature.resolveRule_of_lacks hneeds hlacks
    unfold compileRhs
    cases hrhs : r.rhs with
    | choice branches => simp [Production.constructor?, hrhs] at hneeds
    | _ => exact run_bind_of_error (run_liftM_of_error hask s)
  | @branch before after b hbranches hbefore hlacks =>
    have hask := Signature.resolveBranch_of_lacks hlacks
    unfold compileRhs
    rw [Production.rhs_of_branches hbranches (by simp)]
    refine run_bind_of_error (mapM_run_eq_error (fun x hx => ?_) (fun t => ?_) s)
    · exact exists_run_compileBranch (Signature.resolveBranch_of_answer (hbefore x hx))
    · exact run_bind_of_error (run_liftM_of_error hask t)

theorem compileRule_of_lacks (hr : g.get? id = some r) (h : sig.Lacks r c) (s : NameSupply) :
    (compileRule sig g id).run s = .error (complaint r c) := by
  obtain ⟨i, t, hi⟩ := CompileM.exists_run_rule g id s
  unfold compileRule
  rw [run_bind_of_ok (run_liftM_eq_ok_iff.mpr ⟨Grammar.rule_eq_ok_iff.mpr hr, rfl⟩),
    run_bind_of_ok hi]
  exact run_bind_of_error (compileRhs_of_lacks h t)

/-- A projection is refused for the same reason, since the plans before it are made. -/
theorem compileYieldShape_of_lacks {a : NonEmptiness} {nonempty : Bool} (h : sig.Lacks r c)
    (hvouches : nonempty = true → r.rhs.vouches a.isNonempty = true) (s : NameSupply) :
    (compileYieldShape sig g a r nonempty).run s = .error (complaint r c) := by
  cases h with
  | rule hneeds hlacks =>
    have hask := Signature.resolveRule_of_lacks hneeds hlacks
    unfold compileYieldShape
    cases hrhs : r.rhs with
    | choice branches => simp [Production.constructor?, hrhs] at hneeds
    | _ => exact run_bind_of_error (run_liftM_of_error hask s)
  | @branch before after b hbranches hbefore hlacks =>
    have hask := Signature.resolveBranch_of_lacks hlacks
    have hrhs := Production.rhs_of_branches hbranches (by simp)
    rw [hrhs] at hvouches
    unfold compileYieldShape
    rw [hrhs]
    refine run_bind_of_error (mapM_run_eq_error (fun x hx => ?_) (fun t => ?_) s)
    · refine exists_run_compileBranchPlan (Signature.resolveBranch_of_answer (hbefore x hx)) ?_
      exact fun h => List.all_eq_true.mp (hvouches h) x (List.mem_append_left _ hx)
    · exact run_bind_of_error (run_liftM_of_error hask t)

theorem compileYieldRule_of_lacks {a : NonEmptiness} (hr : g.get? id = some r)
    (h : sig.Lacks r c) (hvouches : a.isNonempty id = true → r.rhs.vouches a.isNonempty = true)
    (s : NameSupply) : (compileYieldRule sig g a id).run s = .error (complaint r c) := by
  unfold compileYieldRule
  rw [run_bind_of_ok (run_liftM_eq_ok_iff.mpr ⟨Grammar.rule_eq_ok_iff.mpr hr, rfl⟩)]
  exact run_bind_of_error (compileYieldShape_of_lacks h hvouches s)

/-! ## Roots -/

variable {root : RuleId} {e : CompileError}

/-- The first reason why a root cannot be compiled. -/
inductive Signature.Refuses (sig : Signature) (g : Grammar) (root : RuleId) :
    CompileError → Prop where
  /-- there is no such rule -/
  | foreign (h : g.contains root = false) : Refuses sig g root (.unresolved root.render root.render)
  /-- the signature answers for the rules before this one, and lacks a constructor of it -/
  | lacks {before after : List RuleId} {id : RuleId} {r : Rule} {c : Constructor}
      (hroot : g.contains root = true) (hids : g.reachable [root] = before ++ id :: after)
      (hbefore : sig.AgreesOn g before) (hr : g.get? id = some r) (h : sig.Lacks r c) :
    Refuses sig g root (.unresolved r.name ("constructor " ++ c.render))

/-- A root can be compiled: it is a rule, and the signature answers for all that it reaches. -/
def Signature.Covers (sig : Signature) (g : Grammar) (root : RuleId) : Prop :=
  g.contains root = true ∧ sig.AgreesOn g (g.reachable [root])

theorem Signature.exists_refuses (h : ¬ sig.Covers g root) : ∃ e, sig.Refuses g root e := by
  by_cases hroot : g.contains root = true
  · have hall : ¬ sig.AgreesOn g (g.reachable [root]) := fun hall => h ⟨hroot, hall⟩
    obtain ⟨before, id, after, hids, hbefore, hid⟩ := exists_first_of_not_forall hall
    obtain ⟨r, hr⟩ := Grammar.exists_get?_of_reachable
      (hids ▸ List.mem_append_right before List.mem_cons_self)
    obtain ⟨c, hc⟩ := exists_lacks fun hagrees => hid ⟨r, hr, hagrees⟩
    exact ⟨_, .lacks hroot hids hbefore hr hc⟩
  · exact ⟨_, .foreign (Bool.eq_false_iff.mpr hroot)⟩

theorem Grammar.rule_of_foreign (h : g.contains root = false) :
    g.rule root = .error (.unresolved root.render root.render) := by
  have hnone : g.get? root = none := by
    by_contra hsome
    obtain ⟨r, hr⟩ := Option.ne_none_iff_exists'.mp hsome
    rw [Grammar.contains_iff.mpr ⟨r, hr⟩] at h
    cases h
  rw [rule, hnone]

/-- A list of rules is not compiled if the signature lacks a constructor of one of them. -/
theorem compileGroup_of_lacks {before after body : List RuleId} (hg : g.WellFormed)
    (hbefore : sig.AgreesOn g before) (hr : g.get? id = some r) (h : sig.Lacks r c) :
    compileGroup sig g (before ++ id :: after) body = .error (complaint r c) := by
  have hrules : ∀ s, (compileRules sig g (before ++ id :: after)).run s =
      .error (complaint r c) := by
    refine fun s => run_bind_of_error (mapM_run_eq_error (fun x hx => ?_)
      (compileRule_of_lacks hr h) s)
    obtain ⟨rx, hrx, hagrees⟩ := hbefore x hx
    refine exists_run_compileRule hrx hagrees fun hnone => ?_
    exact (hg.rules rx (Grammar.mem_of_get? hrx)).branches_ne_nil hnone rfl
  unfold compileGroup
  simp only
  rw [run_bind_of_error (hrules {})]
  rfl

theorem Parser.compile_of_refuses (hg : g.WellFormed) (h : sig.Refuses g root e) :
    compile sig g root = .error e := by
  unfold compile
  cases h with
  | foreign hroot =>
    rw [Grammar.rule_of_foreign hroot]
    rfl
  | lacks hroot hids hbefore hr hlacks =>
    obtain ⟨rule, hrule⟩ := Grammar.contains_iff.mp hroot
    rw [Grammar.rule_eq_ok_iff.mpr hrule, hids, compileGroup_of_lacks hg hbefore hr hlacks]
    rfl

theorem Terminalizer.compile_of_refuses (h : sig.Refuses g root e) :
    compile sig g root = .error e := by
  unfold compile compileTable
  cases h with
  | foreign hroot =>
    have hcheck : [root].forM (fun root => discard (g.rule root)) =
        (discard (g.rule root) >>= fun _ => pure ()) := rfl
    rw [hcheck, Grammar.rule_of_foreign hroot]
    rfl
  | @lacks before after id r c hroot hids hbefore hr hlacks =>
    have hrules : ∀ s, ((g.reachable [root]).mapM
        (compileYieldRule sig g (NonEmptiness.analyze g))).run s = .error (complaint r c) := by
      rw [hids]
      refine mapM_run_eq_error (fun x hx => ?_)
        (compileYieldRule_of_lacks hr hlacks (NonEmptiness.vouches_of_isNonempty hr))
      obtain ⟨rx, hrx, hagrees⟩ := hbefore x hx
      exact exists_run_compileYieldRule hrx hagrees (NonEmptiness.vouches_of_isNonempty hrx)
    rw [Grammar.forM_rule_eq_ok_iff.mpr (List.forall_mem_singleton.mpr hroot)]
    simp only
    rw [run_bind_of_error (hrules {})]
    rfl

theorem Terminalizer.exists_compile_iff (hg : g.WellFormed) :
    (∃ t, compile sig g root = .ok t) ↔ sig.Covers g root := by
  constructor
  · rintro ⟨t, ht⟩
    by_contra hcovers
    obtain ⟨e, he⟩ := Signature.exists_refuses hcovers
    rw [compile_of_refuses he] at ht
    cases ht
  · rintro ⟨hroot, hagrees⟩
    obtain ⟨table, htable⟩ := exists_compileTable hg (List.forall_mem_singleton.mpr hroot) hagrees
    exact ⟨_, bind_eq_ok_iff.mpr ⟨table, htable, rfl⟩⟩

end Compile

/-! ## Installing rules -/

namespace Registry

/-- Issue a handle for each of some bodies, and then give each handle its body. -/
def install (bodies : List (Expr Handle)) : Except ParseError Registry :=
  bodies.zipIdx.foldlM (fun rules (body, i) => rules.define ⟨i⟩ body)
    (bodies.foldl (fun rules _ => rules.declare.2) empty)

theorem declareAll (bodies : List (Expr Handle)) (rules : Registry) :
    bodies.foldl (fun rules _ => rules.declare.2) rules =
      ⟨rules.bodies ++ (bodies.map fun _ => none).toArray⟩ := by
  induction bodies generalizing rules with
  | nil => simp
  | cons body bodies ih =>
    rw [List.foldl_cons, ih, Registry.mk.injEq]
    refine Array.ext' ?_
    simp [declare]

/-- Handles that were issued can be given their bodies one after another. -/
theorem defineAll (bodies done : List (Expr Handle)) :
    (bodies.zipIdx done.length).foldlM (fun rules (body, i) => rules.define ⟨i⟩ body)
        (⟨(done.map some ++ bodies.map fun _ => none).toArray⟩ : Registry) =
      .ok (ofBodies (done ++ bodies)) := by
  induction bodies generalizing done with
  | nil => simp [ofBodies, pure, Except.pure]
  | cons body bodies ih =>
    have hdefine : define ⟨(done.map some ++ (body :: bodies).map fun _ => none).toArray⟩
        ⟨done.length⟩ body =
          .ok ⟨((done ++ [body]).map some ++ bodies.map fun _ => none).toArray⟩ := by
      simp [define, List.set_append_right]
    rw [List.zipIdx_cons, List.foldlM_cons]
    dsimp only
    rw [hdefine]
    have hrest := ih (done ++ [body])
    rw [List.length_append, List.length_singleton, List.append_assoc,
      List.singleton_append] at hrest
    exact hrest

/-- No handle is refused. -/
theorem install_eq_ok (bodies : List (Expr Handle)) : install bodies = .ok (ofBodies bodies) := by
  have hdefine := defineAll bodies []
  rw [install, declareAll]
  simpa [empty] using hdefine

end Registry

/-! ## Parsers and terminalizers -/

/-- A compiler that succeeds where the signature covers the root, and fails for the first
reason elsewhere, fails for no other reason. -/
theorem Signature.eq_error_iff_refuses {α : Type} {sig : Signature} {g : Grammar} {root : RuleId}
    {x : Except CompileError α} (hok : (∃ a, x = .ok a) ↔ sig.Covers g root)
    (herror : ∀ e, sig.Refuses g root e → x = .error e) (e : CompileError) :
    x = .error e ↔ sig.Refuses g root e := by
  refine ⟨fun hx => ?_, herror e⟩
  have hcovers : ¬ sig.Covers g root := by
    intro hcovers
    obtain ⟨a, ha⟩ := hok.mpr hcovers
    rw [hx] at ha
    cases ha
  obtain ⟨e', he'⟩ := exists_refuses hcovers
  cases (herror e' he').symm.trans hx
  exact he'

/-- A root has a parser, and a terminalizer, exactly if it is a rule and the signature answers
for all that it reaches.  Otherwise both are refused for the first reason there is, and all
reasons are references without a target.  The handles of a parser are issued and defined by its
registry, and the signature of the grammar itself answers for every rule. -/
theorem Signature.compilers_refuse_alike {g : Grammar} (hg : g.Built) (sig : Signature)
    (root : RuleId) :
    ((∃ p, Parser.compile sig g root = .ok p) ↔ sig.Covers g root) ∧
    ((∃ t, Terminalizer.compile sig g root = .ok t) ↔ sig.Covers g root) ∧
    (∀ e, Parser.compile sig g root = .error e ↔ sig.Refuses g root e) ∧
    (∀ e, Terminalizer.compile sig g root = .error e ↔ sig.Refuses g root e) ∧
    (∀ e, sig.Refuses g root e → ∃ rule reference, e = .unresolved rule reference) ∧
    (∀ p, Parser.compile sig g root = .ok p →
      ∃ group, compileGroup sig g (g.reachable [root]) [root] = .ok group ∧
        Registry.install (group.slots.toList.map (Expr.mapRefs Slot.toHandle)) = .ok p.rules) ∧
    (g.contains root = true → (ofGrammar g).Covers g root) := by
  have hwf := hg.wellFormed
  have hparser : (∃ p, Parser.compile sig g root = .ok p) ↔ sig.Covers g root :=
    Parser.exists_compile_iff hwf
  have hterminalizer : (∃ t, Terminalizer.compile sig g root = .ok t) ↔ sig.Covers g root :=
    Terminalizer.exists_compile_iff hwf
  refine ⟨hparser, hterminalizer, fun e => ?_, fun e => ?_, fun e he => ?_, fun p hp => ?_,
    fun hroot => ⟨hroot, fun id hid => ?_⟩⟩
  · exact eq_error_iff_refuses hparser (fun _ => Parser.compile_of_refuses hwf) e
  · exact eq_error_iff_refuses hterminalizer (fun _ => Terminalizer.compile_of_refuses) e
  · cases he with
    | foreign _ => exact ⟨_, _, rfl⟩
    | lacks _ _ _ _ _ => exact ⟨_, _, rfl⟩
  · obtain ⟨r, -, h⟩ := bind_eq_ok_iff.mp hp
    obtain ⟨group, hgroup, hpure⟩ := bind_eq_ok_iff.mp h
    cases hpure
    exact ⟨group, hgroup, Registry.install_eq_ok _⟩
  · obtain ⟨r, hr⟩ := Grammar.exists_get?_of_reachable hid
    exact ⟨r, hr, agrees_ofGrammar hwf hr⟩

/-- A signature that has forgotten the second branch of a sum. -/
def Signature.forgetful : Signature :=
  (ofGrammar Grammar.sums).withBranch "sum" "One" none

theorem Signature.compilers_refuse_alike_sums :
    Grammar.sums.Built ∧ (ofGrammar Grammar.sums).Covers Grammar.sums ⟨0⟩ ∧
    ∃ e, forgetful.Refuses Grammar.sums ⟨0⟩ e ∧
      Parser.compile forgetful Grammar.sums ⟨0⟩ = .error e ∧
      Terminalizer.compile forgetful Grammar.sums ⟨0⟩ = .error e := by
  have hbuilt := Grammar.built_of_parse Grammar.parse_sums
  obtain ⟨-, -, hparser, hterminalizer, -, -, hown⟩ :=
    compilers_refuse_alike hbuilt forgetful ⟨0⟩
  have hlacks : forgetful.Lacks
      ⟨"sum", none, .choice [⟨"Add", [⟨0⟩, ⟨1⟩, ⟨2⟩, ⟨3⟩]⟩, ⟨"One", [⟨3⟩]⟩]⟩
      (.branch "sum" "One" 1) :=
    @Lacks.branch _ _ [⟨"Add", [⟨0⟩, ⟨1⟩, ⟨2⟩, ⟨3⟩]⟩] [] ⟨"One", [⟨3⟩]⟩ rfl (by decide +kernel)
      (by decide +kernel)
  have hrefuses : forgetful.Refuses Grammar.sums ⟨0⟩ (.unresolved "sum" _) :=
    @Refuses.lacks _ _ _ [] [⟨1⟩, ⟨2⟩, ⟨4⟩, ⟨3⟩, ⟨5⟩] ⟨0⟩ _ _ (by decide) (by decide +kernel)
      (by simp [AgreesOn]) rfl hlacks
  exact ⟨hbuilt, hown (by decide), _, hrefuses, (hparser _).mpr hrefuses,
    (hterminalizer _).mpr hrefuses⟩

end ChartGrammar
