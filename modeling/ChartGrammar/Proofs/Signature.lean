/-
  Proofs/Signature.lean --- when a signature answers for a rule.

  Both compilers ask the signature for the constructors of a rule and go on only
  with the ones that the rule needs.  The signature made from a grammar has them
  all: names and labels are distinct, so each constructor is found.
-/
import ChartGrammar.Proofs.WellFormed
import ChartGrammar.Signature

set_option autoImplicit false

namespace ChartGrammar

namespace Signature

variable {sig : Signature} {r : Rule}

/-- A signature answers for a rule with the constructors that the rule needs. -/
structure Agrees (sig : Signature) (r : Rule) : Prop where
  rule : ∀ c, r.constructor? = some c → sig.rule r.name = some c
  branch : ∀ b ∈ r.branches, sig.branch r.name b.label = some (r.branchConstructor b)

theorem resolveRule_eq_ok {c : Constructor} (h : sig.resolveRule r = .ok c) :
    r.constructor? = some c := by
  unfold resolveRule check at h
  split at h
  · cases h
  · next expected hexpected =>
    split at h
    · cases h
      exact hexpected
    · cases h

theorem resolveBranch_eq_ok {b : Branch RuleId} {c : Constructor}
    (h : sig.resolveBranch r b = .ok c) : c = r.branchConstructor b := by
  unfold resolveBranch check at h
  split at h
  · cases h
    rfl
  · cases h

theorem Agrees.resolveRule (h : sig.Agrees r) {c : Constructor} (hc : r.constructor? = some c) :
    sig.resolveRule r = .ok c := by
  unfold Signature.resolveRule check
  rw [hc]
  simp [h.rule c hc]

theorem Agrees.resolveBranch (h : sig.Agrees r) {b : Branch RuleId} (hb : b ∈ r.branches) :
    sig.resolveBranch r b = .ok (r.branchConstructor b) := by
  unfold Signature.resolveBranch check
  simp [h.branch b hb]

/-- The signature of a well-formed grammar answers for every rule of it. -/
theorem agrees_ofGrammar {g : Grammar} (hg : g.WellFormed) {id : RuleId}
    (hr : g.get? id = some r) : (ofGrammar g).Agrees r := by
  have hfind : (g.find? r.name).bind g.get? = some r := by rw [hg.find?_name hr, Option.bind, hr]
  constructor
  · intro c hc
    simp only [ofGrammar, hfind, Option.bind_some, hc]
  · intro b hb
    simp only [ofGrammar, hfind, Option.bind_some, Option.map_eq_some_iff]
    refine ⟨b, ?_, rfl⟩
    cases hrhs : r.rhs with
    | choice branches =>
      have hbranches : r.branches = branches := by simp only [Production.branches, hrhs]
      rw [hbranches] at hb ⊢
      have hnodup := (hg.rules r (Grammar.mem_of_get? hr)).labels_nodup hrhs
      obtain ⟨i, hi, hget⟩ := List.getElem_of_mem hb
      rw [List.find?_eq_some_iff_getElem]
      refine ⟨by simp, i, hi, hget, ?_⟩
      intro j hj
      rw [Bool.not_eq_true', beq_eq_false_iff_ne]
      intro hlabel
      have hij : j = i := by
        refine (List.getElem?_inj (by simp; omega) hnodup).mp ?_
        simp [hget, hlabel, List.getElem?_eq_getElem (Nat.lt_trans hj hi),
          List.getElem?_eq_getElem hi]
      omega
    | _ => simp [Production.branches, hrhs] at hb

end Signature

theorem Grammar.rule_eq_ok_iff {g : Grammar} {id : RuleId} {r : Rule} :
    g.rule id = .ok r ↔ g.get? id = some r := by
  unfold Grammar.rule
  cases g.get? id with
  | none => simp
  | some r' => simp

theorem Grammar.forM_rule_eq_ok_iff {g : Grammar} {roots : List RuleId} :
    roots.forM (fun root => discard (g.rule root)) = .ok () ↔
      ∀ root ∈ roots, g.contains root = true := by
  rw [forM_eq_ok_iff]
  refine forall₂_congr fun root _ => ?_
  unfold Grammar.rule
  rw [contains_iff]
  cases g.get? root with
  | none =>
    constructor
    · intro h
      cases h
    · rintro ⟨r, h⟩
      cases h
  | some r => exact ⟨fun _ => ⟨r, rfl⟩, fun _ => rfl⟩

end ChartGrammar
