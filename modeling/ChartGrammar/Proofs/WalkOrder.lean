/-
  Proofs/WalkOrder.lean --- the order in which a walk meets rules.

  The walk over the rules that some roots reach keeps pending rules on a stack, on which a
  rule may lie several times.  A recursive walk needs no stack: it meets a rule, then what
  the rule refers to, and then the rules next to it.  Both meet the same rules in the same
  order, and these are the rules to which references lead from the roots.
-/
import Mathlib.Logic.Relation
import ChartGrammar.Proofs.Reachable

set_option autoImplicit false

namespace ChartGrammar.Grammar

variable {g : Grammar}

/-! ## The recursive walk -/

/-- A rule refers to another one. -/
def RefersTo (g : Grammar) (id c : RuleId) : Prop := c ∈ g.childrenOf id

/-- A rule to which references lead from some roots, through any number of rules. -/
def ReachedFrom (g : Grammar) (roots : List RuleId) (id : RuleId) : Prop :=
  g.contains id = true ∧ ∃ root ∈ roots, g.contains root = true ∧
    Relation.ReflTransGen g.RefersTo root id

/-- The recursive walk: from the rules met before, in their order, over some rules from left
to right to the rules met after.  A rule that is new is met before what it refers to, and all
that before the rules next to it. -/
inductive Meets (g : Grammar) : List RuleId → List RuleId → List RuleId → Prop where
  | nil {seen : List RuleId} : Meets g seen [] seen
  | skip {seen ids out : List RuleId} {id : RuleId} (hold : id ∈ seen ∨ g.contains id = false)
      (hrest : Meets g seen ids out) : Meets g seen (id :: ids) out
  | meet {seen below ids out : List RuleId} {id : RuleId} (hnew : id ∉ seen)
      (hin : g.contains id = true) (hbelow : Meets g (seen ++ [id]) (g.childrenOf id) below)
      (hrest : Meets g below ids out) : Meets g seen (id :: ids) out

namespace Meets

variable {seen ids more mid out : List RuleId}

/-- A walk over some rules and then over others. -/
theorem append (h : g.Meets seen ids mid) (hmore : g.Meets mid more out) :
    g.Meets seen (ids ++ more) out := by
  induction h with
  | nil => exact hmore
  | skip hold _ ih => exact .skip hold (ih hmore)
  | meet hnew hin hbelow _ _ ih => exact .meet hnew hin hbelow (ih hmore)

/-- A walk only adds rules at the end. -/
theorem isPrefix (h : g.Meets seen ids out) : seen <+: out := by
  induction h with
  | nil => exact List.prefix_rfl
  | skip _ _ ih => exact ih
  | meet _ _ _ _ ihbelow ihrest =>
    exact ((List.prefix_append _ _).trans ihbelow).trans ihrest

end Meets

/-- Different rules of a grammar. -/
structure Listed (g : Grammar) (ids : List RuleId) : Prop where
  nodup : ids.Nodup
  contained : ∀ id ∈ ids, g.contains id = true

namespace Listed

variable {seen ids out : List RuleId} {id : RuleId}

theorem nil : g.Listed [] := ⟨List.nodup_nil, fun _ hid => absurd hid List.not_mem_nil⟩

theorem concat (h : g.Listed seen) (hnew : id ∉ seen) (hin : g.contains id = true) :
    g.Listed (seen ++ [id]) where
  nodup := by
    rw [List.nodup_append]
    refine ⟨h.nodup, List.nodup_singleton _, ?_⟩
    intro a ha b hb
    rw [List.mem_singleton.mp hb]
    exact ne_of_mem_of_not_mem ha hnew
  contained := by
    rw [List.forall_mem_append, List.forall_mem_singleton]
    exact ⟨h.contained, hin⟩

theorem length_le (h : g.Listed seen) : seen.length ≤ g.size := length_le_size h.nodup h.contained

/-- There is room for a rule that is new. -/
theorem length_lt (h : g.Listed seen) (hnew : id ∉ seen) (hin : g.contains id = true) :
    seen.length < g.size := by
  have := (h.concat hnew hin).length_le
  rwa [List.length_append, List.length_singleton] at this

theorem meets (h : g.Listed seen) (hmeets : g.Meets seen ids out) : g.Listed out := by
  induction hmeets with
  | nil => exact h
  | skip _ _ ih => exact ih h
  | meet hnew hin _ _ ihbelow ihrest => exact ihrest (ihbelow (h.concat hnew hin))

/-- The recursive walk ends: with every rule that it meets fewer are left. -/
theorem exists_meets (h : g.Listed seen) (ids : List RuleId) : ∃ out, g.Meets seen ids out := by
  induction hleft : g.size - seen.length using Nat.strong_induction_on generalizing seen ids with
  | _ left ih =>
    induction ids with
    | nil => exact ⟨seen, .nil⟩
    | cons id ids ihids =>
      by_cases hold : id ∈ seen ∨ g.contains id = false
      · obtain ⟨out, hout⟩ := ihids
        exact ⟨out, .skip hold hout⟩
      · rw [not_or, Bool.not_eq_false] at hold
        obtain ⟨hnew, hin⟩ := hold
        have hlisted := h.concat hnew hin
        have hroom := h.length_lt hnew hin
        obtain ⟨below, hbelow⟩ := ih _ (by simp; omega) hlisted (g.childrenOf id) rfl
        have hlen := hbelow.isPrefix.length_le
        rw [List.length_append, List.length_singleton] at hlen
        obtain ⟨out, hout⟩ := ih _ (by omega) (hlisted.meets hbelow) ids rfl
        exact ⟨out, .meet hnew hin hbelow hout⟩

end Listed

/-! ## The walk with a stack -/

section Stack

variable {room : Nat} {stack visited seen ids out : List RuleId} {id : RuleId}

theorem walkReachable_skip (h : id ∈ visited ∨ g.contains id = false) :
    g.walkReachable room (id :: stack) visited = g.walkReachable room stack visited := by
  have hskip : (visited.contains id || !g.contains id) = true := by simpa using h
  have hdrop : (id :: stack).dropWhile (fun id => visited.contains id || !g.contains id) =
      stack.dropWhile fun id => visited.contains id || !g.contains id := by
    rw [List.dropWhile_cons, if_pos hskip]
  rw [walkReachable.eq_def, walkReachable.eq_def g room stack, hdrop]

theorem walkReachable_meet (hnew : id ∉ visited) (hin : g.contains id = true) :
    g.walkReachable (room + 1) (id :: stack) visited =
      g.walkReachable room (g.childrenOf id ++ stack) (id :: visited) := by
  have hstay : (visited.contains id || !g.contains id) = false := by simp [hnew, hin]
  rw [walkReachable, List.dropWhile_cons, if_neg (Bool.eq_false_iff.mp hstay)]
  rfl

/-- The stack works off the rules on its top as the recursive walk does, and then goes on
with the rest. -/
theorem walkReachable_of_meets (hmeets : g.Meets seen ids out) (h : g.Listed seen)
    (rest : List RuleId) :
    g.walkReachable (g.size - seen.length) (ids ++ rest) seen.reverse =
      g.walkReachable (g.size - out.length) rest out.reverse := by
  induction hmeets generalizing rest with
  | nil => rfl
  | skip hold _ ih =>
    rw [List.cons_append, walkReachable_skip (by rwa [List.mem_reverse])]
    exact ih h rest
  | @meet seen below ids out id hnew hin _ _ ihbelow ihrest =>
    have hlisted := h.concat hnew hin
    have hroom : g.size - seen.length = g.size - (seen ++ [id]).length + 1 := by
      have := h.length_lt hnew hin
      rw [List.length_append, List.length_singleton]
      omega
    have hvisited : id :: seen.reverse = (seen ++ [id]).reverse := by
      rw [List.reverse_append, List.reverse_singleton, List.singleton_append]
    calc g.walkReachable (g.size - seen.length) (id :: ids ++ rest) seen.reverse
        = g.walkReachable (g.size - (seen ++ [id]).length) (g.childrenOf id ++ (ids ++ rest))
            (seen ++ [id]).reverse := by
          rw [hroom, List.cons_append, walkReachable_meet (by rwa [List.mem_reverse]) hin, hvisited]
      _ = g.walkReachable (g.size - below.length) (ids ++ rest) below.reverse :=
          ihbelow hlisted (ids ++ rest)
      _ = g.walkReachable (g.size - out.length) rest out.reverse :=
          ihrest (hlisted.meets ‹_›) rest

/-- What the stack comes to is what the recursive walk meets, and it meets nothing else. -/
theorem meets_iff {roots : List RuleId} : g.Meets [] roots out ↔ out = g.reachable roots := by
  have heq : ∀ {out}, g.Meets [] roots out → out = g.reachable roots := by
    intro out hout
    have hwalk := walkReachable_of_meets hout .nil []
    rw [List.append_nil, walkReachable.eq_def g (g.size - out.length)] at hwalk
    simpa [reachable] using hwalk.symm
  refine ⟨heq, ?_⟩
  rintro rfl
  obtain ⟨out, hout⟩ := Listed.nil.exists_meets roots
  rwa [← heq hout]

end Stack

/-! ## The rules that are met -/

variable {roots : List RuleId} {id : RuleId}

/-- The walk returns the rules to which references lead from its roots. -/
theorem mem_reachable_iff : id ∈ g.reachable roots ↔ g.ReachedFrom roots id := by
  constructor
  · refine forall_reachable (P := g.ReachedFrom roots) ?_ ?_ id
    · exact fun root hroot hin => ⟨hin, root, hroot, hin, .refl⟩
    · rintro id ⟨-, root, hroot, hin, hpath⟩ c hc hcin
      exact ⟨hcin, root, hroot, hin, hpath.tail hc⟩
  · rintro ⟨hid, root, hroot, hin, hpath⟩
    induction hpath with
    | refl => exact mem_reachable_root hroot hid
    | @tail id c _ hc ih =>
      -- a place without a rule refers to nothing, so there is a rule on every step of the way
      have hmid : g.contains id = true := by
        rw [contains_iff, ← Option.ne_none_iff_exists']
        intro hnone
        simp [RefersTo, childrenOf, hnone] at hc
      exact (reachable_result g roots).closed id (ih hmid) c hc hid

theorem reachable_isPrefix (roots more : List RuleId) :
    g.reachable roots <+: g.reachable (roots ++ more) := by
  have hroots : g.Meets [] roots (g.reachable roots) := meets_iff.mpr rfl
  obtain ⟨out, hout⟩ := (Listed.nil.meets hroots).exists_meets more
  rw [← meets_iff.mp (hroots.append hout)]
  exact hout.isPrefix

/-- The walk from some roots, with repeats or without, lists the rules to which references lead
from those roots that are rules, each once and in the order in which the recursive walk meets
them.  More roots behind these add to the end of the list, and a rule that is reached from
another one reaches nothing else. -/
theorem reachable_in_preorder (g : Grammar) (roots : List RuleId) :
    (g.reachable roots).Nodup ∧
    (∀ id, id ∈ g.reachable roots ↔ g.ReachedFrom roots id) ∧
    (∀ id, (g.reachable roots).contains id = true ↔ g.ReachedFrom roots id) ∧
    (∀ out, g.Meets [] roots out ↔ out = g.reachable roots) ∧
    (∀ more, g.reachable roots <+: g.reachable (roots ++ more)) ∧
    ∀ root, ∀ id ∈ g.reachable [root], ∀ id' ∈ g.reachable [id], id' ∈ g.reachable [root] := by
  refine ⟨(reachable_result g roots).nodup, fun id => mem_reachable_iff, fun id => ?_,
    fun out => meets_iff, reachable_isPrefix roots, fun root id hid => reachable_subset hid⟩
  rw [List.contains_iff_mem]
  exact mem_reachable_iff

/-- From the first of three rules the third is reached through the second, and so is what the
third reaches: the second again. -/
theorem reachable_in_preorder_chain :
    let g : Grammar := ⟨#[⟨"a", none, .wrap ⟨1⟩⟩, ⟨"b", none, .opt ⟨2⟩⟩,
      ⟨"c", none, .star ⟨1⟩⟩]⟩
    ⟨2⟩ ∈ g.reachable [⟨0⟩] ∧ ⟨1⟩ ∈ g.reachable [⟨2⟩] ∧ ⟨1⟩ ∈ g.reachable [⟨0⟩] := by
  intro g
  have hthird : (⟨2⟩ : RuleId) ∈ g.reachable [⟨0⟩] := by decide
  have hsecond : (⟨1⟩ : RuleId) ∈ g.reachable [⟨2⟩] := by decide
  obtain ⟨-, -, -, -, -, hclosed⟩ := reachable_in_preorder g [⟨0⟩]
  exact ⟨hthird, hsecond, hclosed ⟨0⟩ ⟨2⟩ hthird ⟨1⟩ hsecond⟩

/-- Two rules that refer to each other, a third that one of them shares with the root, and a
place without a rule: the root's children wait on the stack while its first child is walked. -/
example :
    let g : Grammar := ⟨#[⟨"a", none, .record [⟨1⟩, ⟨3⟩, ⟨2⟩]⟩, ⟨"b", none, .record [⟨2⟩, ⟨0⟩]⟩,
      ⟨"c", none, .star ⟨1⟩⟩, ⟨"d", none, .terminal .any⟩, ⟨"e", none, .wrap ⟨3⟩⟩]⟩
    g.reachable [⟨7⟩, ⟨0⟩, ⟨4⟩, ⟨0⟩] = [⟨0⟩, ⟨1⟩, ⟨2⟩, ⟨3⟩, ⟨4⟩] := by
  decide

end ChartGrammar.Grammar
