/-
  Proofs/Reachable.lean --- the walk over the rules that some roots reach.

  The walk stops when nothing new is pending.  By then it has met every root, and
  with each rule the rules that it refers to: what it returns is closed.
-/
import Mathlib.Data.List.Perm.Subperm
import Mathlib.Data.List.TakeWhile
import ChartGrammar.Grammar.Reachable
import ChartGrammar.Proofs.WellFormed

set_option autoImplicit false

namespace ChartGrammar

/-! ## Skipping the front of a stack -/

/-- The first pending entry that is not skipped, and where the others went. -/
theorem dropWhile_eq_cons {α : Type} {p : α → Bool} {a : α} {rest : List α} (l : List α)
    (h : l.dropWhile p = a :: rest) :
    p a = false ∧ ∀ x ∈ l, p x = true ∨ x = a ∨ x ∈ rest := by
  induction l with
  | nil => simp at h
  | cons b l ih =>
    rw [List.dropWhile_cons] at h
    split at h
    · next hb =>
      obtain ⟨hpa, hmem⟩ := ih h
      refine ⟨hpa, ?_⟩
      intro x hx
      rcases List.mem_cons.mp hx with rfl | hx
      · exact .inl hb
      · exact hmem x hx
    · next hb =>
      cases h
      refine ⟨by simpa using hb, ?_⟩
      intro x hx
      exact .inr (List.mem_cons.mp hx)

namespace Grammar

variable {g : Grammar}

/-- The rules that a rule refers to. -/
def childrenOf (g : Grammar) (id : RuleId) : List RuleId :=
  ((g.get? id).map fun r => r.rhs.children).getD []

theorem childrenOf_eq {id : RuleId} {r : Rule} (h : g.get? id = some r) :
    g.childrenOf id = r.rhs.children := by
  rw [childrenOf, h]
  rfl

/-- A grammar has no more rules than places. -/
theorem length_le_size {ids : List RuleId} (hnodup : ids.Nodup)
    (hin : ∀ id ∈ ids, g.contains id = true) : ids.length ≤ g.size := by
  have hmap : (ids.map RuleId.index).Nodup := by
    refine hnodup.map ?_
    intro a b hab
    cases a
    cases b
    simpa using hab
  have hsub : ids.map RuleId.index ⊆ List.range g.size := by
    intro i hi
    obtain ⟨id, hid, rfl⟩ := List.mem_map.mp hi
    exact List.mem_range.mpr (of_decide_eq_true (hin id hid))
  have := (hmap.subperm hsub).length_le
  simpa using this

/-! ## The walk -/

/-- What holds of the rules met so far and of those pending, all through a walk. -/
structure WalkState (g : Grammar) (room : Nat) (stack visited : List RuleId) : Prop where
  room_eq : room + visited.length = g.size
  nodup : visited.Nodup
  contained : ∀ id ∈ visited, g.contains id = true
  closed : ∀ id ∈ visited, ∀ c ∈ g.childrenOf id, g.contains c = true →
    c ∈ visited ∨ c ∈ stack

/-- What a walk returns: rules of the grammar, each once, closed under reference, with
all that was met or pending. -/
structure WalkResult (g : Grammar) (stack visited ids : List RuleId) : Prop where
  nodup : ids.Nodup
  contained : ∀ id ∈ ids, g.contains id = true
  closed : ∀ id ∈ ids, ∀ c ∈ g.childrenOf id, g.contains c = true → c ∈ ids
  visited_mem : ∀ id ∈ visited, id ∈ ids
  stack_mem : ∀ id ∈ stack, g.contains id = true → id ∈ ids

/-- Meeting the next new rule makes its children pending. -/
theorem WalkState.step {room : Nat} {stack visited rest : List RuleId} {id : RuleId}
    (h : g.WalkState (room + 1) stack visited)
    (hdrop : (stack.dropWhile fun id => visited.contains id || !g.contains id) = id :: rest) :
    g.WalkState room (g.childrenOf id ++ rest) (id :: visited) := by
  obtain ⟨hid, hmem⟩ := dropWhile_eq_cons stack hdrop
  simp only [Bool.or_eq_false_iff, List.contains_eq_mem, decide_eq_false_iff_not,
    Bool.not_eq_false'] at hid
  constructor
  · have := h.room_eq
    simp only [List.length_cons]
    omega
  · exact List.nodup_cons.mpr ⟨hid.1, h.nodup⟩
  · intro id' hid'
    rcases List.mem_cons.mp hid' with rfl | hid'
    · exact hid.2
    · exact h.contained id' hid'
  · intro id' hid' c hc hcin
    rcases List.mem_cons.mp hid' with rfl | hid'
    · exact .inr (List.mem_append_left _ hc)
    · rcases h.closed id' hid' c hc hcin with hvisited | hstack
      · exact .inl (List.mem_cons_of_mem _ hvisited)
      · rcases hmem c hstack with hskip | rfl | hrest
        · simp only [Bool.or_eq_true, List.contains_eq_mem, decide_eq_true_eq,
            Bool.not_eq_true', hcin, Bool.true_eq_false, or_false] at hskip
          exact .inl (List.mem_cons_of_mem _ hskip)
        · exact .inl List.mem_cons_self
        · exact .inr (List.mem_append_right _ hrest)

/-- With nothing new pending, the rules met so far are the answer. -/
theorem walkReachable_done {room : Nat} {stack visited : List RuleId}
    (h : g.WalkState room stack visited)
    (hdrop : (stack.dropWhile fun id => visited.contains id || !g.contains id) = []) :
    g.WalkResult stack visited (g.walkReachable room stack visited) := by
  have hstack : ∀ id ∈ stack, g.contains id = true → id ∈ visited := by
    intro id hid hin
    have := List.dropWhile_eq_nil_iff.mp hdrop id hid
    simpa [hin] using this
  have heq : g.walkReachable room stack visited = visited.reverse := by
    unfold walkReachable
    rw [hdrop]
  rw [heq]
  constructor
  · exact List.nodup_reverse.mpr h.nodup
  · intro id hid
    exact h.contained id (List.mem_reverse.mp hid)
  · intro id hid c hc hcin
    rcases h.closed id (List.mem_reverse.mp hid) c hc hcin with hvisited | hpending
    · exact List.mem_reverse.mpr hvisited
    · exact List.mem_reverse.mpr (hstack c hpending hcin)
  · intro id hid
    exact List.mem_reverse.mpr hid
  · intro id hid hin
    exact List.mem_reverse.mpr (hstack id hid hin)

/-- A walk never runs out of room before nothing new is pending. -/
theorem walkReachable_result (room : Nat) :
    ∀ {stack visited : List RuleId}, g.WalkState room stack visited →
      g.WalkResult stack visited (g.walkReachable room stack visited) := by
  induction room with
  | zero =>
    intro stack visited h
    have hdone : stack.dropWhile (fun id => visited.contains id || !g.contains id) = [] := by
      cases hdrop : stack.dropWhile fun id => visited.contains id || !g.contains id with
      | nil => rfl
      | cons id rest =>
        obtain ⟨hid, -⟩ := dropWhile_eq_cons stack hdrop
        simp only [Bool.or_eq_false_iff, List.contains_eq_mem, decide_eq_false_iff_not,
          Bool.not_eq_false'] at hid
        have hlen := length_le_size (g := g) (List.nodup_cons.mpr ⟨hid.1, h.nodup⟩) (by
          intro id' hid'
          rcases List.mem_cons.mp hid' with rfl | hid'
          · exact hid.2
          · exact h.contained id' hid')
        have := h.room_eq
        simp only [List.length_cons] at hlen
        omega
    exact walkReachable_done h hdone
  | succ room ih =>
    intro stack visited h
    cases hdrop : stack.dropWhile fun id => visited.contains id || !g.contains id with
    | nil => exact walkReachable_done h hdrop
    | cons id rest =>
      obtain ⟨-, hmem⟩ := dropWhile_eq_cons stack hdrop
      have hnext := ih (h.step hdrop)
      rw [walkReachable, hdrop]
      change g.WalkResult stack visited
        (g.walkReachable room (g.childrenOf id ++ rest) (id :: visited))
      refine ⟨hnext.nodup, hnext.contained, hnext.closed, ?_, ?_⟩
      · intro id' hid'
        exact hnext.visited_mem id' (List.mem_cons_of_mem _ hid')
      · intro id' hid' hin
        rcases hmem id' hid' with hskip | rfl | hrest
        · simp only [Bool.or_eq_true, List.contains_eq_mem, decide_eq_true_eq,
            Bool.not_eq_true', hin, Bool.true_eq_false, or_false] at hskip
          exact hnext.visited_mem id' (List.mem_cons_of_mem _ hskip)
        · exact hnext.visited_mem id' List.mem_cons_self
        · exact hnext.stack_mem id' (List.mem_append_right _ hrest) hin

/-- The rules that some roots reach are listed once each, belong to the grammar, and
hold the roots and with each rule the rules that it refers to. -/
theorem reachable_result (g : Grammar) (roots : List RuleId) :
    g.WalkResult roots [] (g.reachable roots) := by
  refine walkReachable_result g.size ⟨by simp, List.nodup_nil, ?_, ?_⟩
  · intro id hid
    simp at hid
  · intro id hid
    simp at hid

variable {roots : List RuleId}

theorem exists_get?_of_reachable {id : RuleId} (h : id ∈ g.reachable roots) :
    ∃ r, g.get? id = some r :=
  contains_iff.mp ((reachable_result g roots).contained id h)

theorem mem_reachable_root {root : RuleId} (hroot : root ∈ roots)
    (hin : g.contains root = true) : root ∈ g.reachable roots :=
  (reachable_result g roots).stack_mem root hroot hin

theorem WellFormed.mem_reachable_child (hg : g.WellFormed) {id c : RuleId} {r : Rule}
    (hid : id ∈ g.reachable roots) (hr : g.get? id = some r) (hc : c ∈ r.rhs.children) :
    c ∈ g.reachable roots :=
  (reachable_result g roots).closed id hid c (by rwa [childrenOf_eq hr])
    (hg.contains_child hr hc)

/-- What holds of the rules met and pending, and with a rule of the rules that it refers to,
holds of every rule that a walk returns. -/
theorem forall_walkReachable {P : RuleId → Prop}
    (hchild : ∀ id, P id → ∀ c ∈ g.childrenOf id, g.contains c = true → P c) (room : Nat) :
    ∀ {stack visited : List RuleId}, (∀ id ∈ stack, g.contains id = true → P id) →
      (∀ id ∈ visited, P id) → ∀ id ∈ g.walkReachable room stack visited, P id := by
  induction room with
  | zero =>
    intro stack visited _ hvisited id hid
    have hmem : id ∈ visited.reverse := by
      unfold walkReachable at hid
      split at hid <;> exact hid
    exact hvisited id (List.mem_reverse.mp hmem)
  | succ room ih =>
    intro stack visited hstack hvisited
    unfold walkReachable
    cases hdrop : stack.dropWhile fun id => visited.contains id || !g.contains id with
    | nil => exact fun id hid => hvisited id (List.mem_reverse.mp hid)
    | cons id rest =>
      obtain ⟨hid, -⟩ := dropWhile_eq_cons stack hdrop
      simp only [Bool.or_eq_false_iff, Bool.not_eq_false'] at hid
      have hsub : ∀ id' ∈ id :: rest, id' ∈ stack := by
        intro id' hid'
        rw [← hdrop] at hid'
        exact (List.dropWhile_sublist _).mem hid'
      have hP : P id := hstack id (hsub id List.mem_cons_self) hid.2
      refine ih (fun c hc hin => ?_) (List.forall_mem_cons.mpr ⟨hP, hvisited⟩)
      rcases List.mem_append.mp hc with hc | hc
      · exact hchild id hP c hc hin
      · exact hstack c (hsub c (List.mem_cons_of_mem _ hc)) hin

theorem forall_reachable {P : RuleId → Prop}
    (hroots : ∀ root ∈ roots, g.contains root = true → P root)
    (hchild : ∀ id, P id → ∀ c ∈ g.childrenOf id, g.contains c = true → P c) :
    ∀ id ∈ g.reachable roots, P id :=
  forall_walkReachable hchild g.size hroots fun _ hid => absurd hid List.not_mem_nil

/-- A rule reaches no more than what reaches it. -/
theorem reachable_subset {root : RuleId} (hroot : root ∈ g.reachable roots) :
    ∀ id ∈ g.reachable [root], id ∈ g.reachable roots :=
  forall_reachable (fun _ hmem _ => List.mem_singleton.mp hmem ▸ hroot)
    fun id hid => (reachable_result g roots).closed id hid

/-- What some roots reach is reached from one of them. -/
theorem exists_root_of_reachable {id : RuleId} (hid : id ∈ g.reachable roots) :
    ∃ root ∈ roots, g.contains root = true ∧ id ∈ g.reachable [root] := by
  refine forall_reachable (P := fun id => ∃ root ∈ roots, g.contains root = true ∧
    id ∈ g.reachable [root]) (fun root hroot hin => ?_) ?_ id hid
  · exact ⟨root, hroot, hin, mem_reachable_root (List.mem_singleton_self _) hin⟩
  · rintro id' ⟨root, hroot, hin, hid'⟩ c hc hcin
    exact ⟨root, hroot, hin, (reachable_result g [root]).closed id' hid' c hc hcin⟩

end Grammar

end ChartGrammar
