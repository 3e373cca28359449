/-
  Proofs/Identifiers.lean --- identifiers, from their issue to the slots they become.

  A name supply only grows: the identifier of a rule stays what it is, and a new
  identifier has a number of its own.  Closing a group turns identifiers into the
  slots at which they are bound.
-/
import ChartGrammar.Binding.Group
import ChartGrammar.Proofs.Outcome

set_option autoImplicit false

namespace ChartGrammar

namespace NameSupply

variable {s t u : NameSupply} {g : Grammar}

/-- Every issued identifier has a number below the next one, and rules do not share
numbers. -/
structure WellFormed (s : NameSupply) : Prop where
  lt_next : ∀ id i, s.rules.lookup id = some i → i.id < s.next
  injective : ∀ id id' i i', s.rules.lookup id = some i → s.rules.lookup id' = some i' →
    i.id = i'.id → id = id'

/-- A later state of the same supply: what was issued stays, and what is new has a
number that was not used before. -/
structure Extends (s t : NameSupply) : Prop where
  next_le : s.next ≤ t.next
  keeps : ∀ id i, s.rules.lookup id = some i → t.rules.lookup id = some i
  fresh : ∀ id i, t.rules.lookup id = some i → s.rules.lookup id = some i ∨ s.next ≤ i.id

/-- An identifier issued between two states that belongs to no rule. -/
structure Auxiliary (s t : NameSupply) (i : Ident) : Prop where
  next_le : s.next ≤ i.id
  lt_next : i.id < t.next
  not_rule : ∀ id j, t.rules.lookup id = some j → j.id ≠ i.id

/-- The identifier of a rule that has one. -/
def identOf (s : NameSupply) (id : RuleId) : Ident := (s.rules.lookup id).getD default

theorem identOf_eq {id : RuleId} {i : Ident} (h : s.rules.lookup id = some i) :
    s.identOf id = i := by
  rw [identOf, h]
  rfl

theorem wellFormed_empty : WellFormed {} where
  lt_next id i h := by simp at h
  injective id id' i i' h := by simp at h

namespace Extends

theorem refl (s : NameSupply) : s.Extends s where
  next_le := Nat.le_refl _
  keeps _ _ h := h
  fresh _ _ h := .inl h

theorem trans (hst : s.Extends t) (htu : t.Extends u) : s.Extends u where
  next_le := Nat.le_trans hst.next_le htu.next_le
  keeps id i h := htu.keeps id i (hst.keeps id i h)
  fresh id i h := by
    rcases htu.fresh id i h with ht | hle
    · exact hst.fresh id i ht
    · exact .inr (Nat.le_trans hst.next_le hle)

theorem identOf_eq (h : s.Extends t) {id : RuleId}
    (hid : ∃ i, s.rules.lookup id = some i) : t.identOf id = s.identOf id := by
  obtain ⟨i, hi⟩ := hid
  rw [NameSupply.identOf_eq hi, NameSupply.identOf_eq (h.keeps id i hi)]

theorem known (h : s.Extends t) {id : RuleId} (hid : ∃ i, s.rules.lookup id = some i) :
    ∃ i, t.rules.lookup id = some i := by
  obtain ⟨i, hi⟩ := hid
  exact ⟨i, h.keeps id i hi⟩

end Extends

theorem Auxiliary.extend {i : Ident} (h : Auxiliary s t i) (htu : t.Extends u) :
    Auxiliary s u i where
  next_le := h.next_le
  lt_next := Nat.lt_of_lt_of_le h.lt_next htu.next_le
  not_rule id j hj := by
    rcases htu.fresh id j hj with ht | hle
    · exact h.not_rule id j ht
    · have := h.lt_next
      omega

theorem Auxiliary.since {i : Ident} (h : Auxiliary t u i) (hst : s.Extends t) :
    Auxiliary s u i where
  next_le := Nat.le_trans hst.next_le h.next_le
  lt_next := h.lt_next
  not_rule := h.not_rule

/-- Asking for the identifier of a rule. -/
theorem rule_spec {id : RuleId} {i : Ident} (hs : s.WellFormed)
    (h : s.rule g id = (i, t)) :
    t.WellFormed ∧ s.Extends t ∧ t.rules.lookup id = some i := by
  unfold rule at h
  cases hlookup : s.rules.lookup id with
  | some j =>
    rw [hlookup] at h
    cases h
    exact ⟨hs, .refl _, hlookup⟩
  | none =>
    rw [hlookup] at h
    cases h
    have hnew : ∀ id' j, List.lookup id' ((id, (s.fresh (g.nameOf id)).1) :: s.rules) = some j →
        (id' = id ∧ j.id = s.next) ∨ s.rules.lookup id' = some j := by
      intro id' j hj
      rw [List.lookup_cons] at hj
      split at hj
      · next heq =>
        cases hj
        exact .inl ⟨by simpa using heq, rfl⟩
      · exact .inr hj
    refine ⟨⟨?_, ?_⟩, ⟨Nat.le_succ _, ?_, ?_⟩, by simp⟩
    · intro id' j hj
      rcases hnew id' j hj with ⟨-, hid⟩ | hold
      · exact hid ▸ Nat.lt_succ_self _
      · exact Nat.lt_succ_of_lt (hs.lt_next id' j hold)
    · intro id₁ id₂ j₁ j₂ h₁ h₂ heq
      rcases hnew id₁ j₁ h₁ with ⟨rfl, hid₁⟩ | hold₁ <;>
        rcases hnew id₂ j₂ h₂ with ⟨rfl, hid₂⟩ | hold₂
      · rfl
      · have := hs.lt_next id₂ j₂ hold₂
        omega
      · have := hs.lt_next id₁ j₁ hold₁
        omega
      · exact hs.injective id₁ id₂ j₁ j₂ hold₁ hold₂ heq
    · intro id' j hj
      have hne : (id' == id) = false := by
        rw [beq_eq_false_iff_ne]
        rintro rfl
        rw [hlookup] at hj
        cases hj
      change List.lookup id' ((id, _) :: s.rules) = some j
      rw [List.lookup_cons, hne]
      exact hj
    · intro id' j hj
      rcases hnew id' j hj with ⟨-, hid⟩ | hold
      · exact .inr (Nat.le_of_eq hid.symm)
      · exact .inl hold

/-- Asking for an auxiliary identifier. -/
theorem helper_spec {id : RuleId} {i : Ident} (hs : s.WellFormed)
    (h : s.helper g id = (i, t)) :
    t.WellFormed ∧ s.Extends t ∧ Auxiliary s t i := by
  unfold helper issue at h
  cases h
  refine ⟨⟨?_, hs.injective⟩, ⟨Nat.le_succ _, fun _ _ h => h, fun _ _ h => .inl h⟩,
    ⟨Nat.le_refl _, Nat.lt_succ_self _, ?_⟩⟩
  · intro id' j hj
    exact Nat.lt_succ_of_lt (hs.lt_next id' j hj)
  · intro id' j hj
    exact Nat.ne_of_lt (hs.lt_next id' j hj)

end NameSupply

/-! ## Identifiers while compiling -/

namespace CompileM

open NameSupply

variable {s t : NameSupply} {g : Grammar}

theorem run_rule {id : RuleId} {i : Ident} (hs : s.WellFormed)
    (h : (rule g id).run s = .ok (i, t)) :
    t.WellFormed ∧ s.Extends t ∧ t.rules.lookup id = some i :=
  rule_spec hs (Except.ok.inj h)

theorem run_helper {id : RuleId} {i : Ident} (hs : s.WellFormed)
    (h : (helper g id).run s = .ok (i, t)) :
    t.WellFormed ∧ s.Extends t ∧ Auxiliary s t i :=
  helper_spec hs (Except.ok.inj h)

/-- The identifiers of several rules are those that the supply holds at the end. -/
theorem run_rules {ids : List RuleId} {is : List Ident} (hs : s.WellFormed)
    (h : (rules g ids).run s = .ok (is, t)) :
    t.WellFormed ∧ s.Extends t ∧ (∀ id ∈ ids, ∃ i, t.rules.lookup id = some i) ∧
      is = ids.map t.identOf := by
  obtain ⟨ht, hext, hall⟩ := mapM_run_ok
    (R := fun id i (u : NameSupply) => u.rules.lookup id = some i)
    Extends.refl (fun _ _ _ => Extends.trans) (fun id i _ _ hi hext => hext.keeps id i hi)
    (fun id _ _ _ hu hrun => run_rule hu hrun) ids hs h
  have hpairs := hall.imp fun id i hi =>
    (⟨⟨i, hi⟩, (identOf_eq hi).symm⟩ :
      (∃ i, t.rules.lookup id = some i) ∧ i = t.identOf id)
  exact ⟨ht, hext, forall_and_eq_map hpairs⟩

theorem exists_run_rule (g : Grammar) (id : RuleId) (s : NameSupply) :
    ∃ i t, (rule g id).run s = .ok (i, t) :=
  ⟨_, _, rfl⟩

theorem exists_run_rules (g : Grammar) (ids : List RuleId) (s : NameSupply) :
    ∃ is t, (rules g ids).run s = .ok (is, t) :=
  exists_mapM_run_eq_ok (fun id _ u => exists_run_rule g id u) s

end CompileM

/-! ## Closing a group -/

namespace Group

variable {ε τ : Type}

/-- The slot of an identifier that is bound. -/
def slotOf (idents : List Ident) (i : Ident) : Slot := ⟨idents.idxOf i⟩

theorem lookup_eq_ok_iff {idents : List Ident} {owner : String} {i : Ident} {slot : Slot} :
    lookup idents owner i = .ok slot ↔ i ∈ idents ∧ slot = slotOf idents i := by
  unfold lookup
  cases hfind : idents.findIdx? (· = i) with
  | none =>
    have hnot : i ∉ idents := by
      intro hi
      have := List.findIdx?_eq_none_iff.mp hfind i hi
      simp at this
    simp [hnot]
  | some n =>
    obtain ⟨hn, hget, -⟩ := List.findIdx?_eq_some_iff_getElem.mp hfind
    have hi : idents[n] = i := by simpa using hget
    have htest : (fun j : Ident => decide (j = i)) = (· == i) := by
      funext j
      exact (beq_eq_decide j i).symm
    have hidx : idents.idxOf i = n := by
      rw [List.idxOf, ← htest]
      exact (List.findIdx?_eq_some_iff_findIdx_eq.mp hfind).2
    constructor
    · intro h
      cases h
      exact ⟨hi ▸ List.getElem_mem hn, by rw [slotOf, hidx]⟩
    · rintro ⟨-, rfl⟩
      rw [slotOf, hidx]

variable {resolve : (Ident → Except CompileError Slot) → ε → Except CompileError τ}
  {bindings : List (Binding ε)} {body : List Ident}

/-- A group that closed: its identifiers are distinct, its slots are the resolved
bindings in order, and its result is bound. -/
theorem close_eq_ok {group : Group τ} (h : close resolve bindings body = .ok group) :
    (bindings.map Binding.ident).Nodup ∧
      List.Forall₂ (fun b slot =>
        resolve (lookup (bindings.map Binding.ident) b.ident.owner) b.expr = .ok slot)
        bindings group.slots.toList ∧
      (∀ i ∈ body, i ∈ bindings.map Binding.ident) ∧
      group.body = body.map (slotOf (bindings.map Binding.ident)) := by
  unfold close at h
  cases hrepeat : firstRepeat? (bindings.map Binding.ident) with
  | some i =>
    simp only [hrepeat] at h
    cases h
  | none =>
    simp only [hrepeat] at h
    obtain ⟨slots, hslots, h⟩ := bind_eq_ok_iff.mp h
    obtain ⟨result, hresult, hgroup⟩ := bind_eq_ok_iff.mp h
    cases hgroup
    have hbody := (mapM_eq_ok_iff.mp hresult).imp fun _ _ => lookup_eq_ok_iff.mp
    exact ⟨(firstRepeat?_eq_none_iff _).mp hrepeat, by simpa using mapM_eq_ok_iff.mp hslots,
      forall_and_eq_map hbody⟩

/-- In a group that closed, the slot of a bound identifier holds what is bound to it. -/
theorem exists_slot_of_close {group : Group τ} (h : close resolve bindings body = .ok group)
    {b : Binding ε} (hb : b ∈ bindings) :
    ∃ slot, group.slots[(slotOf (bindings.map Binding.ident) b.ident).index]? = some slot ∧
      resolve (lookup (bindings.map Binding.ident) b.ident.owner) b.expr = .ok slot := by
  obtain ⟨hnodup, hslots, -, -⟩ := close_eq_ok h
  obtain ⟨k, hk, rfl⟩ := List.getElem_of_mem hb
  have hlen : k < group.slots.toList.length := hslots.length_eq ▸ hk
  have hidx : (bindings.map Binding.ident).idxOf bindings[k].ident = k := by
    have := hnodup.idxOf_getElem k (by simpa using hk)
    simpa using this
  refine ⟨group.slots.toList[k], ?_, hslots.get hk hlen⟩
  rw [slotOf, hidx, ← Array.getElem?_toList, List.getElem?_eq_getElem hlen]

/-- A group closes if its identifiers are distinct, what is bound resolves, and its
result is bound. -/
theorem exists_close_eq_ok (hnodup : (bindings.map Binding.ident).Nodup)
    (hresolve : ∀ b ∈ bindings, ∃ slot,
      resolve (lookup (bindings.map Binding.ident) b.ident.owner) b.expr = .ok slot)
    (hbody : ∀ i ∈ body, i ∈ bindings.map Binding.ident) :
    ∃ group, close resolve bindings body = .ok group := by
  obtain ⟨slots, hslots⟩ := exists_mapM_eq_ok hresolve
  have hlookup : ∀ i ∈ body, ∃ slot,
      lookup (bindings.map Binding.ident) "letrec body" i = .ok slot :=
    fun i hi => ⟨_, lookup_eq_ok_iff.mpr ⟨hbody i hi, rfl⟩⟩
  obtain ⟨result, hresult⟩ := exists_mapM_eq_ok hlookup
  refine ⟨⟨bindings.map Binding.ident, slots.toArray, result⟩, ?_⟩
  unfold close
  simp only [(firstRepeat?_eq_none_iff _).mpr hnodup, hslots, hresult]
  rfl

end Group

end ChartGrammar
