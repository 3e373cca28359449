/-
  Proofs/NonEmptiness.lean --- the classification of rules vouches for itself.

  A pass either demotes nothing, and then every rule that is still nonempty is
  vouched for, or it leaves fewer nonempty rules.  There are enough passes for the
  last one to demote nothing.
-/
import ChartGrammar.Grammar.NonEmptiness
import ChartGrammar.Proofs.WellFormed

set_option autoImplicit false

namespace ChartGrammar

namespace NonEmptiness

variable {g : Grammar}

/-- If a rule is nonempty by the flags, so is its right-hand side. -/
def Vouched (g : Grammar) (flags : Array Bool) (id : RuleId) : Prop :=
  ∀ r, g.get? id = some r → flagOf flags id = true → r.rhs.vouches (flagOf flags) = true

/-- Demoting a rule leaves fewer nonempty ones, and a rule is left alone only if it is
vouched for. -/
theorem demote_cases (g : Grammar) (state : Array Bool × Bool) (id : RuleId) :
    (demote g state id = state ∧ Vouched g state.1 id) ∨
      ((demote g state id).2 = true ∧
        (demote g state id).1.count true < state.1.count true) := by
  unfold demote
  split
  · next r hr =>
    split
    · next hdemote =>
      right
      obtain ⟨hflag, -⟩ := Bool.and_eq_true_iff.mp hdemote
      have hget : state.1[id.index]? = some true := by
        unfold flagOf at hflag
        cases hval : state.1[id.index]? with
        | none => simp [hval] at hflag
        | some b => simpa [hval] using hflag
      obtain ⟨hlt, htrue⟩ := Array.getElem?_eq_some_iff.mp hget
      have hpos : 0 < state.1.count true :=
        Array.count_pos_iff.mpr (htrue ▸ Array.getElem_mem hlt)
      refine ⟨rfl, ?_⟩
      simp only [Array.setIfInBounds, dif_pos hlt, Array.count_set hlt, htrue]
      simp only [beq_self_eq_true, if_true, Bool.false_eq_true, beq_iff_eq, if_false]
      omega
    · next hkeep =>
      left
      refine ⟨rfl, fun r' hr' hflag => ?_⟩
      cases hr.symm.trans hr'
      simpa [hflag] using hkeep
  · next hnone =>
    left
    refine ⟨rfl, fun r hr _ => ?_⟩
    cases hnone.symm.trans hr

/-- What a pass that started from some flags has done, once it has seen some rules: either
it left the flags alone and found those rules vouched for, or there are fewer nonempty
rules now. -/
def PassState (g : Grammar) (flags : Array Bool) (done : List RuleId)
    (state : Array Bool × Bool) : Prop :=
  (state.2 = false ∧ state.1 = flags ∧ ∀ id ∈ done, Vouched g flags id) ∨
    (state.2 = true ∧ state.1.count true < flags.count true)

theorem PassState.demote {flags : Array Bool} {done : List RuleId} {state : Array Bool × Bool}
    (h : PassState g flags done state) (id : RuleId) :
    PassState g flags (done ++ [id]) (demote g state id) := by
  rcases demote_cases g state id with ⟨hsame, hvouched⟩ | ⟨hdemoted, hcount⟩
  · rw [hsame]
    rcases h with ⟨hfalse, hflags, hdone⟩ | hfewer
    · refine .inl ⟨hfalse, hflags, fun id' hid' => ?_⟩
      rcases List.mem_append.mp hid' with hid' | hid'
      · exact hdone id' hid'
      · cases List.mem_singleton.mp hid'
        exact hflags ▸ hvouched
    · exact .inr hfewer
  · refine .inr ⟨hdemoted, ?_⟩
    rcases h with ⟨-, hflags, -⟩ | ⟨-, hfewer⟩
    · rwa [hflags] at hcount
    · omega

theorem PassState.foldl {flags : Array Bool} (ids : List RuleId) :
    ∀ {done : List RuleId} {state : Array Bool × Bool}, PassState g flags done state →
      PassState g flags (done ++ ids) (ids.foldl (NonEmptiness.demote g) state) := by
  induction ids with
  | nil =>
    intro done state h
    rwa [List.append_nil]
  | cons id ids ih =>
    intro done state h
    have hnext := ih (h.demote id)
    rwa [List.append_assoc, List.singleton_append] at hnext

/-- A pass that demotes nothing leaves the flags alone and finds every rule vouched for;
any other pass leaves fewer nonempty rules. -/
theorem passState_pass (g : Grammar) (flags : Array Bool) :
    PassState g flags g.ids (pass g flags) :=
  PassState.foldl g.ids (.inl ⟨rfl, rfl, fun _ h => absurd h List.not_mem_nil⟩)

/-- With more passes than nonempty rules, every rule ends up vouched for. -/
theorem settle_vouched {fuel : Nat} {flags : Array Bool} (h : flags.count true < fuel)
    (rounds : Nat) : ∀ id ∈ g.ids, Vouched g (settle g fuel flags rounds).flags id := by
  induction fuel generalizing flags rounds with
  | zero => exact absurd h (Nat.not_lt_zero _)
  | succ fuel ih =>
    unfold settle
    split
    · next flags' hpass =>
      rcases passState_pass g flags with ⟨hfalse, -, -⟩ | ⟨-, hcount⟩
      · rw [hpass] at hfalse
        cases hfalse
      · rw [hpass] at hcount
        exact ih (Nat.lt_of_lt_of_le hcount (Nat.le_of_lt_succ h)) (rounds + 1)
    · next flags' hpass =>
      rcases passState_pass g flags with ⟨-, hflags, hvouched⟩ | ⟨htrue, -⟩
      · rw [hpass] at hflags
        cases hflags
        exact hvouched
      · rw [hpass] at htrue
        cases htrue

theorem mem_ids {id : RuleId} {r : Rule} (h : g.get? id = some r) : id ∈ g.ids := by
  have hlt : id.index < g.size := by
    simpa [Grammar.contains] using Grammar.contains_iff.mpr ⟨r, h⟩
  exact List.mem_map.mpr ⟨id.index, List.mem_range.mpr hlt, rfl⟩

/-- A rule that the analysis calls nonempty is vouched for by rules that it calls
nonempty. -/
theorem vouches_of_isNonempty {id : RuleId} {r : Rule} (hr : g.get? id = some r)
    (h : (analyze g).isNonempty id = true) :
    r.rhs.vouches (analyze g).isNonempty = true := by
  have hcount : (Array.replicate g.size true).count true < g.size + 1 := by
    rw [Array.count_replicate_self]
    omega
  exact settle_vouched hcount 0 id (mem_ids hr) r hr h

end NonEmptiness

end ChartGrammar
