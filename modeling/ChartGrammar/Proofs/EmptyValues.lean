/-
  Proofs/EmptyValues.lean --- a rule is nonempty exactly if it has no empty value.

  Every rule that was demoted has a value without tokens: it is put together from the
  empty values of the rules that were demoted before it.  Conversely a rule that is
  vouched for by nonempty rules only has values with tokens, since values are finite.
  So the answer is a matter of the values alone, and the order in which the rules are
  visited does not show in it.
-/
import Mathlib
import ChartGrammar.Proofs.Conformance
import ChartGrammar.Proofs.NonEmptiness

set_option autoImplicit false

namespace ChartGrammar

/-! ## What vouching reads -/

/-- A right-hand side goes on vouching when more of its children are nonempty. -/
theorem Rhs.vouches_mono {ρ : Type} {f h : ρ → Bool} {rhs : Rhs ρ}
    (hle : ∀ c ∈ rhs.children, f c = true → h c = true) (hf : rhs.vouches f = true) :
    rhs.vouches h = true := by
  cases rhs with
  | terminal p => rfl
  | series literal => rfl
  | opt r => cases hf
  | star r => cases hf
  | plus r => exact hle r (List.mem_singleton_self r) hf
  | wrap r => exact hle r (List.mem_singleton_self r) hf
  | record fields =>
    obtain ⟨c, hc, hfc⟩ := List.any_eq_true.mp hf
    exact List.any_eq_true.mpr ⟨c, hc, hle c hc hfc⟩
  | choice branches =>
    refine List.all_eq_true.mpr fun b hb => ?_
    obtain ⟨c, hc, hfc⟩ := List.any_eq_true.mp (List.all_eq_true.mp hf b hb)
    exact List.any_eq_true.mpr ⟨c, hc, hle c (List.mem_flatMap.mpr ⟨b, hb, hc⟩) hfc⟩

/-- A right-hand side over other references vouches as it did, if the references keep their
classifications. -/
theorem Rhs.vouches_map {ρ σ : Type} (f : ρ → σ) (nonempty : σ → Bool) (rhs : Rhs ρ) :
    (rhs.map f).vouches nonempty = rhs.vouches (nonempty ∘ f) := by
  cases rhs with
  | record fields => exact List.any_map
  | choice branches =>
    rw [map, vouches, vouches, List.all_map]
    exact congrArg branches.all (funext fun b => List.any_map)
  | _ => rfl

namespace NonEmptiness

/-! ## Why a rule was demoted -/

section Demoted

variable {g : Grammar} {P : RuleId → Prop} {flags : Array Bool}

/-- Every rule that is not nonempty by the flags has a reason. -/
def Justified (g : Grammar) (P : RuleId → Prop) (flags : Array Bool) : Prop :=
  ∀ id, g.contains id = true → flagOf flags id = false → P id

/-- A reason that passes from the children that are not nonempty to a rule that they do not
vouch for. -/
def Inherited (g : Grammar) (P : RuleId → Prop) : Prop :=
  ∀ id r (nonempty : RuleId → Bool), g.get? id = some r →
    (∀ c ∈ r.rhs.children, nonempty c = false → P c) → r.rhs.vouches nonempty = false → P id

theorem flagOf_setIfInBounds_false {id id' : RuleId}
    (h : flagOf (flags.setIfInBounds id.index false) id' = false) :
    id' = id ∨ flagOf flags id' = false := by
  by_cases heq : id.index = id'.index
  · obtain ⟨i⟩ := id
    obtain ⟨j⟩ := id'
    exact .inl (congrArg RuleId.mk heq.symm)
  · rw [flagOf, Array.getElem?_setIfInBounds_ne heq] at h
    exact .inr h

theorem Justified.demote (hg : g.WellFormed) (hP : Inherited g P) {state : Array Bool × Bool}
    (h : Justified g P state.1) (id : RuleId) : Justified g P (demote g state id).1 := by
  unfold NonEmptiness.demote
  split
  · next r hr =>
    split
    · next hdemote =>
      intro id' hid' hflag
      rcases flagOf_setIfInBounds_false hflag with rfl | hold
      · refine hP id' r _ hr (fun c hc => h c (hg.contains_child hr hc)) ?_
        simpa using (Bool.and_eq_true_iff.mp hdemote).2
      · exact h id' hid' hold
    · exact h
  · exact h

theorem Justified.pass (hg : g.WellFormed) (hP : Inherited g P) (h : Justified g P flags) :
    Justified g P (pass g flags).1 := by
  have hfold : ∀ (ids : List RuleId) (state : Array Bool × Bool), Justified g P state.1 →
      Justified g P (ids.foldl (NonEmptiness.demote g) state).1 := by
    intro ids
    induction ids with
    | nil => exact fun state hstate => hstate
    | cons id ids ih => exact fun state hstate => ih _ (hstate.demote hg hP id)
  exact hfold g.ids (flags, false) h

theorem Justified.settle (hg : g.WellFormed) (hP : Inherited g P) (fuel : Nat) :
    ∀ {flags : Array Bool} (rounds : Nat), Justified g P flags →
      Justified g P (settle g fuel flags rounds).flags := by
  induction fuel with
  | zero => exact fun rounds h => h
  | succ fuel ih =>
    intro flags rounds h
    have hnext := h.pass hg hP
    unfold NonEmptiness.settle
    split
    · next flags' hpass =>
      rw [hpass] at hnext
      exact ih (rounds + 1) hnext
    · next flags' hpass =>
      rw [hpass] at hnext
      exact hnext

/-- Every rule that the analysis does not call nonempty has a reason, if reasons pass from
children to the rules that they do not vouch for. -/
theorem reason_of_not_isNonempty (hg : g.WellFormed) (hP : Inherited g P) {id : RuleId}
    (hid : g.contains id = true) (h : (analyze g).isNonempty id = false) : P id := by
  have hstart : Justified g P (Array.replicate g.size true) := by
    intro id hid hflag
    have hlt : id.index < g.size := of_decide_eq_true hid
    rw [flagOf, Array.getElem?_replicate, if_pos hlt] at hflag
    cases hflag
  exact hstart.settle hg hP (g.size + 1) 0 id hid h

end Demoted

/-! ## The greatest fixpoint -/

section Fixpoint

variable {g : Grammar}

/-- With more passes than nonempty rules, one more pass changes nothing. -/
theorem pass_settle {fuel : Nat} {flags : Array Bool} (h : flags.count true < fuel)
    (rounds : Nat) :
    pass g (settle g fuel flags rounds).flags = ((settle g fuel flags rounds).flags, false) := by
  induction fuel generalizing flags rounds with
  | zero => exact absurd h (Nat.not_lt_zero _)
  | succ fuel ih =>
    unfold settle
    split
    · next flags' hpass =>
      rcases passState_pass g flags with ⟨hfalse, -, -⟩ | ⟨-, hcount⟩
      · rw [hpass] at hfalse
        cases hfalse
      · rw [hpass] at hcount
        exact ih (Nat.lt_of_lt_of_le hcount (Nat.le_of_lt_succ h)) (rounds + 1)
    · next flags' hpass =>
      rcases passState_pass g flags with ⟨-, hflags, -⟩ | ⟨htrue, -⟩
      · rw [hpass] at hflags
        cases hflags
        exact hpass
      · rw [hpass] at htrue
        cases htrue

/-- One more pass over the answer demotes nothing. -/
theorem pass_analyze (g : Grammar) :
    pass g (analyze g).flags = ((analyze g).flags, false) := by
  refine pass_settle ?_ 0
  rw [Array.count_replicate_self]
  exact Nat.lt_succ_self _

/-- A classification is vouched for by itself: each rule that it calls nonempty has a
right-hand side that vouches for it. -/
def VouchedBy (g : Grammar) (nonempty : RuleId → Bool) : Prop :=
  ∀ id r, g.get? id = some r → nonempty id = true → r.rhs.vouches nonempty = true

/-- No classification that is vouched for by itself calls more rules nonempty. -/
theorem isNonempty_of_vouchedBy (hg : g.WellFormed) {nonempty : RuleId → Bool}
    (h : VouchedBy g nonempty) {id : RuleId} (hid : g.contains id = true)
    (hflag : nonempty id = true) : (analyze g).isNonempty id = true := by
  have hP : Inherited g fun id => nonempty id = false := by
    intro id r f hr hchildren hfails
    by_contra hflag
    have hvouches := h id r hr (Bool.not_eq_false _ ▸ hflag)
    have hmono : r.rhs.vouches f = true := by
      refine Rhs.vouches_mono (fun c hc htrue => ?_) hvouches
      by_contra hf
      rw [hchildren c hc (Bool.not_eq_true _ ▸ hf)] at htrue
      cases htrue
    rw [hmono] at hfails
    cases hfails
  by_contra hempty
  rw [reason_of_not_isNonempty hg hP hid (Bool.not_eq_true _ ▸ hempty)] at hflag
  cases hflag

/-- The answer is a fixpoint: a rule is nonempty exactly if its right-hand side vouches for
it. -/
theorem isNonempty_eq_vouches (hg : g.WellFormed) {id : RuleId} {r : Rule}
    (hr : g.get? id = some r) :
    (analyze g).isNonempty id = r.rhs.vouches (analyze g).isNonempty := by
  have hid : g.contains id = true := Grammar.contains_iff.mpr ⟨r, hr⟩
  rw [Bool.eq_iff_iff]
  refine ⟨vouches_of_isNonempty hr, fun hvouches => ?_⟩
  -- the answer with this rule put to nonempty is vouched for by itself
  have hkeep : ∀ rhs : Rhs RuleId, rhs.vouches (analyze g).isNonempty = true →
      rhs.vouches (fun c => (analyze g).isNonempty c || decide (c = id)) = true :=
    fun rhs => Rhs.vouches_mono fun c _ hc => by rw [hc, Bool.true_or]
  have hself : VouchedBy g fun c => (analyze g).isNonempty c || decide (c = id) := by
    intro id' r' hr' hflag
    rcases Bool.or_eq_true_iff.mp hflag with hflag | hflag
    · exact hkeep _ (vouches_of_isNonempty hr' hflag)
    · cases of_decide_eq_true hflag
      cases hr.symm.trans hr'
      exact hkeep _ hvouches
  exact isNonempty_of_vouchedBy hg hself hid (by simp)

end Fixpoint

/-! ## Values without tokens -/

section Values

variable {g : Grammar} {ok : Predicate → Char → Prop}

/-- A rule has a value without tokens. -/
def HasEmptyValue (g : Grammar) (ok : Predicate → Char → Prop) (id : RuleId) : Prop :=
  ∃ v, g.Conforms ok id v ∧ v.leaves = []

theorem exists_empty_fields {fields : List RuleId} (h : ∀ c ∈ fields, HasEmptyValue g ok c) :
    ∃ vs, List.Forall₂ (g.Conforms ok) fields vs ∧ Value.leavesAll vs = [] := by
  induction fields with
  | nil => exact ⟨[], .nil, rfl⟩
  | cons c fields ih =>
    obtain ⟨v, hv, hleaves⟩ := h c List.mem_cons_self
    obtain ⟨vs, hvs, hrest⟩ := ih fun c hc => h c (List.mem_cons_of_mem _ hc)
    exact ⟨v :: vs, .cons hv hvs, by rw [Value.leavesAll, hleaves, hrest, List.append_nil]⟩

/-- A rule that is not vouched for has an empty value, made of the empty values of its
children. -/
theorem inherited_hasEmptyValue (g : Grammar) (ok : Predicate → Char → Prop) :
    Inherited g (HasEmptyValue g ok) := by
  intro id r nonempty hr hchildren hfails
  cases hrhs : r.rhs with
  | terminal p =>
    rw [hrhs] at hfails
    cases hfails
  | series literal =>
    rw [hrhs] at hfails
    cases hfails
  | opt inner => exact ⟨_, .absent hr hrhs, rfl⟩
  | star inner => exact ⟨_, .star hr hrhs fun v hv => absurd hv List.not_mem_nil, rfl⟩
  | wrap inner =>
    rw [hrhs] at hchildren hfails
    obtain ⟨v, hv, hleaves⟩ := hchildren inner (List.mem_singleton_self _) hfails
    exact ⟨_, .wrap hr hrhs hv, hleaves⟩
  | plus inner =>
    rw [hrhs] at hchildren hfails
    obtain ⟨v, hv, hleaves⟩ := hchildren inner (List.mem_singleton_self _) hfails
    refine ⟨_, .plus hr hrhs hv fun w hw => absurd hw List.not_mem_nil, ?_⟩
    rw [Value.leaves, hleaves]
    rfl
  | record fields =>
    rw [hrhs] at hchildren hfails
    have hfields : ∀ c ∈ fields, HasEmptyValue g ok c := fun c hc =>
      hchildren c hc (Bool.not_eq_true _ ▸ List.any_eq_false.mp hfails c hc)
    obtain ⟨vs, hvs, hleaves⟩ := exists_empty_fields hfields
    exact ⟨_, .record hr hrhs hvs, hleaves⟩
  | choice branches =>
    rw [hrhs] at hchildren hfails
    obtain ⟨b, hb, hnone⟩ := List.all_eq_false.mp hfails
    have hfields : ∀ c ∈ b.fields, HasEmptyValue g ok c := by
      intro c hc
      refine hchildren c (List.mem_flatMap.mpr ⟨b, hb, hc⟩) ?_
      exact Bool.not_eq_true _ ▸ List.any_eq_false.mp (Bool.not_eq_true _ ▸ hnone) c hc
    obtain ⟨vs, hvs, hleaves⟩ := exists_empty_fields hfields
    exact ⟨_, .branch hr hrhs hb hvs, hleaves⟩

theorem leavesAll_ne_nil {v : Value} {vs : List Value} (hv : v ∈ vs) (h : v.leaves ≠ []) :
    Value.leavesAll vs ≠ [] := by
  induction vs with
  | nil => cases hv
  | cons w vs ih =>
    rw [Value.leavesAll, Ne, List.append_eq_nil_iff, not_and_or]
    rcases List.mem_cons.mp hv with rfl | hv
    · exact .inl h
    · exact .inr (ih hv)

/-- Among fields one of which is nonempty there is a value that holds a token. -/
theorem leavesAll_ne_nil_of_any {nonempty : RuleId → Bool} {fields : List RuleId}
    {vs : List Value} (hvs : List.Forall₂ (g.Conforms ok) fields vs)
    (hany : fields.any nonempty = true)
    (h : ∀ v ∈ vs, ∀ id, g.Conforms ok id v → nonempty id = true → v.leaves ≠ []) :
    Value.leavesAll vs ≠ [] := by
  obtain ⟨c, hc, hflag⟩ := List.any_eq_true.mp hany
  obtain ⟨v, hv, hconforms⟩ := exists_of_mem_right hvs.flip hc
  exact leavesAll_ne_nil hv (h v hv c hconforms hflag)

/-- Every value of a rule that the analysis calls nonempty holds a token. -/
theorem leaves_ne_nil_of_isNonempty (hg : g.WellFormed) (v : Value) :
    ∀ id, g.Conforms ok id v → (analyze g).isNonempty id = true → v.leaves ≠ [] := by
  induction v using Value.induction_children with
  | step v ih =>
    intro id hconforms hflag
    cases hconforms with
    | terminal hr hrhs ht => exact List.cons_ne_nil _ _
    | series hr hrhs hts =>
      -- the tokens spell the literal, and a literal is never empty
      intro hnil
      have hempty := (String.toList_eq_nil_iff.mp (hts.symm.trans (congrArg _ hnil)))
      exact (hg.rules _ (Grammar.mem_of_get? hr)).literal_ne hrhs hempty
    | absent hr hrhs =>
      have hvouches := vouches_of_isNonempty hr hflag
      rw [hrhs] at hvouches
      cases hvouches
    | present hr hrhs hv =>
      have hvouches := vouches_of_isNonempty hr hflag
      rw [hrhs] at hvouches
      cases hvouches
    | star hr hrhs hvs =>
      have hvouches := vouches_of_isNonempty hr hflag
      rw [hrhs] at hvouches
      cases hvouches
    | @wrap _ inner _ w hr hrhs hw =>
      have hvouches := vouches_of_isNonempty hr hflag
      rw [hrhs] at hvouches
      exact ih w (List.mem_singleton_self _) inner hw hvouches
    | plus hr hrhs hv hvs =>
      have hvouches := vouches_of_isNonempty hr hflag
      rw [hrhs] at hvouches
      exact List.append_ne_nil_of_left_ne_nil (ih _ List.mem_cons_self _ hv hvouches) _
    | record hr hrhs hvs =>
      have hvouches := vouches_of_isNonempty hr hflag
      rw [hrhs] at hvouches
      exact leavesAll_ne_nil_of_any hvs hvouches ih
    | branch hr hrhs hb hvs =>
      have hvouches := vouches_of_isNonempty hr hflag
      rw [hrhs] at hvouches
      exact leavesAll_ne_nil_of_any hvs (List.all_eq_true.mp hvouches _ hb) ih

/-- A rule is not nonempty exactly if it has a value without tokens, whatever test the
tokens of its values must pass. -/
theorem isNonempty_eq_false_iff (hg : g.WellFormed) {id : RuleId} (hid : g.contains id = true) :
    (analyze g).isNonempty id = false ↔ HasEmptyValue g ok id := by
  constructor
  · exact reason_of_not_isNonempty hg (inherited_hasEmptyValue g ok) hid
  · rintro ⟨v, hv, hleaves⟩
    by_contra hflag
    exact leaves_ne_nil_of_isNonempty hg v id hv (Bool.not_eq_false _ ▸ hflag) hleaves

end Values

/-! ## The order of declaration -/

/-- The second grammar declares the rules of the first in another order: `f` takes each
rule to its new place, and `f'` takes it back. -/
structure Reordered (g g' : Grammar) (f f' : RuleId → RuleId) : Prop where
  rule : ∀ id r, g.get? id = some r →
    g'.get? (f id) = some ⟨r.name, r.description, r.rhs.map f⟩
  rule_back : ∀ id r, g'.get? id = some r →
    g.get? (f' id) = some ⟨r.name, r.description, r.rhs.map f'⟩
  back : ∀ id, g.contains id = true → f' (f id) = id

section Order

variable {g g' : Grammar} {f : RuleId → RuleId}

/-- What one grammar calls nonempty the other does, if it has the rules of the other one at
the places that `f` gives. -/
theorem isNonempty_of_rearranged (hg : g.WellFormed)
    (h : ∀ id r, g.get? id = some r →
      g'.get? (f id) = some ⟨r.name, r.description, r.rhs.map f⟩)
    {id : RuleId} (hid : g.contains id = true)
    (hflag : (analyze g').isNonempty (f id) = true) : (analyze g).isNonempty id = true := by
  have hvouched : VouchedBy g ((analyze g').isNonempty ∘ f) := by
    intro id r hr hflag
    have hvouches := vouches_of_isNonempty (h id r hr) hflag
    rwa [Rhs.vouches_map] at hvouches
  exact isNonempty_of_vouchedBy hg hvouched hid hflag

/-- A rule is classified alike wherever it is declared. -/
theorem Reordered.isNonempty_eq {f' : RuleId → RuleId} (h : Reordered g g' f f')
    (hg : g.WellFormed) (hg' : g'.WellFormed) {id : RuleId} (hid : g.contains id = true) :
    (analyze g').isNonempty (f id) = (analyze g).isNonempty id := by
  obtain ⟨r, hr⟩ := Grammar.contains_iff.mp hid
  rw [Bool.eq_iff_iff]
  refine ⟨isNonempty_of_rearranged hg h.rule hid, fun hflag => ?_⟩
  refine isNonempty_of_rearranged hg' h.rule_back (Grammar.contains_iff.mpr ⟨_, h.rule id r hr⟩) ?_
  rwa [h.back id hid]

end Order

/-- The analysis is exact: a rule is not nonempty exactly if it has a value without tokens,
and nonempty exactly if each of its values holds a token, whatever test the tokens must
pass.  The passes end in a classification that one more pass leaves alone; it is the
greatest one that the right-hand sides vouch for, and the same for every order in which
the rules are declared. -/
theorem isNonempty_iff_values_hold_tokens {g : Grammar} (hg : g.Built) :
    (∀ ok id, g.contains id = true →
      ((analyze g).isNonempty id = false ↔ ∃ v, g.Conforms ok id v ∧ v.leaves = []) ∧
      ((analyze g).isNonempty id = true ↔ ∀ v, g.Conforms ok id v → v.leaves ≠ [])) ∧
    pass g (analyze g).flags = ((analyze g).flags, false) ∧
    (∀ id r, g.get? id = some r →
      (analyze g).isNonempty id = r.rhs.vouches (analyze g).isNonempty) ∧
    (∀ nonempty, VouchedBy g nonempty → ∀ id, g.contains id = true → nonempty id = true →
      (analyze g).isNonempty id = true) ∧
    ∀ g' f f', g'.Built → Reordered g g' f f' → ∀ id, g.contains id = true →
      (analyze g').isNonempty (f id) = (analyze g).isNonempty id := by
  have hwf := hg.wellFormed
  refine ⟨fun ok id hid => ?_, pass_analyze g, fun id r hr => isNonempty_eq_vouches hwf hr,
    fun nonempty hvouched id hid hflag => isNonempty_of_vouchedBy hwf hvouched hid hflag,
    fun g' f f' hg' hreordered id hid => hreordered.isNonempty_eq hwf hg'.wellFormed hid⟩
  have hempty : (analyze g).isNonempty id = false ↔ HasEmptyValue g ok id :=
    isNonempty_eq_false_iff hwf hid
  refine ⟨hempty, fun hflag v hv => leaves_ne_nil_of_isNonempty hwf v id hv hflag, fun hall => ?_⟩
  by_contra hflag
  obtain ⟨v, hv, hleaves⟩ := hempty.mp (Bool.not_eq_true _ ▸ hflag)
  exact hall v hv hleaves

/-- Rules that go round in circles: the first has an empty value by its second branch, the
third by the first, and the second has no value at all. -/
def circular : Grammar := ⟨#[
  ⟨"a", none, .choice [⟨"More", [⟨0⟩, ⟨1⟩]⟩, ⟨"Done", []⟩]⟩,
  ⟨"b", none, .record [⟨1⟩]⟩,
  ⟨"c", none, .plus ⟨0⟩⟩]⟩

/-- The same rules in reverse: now the third is visited before the first, and takes one pass
more to be demoted. -/
def circularReversed : Grammar := ⟨#[
  ⟨"c", none, .plus ⟨2⟩⟩,
  ⟨"b", none, .record [⟨1⟩]⟩,
  ⟨"a", none, .choice [⟨"More", [⟨2⟩, ⟨1⟩]⟩, ⟨"Done", []⟩]⟩]⟩

theorem isNonempty_iff_values_hold_tokens_circular :
    Grammar.parse "a = More: a b | Done: ; b = ( b ) ; c = a+ ;" = .ok circular ∧
      Grammar.parse "c = a+ ; b = ( b ) ; a = More: a b | Done: ;" = .ok circularReversed ∧
      (∃ v, circular.HasShape ⟨2⟩ v ∧ v.leaves = []) ∧
      (∀ v, circular.HasShape ⟨1⟩ v → v.leaves ≠ []) ∧
      (analyze circularReversed).isNonempty ⟨0⟩ = (analyze circular).isNonempty ⟨2⟩ := by
  have hg : Grammar.parse "a = More: a b | Done: ; b = ( b ) ; c = a+ ;" = .ok circular := by
    cbv
  have hg' : Grammar.parse "c = a+ ; b = ( b ) ; a = More: a b | Done: ;" =
      .ok circularReversed := by
    cbv
  have hreversed : Reordered circular circularReversed (fun id => ⟨2 - id.index⟩)
      (fun id => ⟨2 - id.index⟩) := by
    refine ⟨?_, ?_, ?_⟩
    · rintro ⟨_ | _ | _ | i⟩ r hr <;> cases hr <;> rfl
    · rintro ⟨_ | _ | _ | i⟩ r hr <;> cases hr <;> rfl
    · rintro ⟨i⟩ hi
      have hlt : i < 3 := of_decide_eq_true hi
      have hback : 2 - (2 - i) = i := by omega
      exact congrArg RuleId.mk hback
  obtain ⟨hvalues, -, -, -, horder⟩ :=
    isNonempty_iff_values_hold_tokens (Grammar.built_of_parse hg)
  exact ⟨hg, hg', (hvalues _ ⟨2⟩ (by decide)).1.mp (by decide),
    (hvalues _ ⟨1⟩ (by decide)).2.mp (by decide),
    horder circularReversed _ _ (Grammar.built_of_parse hg') hreversed ⟨2⟩ (by decide)⟩

end NonEmptiness

end ChartGrammar
