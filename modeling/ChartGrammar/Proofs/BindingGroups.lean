/-
  Proofs/BindingGroups.lean --- the order of bindings makes no difference.

  Closing a group depends on where bindings stand only in the numbers of its slots.  So the
  same bindings in another order close exactly if they did before, into the same group under
  other numbers; and since a run looks at handles only to find bodies and to tell keys apart,
  both groups parse alike.
-/
import ChartGrammar.Proofs.ParserVerdicts

set_option autoImplicit false

namespace ChartGrammar

theorem Expr.mapRefs_id {ρ : Type} (e : Expr ρ) : e.mapRefs id = e := by
  induction e using Expr.induction with
  | seq es ih =>
    rw [mapRefs, mapRefsAll_eq_map, List.map_congr_left ih, List.map_id']
  | just e ih => rw [mapRefs, ih]
  | alt a b iha ihb => rw [mapRefs, iha, ihb]
  | cons a b iha ihb => rw [mapRefs, iha, ihb]
  | pair a b iha ihb => rw [mapRefs, iha, ihb]
  | map c e ih => rw [mapRefs, ih]
  | label d e ih => rw [mapRefs, ih]
  | _ => rfl

namespace Group

/-! ## Groups that close -/

section Close

variable {bindings : List (Binding (Expr Ident))} {body : List Ident} {group : Group (Expr Slot)}

/-- Every identifier is bound at most once, and all that bindings and body refer to is bound. -/
structure Scoped (bindings : List (Binding (Expr Ident))) (body : List Ident) : Prop where
  distinct : (bindings.map Binding.ident).Nodup
  exprs : ∀ b ∈ bindings, ∀ i ∈ b.expr.refs, i ∈ bindings.map Binding.ident
  body : ∀ i ∈ body, i ∈ bindings.map Binding.ident

/-- The bindings in their order, with slots for identifiers. -/
def resolved (bindings : List (Binding (Expr Ident))) (body : List Ident) : Group (Expr Slot) where
  idents := bindings.map Binding.ident
  slots := (bindings.map fun b => b.expr.mapRefs (slotOf (bindings.map Binding.ident))).toArray
  body := body.map (slotOf (bindings.map Binding.ident))

theorem closeExprs_of_repeat {i : Ident}
    (h : firstRepeat? (bindings.map Binding.ident) = some i) :
    closeExprs bindings body = .error (.duplicateBinding i.render) := by
  simp only [closeExprs, close, h]

/-- Distinct identifiers leave it to the references whether a group closes. -/
theorem closeExprs_of_nodup (h : (bindings.map Binding.ident).Nodup) :
    closeExprs bindings body = (do
      let slots ← bindings.mapM fun b =>
        b.expr.resolveRefs (lookup (bindings.map Binding.ident) b.ident.owner)
      let body ← body.mapM (lookup (bindings.map Binding.ident) "letrec body")
      return ⟨bindings.map Binding.ident, slots.toArray, body⟩) := by
  simp only [closeExprs, close, (firstRepeat?_eq_none_iff _).mpr h]

/-- A group closes exactly if its references are bound and its identifiers are distinct, and
then it has the bindings in their order. -/
theorem closeExprs_eq_ok_iff :
    closeExprs bindings body = .ok group ↔
      Scoped bindings body ∧ group = resolved bindings body := by
  constructor
  · intro h
    have hdistinct : (bindings.map Binding.ident).Nodup := by
      rw [← firstRepeat?_eq_none_iff]
      by_contra hsome
      obtain ⟨i, hi⟩ := Option.ne_none_iff_exists'.mp hsome
      cases h.symm.trans (closeExprs_of_repeat hi)
    rw [closeExprs_of_nodup hdistinct] at h
    obtain ⟨slots, hslots, h⟩ := bind_eq_ok_iff.mp h
    obtain ⟨result, hresult, hgroup⟩ := bind_eq_ok_iff.mp h
    cases hgroup
    have hresolve := (mapM_eq_ok_iff.mp hslots).imp fun _ _ => resolve_eq_ok_iff.mp
    obtain ⟨hexprs, rfl⟩ := forall_and_eq_map hresolve
    have hlookup := (mapM_eq_ok_iff.mp hresult).imp fun _ _ => lookup_eq_ok_iff.mp
    obtain ⟨hbody, rfl⟩ := forall_and_eq_map hlookup
    exact ⟨⟨hdistinct, hexprs, hbody⟩, rfl⟩
  · rintro ⟨hscoped, rfl⟩
    rw [closeExprs_of_nodup hscoped.distinct]
    refine bind_eq_ok_iff.mpr ⟨_, mapM_eq_ok_iff.mpr ?_, bind_eq_ok_iff.mpr
      ⟨_, mapM_eq_ok_iff.mpr ?_, rfl⟩⟩
    · refine List.forall₂_map_right_iff.mpr (List.forall₂_same.mpr fun b hb => ?_)
      exact resolve_eq_ok_iff.mpr ⟨hscoped.exprs b hb, rfl⟩
    · refine List.forall₂_map_right_iff.mpr (List.forall₂_same.mpr fun i hi => ?_)
      exact lookup_eq_ok_iff.mpr ⟨hscoped.body i hi, rfl⟩

theorem exists_closeExprs_iff :
    (∃ group, closeExprs bindings body = .ok group) ↔ Scoped bindings body := by
  simp only [closeExprs_eq_ok_iff, exists_and_left, exists_eq, and_true]

theorem Scoped.perm {bindings' : List (Binding (Expr Ident))} (h : Scoped bindings body)
    (hperm : bindings.Perm bindings') : Scoped bindings' body := by
  have hidents : (bindings.map Binding.ident).Perm (bindings'.map Binding.ident) :=
    hperm.map Binding.ident
  refine ⟨hidents.nodup_iff.mp h.distinct, fun b hb i hi => ?_, fun i hi => ?_⟩
  · exact hidents.mem_iff.mp (h.exprs b (hperm.mem_iff.mpr hb) i hi)
  · exact hidents.mem_iff.mp (h.body i hi)

end Close

/-! ## Slots under other numbers -/

section Renumber

variable {idents idents' : List Ident}

/-- The slot at which the identifier of a slot is bound in another order.  What is no slot
keeps its number. -/
def renumber (idents idents' : List Ident) (s : Slot) : Slot :=
  match idents[s.index]? with
  | some i => slotOf idents' i
  | none => s

theorem renumber_slotOf (hperm : idents.Perm idents') (i : Ident) :
    renumber idents idents' (slotOf idents i) = slotOf idents' i := by
  by_cases hi : i ∈ idents
  · have hget : idents[idents.idxOf i]? = some i := List.getElem?_idxOf hi
    simp only [renumber, slotOf, hget]
  · have hi' : i ∉ idents' := fun hmem => hi (hperm.mem_iff.mpr hmem)
    have hget : idents[idents.length]? = none := List.getElem?_eq_none (Nat.le_refl _)
    simp only [renumber, slotOf, List.idxOf_of_notMem hi, List.idxOf_of_notMem hi', hget]
    rw [hperm.length_eq]

/-- Numbers that were changed are changed back by the first order. -/
theorem renumber_renumber (hnodup : idents.Nodup) (hperm : idents.Perm idents') (s : Slot) :
    renumber idents' idents (renumber idents idents' s) = s := by
  by_cases hs : s.index < idents.length
  · have hnew : renumber idents idents' s = slotOf idents' idents[s.index] := by
      simp only [renumber, List.getElem?_eq_getElem hs]
    rw [hnew, renumber_slotOf hperm.symm, slotOf, hnodup.idxOf_getElem]
  · have hnone : idents[s.index]? = none := List.getElem?_eq_none (Nat.not_lt.mp hs)
    have hnone' : idents'[s.index]? = none :=
      List.getElem?_eq_none (hperm.length_eq ▸ Nat.not_lt.mp hs)
    simp only [renumber, hnone, hnone']

theorem renumber_bijective (hnodup : idents.Nodup) (hperm : idents.Perm idents') :
    Function.Bijective (renumber idents idents') :=
  Function.bijective_iff_has_inverse.mpr ⟨renumber idents' idents,
    renumber_renumber hnodup hperm, renumber_renumber (hperm.nodup_iff.mp hnodup) hperm.symm⟩

/-- The same group under other numbers: each slot has its identifier and its expression at its
new number, and all references have the new numbers. -/
structure Renumbered (f : Slot → Slot) (group group' : Group (Expr Slot)) : Prop where
  bijective : Function.Bijective f
  idents : ∀ s, group'.idents[(f s).index]? = group.idents[s.index]?
  slots : ∀ s, group'.slots[(f s).index]? = group.slots[s.index]?.map (Expr.mapRefs f)
  body : group'.body = group.body.map f

variable {bindings bindings' : List (Binding (Expr Ident))} {body : List Ident}

/-- The binding at a slot stands at the new number of the slot in another order. -/
theorem getElem?_renumber (hnodup : (bindings.map Binding.ident).Nodup)
    (hperm : bindings.Perm bindings') (s : Slot) :
    bindings'[(renumber (bindings.map Binding.ident) (bindings'.map Binding.ident) s).index]? =
      bindings[s.index]? := by
  by_cases hs : s.index < bindings.length
  · obtain ⟨k, hk, hbinding⟩ :=
      List.getElem_of_mem (hperm.mem_iff.mp (List.getElem_mem hs))
    have hnodup' := (hperm.map Binding.ident).nodup_iff.mp hnodup
    have hidx : (bindings'.map Binding.ident).idxOf bindings[s.index].ident = k := by
      have hself := hnodup'.idxOf_getElem k (by simpa using hk)
      rwa [List.getElem_map, hbinding] at hself
    have hnew : renumber (bindings.map Binding.ident) (bindings'.map Binding.ident) s = ⟨k⟩ := by
      simp only [renumber, List.getElem?_map, List.getElem?_eq_getElem hs, Option.map_some, slotOf,
        hidx]
    rw [hnew, List.getElem?_eq_getElem hk, hbinding, List.getElem?_eq_getElem hs]
  · have hnone : bindings[s.index]? = none := List.getElem?_eq_none (Nat.not_lt.mp hs)
    have hnew : renumber (bindings.map Binding.ident) (bindings'.map Binding.ident) s = s := by
      simp only [renumber, List.getElem?_map, hnone, Option.map_none]
    rw [hnew, hnone, List.getElem?_eq_none (hperm.length_eq ▸ Nat.not_lt.mp hs)]

/-- Bindings in another order are the same group under other numbers. -/
theorem renumbered_of_perm (hnodup : (bindings.map Binding.ident).Nodup)
    (hperm : bindings.Perm bindings') (body : List Ident) :
    Renumbered (renumber (bindings.map Binding.ident) (bindings'.map Binding.ident))
      (resolved bindings body) (resolved bindings' body) := by
  have hidents := hperm.map Binding.ident
  have hslots : renumber (bindings.map Binding.ident) (bindings'.map Binding.ident) ∘
      slotOf (bindings.map Binding.ident) = slotOf (bindings'.map Binding.ident) :=
    funext (renumber_slotOf hidents)
  constructor
  · exact renumber_bijective hnodup hidents
  · intro s
    rw [resolved, resolved, List.getElem?_map, List.getElem?_map, getElem?_renumber hnodup hperm]
  · intro s
    simp only [resolved, List.getElem?_toArray, List.getElem?_map, getElem?_renumber hnodup hperm,
      Option.map_map, Function.comp_def, Expr.mapRefs_mapRefs]
    rw [← hslots]
    rfl
  · rw [resolved, resolved, List.map_map, hslots]

end Renumber

/-! ## Registries under other numbers -/

section Registry

variable {f : Slot → Slot} {group group' : Group (Expr Slot)}

theorem get?_toRegistry_eq (group : Group (Expr Slot)) (h : Handle) :
    group.toRegistry.get? h = group.slots[h.index]?.map (Expr.mapRefs Slot.toHandle) := by
  rw [Registry.get?, toRegistry, Registry.ofBodies, List.getElem?_toArray, List.getElem?_map,
    List.getElem?_map, Array.getElem?_toList]
  cases group.slots[h.index]? <;> rfl

theorem firstUndefined?_toRegistry (group : Group (Expr Slot)) :
    group.toRegistry.firstUndefined? = none :=
  firstUndefined?_ofBodies _

/-- A registry holds its own rules. -/
theorem holds_self (group : Group (Expr Slot)) :
    group.toRegistry.Holds group.toRegistry.get? id where
  injective := Function.injective_id
  get? h := by
    have hid : (Expr.mapRefs id : Expr Handle → Expr Handle) = id := funext Expr.mapRefs_id
    rw [hid, Option.map_id, id, id]

/-- A group under other numbers holds the rules of the group under other handles. -/
theorem Renumbered.holds (h : Renumbered f group group') :
    group'.toRegistry.Holds group.toRegistry.get? fun handle => (f ⟨handle.index⟩).toHandle where
  injective := by
    intro handle handle' heq
    have hindex : (f ⟨handle.index⟩).index = (f ⟨handle'.index⟩).index := congrArg Handle.index heq
    have hslot := h.bijective.1 (congrArg Slot.mk hindex)
    cases handle
    cases handle'
    cases hslot
    rfl
  get? handle := by
    have hslots := h.slots ⟨handle.index⟩
    rw [get?_toRegistry_eq, get?_toRegistry_eq, Slot.toHandle]
    dsimp only at hslots ⊢
    simp only [hslots, Option.map_map, Function.comp_def, Expr.mapRefs_mapRefs]
    rfl

/-- What a parse that ends can come to if every handle has a body. -/
def Verdict (outcome : Except ParseError Value) : Prop :=
  (∃ v, outcome = .ok v) ∨
    (∃ position found expected, outcome = .error (.unexpected position found expected)) ∨
    ∃ ctor, outcome = .error (.shapeMismatch ctor)

theorem verdict_conclude (c : Chart) (input : Array Token) (results : Results) :
    Verdict (c.conclude input results) := by
  unfold Chart.conclude
  split
  · exact .inr (.inr ⟨_, rfl⟩)
  · split
    · split
      · exact .inl ⟨_, rfl⟩
      · exact .inr (.inr ⟨_, rfl⟩)
    · exact .inr (.inl ⟨_, _, _, rfl⟩)
    · obtain ⟨position, found, expected, hreport⟩ := Registry.report_eq_unexpected c input
      exact .inr (.inl ⟨position, found, expected, congrArg _ hreport⟩)

theorem verdict_of_run? {s : Slot} (hs : s.index < group.size) {fuel : Nat} {tokens : List Token}
    {report : Report} (hrun : group.toRegistry.run? fuel s.toHandle tokens = some report) :
    Verdict report.outcome := by
  have hroot : s.toHandle.index < group.toRegistry.size := by
    simpa [toRegistry, Registry.ofBodies, Registry.size, Slot.toHandle, size] using hs
  rw [Registry.run?, if_pos hroot, firstUndefined?_toRegistry] at hrun
  dsimp only at hrun
  split at hrun
  · cases hrun
    exact verdict_conclude _ _ _
  · cases hrun

/-- Two slots give the same result on all tokens, whether their runs end or not. -/
def ParseAlike (group group' : Group (Expr Slot)) (s s' : Slot) : Prop :=
  ∀ tokens, group.toRegistry.parse s.toHandle tokens = group'.toRegistry.parse s'.toHandle tokens ∧
    ∀ fuel, (group.toRegistry.run? fuel s.toHandle tokens).map Report.outcome =
        (group'.toRegistry.run? fuel s'.toHandle tokens).map Report.outcome ∧
      ∀ report, group.toRegistry.run? fuel s.toHandle tokens = some report →
        Verdict report.outcome

/-- A slot and its new number parse alike. -/
theorem Renumbered.parseAlike (h : Renumbered f group group') {s : Slot}
    (hs : s.index < group.size) : ParseAlike group group' s (f s) := by
  have hbody : group.toRegistry.get? s.toHandle =
      some ((group.slots[s.index]).mapRefs Slot.toHandle) := by
    rw [get?_toRegistry_eq, Slot.toHandle, Array.getElem?_eq_getElem hs, Option.map_some]
  have hself := group.holds_self
  have hother := h.holds
  refine fun tokens => ⟨?_, fun fuel => ⟨?_, fun report => verdict_of_run? hs⟩⟩
  · exact hself.parse_eq hother group.firstUndefined?_toRegistry group'.firstUndefined?_toRegistry
      hbody tokens
  · exact hself.run?_eq hother group.firstUndefined?_toRegistry group'.firstUndefined?_toRegistry
      hbody fuel tokens

end Registry

/-! ## The order of bindings -/

variable {bindings bindings' : List (Binding (Expr Ident))}

theorem slot_lt_of_mem_body {body : List Ident} (h : Scoped bindings body) {s : Slot}
    (hs : s ∈ (resolved bindings body).body) : s.index < (resolved bindings body).size := by
  obtain ⟨i, hi, rfl⟩ := List.mem_map.mp hs
  have hlt := List.idxOf_lt_length_iff.mpr (h.body i hi)
  simpa [resolved, size, slotOf] using hlt

/-- Bindings close in one order exactly if they close in any other, that is, if no identifier
is bound twice and every reference is bound.  The groups are the same but for the numbers of
their slots, and what they were asked for parses alike. -/
theorem closeExprs_of_perm (hperm : bindings.Perm bindings') (body : List Ident) :
    ((∃ group, closeExprs bindings body = .ok group) ↔ Scoped bindings body) ∧
    ((∃ group, closeExprs bindings body = .ok group) ↔
      ∃ group', closeExprs bindings' body = .ok group') ∧
    ∀ group group', closeExprs bindings body = .ok group →
      closeExprs bindings' body = .ok group' →
      Renumbered (renumber group.idents group'.idents) group group' ∧
      List.Forall₂ (ParseAlike group group') group.body group'.body := by
  refine ⟨exists_closeExprs_iff, ?_, ?_⟩
  · rw [exists_closeExprs_iff, exists_closeExprs_iff]
    exact ⟨fun h => h.perm hperm, fun h => h.perm hperm.symm⟩
  · intro group group' hgroup hgroup'
    obtain ⟨hscoped, rfl⟩ := closeExprs_eq_ok_iff.mp hgroup
    obtain ⟨-, rfl⟩ := closeExprs_eq_ok_iff.mp hgroup'
    have hrenumbered := renumbered_of_perm hscoped.distinct hperm body
    refine ⟨hrenumbered, ?_⟩
    rw [hrenumbered.body, List.forall₂_map_right_iff, List.forall₂_same]
    exact fun s hs => hrenumbered.parseAlike (slot_lt_of_mem_body hscoped hs)

/-- An even number of letters, by way of odd numbers of letters. -/
def evenLetters : List (Binding (Expr Ident)) :=
  let letter : Expr Ident := .map (.terminal "letter") (.matchOne .alpha)
  [⟨⟨"letters", "letters", 0⟩, .map (.star "letters") (.ref ⟨"even", "even", 1⟩)⟩,
    ⟨⟨"even", "even", 1⟩, .alt .nil (.cons letter (.ref ⟨"odd", "odd", 2⟩))⟩,
    ⟨⟨"odd", "odd", 2⟩, .cons letter (.ref ⟨"even", "even", 1⟩)⟩]

/-- From the last binding to the first, what was at slot 0 is at slot 2, and parses alike. -/
theorem closeExprs_of_perm_evenLetters :
    evenLetters.Perm evenLetters.reverse ∧
    ∃ group group', closeExprs evenLetters [⟨"letters", "letters", 0⟩] = .ok group ∧
      closeExprs evenLetters.reverse [⟨"letters", "letters", 0⟩] = .ok group' ∧
      group.body = [⟨0⟩] ∧ group'.body = [⟨2⟩] ∧ ParseAlike group group' ⟨0⟩ ⟨2⟩ := by
  have hperm : evenLetters.Perm evenLetters.reverse := evenLetters.reverse_perm.symm
  obtain ⟨hscoped, hiff, halike⟩ := closeExprs_of_perm hperm [⟨"letters", "letters", 0⟩]
  obtain ⟨group, hgroup⟩ := hscoped.mpr ⟨by decide, by decide, by decide⟩
  obtain ⟨group', hgroup'⟩ := hiff.mp ⟨group, hgroup⟩
  have hbody : group.body = [⟨0⟩] := by
    rw [(closeExprs_eq_ok_iff.mp hgroup).2]
    decide
  have hbody' : group'.body = [⟨2⟩] := by
    rw [(closeExprs_eq_ok_iff.mp hgroup').2]
    decide
  obtain ⟨-, hparse⟩ := halike group group' hgroup hgroup'
  rw [hbody, hbody'] at hparse
  exact ⟨hperm, group, group', hgroup, hgroup', hbody, hbody', (List.forall₂_cons.mp hparse).1⟩

end Group

end ChartGrammar
