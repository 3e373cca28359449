/-
  Proofs/Seats.lean --- where compiled rules sit.

  To compare registries that were compiled from one grammar, every rule gets a seat that
  depends on the grammar alone, and every repetition a second one for its list.  A compiled
  group holds any of its rules that refer only to each other: each seat that they take goes
  to a handle of its own, with the body that belongs there.
-/
import ChartGrammar.Proofs.RenamedRules

set_option autoImplicit false

namespace ChartGrammar

/-! ## Seats -/

/-- The seat of a rule. -/
def RuleId.seat (id : RuleId) : Handle := ⟨2 * id.index⟩

/-- The seat of the list of a rule that repeats. -/
def RuleId.listSeat (id : RuleId) : Handle := ⟨2 * id.index + 1⟩

/-- The rule that a seat belongs to. -/
def Handle.owner (h : Handle) : RuleId := ⟨h.index / 2⟩

@[simp] theorem RuleId.owner_seat (id : RuleId) : id.seat.owner = id := by
  cases id
  simp [seat, Handle.owner]

@[simp] theorem RuleId.owner_listSeat (id : RuleId) : id.listSeat.owner = id := by
  cases id
  simp only [listSeat, Handle.owner, RuleId.mk.injEq]
  omega

@[simp] theorem RuleId.listSeat_ne_seat (id id' : RuleId) : id.listSeat ≠ id'.seat := by
  simp only [listSeat, seat, ne_eq, Handle.mk.injEq]
  omega

theorem Handle.eq_seat_or (h : Handle) : h = h.owner.seat ∨ h = h.owner.listSeat := by
  cases h
  simp only [owner, RuleId.seat, RuleId.listSeat, Handle.mk.injEq]
  omega

namespace Grammar

/-- What stands at the seats of the rules `ids`. -/
def seatBodies (g : Grammar) (ids : List RuleId) (h : Handle) : Option (Expr Handle) :=
  if h.owner ∈ ids then
    (g.get? h.owner).bind fun r =>
      if h = h.owner.seat then
        some (.label r.title ((r.rhs.map RuleId.seat).expr r.name h.owner.listSeat))
      else r.rhs.repeated?.map fun inner => .listOf inner.seat h
  else none

/-- The seats that the rules `ids` take. -/
def seats (g : Grammar) (ids : List RuleId) : List Handle :=
  ids.flatMap fun id => ((g.get? id).map fun r =>
    id.seat :: (r.rhs.repeated?.map fun _ => id.listSeat).toList).getD []

variable {g : Grammar} {ids sub : List RuleId} {id : RuleId} {r : Rule}

theorem seatBodies_seat (hid : id ∈ ids) (hr : g.get? id = some r) :
    g.seatBodies ids id.seat =
      some (.label r.title ((r.rhs.map RuleId.seat).expr r.name id.listSeat)) := by
  simp [seatBodies, hid, hr]

theorem seatBodies_listSeat (hid : id ∈ ids) (hr : g.get? id = some r) :
    g.seatBodies ids id.listSeat =
      r.rhs.repeated?.map fun inner => .listOf inner.seat id.listSeat := by
  simp [seatBodies, hid, hr]

/-- A seat is taken by a rule or by the list of a rule that repeats. -/
theorem seatBodies_cases {h : Handle} {e : Expr Handle} (he : g.seatBodies ids h = some e) :
    ∃ id ∈ ids, ∃ r, g.get? id = some r ∧
      ((h = id.seat ∧ e = .label r.title ((r.rhs.map RuleId.seat).expr r.name id.listSeat)) ∨
        h = id.listSeat ∧ ∃ inner, r.rhs.repeated? = some inner ∧
          e = .listOf inner.seat id.listSeat) := by
  unfold seatBodies at he
  split at he
  · next hid =>
    obtain ⟨r, hr, he⟩ := Option.bind_eq_some_iff.mp he
    refine ⟨h.owner, hid, r, hr, ?_⟩
    split at he
    · next hseat => exact .inl ⟨hseat, (Option.some.inj he).symm⟩
    · next hseat =>
      have hlist := h.eq_seat_or.resolve_left hseat
      obtain ⟨inner, hinner, rfl⟩ := Option.map_eq_some_iff.mp he
      exact .inr ⟨hlist, inner, hinner, by rw [← hlist]⟩
  · cases he

theorem mem_seats {h : Handle} {e : Expr Handle} (hsub : ∀ id ∈ sub, id ∈ ids)
    (he : g.seatBodies sub h = some e) : h ∈ g.seats ids := by
  obtain ⟨id, hid, r, hr, ⟨rfl, -⟩ | ⟨rfl, inner, hinner, -⟩⟩ := seatBodies_cases he
  · exact List.mem_flatMap.mpr ⟨id, hsub id hid, by simp [hr]⟩
  · exact List.mem_flatMap.mpr ⟨id, hsub id hid, by simp [hr, hinner]⟩

end Grammar

/-! ## Who sits where -/

section Seating

variable {sig : Signature} {g : Grammar} {t : NameSupply} {list : RuleId → Ident}
  {ids sub : List RuleId} {bindings : List (Binding (Expr Ident))} {group : Group (Expr Slot)}
  {body : List Ident}

/-- The bindings of several rules, each with an identifier for its list. -/
def bindingsOf (g : Grammar) (t : NameSupply) (list : RuleId → Ident) (ids : List RuleId) :
    List (Binding (Expr Ident)) :=
  ids.flatMap fun id => ((g.get? id).map (ruleBindings t.identOf (list id) id)).getD []

theorem exists_bindingsOf {bss : List (List (Binding (Expr Ident)))} (hnodup : ids.Nodup)
    (hall : List.Forall₂ (RuleCompiled g t) ids bss) :
    ∃ list, bss.flatten = bindingsOf g t list ids := by
  induction hall with
  | nil => exact ⟨default, rfl⟩
  | @cons id bs ids bss hcompiled _ ih =>
    obtain ⟨hid, hnodup⟩ := List.nodup_cons.mp hnodup
    obtain ⟨r, l, hr, -, rfl⟩ := hcompiled
    obtain ⟨list, hlist⟩ := ih hnodup
    refine ⟨Function.update list id l, ?_⟩
    have hrest : bindingsOf g t (Function.update list id l) ids = bindingsOf g t list ids := by
      refine List.flatMap_congr fun id' hid' => ?_
      rw [Function.update_of_ne (ne_of_mem_of_not_mem hid' hid)]
    rw [List.flatten_cons, hlist, ← hrest]
    simp [bindingsOf, hr]

/-- The identifier that is bound for a seat. -/
def identAt (t : NameSupply) (list : RuleId → Ident) (h : Handle) : Ident :=
  if h = h.owner.seat then t.identOf h.owner else list h.owner

@[simp] theorem identAt_seat (id : RuleId) : identAt t list id.seat = t.identOf id := by
  simp [identAt]

@[simp] theorem identAt_listSeat (id : RuleId) : identAt t list id.listSeat = list id := by
  simp [identAt]

theorem map_ident_bindingsOf :
    (bindingsOf g t list ids).map Binding.ident = (g.seats ids).map (identAt t list) := by
  rw [bindingsOf, Grammar.seats, List.map_flatMap, List.map_flatMap]
  refine List.flatMap_congr fun id _ => ?_
  cases g.get? id with
  | none => rfl
  | some r => cases hrepeated : r.rhs.repeated? <;> simp [ruleBindings, hrepeated]

theorem mem_bindingsOf {id : RuleId} {r : Rule} (hid : id ∈ ids) (hr : g.get? id = some r) :
    ⟨t.identOf id, .label r.title ((r.rhs.map t.identOf).expr r.name (list id))⟩ ∈
        bindingsOf g t list ids ∧
      ∀ inner, r.rhs.repeated? = some inner →
        ⟨list id, .listOf (t.identOf inner) (list id)⟩ ∈ bindingsOf g t list ids := by
  refine ⟨List.mem_flatMap.mpr ⟨id, hid, ?_⟩, fun inner hinner =>
    List.mem_flatMap.mpr ⟨id, hid, ?_⟩⟩
  · simp [hr, ruleBindings]
  · simp [hr, ruleBindings, hinner]

/-- Where a group of bindings puts the rules `sub` of a grammar.  Seats that are not taken
go out of the way. -/
def seating (g : Grammar) (sub : List RuleId) (t : NameSupply) (list : RuleId → Ident)
    (bindings : List (Binding (Expr Ident))) (size : Nat) (h : Handle) : Handle :=
  match g.seatBodies sub h with
  | some _ => handleOf bindings (identAt t list h)
  | none => ⟨size + h.index⟩

theorem seating_of_taken {size : Nat} {h : Handle} {e : Expr Handle}
    (he : g.seatBodies sub h = some e) :
    seating g sub t list bindings size h = handleOf bindings (identAt t list h) := by
  rw [seating, he]

theorem seating_of_free {size : Nat} {h : Handle} (he : g.seatBodies sub h = none) :
    seating g sub t list bindings size h = ⟨size + h.index⟩ := by
  rw [seating, he]

theorem handleOf_inj {i j : Ident} (hi : i ∈ bindings.map Binding.ident)
    (heq : handleOf bindings i = handleOf bindings j) : i = j :=
  (List.idxOf_inj hi).mp (Handle.mk.inj heq)

/-- The list does not occur in the expression of a rule that does not repeat. -/
theorem Rhs.expr_eq_of_not_repeated {ρ : Type} {rhs : Rhs ρ} (h : rhs.repeated? = none)
    (rule : String) (l l' : ρ) : rhs.expr rule l = rhs.expr rule l' := by
  cases rhs with
  | star r => cases h
  | plus r => cases h
  | choice branches => cases branches <;> rfl
  | _ => rfl

section Holds

variable (hclose : Group.closeExprs (bindingsOf g t list ids) body = .ok group)
  (hsub : ∀ id ∈ sub, id ∈ ids)
  (hclosed : ∀ id ∈ sub, ∀ r, g.get? id = some r → ∀ c ∈ r.rhs.children, c ∈ sub)
  (hrules : ∀ id ∈ sub, ∃ r, g.get? id = some r)
include hclose hsub

theorem seating_injective : Function.Injective
    (seating g sub t list (bindingsOf g t list ids) group.toRegistry.size) := by
  have hbound : ∀ {h e}, g.seatBodies sub h = some e →
      identAt t list h ∈ (bindingsOf g t list ids).map Binding.ident := by
    intro h e he
    rw [map_ident_bindingsOf]
    exact List.mem_map_of_mem (Grammar.mem_seats hsub he)
  have hlt : ∀ {h e}, g.seatBodies sub h = some e →
      (handleOf (bindingsOf g t list ids) (identAt t list h)).index < group.toRegistry.size := by
    intro h e he
    obtain ⟨b, hb, hident⟩ := List.mem_map.mp (hbound he)
    have hget := get?_toRegistry hclose hb
    rw [hident] at hget
    exact Registry.index_lt_of_get? hget
  have hnodup := (Group.close_eq_ok hclose).1
  rw [map_ident_bindingsOf] at hnodup
  intro h h' heq
  cases he : g.seatBodies sub h with
  | none =>
    rw [seating_of_free he] at heq
    cases he' : g.seatBodies sub h' with
    | none =>
      rw [seating_of_free he', Handle.mk.injEq] at heq
      cases h
      cases h'
      exact congrArg Handle.mk (Nat.add_left_cancel heq)
    | some e' =>
      rw [seating_of_taken he'] at heq
      have := hlt he'
      rw [← heq] at this
      simp at this
  | some e =>
    rw [seating_of_taken he] at heq
    cases he' : g.seatBodies sub h' with
    | none =>
      rw [seating_of_free he'] at heq
      have := hlt he
      rw [heq] at this
      simp at this
    | some e' =>
      rw [seating_of_taken he'] at heq
      exact List.inj_on_of_nodup_map hnodup (Grammar.mem_seats hsub he)
        (Grammar.mem_seats hsub he') (handleOf_inj (hbound he) heq)

include hclosed hrules

/-- A group that was closed holds any of its rules that refer only to each other. -/
theorem holds_seating : group.toRegistry.Holds (g.seatBodies sub)
    (seating g sub t list (bindingsOf g t list ids) group.toRegistry.size) := by
  refine ⟨seating_injective hclose hsub, fun h => ?_⟩
  cases he : g.seatBodies sub h with
  | none =>
    rw [seating_of_free he, Option.map_none, Registry.get?, Array.getElem?_eq_none]
    · rfl
    · exact Nat.le_add_right _ _
  | some e =>
    rw [seating_of_taken he, Option.map_some]
    have hseat : ∀ {id}, id ∈ sub →
        seating g sub t list (bindingsOf g t list ids) group.toRegistry.size id.seat =
          handleOf (bindingsOf g t list ids) (t.identOf id) := by
      intro id hid
      obtain ⟨r, hr⟩ := hrules id hid
      rw [seating_of_taken (Grammar.seatBodies_seat hid hr), identAt_seat]
    have hlist : ∀ {id r inner}, id ∈ sub → g.get? id = some r → r.rhs.repeated? = some inner →
        seating g sub t list (bindingsOf g t list ids) group.toRegistry.size id.listSeat =
          handleOf (bindingsOf g t list ids) (list id) := by
      intro id r inner hid hr hinner
      have htaken := Grammar.seatBodies_listSeat hid hr
      rw [hinner, Option.map_some] at htaken
      rw [seating_of_taken htaken, identAt_listSeat]
    obtain ⟨id, hid, r, hr, ⟨rfl, rfl⟩ | ⟨rfl, inner, hinner, rfl⟩⟩ :=
      Grammar.seatBodies_cases he
    · have hchildren : r.rhs.map (handleOf (bindingsOf g t list ids) ∘ t.identOf) =
          r.rhs.map (seating g sub t list (bindingsOf g t list ids) group.toRegistry.size ∘
            RuleId.seat) :=
        Rhs.map_congr fun c hc => (hseat (hclosed id hid r hr c hc)).symm
      rw [identAt_seat, get?_toRegistry hclose (mem_bindingsOf (hsub id hid) hr).1, Expr.mapRefs,
        Expr.mapRefs, Rhs.mapRefs_expr, Rhs.mapRefs_expr, Rhs.map_map, Rhs.map_map, hchildren]
      cases hrepeated : r.rhs.repeated? with
      | none =>
        have hplain : (r.rhs.map (seating g sub t list (bindingsOf g t list ids)
            group.toRegistry.size ∘ RuleId.seat)).repeated? = none := by
          rw [Rhs.repeated?_map, hrepeated, Option.map_none]
        rw [Rhs.expr_eq_of_not_repeated hplain]
      | some inner => rw [hlist hid hr hrepeated]
    · have hinner' := hclosed id hid r hr inner (Rhs.repeated?_mem_children hinner)
      rw [identAt_listSeat,
        get?_toRegistry hclose ((mem_bindingsOf (hsub id hid) hr).2 inner hinner)]
      simp only [Expr.listOf, Expr.mapRefs, hlist hid hr hinner, hseat hinner']

end Holds

/-- A compiled group holds any of its rules that refer only to each other, at the handles to
which they are bound. -/
theorem exists_holds_of_compileGroup {result : List RuleId} (hnodup : ids.Nodup)
    (h : compileGroup sig g ids result = .ok group) (hsub : ∀ id ∈ sub, id ∈ ids)
    (hclosed : ∀ id ∈ sub, ∀ r, g.get? id = some r → ∀ c ∈ r.rhs.children, c ∈ sub) :
    ∃ f, group.toRegistry.Holds (g.seatBodies sub) f ∧
      ∀ id ∈ sub, ruleHandle? sig g ids id = some (f id.seat) := by
  obtain ⟨⟨⟨bindings, idents⟩, u⟩, hrun, hclose⟩ := bind_eq_ok_iff.mp h
  obtain ⟨t, hcompile, -⟩ := run_compile_group hrun
  obtain ⟨-, -, -, bss, rfl, hall⟩ :=
    run_compileRules hnodup NameSupply.wellFormed_empty hcompile
  obtain ⟨list, hlist⟩ := exists_bindingsOf hnodup hall
  have hknown : ∀ id ∈ sub, ∃ r, g.get? id = some r ∧ Knows t (id :: r.rhs.children) := by
    intro id hid
    obtain ⟨bs, -, r, -, hr, hknows, -⟩ := forall₂_exists_left hall (hsub id hid)
    exact ⟨r, hr, hknows⟩
  dsimp only at hclose
  rw [hlist] at hclose hcompile
  refine ⟨_, holds_seating hclose hsub hclosed fun id hid => (hknown id hid).imp fun r hr => hr.1,
    fun id hid => ?_⟩
  obtain ⟨r, hr, hknows⟩ := hknown id hid
  obtain ⟨i, hi⟩ := hknows id List.mem_cons_self
  rw [seating_of_taken (Grammar.seatBodies_seat hid hr), identAt_seat]
  simp only [ruleHandle?, hcompile, hi, Option.map_some, NameSupply.identOf_eq hi]

end Seating

end ChartGrammar
