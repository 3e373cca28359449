/-
  Proofs/ExactTerminalizing.lean --- which values a terminalizer takes.

  The terminalizer of a rule takes the values that look as the rule demands and refuses
  all others, however they are nested; only a literal that is not spelled makes it speak
  of an inconsistency.  Its walk keeps one result for every value that has been worked
  off and is still to be joined, so that leaving a value always finds the results of the
  values below it.
-/
import Mathlib
import ChartGrammar.Proofs.TerminalizerExists

set_option autoImplicit false

namespace ChartGrammar

/-! ## Values that are refused -/

/-- A value stands in another one: it is that one, or it stands in a value directly below. -/
inductive Value.StandsIn (w : Value) : Value → Prop where
  | self : StandsIn w w
  | child {v c : Value} (hc : c ∈ v.children) (h : StandsIn w c) : StandsIn w v

/-- In a value there are tokens for the literal of a rule that do not spell it. -/
def Grammar.Misspelled (g : Grammar) (rule : String) (v : Value) : Prop :=
  ∃ id r literal ts, g.get? id = some r ∧ r.name = rule ∧ r.rhs = .series literal ∧
    Value.StandsIn (.series rule ts) v ∧ ts.map Token.char ≠ literal.toList

theorem Grammar.Misspelled.below {g : Grammar} {rule : String} {v c : Value}
    (h : g.Misspelled rule c) (hc : c ∈ v.children) : g.Misspelled rule v := by
  obtain ⟨id, r, literal, ts, hr, hname, hrhs, hstands, hspell⟩ := h
  exact ⟨id, r, literal, ts, hr, hname, hrhs, .child hc hstands, hspell⟩

section Refuse

open Terminalizer

variable {g : Grammar} {a : NonEmptiness} {ids : List RuleId} {table : YieldTable}
  {place : RuleId → Slot}

/-- Working off a value ends in an error, whatever is pending and done. -/
def Refuses (table : YieldTable) (slot : Slot) (v : Value) (e : TerminalizeError) : Prop :=
  ∀ steps done, walk table (.enter slot v :: steps) done = .error e

theorem refuses_of_descend {slot : Slot} {v : Value} {e : TerminalizeError}
    (h : (table.get slot).descend v = .error e) : Refuses table slot v e := by
  intro steps done
  rw [walk]
  split
  · next e' herror => rw [← Except.error.inj (h.symm.trans herror)]
  · next plan below hok => cases h.symm.trans hok

/-- The fields of a product are paired with the slots of its children, or there are not as
many as the plan has parts. -/
theorem pairFields_cases {name : String} {fields : List RuleId} {nonempty : Bool}
    {plan : JoinPlan Slot} (vs : List Value)
    (hmake : JoinPlan.make name (fields.map fun c => ⟨place c, a.isNonempty c⟩) nonempty =
      .ok plan) :
    (∃ e, YieldRule.pairFields name plan vs = .error e ∧ ∀ rule, e ≠ .inconsistent rule) ∨
      fields.length = vs.length ∧ YieldRule.pairFields name plan vs =
        .ok ((fields.zip vs).map fun part => (place part.1, part.2)) := by
  have hparts := JoinPlan.parts_of_make hmake
  have hlen : plan.arity = fields.length := by
    rw [JoinPlan.arity_eq_length, hparts, List.length_map]
  by_cases heq : fields.length = vs.length
  · refine .inr ⟨heq, ?_⟩
    rw [YieldRule.pairFields_eq_ok hparts (by rw [List.length_map, heq]), List.map_map,
      List.zip_map_left]
    rfl
  · refine .inl ⟨.arityMismatch name plan.arity vs.length, if_neg ?_, fun rule h => by cases h⟩
    rwa [hlen]

/-- A plan that is found under a label was made for the branch of that label. -/
theorem exists_branch_of_lookup {name label : String} {part : RuleId → Part Slot}
    {nonempty : Bool} {branches : List (Branch RuleId)} {plans : List (String × JoinPlan Slot)}
    (hplans : List.Forall₂ (fun b e => e.1 = b.label ∧
      JoinPlan.make name (b.fields.map part) nonempty = .ok e.2) branches plans)
    {plan : JoinPlan Slot} (h : plans.lookup label = some plan) :
    ∃ b ∈ branches, b.label = label ∧
      JoinPlan.make name (b.fields.map part) nonempty = .ok plan := by
  induction hplans with
  | nil => cases h
  | @cons b e bs es he _ ih =>
    obtain ⟨label', plan'⟩ := e
    rw [List.lookup_cons] at h
    split at h
    · next heq =>
      cases h
      exact ⟨b, List.mem_cons_self, he.1.symm.trans (beq_iff_eq.mp heq).symm, he.2⟩
    · obtain ⟨b', hb', hrest⟩ := ih h
      exact ⟨b', List.mem_cons_of_mem _ hb', hrest⟩

/-- What a value of a rule comes to without a look at the values below it: it is refused,
or the values below it are for the children of the rule, and it looks as demanded once
they do, unless it does not spell a literal. -/
theorem descend_cases (hy : YieldRules g a ids table place) {id : RuleId} {r : Rule}
    (hid : id ∈ ids) (hr : g.get? id = some r) (v : Value) :
    (∃ e, (table.get (place id)).descend v = .error e ∧ ∀ rule, e ≠ .inconsistent rule) ∨
    ∃ plan, ∃ parts : List (RuleId × Value),
      (table.get (place id)).descend v =
        .ok (plan, parts.map fun part => (place part.1, part.2)) ∧
      (∀ part ∈ parts, part.1 ∈ r.rhs.children ∧ part.2 ∈ v.children) ∧
      ((∀ part ∈ parts, g.HasShape part.1 part.2) → g.HasShape id v ∨
        ∃ literal ts, r.rhs = .series literal ∧ v = .series r.name ts ∧
          ts.map Token.char ≠ literal.toList) := by
  obtain ⟨r', shape, hr', hget, hplanned⟩ := hy.rule id hid
  cases hr.symm.trans hr'
  by_cases hname : v.rule = r.name
  · have hrefused : (table.get (place id)).descend v =
        .error (.unexpectedValue shape.kind r.name v.kind v.rule) →
        ∃ e, (table.get (place id)).descend v = .error e ∧ ∀ rule, e ≠ .inconsistent rule :=
      fun h => ⟨_, h, fun rule heq => by cases heq⟩
    rw [hget] at hrefused ⊢
    generalize hrhs : r.rhs = rhs at hplanned
    cases hplanned with
    | terminal =>
      cases v with
      | terminal _ t =>
        cases hname
        exact .inr ⟨none, [], if_pos rfl, fun part hpart => absurd hpart List.not_mem_nil,
          fun _ => .inl (.terminal hr hrhs trivial)⟩
      | _ => exact .inl (hrefused (if_pos hname))
    | @series literal =>
      cases v with
      | series _ ts =>
        cases hname
        refine .inr ⟨none, [], if_pos rfl, fun part hpart => absurd hpart List.not_mem_nil,
          fun _ => ?_⟩
        by_cases hts : ts.map Token.char = literal.toList
        · exact .inl (.series hr hrhs hts)
        · exact .inr ⟨literal, ts, rfl, rfl, hts⟩
      | _ => exact .inl (hrefused (if_pos hname))
    | wrap =>
      cases v with
      | wrap _ w =>
        cases hname
        refine .inr ⟨none, [(_, w)], if_pos rfl, ?_, fun h => .inl (.wrap hr hrhs ?_)⟩
        · intro part hpart
          cases List.mem_singleton.mp hpart
          exact ⟨List.mem_singleton_self _, List.mem_singleton_self _⟩
        · exact h (_, w) (List.mem_singleton_self _)
      | _ => exact .inl (hrefused (if_pos hname))
    | opt =>
      cases v with
      | opt _ inner =>
        cases hname
        cases inner with
        | none =>
          exact .inr ⟨none, [], if_pos rfl, fun part hpart => absurd hpart List.not_mem_nil,
            fun _ => .inl (.absent hr hrhs)⟩
        | some w =>
          refine .inr ⟨none, [(_, w)], if_pos rfl, ?_, fun h => .inl (.present hr hrhs ?_)⟩
          · intro part hpart
            cases List.mem_singleton.mp hpart
            exact ⟨List.mem_singleton_self _, List.mem_singleton_self _⟩
          · exact h (_, w) (List.mem_singleton_self _)
      | _ => exact .inl (hrefused (if_pos hname))
    | @star inner =>
      cases v with
      | star _ ws =>
        cases hname
        refine .inr ⟨none, ws.map (inner, ·), ?_, ?_, fun h => .inl (.star hr hrhs ?_)⟩
        · rw [List.map_map]
          exact if_pos rfl
        · intro part hpart
          obtain ⟨w, hw, rfl⟩ := List.mem_map.mp hpart
          exact ⟨List.mem_singleton_self _, hw⟩
        · exact fun w hw => h (inner, w) (List.mem_map_of_mem hw)
      | _ => exact .inl (hrefused (if_pos hname))
    | @plus inner =>
      cases v with
      | plus _ w ws =>
        cases hname
        refine .inr ⟨none, (w :: ws).map (inner, ·), ?_, ?_, fun h => .inl (.plus hr hrhs ?_ ?_)⟩
        · rw [List.map_map]
          exact if_pos rfl
        · intro part hpart
          obtain ⟨w', hw', rfl⟩ := List.mem_map.mp hpart
          exact ⟨List.mem_singleton_self _, hw'⟩
        · exact h (inner, w) List.mem_cons_self
        · exact fun w' hw' => h (inner, w') (List.mem_map_of_mem (List.mem_cons_of_mem _ hw'))
      | _ => exact .inl (hrefused (if_pos hname))
    | @record fields plan hmake =>
      cases v with
      | record _ vs =>
        cases hname
        rcases pairFields_cases vs hmake with ⟨e, hpair, he⟩ | ⟨hlen, hpair⟩
        · refine .inl ⟨e, ?_, he⟩
          simp only [YieldRule.descend, Value.rule, if_true, hpair]
        · refine .inr ⟨some plan, fields.zip vs, ?_, ?_, fun h => .inl (.record hr hrhs ?_)⟩
          · simp only [YieldRule.descend, Value.rule, if_true, hpair]
          · exact fun part hpart => List.of_mem_zip hpart
          · exact List.forall₂_iff_zip.mpr ⟨hlen, fun hpart => h _ hpart⟩
      | _ => exact .inl (hrefused (if_pos hname))
    | @choice branches plans hplans =>
      cases v with
      | branch _ label vs =>
        cases hname
        cases hlookup : plans.lookup label with
        | none =>
          refine .inl ⟨.unknownBranch r.name label, ?_, fun rule h => by cases h⟩
          simp only [YieldRule.descend, Value.rule, if_true, hlookup]
        | some plan =>
          obtain ⟨b, hb, rfl, hmake⟩ := exists_branch_of_lookup hplans hlookup
          rcases pairFields_cases vs hmake with ⟨e, hpair, he⟩ | ⟨hlen, hpair⟩
          · refine .inl ⟨e, ?_, he⟩
            simp only [YieldRule.descend, Value.rule, if_true, hlookup, hpair]
          · refine .inr ⟨some plan, b.fields.zip vs, ?_, ?_, fun h => .inl (.branch hr hrhs hb ?_)⟩
            · simp only [YieldRule.descend, Value.rule, if_true, hlookup, hpair]
            · intro part hpart
              obtain ⟨hc, hw⟩ := List.of_mem_zip hpart
              exact ⟨List.mem_flatMap.mpr ⟨b, hb, hc⟩, hw⟩
            · exact List.forall₂_iff_zip.mpr ⟨hlen, fun hpart => h _ hpart⟩
      | _ => exact .inl (hrefused (if_pos hname))
  · rw [hget]
    exact .inl ⟨_, if_neg hname, fun rule heq => by cases heq⟩

/-- Values worked off one after another all look as demanded, or the first of them that
does not is the reason why nothing comes of them. -/
theorem walk_below_cases {E : RuleId × Value → TerminalizeError → Prop}
    {parts : List (RuleId × Value)}
    (h : ∀ part ∈ parts, (g.HasShape part.1 part.2 ∧ ∃ t, GivesBack a table place part t) ∨
      ∃ e, E part e ∧ Refuses table (place part.1) part.2 e) :
    (∀ part ∈ parts, g.HasShape part.1 part.2) ∨
      ∃ part ∈ parts, ∃ e, E part e ∧ ∀ steps done,
        walk table ((parts.map fun part => (place part.1, part.2)).map Step.below ++ steps) done =
          .error e := by
  induction parts with
  | nil => exact .inl fun part hpart => absurd hpart List.not_mem_nil
  | cons part parts ih =>
    obtain ⟨hpart, hparts⟩ := List.forall_mem_cons.mp h
    rcases hpart with ⟨hshape, t, ht⟩ | ⟨e, he, hrefuses⟩
    · rcases ih hparts with hall | ⟨part', hpart', e, he, hwalk⟩
      · exact .inl (List.forall_mem_cons.mpr ⟨hshape, hall⟩)
      · refine .inr ⟨part', List.mem_cons_of_mem _ hpart', e, he, fun steps done => ?_⟩
        exact (ht.walk _ _).trans (hwalk _ _)
    · exact .inr ⟨part, List.mem_cons_self, e, he, fun steps done => hrefuses _ _⟩

/-- A value either looks as a rule demands or is refused for it, as inconsistent only if
there is a literal in it that is not spelled. -/
theorem YieldRules.hasShape_or_refuses (hy : YieldRules g a ids table place) (hg : g.WellFormed)
    (ha : ∀ id r, g.get? id = some r → a.isNonempty id = true →
      r.rhs.vouches a.isNonempty = true) (v : Value) :
    ∀ id ∈ ids, g.HasShape id v ∨ ∃ e, Refuses table (place id) v e ∧
      ∀ rule, e = .inconsistent rule → g.Misspelled rule v := by
  induction v using Value.induction_children with
  | step v ih =>
    intro id hid
    obtain ⟨r, shape, hr, hget, hplanned⟩ := hy.rule id hid
    rcases descend_cases hy hid hr v with ⟨e, hdescend, he⟩ | ⟨plan, parts, hdescend, hmem, hshape⟩
    · exact .inr ⟨e, refuses_of_descend hdescend, fun rule heq => absurd heq (he rule)⟩
    · have hbelow : ∀ part ∈ parts,
          (g.HasShape part.1 part.2 ∧ ∃ t, GivesBack a table place part t) ∨
          ∃ e, (∀ rule, e = .inconsistent rule → g.Misspelled rule part.2) ∧
            Refuses table (place part.1) part.2 e := by
        intro part hpart
        obtain ⟨hc, hw⟩ := hmem part hpart
        have hcid := hy.closed id hid r hr part.1 hc
        rcases ih part.2 hw part.1 hcid with hpartShape | ⟨e, hrefuses, he⟩
        · exact .inl ⟨hpartShape,
            hy.exists_givesBack_of_hasShape hg ha part.2 part.1 hcid hpartShape⟩
        · exact .inr ⟨e, he, hrefuses⟩
      rcases walk_below_cases hbelow with hall | ⟨part, hpart, e, he, hwalk⟩
      · rcases hshape hall with hshape | ⟨literal, ts, hrhs, rfl, hspell⟩
        · exact .inl hshape
        · -- the literal is compared when the value is left
          refine .inr ⟨.inconsistent r.name, ?_, ?_⟩
          · rw [hrhs] at hplanned
            cases hplanned
            have hleaf : (table.get (place id)).descend (.series r.name ts) = .ok (none, []) := by
              rw [hget]
              exact if_pos rfl
            intro steps done
            rw [walk]
            split
            · next e herror => cases hleaf.symm.trans herror
            · next plan' below hok =>
              cases hleaf.symm.trans hok
              rw [List.map_nil, List.nil_append, walk, hget]
              simp only [YieldRule.ascend, YieldRule.combine, if_neg hspell]
          · intro rule heq
            cases heq
            exact ⟨id, r, literal, ts, hr, rfl, hrhs, .self, hspell⟩
      · have hmisspelled : ∀ rule, e = .inconsistent rule → g.Misspelled rule v :=
          fun rule heq => (he rule heq).below (hmem part hpart).2
        refine .inr ⟨e, fun steps done => ?_, hmisspelled⟩
        rw [walk]
        split
        · next e' herror => cases hdescend.symm.trans herror
        · next plan' below hok =>
          cases hdescend.symm.trans hok
          exact hwalk _ _

end Refuse

/-! ## The stack of results -/

namespace Terminalizer

/-- One step of the walk: what is pending and done before it and after it. -/
inductive Moves (table : YieldTable) :
    List Step × List Yield → List Step × List Yield → Prop where
  | enter {slot : Slot} {v : Value} {plan : Option (JoinPlan Slot)} {below : List (Slot × Value)}
      {steps : List Step} {done : List Yield}
      (h : (table.get slot).descend v = .ok (plan, below)) :
      Moves table (.enter slot v :: steps, done)
        (below.map Step.below ++ .leave slot v plan below.length :: steps, done)
  | leave {slot : Slot} {v : Value} {plan : Option (JoinPlan Slot)} {below : Nat}
      {steps : List Step} {done : List Yield} {out : Yield}
      (h : (table.get slot).ascend v plan (done.take below).reverse = .ok out) :
      Moves table (.leave slot v plan below :: steps, done) (steps, out :: done.drop below)

variable {table : YieldTable}

theorem walk_eq_of_moves {before after : List Step × List Yield} (h : Moves table before after) :
    walk table before.1 before.2 = walk table after.1 after.2 := by
  cases h with
  | enter hdescend =>
    rw [walk]
    split
    · next e herror => cases hdescend.symm.trans herror
    · next plan below hok =>
      cases hdescend.symm.trans hok
      rfl
  | leave hascend => rw [walk, hascend]

theorem walk_eq_of_reaches {before after : List Step × List Yield}
    (h : Relation.ReflTransGen (Moves table) before after) :
    walk table before.1 before.2 = walk table after.1 after.2 := by
  induction h with
  | refl => rfl
  | tail _ hmove ih => exact ih.trans (walk_eq_of_moves hmove)

/-- The walk takes one step after another until none is pending. -/
theorem walk_eq_ok_iff {steps : List Step} {done results : List Yield} :
    walk table steps done = .ok results ↔
      Relation.ReflTransGen (Moves table) (steps, done) ([], results) := by
  constructor
  · fun_induction walk table steps done with
    | case1 done =>
      intro h
      cases h
      exact .refl
    | case2 slot v steps done e hdescend =>
      intro h
      cases h
    | case3 slot v steps done plan below hdescend ih =>
      exact fun h => .head (.enter hdescend) (ih h)
    | case4 slot v plan below steps done e hascend =>
      intro h
      cases h
    | case5 slot v plan below steps done out hascend ih =>
      exact fun h => .head (.leave hascend) (ih h)
  · intro h
    exact (walk_eq_of_reaches h).trans (by rw [walk])

/-- The pending steps find the results that they take: leaving a value finds a result for
each value below it, and as many as its plan joins.  At the end there is one result. -/
def Supplied : List Step → Nat → Prop
  | [], count => count = 1
  | .enter _ _ :: steps, count => Supplied steps (count + 1)
  | .leave _ _ plan below :: steps, count =>
    below ≤ count ∧ (∀ p, plan = some p → p.arity = below) ∧ Supplied steps (count - below + 1)

theorem supplied_below_append {below : List (Slot × Value)} {steps : List Step} {count : Nat} :
    Supplied (below.map Step.below ++ steps) count ↔ Supplied steps (count + below.length) := by
  induction below generalizing count with
  | nil => rfl
  | cons part below ih =>
    rw [List.map_cons, List.cons_append, Step.below, Supplied, ih, List.length_cons,
      Nat.add_right_comm, Nat.add_assoc]

theorem length_of_pairFields {rule : String} {plan : JoinPlan Slot} {fields : List Value}
    {below : List (Slot × Value)} (h : YieldRule.pairFields rule plan fields = .ok below) :
    plan.arity = below.length := by
  unfold YieldRule.pairFields at h
  split at h
  · next harity =>
    cases h
    rw [List.length_zip, List.length_map, ← JoinPlan.arity_eq_length, harity, Nat.min_self]
  · cases h

/-- A plan that comes with the values below joins as many results as there are values. -/
theorem arity_of_descend {p : YieldRule Slot} {v : Value} {plan : JoinPlan Slot}
    {below : List (Slot × Value)} (h : p.descend v = .ok (some plan, below)) :
    plan.arity = below.length := by
  unfold YieldRule.descend at h
  dsimp only at h
  split at h
  · split at h
    case h_3 =>
      split at h
      · cases h
      · split at h
        · next hpair =>
          cases h
          exact length_of_pairFields hpair
        · cases h
    case h_4 =>
      split at h
      · next hpair =>
        cases h
        exact length_of_pairFields hpair
      · cases h
    all_goals cases h
  · cases h

/-- Every step leaves the pending steps supplied. -/
theorem Supplied.moves {before after : List Step × List Yield} (h : Moves table before after)
    (hsupplied : Supplied before.1 before.2.length) : Supplied after.1 after.2.length := by
  cases h with
  | enter hdescend =>
    refine supplied_below_append.mpr ⟨Nat.le_add_left _ _, ?_, ?_⟩
    · rintro p rfl
      exact arity_of_descend hdescend
    · rw [Nat.add_sub_cancel]
      exact hsupplied
  | leave hascend =>
    obtain ⟨-, -, hrest⟩ := hsupplied
    rwa [List.length_cons, List.length_drop]

/-- On the way from a single value the pending steps are always supplied. -/
theorem supplied_of_moves {slot : Slot} {v : Value} {state : List Step × List Yield}
    (h : Relation.ReflTransGen (Moves table) ([.enter slot v], []) state) :
    Supplied state.1 state.2.length := by
  induction h with
  | refl => exact rfl
  | tail _ hmove ih => exact ih.moves hmove

/-- A terminalizer gives back what its walk comes to, which is a single result. -/
theorem terminalize_eq_ok_iff {t : Terminalizer} {v : Value} {out : Yield} :
    t.terminalize v = .ok out ↔
      Relation.ReflTransGen (Moves t.table) ([.enter t.root v], []) ([], [out]) := by
  rw [← walk_eq_ok_iff]
  constructor
  · intro h
    unfold terminalize at h
    split at h
    · cases h
    · next out' rest hwalk =>
      cases h
      have hlen : (out :: rest).length = 1 := supplied_of_moves (walk_eq_ok_iff.mp hwalk)
      rw [hwalk, List.length_eq_zero_iff.mp (Nat.succ.inj hlen)]
    · cases h
  · intro h
    rw [terminalize, h]

/-! ## Exact terminalizers -/

/-- Every rule of a grammar has a terminalizer, and it takes exactly the values that look as
the rule demands, whatever their tokens are where the rule asks for a test.  It gives
back the tokens of the value, as a nonempty list exactly if the rule is classified as
nonempty.  It finds an inconsistency only where a literal is not spelled, and at every
step of its walk the results that the step takes are there. -/
theorem terminalize_iff_hasShape {g : Grammar} {root : RuleId} (hg : g.Built)
    (hroot : g.contains root = true) :
    ∃ t, compile (Signature.ofGrammar g) g root = .ok t ∧ ∀ v,
      ((∃ out, t.terminalize v = .ok out) ↔ g.HasShape root v) ∧
      (∀ out, t.terminalize v = .ok out → out.toList = v.leaves ∧
        out.isNonempty = (NonEmptiness.analyze g).isNonempty root) ∧
      (∀ rule, t.terminalize v = .error (.inconsistent rule) → g.Misspelled rule v) ∧
      (∀ out, t.terminalize v = .ok out ↔
        Relation.ReflTransGen (Moves t.table) ([.enter t.root v], []) ([], [out])) ∧
      ∀ steps done, Relation.ReflTransGen (Moves t.table) ([.enter t.root v], []) (steps, done) →
        (steps = [] → done.length = 1) ∧
        ∀ slot w plan below rest, steps = .leave slot w plan below :: rest →
          below ≤ done.length ∧ ∀ p, plan = some p → p.arity = below := by
  have hwf := hg.wellFormed
  obtain ⟨t, ht⟩ := exists_compile hwf hroot
  obtain ⟨place, hy, hplace⟩ := compile_spec hwf hroot ht
  have hmem : root ∈ g.reachable [root] :=
    Grammar.mem_reachable_root (List.mem_singleton_self _) hroot
  have htakes := fun v => exists_terminalize (v := v) hwf hroot ht
  have hrefuses : ∀ v, g.HasShape root v ∨ ∃ e, t.terminalize v = .error e ∧
      ∀ rule, e = .inconsistent rule → g.Misspelled rule v := by
    intro v
    rcases hy.hasShape_or_refuses hwf (fun id r hr h => NonEmptiness.vouches_of_isNonempty hr h)
      v root hmem with hshape | ⟨e, hrefuses, he⟩
    · exact .inl hshape
    · exact .inr ⟨e, by rw [terminalize, hplace, hrefuses], he⟩
  refine ⟨t, ht, fun v => ⟨⟨?_, ?_⟩, ?_, ?_, fun out => terminalize_eq_ok_iff, ?_⟩⟩
  · rintro ⟨out, hout⟩
    rcases hrefuses v with hshape | ⟨e, herror, -⟩
    · exact hshape
    · cases hout.symm.trans herror
  · intro hshape
    obtain ⟨out, hout, -⟩ := htakes v hshape
    exact ⟨out, hout⟩
  · intro out hout
    rcases hrefuses v with hshape | ⟨e, herror, -⟩
    · obtain ⟨out', hout', htokens, hnonempty⟩ := htakes v hshape
      cases hout.symm.trans hout'
      exact ⟨htokens, hnonempty⟩
    · cases hout.symm.trans herror
  · intro rule herror
    rcases hrefuses v with hshape | ⟨e, herror', he⟩
    · obtain ⟨out, hout, -⟩ := htakes v hshape
      cases hout.symm.trans herror
    · cases herror.symm.trans herror'
      exact he rule rfl
  · intro steps done hmoves
    have hsupplied := supplied_of_moves hmoves
    refine ⟨?_, ?_⟩
    · rintro rfl
      exact hsupplied
    · rintro slot w plan below rest rfl
      exact ⟨hsupplied.1, hsupplied.2.1⟩

/-- Any number of words, in pairs of pairs. -/
def words : Grammar := ⟨#[
  ⟨"s", none, .choice [⟨"Both", [⟨0⟩, ⟨0⟩]⟩, ⟨"Word", [⟨1⟩]⟩, ⟨"None", []⟩]⟩,
  ⟨"word", none, .series "ab"⟩]⟩

/-- A pair needs two fields, and a word its letters. -/
theorem terminalize_iff_hasShape_words :
    Grammar.parse "s = Both: s s | Word: word | None: ; word = \"ab\" ;" = .ok words ∧
      ¬ words.HasShape ⟨0⟩ (.branch "s" "Both" [.branch "s" "None" []]) ∧
      words.HasShape ⟨0⟩ (.branch "s" "Both" [.branch "s" "None" [], .branch "s" "None" []]) ∧
      words.Misspelled "word" (.branch "s" "Word" [.series "word" (Token.stream "ba")]) := by
  have hwords : Grammar.parse "s = Both: s s | Word: word | None: ; word = \"ab\" ;" =
      .ok words := by
    cbv
  have hroot : words.contains ⟨0⟩ = true := by decide
  obtain ⟨t, ht, hexact⟩ := terminalize_iff_hasShape (Grammar.built_of_parse hwords) hroot
  have hruns : (compile (Signature.ofGrammar words) words ⟨0⟩).toOption.map (fun t =>
      ((t.terminalize (.branch "s" "Both" [.branch "s" "None" []])).isOk,
        (t.terminalize
          (.branch "s" "Both" [.branch "s" "None" [], .branch "s" "None" []])).isOk,
        t.terminalize (.branch "s" "Word" [.series "word" (Token.stream "ba")]))) =
      some (false, true, .error (.inconsistent "word")) := by
    cbv
  rw [ht] at hruns
  obtain ⟨hshort, hrest⟩ := Prod.mk.inj (Option.some.inj hruns)
  obtain ⟨hpair, hmisspelled⟩ := Prod.mk.inj hrest
  refine ⟨hwords, fun hshape => ?_, (hexact _).1.mp (exists_ok_of_isOk hpair),
    (hexact _).2.2.1 "word" hmisspelled⟩
  obtain ⟨out, hout⟩ := (hexact _).1.mpr hshape
  rw [hout] at hshort
  cases hshort

end Terminalizer

end ChartGrammar
