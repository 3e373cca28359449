/-
  Proofs/Terminalizing.lean --- values of the right shape give back their tokens.

  The walk of a terminalizer works off a value by working off the values below it
  and joining what they gave.  On a value that looks as its rule demands this always
  succeeds, gives exactly the tokens that the value holds, and gives them as a
  nonempty list if and only if the rule is classified as nonempty.
-/
import ChartGrammar.Proofs.Conformance
import ChartGrammar.Proofs.NonEmptiness
import ChartGrammar.Proofs.YieldTable

set_option autoImplicit false

namespace ChartGrammar

/-! ## Joining -/

namespace JoinPlan

variable {ρ : Type} {rule : String} {ps : List (Part ρ)} {nonempty : Bool} {plan : JoinPlan ρ}

/-- A plan has the parts that it was made of, in order. -/
theorem parts_of_make (h : make rule ps nonempty = .ok plan) : plan.parts = ps := by
  unfold make at h
  split at h
  · split at h
    · next p after hdrop =>
      cases h
      rw [parts, ← hdrop, List.takeWhile_append_dropWhile]
    · cases h
  · cases h
    rfl

theorem arity_eq_length (plan : JoinPlan ρ) : plan.arity = plan.parts.length := by
  cases plan with
  | flat ps => rfl
  | pivot before p after =>
    rw [arity, parts, List.length_append, List.length_cons]
    omega

/-- Joining by a plan keeps all tokens in order, and the result is nonempty if the plan
was made to be. -/
theorem exists_join_of_make (h : make rule ps nonempty = .ok plan) {results : List Yield}
    (hflags : List.Forall₂ (fun p t => t.isNonempty = p.nonempty) ps results) :
    ∃ out, plan.join results = some out ∧ out.toList = results.flatMap Yield.toList ∧
      out.isNonempty = nonempty := by
  unfold make at h
  split at h
  · next hnonempty =>
    split at h
    · next p after hdrop =>
      cases h
      have hps : ps.takeWhile (fun p => !p.nonempty) ++ p :: after = ps := by
        rw [← hdrop, List.takeWhile_append_dropWhile]
      have hp : p.nonempty = true := by simpa using (dropWhile_eq_cons ps hdrop).1
      generalize ps.takeWhile (fun p => !p.nonempty) = before at hps
      have hrest := List.forall₂_drop_append results before (p :: after) (hps ▸ hflags).flip
      have hsplit := List.take_append_drop before.length results
      rw [join]
      cases hdropped : results.drop before.length with
      | nil =>
        rw [hdropped] at hrest
        cases hrest
      | cons t after' =>
        rw [hdropped] at hrest hsplit
        obtain ⟨ht, -⟩ := List.forall₂_cons.mp hrest
        cases t with
        | possiblyEmpty ts =>
          rw [hp] at ht
          cases ht
        | nonempty ts =>
          refine ⟨_, rfl, ?_, hnonempty.symm⟩
          have hall : results.flatMap Yield.toList =
              (results.take before.length).flatMap Yield.toList ++
                (ts.toList ++ after'.flatMap Yield.toList) := by
            conv_lhs => rw [← hsplit]
            rw [List.flatMap_append, List.flatMap_cons, Yield.toList]
          rw [hall]
          simp only [Yield.toList, NonEmptyList.toList_append, NonEmptyList.toList_prepend,
            Yield.flatten_eq_flatMap, List.append_assoc]
    · cases h
  · next hnonempty =>
    cases h
    refine ⟨.possiblyEmpty (Yield.flatten results), rfl, Yield.flatten_eq_flatMap results, ?_⟩
    simpa [Yield.isNonempty] using hnonempty

end JoinPlan

/-! ## Working off a value -/

namespace YieldRule

/-- A result that keeps the promise of its rule is given back with the same tokens, and as
a nonempty list exactly if the rule promises one. -/
theorem exists_ascend {p : YieldRule Slot} {v : Value} {plan : Option (JoinPlan Slot)}
    {results : List Yield} {out : Yield} (hcombine : p.combine v plan results = some out)
    (hpromise : p.nonempty = true → out.isNonempty = true) :
    ∃ t, p.ascend v plan results = .ok t ∧ t.toList = out.toList ∧
      t.isNonempty = p.nonempty := by
  unfold ascend
  rw [hcombine]
  cases hflag : p.nonempty with
  | false => exact ⟨out.widen, rfl, rfl, rfl⟩
  | true =>
    have hout := hpromise hflag
    exact ⟨out, by simp only [hout, if_true], rfl, hout⟩

theorem pairFields_eq_ok {rule : String} {plan : JoinPlan Slot} {parts : List (Part Slot)}
    {fields : List Value} (hparts : plan.parts = parts) (hlen : parts.length = fields.length) :
    pairFields rule plan fields = .ok ((parts.map Part.target).zip fields) := by
  unfold pairFields
  rw [if_pos (by rw [JoinPlan.arity_eq_length, hparts, hlen]), hparts]

end YieldRule

section Walk

open Terminalizer

variable {g : Grammar} {a : NonEmptiness} {ids : List RuleId} {table : YieldTable}
  {place : RuleId → Slot}

/-- What working off a value of a rule gives: the tokens of the value, as the rule
promises. -/
structure GivesBack (a : NonEmptiness) (table : YieldTable) (place : RuleId → Slot)
    (part : RuleId × Value) (t : Yield) : Prop where
  tokens : t.toList = part.2.leaves
  promise : t.isNonempty = a.isNonempty part.1
  walk : ∀ steps done, walk table (.enter (place part.1) part.2 :: steps) done =
    walk table steps (t :: done)

/-- Values worked off one after another leave their results on the stack, the latest
first. -/
theorem walk_below {parts : List (RuleId × Value)} {ts : List Yield}
    (h : List.Forall₂ (GivesBack a table place) parts ts) :
    ∀ steps done,
      walk table ((parts.map fun part => (place part.1, part.2)).map Step.below ++ steps) done =
        walk table steps (ts.reverse ++ done) := by
  induction h with
  | nil => exact fun _ _ => rfl
  | cons hp _ ih =>
    intro steps done
    rw [List.map_cons, List.map_cons, List.cons_append, Step.below, hp.walk, ih, List.reverse_cons,
      List.append_assoc, List.singleton_append]

theorem flatten_eq_leavesAll {parts : List (RuleId × Value)} {ts : List Yield}
    (h : List.Forall₂ (GivesBack a table place) parts ts) :
    ts.flatMap Yield.toList = Value.leavesAll (parts.map Prod.snd) := by
  induction h with
  | nil => rfl
  | cons hp _ ih =>
    rw [List.flatMap_cons, ih, List.map_cons, Value.leavesAll, hp.tokens]

theorem flatten_eq_of_items {inner : RuleId} {vs : List Value} {ts : List Yield}
    (h : List.Forall₂ (GivesBack a table place) (vs.map (inner, ·)) ts) :
    Yield.flatten ts = Value.leavesAll vs := by
  rw [Yield.flatten_eq_flatMap, flatten_eq_leavesAll h, List.map_map]
  exact congrArg Value.leavesAll (List.map_id vs)

/-- A value is worked off by working off the values below it and joining their results. -/
theorem exists_givesBack {id : RuleId} {v : Value} {plan : Option (JoinPlan Slot)}
    {parts : List (RuleId × Value)} {ts : List Yield} {out : Yield}
    (hdescend : (table.get (place id)).descend v =
      .ok (plan, parts.map fun part => (place part.1, part.2)))
    (hbelow : List.Forall₂ (GivesBack a table place) parts ts)
    (hcombine : (table.get (place id)).combine v plan ts = some out)
    (hflag : (table.get (place id)).nonempty = a.isNonempty id)
    (hpromise : a.isNonempty id = true → out.isNonempty = true)
    (hleaves : out.toList = v.leaves) : ∃ t, GivesBack a table place (id, v) t := by
  obtain ⟨t, hascend, htokens, hnonempty⟩ :=
    YieldRule.exists_ascend hcombine (hflag ▸ hpromise)
  refine ⟨t, htokens.trans hleaves, hnonempty.trans hflag, fun steps done => ?_⟩
  have hlen : (parts.map fun part => (place part.1, part.2)).length = ts.reverse.length := by
    rw [List.length_map, List.length_reverse, hbelow.length_eq]
  rw [Terminalizer.walk]
  split
  · next e herror =>
    rw [hdescend] at herror
    cases herror
  · next plan' below hok =>
    rw [hdescend] at hok
    cases hok
    rw [walk_below hbelow, Terminalizer.walk, hlen, List.take_left, List.drop_left,
      List.reverse_reverse, hascend]

/-- The fields of a product are paired with their slots, and their results are joined by
the plan that was made for them. -/
theorem exists_join_fields {name : String} {fields : List RuleId} {vs : List Value}
    {nonempty : Bool} {plan : JoinPlan Slot} {ts : List Yield}
    (hmake : JoinPlan.make name (fields.map fun c => ⟨place c, a.isNonempty c⟩) nonempty =
      .ok plan)
    (hlen : fields.length = vs.length)
    (hts : List.Forall₂ (GivesBack a table place) (fields.zip vs) ts) :
    YieldRule.pairFields name plan vs =
        .ok ((fields.zip vs).map fun part => (place part.1, part.2)) ∧
      ∃ out, plan.join ts = some out ∧ out.toList = Value.leavesAll vs ∧
        out.isNonempty = nonempty := by
  have hfst : (fields.zip vs).map Prod.fst = fields := List.map_fst_zip (Nat.le_of_eq hlen)
  have hsnd : (fields.zip vs).map Prod.snd = vs := List.map_snd_zip (Nat.le_of_eq hlen.symm)
  have hflags : List.Forall₂ (fun p t => t.isNonempty = p.nonempty)
      (fields.map fun c => (⟨place c, a.isNonempty c⟩ : Part Slot)) ts := by
    rw [← hfst, List.map_map, List.forall₂_map_left_iff]
    exact hts.imp fun part t h => h.promise
  refine ⟨?_, ?_⟩
  · rw [YieldRule.pairFields_eq_ok (JoinPlan.parts_of_make hmake) (by rw [List.length_map, hlen]),
      List.map_map, List.zip_map_left]
    rfl
  · obtain ⟨out, hjoin, htokens, hnonempty⟩ := JoinPlan.exists_join_of_make hmake hflags
    refine ⟨out, hjoin, ?_, hnonempty⟩
    rw [htokens, flatten_eq_leavesAll hts, hsnd]

/-- The plan of a branch is found under its label. -/
theorem lookup_branch {name : String} {part : RuleId → Part Slot} {nonempty : Bool}
    {branches : List (Branch RuleId)} {plans : List (String × JoinPlan Slot)}
    (hplans : List.Forall₂ (fun b e => e.1 = b.label ∧
      JoinPlan.make name (b.fields.map part) nonempty = .ok e.2) branches plans)
    (hnodup : (branches.map Branch.label).Nodup) {b : Branch RuleId} (hb : b ∈ branches) :
    ∃ plan, plans.lookup b.label = some plan ∧
      JoinPlan.make name (b.fields.map part) nonempty = .ok plan := by
  induction hplans with
  | nil => cases hb
  | @cons b' e bs es he _ ih =>
    obtain ⟨hnotin, hnodup⟩ := List.nodup_cons.mp hnodup
    obtain ⟨label, plan⟩ := e
    have hlabel : label = b'.label := he.1
    rw [List.lookup_cons]
    rcases List.mem_cons.mp hb with rfl | hb
    · exact ⟨plan, by rw [hlabel, beq_self_eq_true], he.2⟩
    · have hne : (b.label == label) = false := by
        rw [beq_eq_false_iff_ne, hlabel]
        intro heq
        exact hnotin (heq ▸ List.mem_map_of_mem hb)
      rw [hne]
      exact ih hnodup hb

end Walk

namespace YieldRules

variable {g : Grammar} {a : NonEmptiness} {ids : List RuleId} {table : YieldTable}
  {place : RuleId → Slot}

/-- A value that looks as a rule demands is worked off, whatever its tokens are. -/
theorem exists_givesBack_of_hasShape (hy : YieldRules g a ids table place) (hg : g.WellFormed)
    (ha : ∀ id r, g.get? id = some r → a.isNonempty id = true →
      r.rhs.vouches a.isNonempty = true) (v : Value) :
    ∀ id ∈ ids, g.HasShape id v → ∃ t, GivesBack a table place (id, v) t := by
  induction v using Value.induction_children with
  | step v ih =>
    intro id hid hshape
    obtain ⟨r, shape, hr, hget, hplanned⟩ := hy.rule id hid
    have hflag : (table.get (place id)).nonempty = a.isNonempty id := by rw [hget]
    have hchild : ∀ c ∈ r.rhs.children, ∀ w ∈ v.children, g.HasShape c w →
        ∃ t, GivesBack a table place (c, w) t :=
      fun c hc w hw => ih w hw c (hy.closed id hid r hr c hc)
    have hfields : ∀ fields : List RuleId, (∀ c ∈ fields, c ∈ r.rhs.children) →
        List.Forall₂ g.HasShape fields v.children →
        ∃ ts, List.Forall₂ (GivesBack a table place) (fields.zip v.children) ts := by
      intro fields hsub hvs
      refine exists_forall₂ fun part hpart => ?_
      obtain ⟨hc, hw⟩ := List.of_mem_zip hpart
      exact hchild part.1 (hsub _ hc) part.2 hw ((List.forall₂_iff_zip.mp hvs).2 hpart)
    have hitems : ∀ inner ∈ r.rhs.children, ∀ vs : List Value, vs ⊆ v.children →
        (∀ w ∈ vs, g.HasShape inner w) →
        ∃ ts, List.Forall₂ (GivesBack a table place) (vs.map (inner, ·)) ts := by
      intro inner hinner vs hsub hvs
      refine exists_forall₂ fun part hpart => ?_
      obtain ⟨w, hw, rfl⟩ := List.mem_map.mp hpart
      exact hchild inner hinner w (hsub hw) (hvs w hw)
    have hvouches := ha id r hr
    cases hshape with
    | @terminal _ _ _ t hr' hrhs _ =>
      cases hr.symm.trans hr'
      rw [hrhs] at hplanned
      cases hplanned
      have hdescend : (table.get (place id)).descend (.terminal r.name t) = .ok (none, []) := by
        rw [hget]
        exact if_pos rfl
      exact exists_givesBack hdescend .nil (by rw [hget]; rfl) hflag (fun _ => rfl) rfl
    | @series _ _ literal ts hr' hrhs hts =>
      cases hr.symm.trans hr'
      rw [hrhs] at hplanned
      cases hplanned
      have hdescend : (table.get (place id)).descend (.series r.name ts) = .ok (none, []) := by
        rw [hget]
        exact if_pos rfl
      -- a literal is never empty, so neither are the tokens that spell it
      have hliteral := (hg.rules r (Grammar.mem_of_get? hr)).literal_ne hrhs
      cases ts with
      | nil => exact absurd (String.toList_eq_nil_iff.mp hts.symm) hliteral
      | cons t ts =>
        have hcombine : (table.get (place id)).combine (.series r.name (t :: ts)) none [] =
            some (.nonempty ⟨t, ts⟩) := by
          rw [hget]
          exact if_pos hts
        exact exists_givesBack hdescend .nil hcombine hflag (fun _ => rfl) rfl
    | @branch _ _ branches b vs hr' hrhs hb hvs =>
      cases hr.symm.trans hr'
      rw [hrhs] at hplanned
      obtain ⟨plans, rfl⟩ : ∃ plans, shape = .choice plans := by
        cases hplanned
        exact ⟨_, rfl⟩
      cases hplanned with
      | choice hplans =>
        have hnodup := (hg.rules r (Grammar.mem_of_get? hr)).labels_nodup hrhs
        obtain ⟨plan, hlookup, hmake⟩ := lookup_branch hplans hnodup hb
        have hsub : ∀ c ∈ b.fields, c ∈ r.rhs.children := by
          intro c hc
          rw [hrhs]
          exact List.mem_flatMap.mpr ⟨b, hb, hc⟩
        obtain ⟨ts, hts⟩ := hfields b.fields hsub hvs
        obtain ⟨hpair, out, hjoin, htokens, hnonempty⟩ :=
          exists_join_fields hmake hvs.length_eq hts
        have hdescend : (table.get (place id)).descend (.branch r.name b.label vs) =
            .ok (some plan, (b.fields.zip vs).map fun part => (place part.1, part.2)) := by
          simp only [hget, YieldRule.descend, Value.rule, if_true, hlookup, hpair]
        exact exists_givesBack hdescend hts hjoin hflag (fun h => hnonempty.trans h) htokens
    | @record _ _ fields vs hr' hrhs hvs =>
      cases hr.symm.trans hr'
      rw [hrhs] at hplanned
      cases hplanned with
      | @record _ plan hmake =>
        obtain ⟨ts, hts⟩ := hfields fields (fun c hc => by rw [hrhs]; exact hc) hvs
        obtain ⟨hpair, out, hjoin, htokens, hnonempty⟩ :=
          exists_join_fields hmake hvs.length_eq hts
        have hdescend : (table.get (place id)).descend (.record r.name vs) =
            .ok (some plan, (fields.zip vs).map fun part => (place part.1, part.2)) := by
          simp only [hget, YieldRule.descend, Value.rule, if_true, hpair]
        exact exists_givesBack hdescend hts hjoin hflag (fun h => hnonempty.trans h) htokens
    | @wrap _ inner _ w hr' hrhs hw =>
      cases hr.symm.trans hr'
      obtain ⟨t, ht⟩ := hchild inner (by rw [hrhs]; exact List.mem_singleton_self _) w
        (List.mem_singleton_self _) hw
      rw [hrhs] at hplanned hvouches
      cases hplanned
      have hdescend : (table.get (place id)).descend (.wrap r.name w) =
          .ok (none, [(inner, w)].map fun part => (place part.1, part.2)) := by
        rw [hget]
        exact if_pos rfl
      exact exists_givesBack hdescend (.cons ht .nil) (by rw [hget]; rfl) hflag
        (fun h => ht.promise.trans (hvouches h)) ht.tokens
    | @absent _ inner _ hr' hrhs =>
      cases hr.symm.trans hr'
      rw [hrhs] at hplanned hvouches
      cases hplanned
      have hdescend : (table.get (place id)).descend (.opt r.name none) = .ok (none, []) := by
        rw [hget]
        exact if_pos rfl
      exact exists_givesBack hdescend .nil (by rw [hget]; rfl) hflag
        (fun h => absurd (hvouches h) Bool.false_ne_true) rfl
    | @present _ inner _ w hr' hrhs hw =>
      cases hr.symm.trans hr'
      obtain ⟨t, ht⟩ := hchild inner (by rw [hrhs]; exact List.mem_singleton_self _) w
        (List.mem_singleton_self _) hw
      rw [hrhs] at hplanned hvouches
      cases hplanned
      have hdescend : (table.get (place id)).descend (.opt r.name (some w)) =
          .ok (none, [(inner, w)].map fun part => (place part.1, part.2)) := by
        rw [hget]
        exact if_pos rfl
      exact exists_givesBack hdescend (.cons ht .nil) (by rw [hget]; rfl) hflag
        (fun h => absurd (hvouches h) Bool.false_ne_true) ht.tokens
    | @star _ inner _ vs hr' hrhs hvs =>
      cases hr.symm.trans hr'
      obtain ⟨ts, hts⟩ := hitems inner (by rw [hrhs]; exact List.mem_singleton_self _) vs
        (List.Subset.refl vs) hvs
      rw [hrhs] at hplanned hvouches
      cases hplanned
      have hdescend : (table.get (place id)).descend (.star r.name vs) =
          .ok (none, (vs.map (inner, ·)).map fun part => (place part.1, part.2)) := by
        rw [hget, List.map_map]
        exact if_pos rfl
      refine exists_givesBack hdescend hts (by rw [hget]; rfl) hflag
        (fun h => absurd (hvouches h) Bool.false_ne_true) ?_
      rw [Yield.toList, flatten_eq_of_items hts, Value.leaves]
    | @plus _ inner _ w ws hr' hrhs hw hws =>
      cases hr.symm.trans hr'
      have hinner : inner ∈ r.rhs.children := by
        rw [hrhs]
        exact List.mem_singleton_self _
      obtain ⟨t, ht⟩ := hchild inner hinner w List.mem_cons_self hw
      obtain ⟨ts, hts⟩ := hitems inner hinner ws (List.subset_cons_self w ws) hws
      rw [hrhs] at hplanned hvouches
      cases hplanned
      have hdescend : (table.get (place id)).descend (.plus r.name w ws) =
          .ok (none, ((w :: ws).map (inner, ·)).map fun part => (place part.1, part.2)) := by
        rw [hget, List.map_map]
        exact if_pos rfl
      have hrest := flatten_eq_of_items hts
      have htokens := ht.tokens
      have hpromise := ht.promise
      cases t with
      | nonempty head =>
        refine exists_givesBack hdescend (.cons ht hts) (by rw [hget]; rfl) hflag
          (fun _ => rfl) ?_
        rw [Yield.toList, NonEmptyList.toList_append, hrest, Value.leaves]
        exact congrArg (· ++ _) htokens
      | possiblyEmpty head =>
        refine exists_givesBack hdescend (.cons ht hts) (by rw [hget]; rfl) hflag
          (fun h => absurd (hpromise.trans (hvouches h)) Bool.false_ne_true) ?_
        rw [Yield.toList, hrest, Value.leaves]
        exact congrArg (· ++ _) htokens

end YieldRules

/-- A terminalizer gives back the tokens of every value that looks as its rule demands, as
a nonempty list exactly if the rule is classified as nonempty. -/
theorem Terminalizer.exists_terminalize {g : Grammar} {sig : Signature} {root : RuleId}
    {t : Terminalizer} {v : Value} (hg : g.WellFormed) (hroot : g.contains root = true)
    (ht : Terminalizer.compile sig g root = .ok t) (hv : g.HasShape root v) :
    ∃ out, t.terminalize v = .ok out ∧ out.toList = v.leaves ∧
      out.isNonempty = (NonEmptiness.analyze g).isNonempty root := by
  obtain ⟨place, hy, hplace⟩ := Terminalizer.compile_spec hg hroot ht
  have hmem : root ∈ g.reachable [root] :=
    Grammar.mem_reachable_root (List.mem_singleton_self _) hroot
  obtain ⟨out, hout⟩ := hy.exists_givesBack_of_hasShape hg
    (fun id r hr h => NonEmptiness.vouches_of_isNonempty hr h) v root hmem hv
  refine ⟨out, ?_, hout.tokens, hout.promise⟩
  rw [terminalize, hplace, hout.walk, walk]

end ChartGrammar
