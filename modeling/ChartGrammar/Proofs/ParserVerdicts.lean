/-
  Proofs/ParserVerdicts.lean --- what a compiled parser answers.

  A parser can fail in many ways: a handle without a rule, a constructor that does not fit,
  a root that finds something other than a node.  Compiled rules have kinds, so none of
  this happens to them: a run that ends gives a value of the root, or the chart reports what
  was expected furthest into the input.  What is left is a run without an end.
-/
import Mathlib
import ChartGrammar.Proofs.CompiledProduct

set_option autoImplicit false

namespace ChartGrammar

open ChartM

/-- A value carries the name of its rule. -/
theorem Grammar.Conforms.rule_eq {g : Grammar} {ok : Predicate → Char → Prop} {id : RuleId}
    {v : Value} (h : g.Conforms ok id v) : v.rule = g.nameOf id := by
  cases h <;> simp [Value.rule, Grammar.nameOf, *]

namespace Registry

variable {rules : Registry} {root : Handle} {name : String} {tokens : List Token}

/-- A run of the rule ends, given enough fuel. -/
def Ends (rules : Registry) (root : Handle) (tokens : List Token) : Prop :=
  ∃ fuel report, rules.run? fuel root tokens = some report

/-- The rule answers with a value that carries the name, or with the report of the chart that
its run leaves. -/
def GivesOrReports (rules : Registry) (root : Handle) (name : String) (tokens : List Token) :
    Prop :=
  (∃ v, rules.parse root tokens = .ok v ∧ v.rule = name) ∨
    ∃ results c, rules.Runs root tokens results c ∧
      rules.parse root tokens = .error (c.report tokens.toArray)

/-- A chart reports what was expected and what was found instead. -/
theorem report_eq_unexpected (c : Chart) (input : Array Token) :
    ∃ position found expected, c.report input = .unexpected position found expected := by
  unfold Chart.report
  dsimp only
  split
  · exact ⟨_, _, _, rfl⟩
  · exact ⟨_, _, _, rfl⟩

/-- A run that ends does so on the fuel for its input, and the chart that it leaves decides
the parse. -/
theorem Ends.exists_runs (h : rules.Ends root tokens) (hroot : root.index < rules.size)
    (hdefined : rules.firstUndefined? = none) :
    ∃ results c, rules.Runs root tokens results c ∧
      rules.parse root tokens = c.conclude tokens.toArray results := by
  obtain ⟨fuel, report, hrun⟩ := h
  have hrun : rules.run? (rules.fuelFor tokens.length) root tokens = some report :=
    run?_of_fuel (Nat.min_le_right _ _) hrun
  rw [parse_of_run? hrun]
  rw [run?, if_pos hroot, hdefined] at hrun
  dsimp only at hrun
  split at hrun
  · next results c hcall =>
    cases hrun
    exact ⟨results, c, hcall, rfl⟩
  · cases hrun

theorem parse_of_not_ends (h : ¬ rules.Ends root tokens) :
    rules.parse root tokens = .error .unsettled := by
  refine parse_of_endless fun fuel => Option.eq_none_iff_forall_ne_some.mpr fun report hrun => ?_
  exact h ⟨fuel, report, hrun⟩

/-- A rule that answers ends. -/
theorem GivesOrReports.ends (h : rules.GivesOrReports root name tokens) :
    rules.Ends root tokens := by
  by_contra hends
  have hunsettled := parse_of_not_ends hends
  rcases h with ⟨v, hv, -⟩ | ⟨results, c, -, hreport⟩
  · rw [hunsettled] at hv
    cases hv
  · obtain ⟨position, found, expected, heq⟩ := report_eq_unexpected c tokens.toArray
    rw [hunsettled, heq] at hreport
    cases hreport

end Registry

/-- A compiled rule whose run ends gives a value or reports. -/
theorem CompiledRules.givesOrReports {g : Grammar} {ids : List RuleId} {rules : Registry}
    {place : RuleId → Handle} (hc : CompiledRules g ids rules place) (hg : g.WellFormed)
    {id : RuleId} (hid : id ∈ ids) {tokens : List Token} (hends : rules.Ends (place id) tokens) :
    rules.GivesOrReports (place id) (g.nameOf id) tokens := by
  obtain ⟨r, list, -, hbody, -⟩ := hc.body id hid
  obtain ⟨results, c, hruns, hparse⟩ :=
    hends.exists_runs (Registry.index_lt_of_get? hbody) hc.defined
  obtain ⟨hκ, hnode⟩ := hc.kinded hg
  by_cases hreach : results.Reach tokens.length
  · obtain ⟨v, hv⟩ := hruns.exists_parse hκ (hnode id hid) hc.defined hbody hreach
    exact .inl ⟨v, hv, (hc.parse_rule_sound hg hid hv).1.rule_eq⟩
  · have hnone : results.find? (fun r => r.1 == tokens.toArray.size) = none := by
      refine List.find?_eq_none.mpr fun r hr hend => hreach ⟨r.2, ?_⟩
      rw [beq_iff_eq, List.size_toArray] at hend
      rwa [← hend]
    refine .inr ⟨results, c, hruns, ?_⟩
    rw [hparse, Chart.conclude, (hruns.kinded hκ).1.mismatch]
    dsimp only
    rw [hnone]

/-- A compiled parser, and a compiled product under each of its labels, gives a value of the
rule or reports what was expected, exactly if the run ends; and a run that does not end on any
fuel is left unsettled. -/
theorem Parser.givesOrReports_iff_ends {g : Grammar} (hg : g.Built) :
    (∀ sig root p, Parser.compile sig g root = .ok p → ∀ tokens,
      (p.rules.GivesOrReports p.root (g.nameOf root) tokens ↔ p.rules.Ends p.root tokens) ∧
      (¬ p.rules.Ends p.root tokens → p.parse tokens = .error .unsettled)) ∧
    ∀ sig label roots q, Product.compile sig label g roots = .ok q →
      ∀ id ∈ g.reachable roots, ∃ root, q.get? (label (g.nameOf id)) = some root ∧ ∀ tokens,
        (q.rules.GivesOrReports root (g.nameOf id) tokens ↔ q.rules.Ends root tokens) ∧
        (¬ q.rules.Ends root tokens → q.rules.parse root tokens = .error .unsettled) := by
  have hg := hg.wellFormed
  refine ⟨fun sig root p hp tokens => ?_, fun sig label roots q hq id hid => ?_⟩
  · obtain ⟨place, hc, hroot, hmem, -⟩ := compile_spec hg hp
    rw [Parser.parse, hroot]
    exact ⟨⟨Registry.GivesOrReports.ends, hc.givesOrReports hg hmem⟩, Registry.parse_of_not_ends⟩
  · obtain ⟨place, hc, -, hplace⟩ := Product.compile_spec hg hq
    refine ⟨place id, (hplace id hid).1, fun tokens => ?_⟩
    exact ⟨⟨Registry.GivesOrReports.ends, hc.givesOrReports hg hid⟩, Registry.parse_of_not_ends⟩

/-- The sum ends in a sign: its run ends, so the parser reports what could follow. -/
theorem Parser.givesOrReports_iff_ends_sums :
    ∃ p, Parser.compile (Signature.ofGrammar Grammar.sums) Grammar.sums ⟨0⟩ = .ok p ∧
      p.rules.Ends p.root (Token.stream "1+") ∧
      p.rules.GivesOrReports p.root "sum" (Token.stream "1+") := by
  have hsome : (Parser.compile (Signature.ofGrammar Grammar.sums) Grammar.sums ⟨0⟩).toOption.any
      (fun p => (p.rules.run? 8 p.root (Token.stream "1+")).isSome) = true := by
    cbv
  obtain ⟨p, hp, hsome⟩ := exists_ok_of_any hsome
  obtain ⟨report, hrun⟩ := Option.isSome_iff_exists.mp hsome
  have hends : p.rules.Ends p.root (Token.stream "1+") := ⟨8, report, hrun⟩
  have hg := Grammar.built_of_parse Grammar.parse_sums
  exact ⟨p, hp, hends,
    ((Parser.givesOrReports_iff_ends hg).1 _ _ p hp (Token.stream "1+")).1.mpr hends⟩

/-! ## Runs without end -/

/-- Whether the rounds of a rule come back to a chart that looks like an earlier one: after `i`
rounds, and after `j + 1` rounds more. -/
def Registry.comesBack (rules : Registry) (root : Handle) (tokens : List Token)
    (fuel i j : Nat) : Bool :=
  match rules.get? root with
  | none => false
  | some body =>
    let round := growRound ⟨root, 0⟩
      (evalBody tokens.toArray (call rules tokens.toArray fuel) root body 0)
    match (repeatUpTo round i).run (Chart.enter {} ⟨root, 0⟩) with
    | some (none, c) =>
      match (repeatUpTo round (j + 1)).run c with
      | some (none, d) => c.sketch rules tokens.length = d.sketch rules tokens.length
      | _ => false
    | _ => false

/-- A rule whose rounds come back to where they were never ends. -/
theorem Registry.not_ends_of_comesBack {rules : Registry} {root : Handle} {tokens : List Token}
    {fuel i j : Nat} (hdefined : rules.firstUndefined? = none)
    (h : rules.comesBack root tokens fuel i j = true) : ¬ rules.Ends root tokens := by
  rintro ⟨fuel', report, hrun⟩
  unfold comesBack at h
  split at h
  · cases h
  · next body hbody =>
    dsimp only at h
    split at h
    · next c hreach =>
      split at h
      · next d hback =>
        rw [run?_eq_none_of_recurring hbody hdefined hreach hback (of_decide_eq_true h)] at hrun
        cases hrun
      · cases h
    · cases h

/-- In this grammar all rules but the last begin with one another.  On one token its parser
neither gives a value nor reports. -/
theorem Parser.not_givesOrReports_restless :
    ∃ g p, Grammar.parse
        "s = ( p q ) ; p = m? ; q = W: m | S: s a ; m = L: s q a | P: p ; a = 'a' ;" = .ok g ∧
      Parser.compile (Signature.ofGrammar g) g ⟨0⟩ = .ok p ∧
      ¬ p.rules.GivesOrReports p.root (g.nameOf ⟨0⟩) (Token.stream "a") := by
  have hback : (Grammar.parse
      "s = ( p q ) ; p = m? ; q = W: m | S: s a ; m = L: s q a | P: p ; a = 'a' ;").toOption.any
        (fun g => (Parser.compile (Signature.ofGrammar g) g ⟨0⟩).toOption.any fun p =>
          p.rules.firstUndefined?.isNone &&
            p.rules.comesBack p.root (Token.stream "a") 7 3 1) = true := by
    cbv
  obtain ⟨g, hg, hback⟩ := exists_ok_of_any hback
  obtain ⟨p, hp, hback⟩ := exists_ok_of_any hback
  rw [Bool.and_eq_true, Option.isNone_iff_eq_none] at hback
  exact ⟨g, p, hg, hp, fun hanswer =>
    Registry.not_ends_of_comesBack hback.1 hback.2 hanswer.ends⟩

end ChartGrammar
