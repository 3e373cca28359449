/-
  Proofs/ParserCompleteness.lean --- which token lists a compiled parser accepts.

  The chart that a run leaves decides: where none of its entries is stale, a compiled
  parser accepts exactly the tokens of the values of its root.  An entry can be left
  behind, though, when rules that grow at one position read each other; then the parser
  rejects the tokens of a value.
-/
import Mathlib
import ChartGrammar.Proofs.ChartCompleteness

set_option autoImplicit false

namespace ChartGrammar

open ChartM

/-! ## Runs and their roots -/

/-- How a call ends: it reads what is remembered, or its handle has no body, or its body is
run in rounds until it settles. -/
theorem call_cases {rules : Registry} {input : Array Token} {fuel : Nat} {h : Handle} {i : Nat}
    {c c' : Chart} {results : Results}
    (hrun : (call rules input (fuel + 1) h i).run c = some (results, c')) :
    c.remembered? ⟨h, i⟩ = some (results, c') ∨
      c.remembered? ⟨h, i⟩ = none ∧ ((rules.get? h = none ∧ results = [] ∧ c' = c) ∨
        ∃ body deps settled, rules.get? h = some body ∧
          (untilAnswer (growRound ⟨h, i⟩ (evalBody input (call rules input fuel) h body i))
            (fuel + 1)).run (c.enter ⟨h, i⟩) = some ((results, deps), settled) ∧
          c' = settled.leave ⟨h, i⟩ c.deps results deps) := by
  rw [call, StateT.run_bind] at hrun
  obtain ⟨⟨c₀, _⟩, hget, hrun⟩ := Option.bind_eq_some_iff.mp hrun
  cases hget
  dsimp only at hrun
  split at hrun
  · next results' c₁ hremembered =>
    cases hrun
    exact .inl hremembered
  · next hremembered =>
    refine .inr ⟨hremembered, ?_⟩
    split at hrun
    · next hbody =>
      cases hrun
      exact .inl ⟨hbody, rfl, rfl⟩
    · next body hbody =>
      rw [StateT.run_bind] at hrun
      obtain ⟨⟨outer, entered⟩, henter, hrun⟩ := Option.bind_eq_some_iff.mp hrun
      cases henter
      dsimp only at hrun
      rw [StateT.run_bind] at hrun
      obtain ⟨⟨⟨found, deps⟩, settled⟩, hrounds, hrun⟩ := Option.bind_eq_some_iff.mp hrun
      cases hrun
      exact .inr ⟨body, deps, settled, hbody, hrounds, rfl⟩

theorem Chart.finished_leave {c : Chart} {key : Key} {outer deps : List Key} {results : Results} :
    (c.leave key outer results deps).finished[key]? = some ⟨results, deps⟩ := by
  simp [Chart.leave]

namespace Registry
variable {rules : Registry} {root : Handle} {tokens : List Token}

theorem index_lt_of_get? {h : Handle} {body : Expr Handle} (hbody : rules.get? h = some body) :
    h.index < rules.size := by
  by_contra hout
  have hnone : rules.bodies[h.index]? = none := Array.getElem?_eq_none (Nat.not_lt.mp hout)
  rw [get?, hnone] at hbody
  cases hbody

/-- A run remembers the results of its root. -/
theorem Runs.exists_entry {results : Results} {c : Chart} {body : Expr Handle}
    (h : rules.Runs root tokens results c) (hbody : rules.get? root = some body) :
    ∃ deps, c.finished[(⟨root, 0⟩ : Key)]? = some ⟨results, deps⟩ := by
  have hfresh : ({} : Chart).remembered? ⟨root, 0⟩ = none := by
    simp [Chart.remembered?]
  rcases call_cases h with hremembered | ⟨-, ⟨hnone, -⟩ | ⟨body', deps, settled, -, -, rfl⟩⟩
  · rw [hfresh] at hremembered
    cases hremembered
  · rw [hbody] at hnone
    cases hnone
  · exact ⟨deps, Chart.finished_leave⟩

/-- A run whose root reaches the end of the input gives a value, if the rules have kinds
and the root finds nodes. -/
theorem Runs.exists_parse {κ : Handle → Kind} {results : Results} {c : Chart} {body : Expr Handle}
    (h : rules.Runs root tokens results c) (hκ : rules.Kinded κ) (hroot : κ root = .node)
    (hdefined : rules.firstUndefined? = none) (hbody : rules.get? root = some body)
    (hreach : results.Reach tokens.length) : ∃ v, rules.parse root tokens = .ok v := by
  obtain ⟨hkinded, hnodes⟩ := h.kinded hκ
  obtain ⟨d, hd⟩ := hreach
  have hfound : (results.find? fun r => r.1 == tokens.toArray.size).isSome = true := by
    rw [List.find?_isSome]
    exact ⟨_, hd, by simp⟩
  obtain ⟨⟨j, d⟩, hfind⟩ := Option.isSome_iff_exists.mp hfound
  have hmem := List.mem_of_find?_eq_some hfind
  obtain ⟨n, rfl⟩ := Deriv.exists_node ((hnodes _ hmem).trans hroot)
  obtain ⟨-, v, hv, -⟩ := (h.sound.2 _ hmem).node
  -- no mismatch was noted, and the first result that ends where the input ends is a node
  have hconclude : c.conclude tokens.toArray results = .ok v := by
    rw [Chart.conclude, hkinded.mismatch]
    simp only [hfind, Node.build_eq_ok hv]
  refine ⟨v, ?_⟩
  unfold Runs at h
  rw [parse, parseReport, run?, if_pos (index_lt_of_get? hbody), hdefined]
  simp only [h, Option.getD_some, hconclude]

end Registry

/-! ## Compiled parsers -/

section Compiled

variable {g : Grammar} {ids : List RuleId} {rules : Registry} {place : RuleId → Handle}
  {id : RuleId} {ts : List Token} {results : Results} {c : Chart}

/-- A compiled rule gives a value exactly if its run ends and reaches the end of the
tokens. -/
theorem CompiledRules.exists_parse_iff (hc : CompiledRules g ids rules place) (hg : g.WellFormed)
    (hid : id ∈ ids) :
    (∃ v, rules.parse (place id) ts = .ok v) ↔
      ∃ results c, rules.Runs (place id) ts results c ∧ results.Reach ts.length := by
  obtain ⟨hκ, hnode⟩ := hc.kinded hg
  obtain ⟨r, list, -, hbody, -⟩ := hc.body id hid
  constructor
  · rintro ⟨v, hv⟩
    obtain ⟨results, c, hruns, hconclude⟩ := Registry.exists_runs_of_parse hv
    obtain ⟨n, hn, -⟩ := Registry.exists_mem_of_conclude hconclude
    exact ⟨results, c, hruns, .node n, hn⟩
  · rintro ⟨results, c, hruns, hreach⟩
    exact hruns.exists_parse hκ (hnode id hid) hc.defined hbody hreach

/-- A run of a compiled rule that leaves a complete chart reaches the end of the tokens of
every value. -/
theorem CompiledRules.reach_of_complete (hc : CompiledRules g ids rules place) (hg : g.WellFormed)
    (hid : id ∈ ids) (hruns : rules.Runs (place id) ts results c)
    (hcomplete : c.Complete rules ts.toArray) {v : Value} (hv : g.IsValue id v)
    (hleaves : v.leaves = ts) : results.Reach ts.length := by
  obtain ⟨r, list, -, hbody, -⟩ := hc.body id hid
  obtain ⟨deps, hentry⟩ := hruns.exists_entry hbody
  have hmeans : rules.Means (.ref (place id)) ts (.node v) :=
    (hc.means_rule_iff hg hid).mpr ⟨v, rfl, hv, hleaves⟩
  have hforward : Forward ts.toArray 0 ts.toArray.size := ⟨Nat.zero_le _, .inr Nat.le.refl⟩
  refine hcomplete _ _ hentry ts.toArray.size ⟨hforward, .node v, ?_⟩
  rwa [span_all]

end Compiled

/-- A compiled parser accepts exactly if its run ends and the entry of its root lists the end
of the input.  The entries that a run leaves list all that their rules derive exactly if none
of them is stale, which holds if running every body once more brings no new end; and then
the parser accepts exactly the tokens of the values of its root. -/
theorem Parser.accepts_values_of_not_stale {g : Grammar} {root : RuleId} (hg : g.Built)
    (hroot : g.contains root = true) :
    ∃ p, Parser.compile (Signature.ofGrammar g) g root = .ok p ∧ ∀ ts,
      ((∃ v, p.parse ts = .ok v) ↔
        ∃ results c, p.rules.Runs p.root ts results c ∧ results.Reach ts.length) ∧
      ∀ results c, p.rules.Runs p.root ts results c →
        ((∀ key, ¬ c.Stale p.rules ts.toArray key) ↔ c.Complete p.rules ts.toArray) ∧
        (c.isUpToDate p.rules ts.toArray = true → c.Complete p.rules ts.toArray) ∧
        (c.Complete p.rules ts.toArray →
          ((∃ v, p.parse ts = .ok v) ↔ ∃ v, g.IsValue root v ∧ v.leaves = ts)) := by
  have hwf := hg.wellFormed
  obtain ⟨p, hp⟩ := Parser.exists_compile hwf hroot
  obtain ⟨place, hc, hplace, hmem, -⟩ := Parser.compile_spec hwf hp
  have hκ := (hc.kinded hwf).1
  refine ⟨p, hp, fun ts => ?_⟩
  rw [Parser.parse, hplace]
  refine ⟨hc.exists_parse_iff hwf hmem, fun results c hruns => ?_⟩
  refine ⟨(Chart.complete_iff_not_stale hκ hruns.sound.1).symm,
    Chart.complete_of_isUpToDate hκ (hruns.kinded hκ).1, fun hcomplete => ?_⟩
  constructor
  · rintro ⟨v, hv⟩
    exact ⟨v, hc.parse_rule_sound hwf hmem hv⟩
  · rintro ⟨v, hv, hleaves⟩
    exact (hc.exists_parse_iff hwf hmem).mpr
      ⟨results, c, hruns, hc.reach_of_complete hwf hmem hruns hcomplete hv hleaves⟩

theorem Parser.accepts_values_of_not_stale_sums :
    Grammar.sums.contains ⟨0⟩ = true ∧ ∃ p results c,
      Parser.compile (Signature.ofGrammar Grammar.sums) Grammar.sums ⟨0⟩ = .ok p ∧
      p.rules.Runs p.root (Token.stream "1+ 23+4") results c ∧
      (∀ key, ¬ c.Stale p.rules (Token.stream "1+ 23+4").toArray key) ∧
      ((∃ v, p.parse (Token.stream "1+ 23+4") = .ok v) ↔
        ∃ v, Grammar.sums.IsValue ⟨0⟩ v ∧ v.leaves = Token.stream "1+ 23+4") := by
  have hroot : Grammar.sums.contains ⟨0⟩ = true := by decide
  obtain ⟨p, hp, hparser⟩ :=
    Parser.accepts_values_of_not_stale (Grammar.built_of_parse Grammar.parse_sums) hroot
  have hrun : (Parser.compile (Signature.ofGrammar Grammar.sums) Grammar.sums ⟨0⟩).toOption.any
      (fun p => ((call p.rules (Token.stream "1+ 23+4").toArray
          (p.rules.fuelFor (Token.stream "1+ 23+4").length) p.root 0).run {}).any
        fun found => found.2.isUpToDate p.rules (Token.stream "1+ 23+4").toArray) = true := by
    cbv
  obtain ⟨_, hp', hfound⟩ := exists_ok_of_any hrun
  cases hp.symm.trans hp'
  obtain ⟨⟨results, c⟩, hcall, hcurrent⟩ := (Option.any_eq_true _ _).mp hfound
  obtain ⟨hstale, hcheck, haccepts⟩ := (hparser _).2 results c hcall
  have hcomplete := hcheck hcurrent
  exact ⟨hroot, p, results, c, hp, hcall, hstale.mpr hcomplete, haccepts hcomplete⟩

/-! ## An entry left behind -/

/-- Three rules that begin with one another.  Run at one position, `j` reads `k` and `k` reads
`e`; `e` finds nothing while `k` has nothing, and stays so when `j` has grown and `k` with
it. -/
def Grammar.tangled : Grammar := ⟨#[
  ⟨"j", none, .choice [⟨"Wrap", [⟨1⟩, ⟨4⟩]⟩, ⟨"Base", [⟨3⟩]⟩]⟩,
  ⟨"k", none, .choice [⟨"Ex", [⟨2⟩, ⟨5⟩]⟩, ⟨"Jy", [⟨0⟩, ⟨6⟩]⟩]⟩,
  ⟨"e", none, .choice [⟨"Kz", [⟨1⟩, ⟨7⟩]⟩]⟩,
  ⟨"a", none, .terminal (.char 'a')⟩,
  ⟨"w", none, .terminal (.char 'w')⟩,
  ⟨"x", none, .terminal (.char 'x')⟩,
  ⟨"y", none, .terminal (.char 'y')⟩,
  ⟨"z", none, .terminal (.char 'z')⟩]⟩

theorem Grammar.parse_tangled : Grammar.parse
    "j = Wrap: k w | Base: a ; k = Ex: e x | Jy: j y ; e = Kz: k z ; a = 'a' ; w = 'w' ;
     x = 'x' ; y = 'y' ; z = 'z' ;" = .ok tangled := by
  cbv

/-- A value of `j` that holds one of `k`, which holds one of `e`, and that again one of `k`
and of `j`. -/
theorem Grammar.exists_value_tangled :
    ∃ v, tangled.IsValue ⟨0⟩ v ∧ v.leaves = Token.stream "ayzxw" := by
  have hleaf : ∀ (id : RuleId) (t : Token) {r : Rule}, tangled.get? id = some r →
      r.rhs = .terminal (.char t.char) → tangled.IsValue id (.terminal r.name t) := by
    intro id t r hr hrhs
    exact .terminal hr hrhs (by simp [Predicate.test])
  have hpair : ∀ (id : RuleId) (label : String) {r : Rule} {branches : List (Branch RuleId)}
      {first second : RuleId} {v w : Value}, tangled.get? id = some r →
      r.rhs = .choice branches → ⟨label, [first, second]⟩ ∈ branches →
      tangled.IsValue first v → tangled.IsValue second w →
      tangled.IsValue id (.branch r.name label [v, w]) := by
    intro id label r branches first second v w hr hrhs hb hv hw
    exact .branch hr hrhs hb (.cons hv (.cons hw .nil))
  have ha := hleaf ⟨3⟩ ⟨'a', ⟨0, 1, 1⟩⟩ rfl rfl
  have hy := hleaf ⟨6⟩ ⟨'y', ⟨1, 1, 2⟩⟩ rfl rfl
  have hz := hleaf ⟨7⟩ ⟨'z', ⟨2, 1, 3⟩⟩ rfl rfl
  have hx := hleaf ⟨5⟩ ⟨'x', ⟨3, 1, 4⟩⟩ rfl rfl
  have hw := hleaf ⟨4⟩ ⟨'w', ⟨4, 1, 5⟩⟩ rfl rfl
  have hbase : tangled.IsValue ⟨0⟩ _ :=
    .branch rfl rfl (List.mem_cons_of_mem _ (List.mem_singleton_self _)) (.cons ha .nil)
  have hjy := hpair ⟨1⟩ "Jy" rfl rfl (by simp) hbase hy
  have hkz := hpair ⟨2⟩ "Kz" rfl rfl (by simp) hjy hz
  have hex := hpair ⟨1⟩ "Ex" rfl rfl (by simp) hkz hx
  exact ⟨_, hpair ⟨0⟩ "Wrap" rfl rfl (by simp) hex hw, rfl⟩

/-- The tokens of this value are rejected, and the chart of the run has a stale entry. -/
theorem Parser.rejects_value_tangled :
    Grammar.tangled.Built ∧ (∃ v, Grammar.tangled.IsValue ⟨0⟩ v ∧
      v.leaves = Token.stream "ayzxw") ∧
    ∃ p, Parser.compile (Signature.ofGrammar Grammar.tangled) Grammar.tangled ⟨0⟩ = .ok p ∧
      (∀ w, p.parse (Token.stream "ayzxw") ≠ .ok w) ∧
      ∃ results c key, p.rules.Runs p.root (Token.stream "ayzxw") results c ∧
        c.Stale p.rules (Token.stream "ayzxw").toArray key := by
  have hbuilt := Grammar.built_of_parse Grammar.parse_tangled
  have hwf := hbuilt.wellFormed
  have hrun : (Parser.compile (Signature.ofGrammar Grammar.tangled) Grammar.tangled
      ⟨0⟩).toOption.any (fun p => ((call p.rules (Token.stream "ayzxw").toArray
          (p.rules.fuelFor (Token.stream "ayzxw").length) p.root 0).run {}).isSome &&
        !(p.parse (Token.stream "ayzxw")).isOk) = true := by
    cbv
  obtain ⟨v, hv, hleaves⟩ := Grammar.exists_value_tangled
  obtain ⟨p, hp⟩ := Parser.exists_compile hwf (show Grammar.tangled.contains ⟨0⟩ = true by decide)
  rw [hp] at hrun
  obtain ⟨hcalled, hrun⟩ := Bool.and_eq_true_iff.mp hrun
  obtain ⟨⟨results, c⟩, hcall⟩ := Option.isSome_iff_exists.mp hcalled
  have hrejects : ∀ w, p.parse (Token.stream "ayzxw") ≠ .ok w := by
    intro w hw
    rw [hw] at hrun
    cases hrun
  refine ⟨hbuilt, ⟨v, hv, hleaves⟩, p, hp, hrejects, results, c, ?_⟩
  -- with no stale entry the chart would be complete, and the value accepted
  by_contra hfresh
  obtain ⟨place, hc, hplace, hmem, -⟩ := Parser.compile_spec hwf hp
  have hruns : p.rules.Runs (place ⟨0⟩) (Token.stream "ayzxw") results c := hplace ▸ hcall
  have hcomplete := (Chart.complete_iff_not_stale (hc.kinded hwf).1 hruns.sound.1).mpr
    fun key hstale => hfresh ⟨key, hcall, hstale⟩
  obtain ⟨w, hw⟩ := (hc.exists_parse_iff hwf hmem).mpr
    ⟨results, c, hruns, hc.reach_of_complete hwf hmem hruns hcomplete hv hleaves⟩
  exact hrejects w (by rw [Parser.parse, hplace, hw])

end ChartGrammar
