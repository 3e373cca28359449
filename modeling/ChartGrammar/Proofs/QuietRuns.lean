/-
  Proofs/QuietRuns.lean --- which rejections name nothing that was expected.

  Every compiled rule carries a title, and it is noted as expected wherever the rule finds
  nothing.  So as long as nothing is noted, every rule that was run has found something, and a
  rule that reads tokens has got behind its start.  If the root is rejected with nothing noted
  and no rule got behind the start of the input, no token was looked at: the run would have
  been the same on any other tokens, and on no tokens at all.
-/
import ChartGrammar.Proofs.Lookahead

set_option autoImplicit false

namespace ChartGrammar

open ChartM Watch

/-! ## Notes -/

theorem insertSorted_ne_nil (s : String) (ts : List String) : insertSorted s ts ≠ [] := by
  unfold insertSorted
  split
  · nofun
  · split
    · nofun
    · split <;> nofun

namespace Chart

variable {rules : Registry} {c d : Chart}

/-- Nothing has been noted only where nothing has been missed: no position is the furthest, and
rules with a title have found something. -/
structure Heard (rules : Registry) (c : Chart) : Prop where
  furthest : c.expected = [] → c.furthest = 0
  titled : c.expected = [] → ∀ (k : Key) entry title e,
    rules.get? k.handle = some (.label title e) → c.finished[k]? = some entry → entry.results ≠ []

theorem heard_empty : ({} : Chart).Heard rules := by
  refine ⟨fun _ => rfl, fun _ k entry title e _ hentry => ?_⟩
  simp at hentry

/-- A chart with the same notes and no more results. -/
theorem Heard.of_subset (hc : c.Heard rules) (hexpected : d.expected = c.expected)
    (hfurthest : d.furthest = c.furthest)
    (hfinished : ∀ (k : Key) entry, d.finished[k]? = some entry → c.finished[k]? = some entry) :
    d.Heard rules := by
  refine ⟨fun hquiet => ?_, fun hquiet k entry title e hbody hentry => ?_⟩
  · rw [hfurthest]
    exact hc.furthest (hexpected ▸ hquiet)
  · exact hc.titled (hexpected ▸ hquiet) k entry title e hbody (hfinished k entry hentry)

/-- Once something has been missed, something is noted. -/
theorem Heard.expected_expect (hc : c.Heard rules) (pos : Nat) (what : String) :
    (c.expect pos what).expected ≠ [] := by
  unfold expect
  split
  · nofun
  · next hnot =>
    split
    · exact insertSorted_ne_nil _ _
    · next hne =>
      -- what is missed before the furthest position adds nothing to what is noted there
      intro hquiet
      have := hc.furthest hquiet
      omega

theorem Heard.expect (hc : c.Heard rules) (pos : Nat) (what : String) :
    (c.expect pos what).Heard rules :=
  ⟨fun hquiet => absurd hquiet (hc.expected_expect pos what),
    fun hquiet => absurd hquiet (hc.expected_expect pos what)⟩

theorem Heard.noteMismatch (hc : c.Heard rules) (ctor : Constructor) :
    (c.noteMismatch ctor).Heard rules := by
  unfold Chart.noteMismatch
  split
  · exact hc.of_subset rfl rfl fun _ _ h => h
  · exact hc

theorem Heard.regrow (hc : c.Heard rules) (key : Key) (results : Results) (deps : List Key) :
    (c.regrow key results deps).Heard rules :=
  hc.of_subset rfl rfl fun _ _ h => finished_of_forget h

theorem expected_leave (c : Chart) (key : Key) (outer : List Key) (results : Results)
    (deps : List Key) : (c.leave key outer results deps).expected = c.expected := by
  have hleave : (c.leave key outer results deps).expected = (c.settle key).expected := rfl
  rw [hleave, settle]
  split
  · split <;> rfl
  · rfl

theorem Heard.leave (hc : c.Heard rules) {key : Key} {results : Results} (outer deps : List Key)
    (hkey : c.expected = [] → ∀ title e, rules.get? key.handle = some (.label title e) →
      results ≠ []) :
    (c.leave key outer results deps).Heard rules := by
  refine ⟨fun hquiet => ?_, fun hquiet k entry title e hbody hentry => ?_⟩
  · rw [furthest_leave]
    exact hc.furthest (expected_leave c key outer results deps ▸ hquiet)
  · rw [expected_leave] at hquiet
    rw [lookup_leave] at hentry
    split at hentry
    · next heq =>
      cases hentry
      exact hkey hquiet title e (heq ▸ hbody)
    · exact hc.titled hquiet k entry title e hbody hentry

theorem Heard.remembered (hc : c.Heard rules) {key : Key} {results : Results}
    (h : c.remembered? key = some (results, d)) : d.Heard rules := by
  unfold remembered? at h
  split at h
  · cases h
    exact hc.of_subset rfl rfl fun _ _ h => h
  · split at h
    · cases h
      exact hc.of_subset rfl rfl fun _ _ h => h
    · cases h

end Chart

/-! ## Calls -/

section Call

variable {rules : Registry} {input : Array Token}

/-- A sound chart in which nothing was missed unheard. -/
def Chart.Told (rules : Registry) (input : Array Token) (c : Chart) : Prop :=
  Chart.Sound rules input c ∧ c.Heard rules

theorem Chart.told_expect (c : Chart) (pos : Nat) (what : String) (hc : c.Told rules input) :
    (c.expect pos what).Told rules input :=
  ⟨Holds.expect hc.1 pos what, hc.2.expect pos what⟩

theorem Chart.told_noteMismatch (c : Chart) (ctor : Constructor) (hc : c.Told rules input) :
    (c.noteMismatch ctor).Told rules input :=
  ⟨Holds.noteMismatch hc.1 trivial, hc.2.noteMismatch ctor⟩

/-- A rule with a title that finds nothing is noted last. -/
theorem run_label_eq_nil {call : Handle → Nat → ChartM Results} {title : String}
    {e : Expr Handle} {s : Nat} {c d : Chart}
    (h : (eval input call (.label title e) s).run c = some ([], d)) :
    ∃ c', (eval input call e s).run c = some ([], c') ∧ d = c'.expect s title := by
  rw [eval, StateT.run_bind] at h
  obtain ⟨⟨found, c'⟩, hfound, h⟩ := Option.bind_eq_some_iff.mp h
  dsimp only at h
  split at h
  · next hempty =>
    rw [List.isEmpty_iff.mp hempty] at hfound
    cases h
    exact ⟨c', hfound, rfl⟩
  · next hne =>
    cases h
    exact absurd rfl hne

theorem ensures_round_told {h : Handle} {body : Expr Handle} (hbody : rules.get? h = some body)
    {call : Handle → Nat → ChartM Results}
    (hcall : ∀ h s, Ensures (Chart.Told rules input) (call h s) (rules.FindsAll input (.ref h) s))
    (s : Nat) :
    Ensures (Chart.Told rules input) (growRound ⟨h, s⟩ (evalBody input call h body s))
      fun answer => ∀ a, answer = some a → True := by
  intro c answer d hc hrun
  refine ⟨?_, fun _ _ => trivial⟩
  have hrounds := ensures_evalBody Chart.told_expect Chart.told_noteMismatch hbody hcall s
  obtain ⟨results, d₀, heval, hcases⟩ := growRound_cases hrun
  obtain ⟨⟨hsound, hheard⟩, hresults⟩ := hrounds c results d₀ hc heval
  have hclear : Chart.Told rules input { d₀ with deps := [] } :=
    ⟨⟨hsound.finished, hsound.growing, trivial⟩, hheard.of_subset rfl rfl fun _ _ h => h⟩
  rcases hcases with ⟨-, rfl⟩ | ⟨-, rfl⟩
  · exact ⟨Chart.Holds.regrow hclear.1 _ hresults, hclear.2.regrow _ _ _⟩
  · exact hclear

/-- No call leaves a rule with a title unheard that has found nothing. -/
theorem ensures_call_told (fuel : Nat) :
    ∀ h s, Ensures (Chart.Told rules input) (call rules input fuel h s)
      (rules.FindsAll input (.ref h) s) := by
  induction fuel with
  | zero => exact fun h s => ensures_failure
  | succ fuel ih =>
    intro h s c results d hc hrun
    obtain ⟨hsound, hfinds⟩ := ensures_call_sound rules input (fuel + 1) h s c results d hc.1 hrun
    refine ⟨⟨hsound, ?_⟩, hfinds⟩
    rcases call_cases hrun with hfound | ⟨-, ⟨-, -, rfl⟩ |
      ⟨body, deps, settled, hbody, hrounds, rfl⟩⟩
    · exact hc.2.remembered hfound
    · exact hc.2
    · have hentered : (c.enter ⟨h, s⟩).Told rules input :=
        ⟨Chart.Holds.enter hc.1 fun _ hr => absurd hr List.not_mem_nil,
          hc.2.of_subset rfl rfl fun _ _ h => h⟩
      obtain ⟨j, -, last, hnone, hanswer⟩ := run_untilAnswer_iff.mp hrounds
      obtain ⟨hlast, -⟩ :=
        ensures_repeatUpTo (ensures_round_told hbody ih s) j _ _ _ hentered hnone
      obtain ⟨hsettled, -⟩ := ensures_round_told hbody ih s _ _ _ hlast hanswer
      refine hsettled.2.leave _ _ fun hquiet title e htitled hnil => ?_
      -- the title is noted at the end of the last round
      cases hbody.symm.trans htitled
      obtain ⟨_, d₀, hround, ⟨⟨⟩, -⟩ | ⟨hsome, rfl⟩⟩ := growRound_cases hanswer
      cases hsome
      subst hnil
      obtain ⟨c', heval, rfl⟩ := run_label_eq_nil hround
      obtain ⟨hc', -⟩ :=
        ensures_eval Chart.told_expect Chart.told_noteMismatch ih e s _ _ _ hlast heval
      exact hc'.2.expected_expect s title hquiet

end Call

/-! ## Runs that look at no token -/

section Silent

variable {rules : Registry} {root : Handle} {tokens : List Token} {results : Results} {c : Chart}

/-- No rule that reads tokens has been run. -/
def Chart.Silent (rules : Registry) (c : Chart) : Prop :=
  ∀ (k : Key) entry, rules.Reader k.handle → c.finished[k]? ≠ some entry

/-- Literals are not empty. -/
def Registry.SpellsOut (rules : Registry) : Prop :=
  ∀ h title rule literal,
    rules.get? h = some (.label title (.map (.series rule) (.symbol literal))) → literal ≠ ""

/-- What a rule that reads tokens means holds a token. -/
theorem Registry.Reader.ne_nil {h : Handle} (hreader : rules.Reader h) (hrules : rules.SpellsOut)
    {ts : List Token} {sv : SemanticValue} (hmeans : rules.Means (.ref h) ts sv) : ts ≠ [] := by
  obtain ⟨body, hbody, hreads⟩ := hreader
  cases hmeans with
  | ref hbody' hmeans =>
    cases hbody.symm.trans hbody'
    cases hreads with
    | terminal title rule p =>
      cases hmeans with
      | label hmeans =>
        cases hmeans with
        | map hmeans _ =>
          cases hmeans
          nofun
    | series title rule literal =>
      cases hmeans with
      | label hmeans =>
        cases hmeans with
        | map hmeans _ =>
          cases hmeans with
          | symbol hchars =>
            rintro rfl
            exact hrules h title rule literal hbody (String.toList_inj.mp hchars.symm)

theorem Registry.Runs.told (hruns : rules.Runs root tokens results c) :
    c.Told rules tokens.toArray :=
  (ensures_call_told _ root 0 {} results c ⟨Chart.holds_empty trivial, Chart.heard_empty⟩
    hruns).1

/-- A chart without notes in which no rule got behind the start shows that no token was looked
at. -/
theorem Chart.Told.silent {input : Array Token} (hc : c.Told rules input)
    (hrules : rules.SpellsOut) (hquiet : c.expected = []) (hreached : c.reached ≤ 0) :
    c.Silent rules := by
  obtain ⟨hsound, hheard⟩ := hc
  intro k entry hreader hentry
  obtain ⟨body, hbody, hreads⟩ := id hreader
  have hne : entry.results ≠ [] := by
    cases hreads with
    | terminal title rule p => exact hheard.titled hquiet k entry _ _ hbody hentry
    | series title rule literal => exact hheard.titled hquiet k entry _ _ hbody hentry
  obtain ⟨r, hr⟩ := List.exists_mem_of_ne_nil _ hne
  obtain ⟨hforward, sv, -, hmeans⟩ := hsound.finished k entry hentry r hr
  have hstart : r.1 = k.start := by
    have hend := (reached_le_iff c 0).mp hreached k entry hentry r hr
    have := hforward.1
    omega
  rw [hstart, span_self] at hmeans
  exact hreader.ne_nil hrules hmeans rfl

theorem Chart.Silent.of_later {d : Chart} (h : c.Later rules d) (hd : d.Silent rules) :
    c.Silent rules :=
  fun k entry hreader hentry => hd k entry hreader (h.kept k entry hreader hentry)

/-- A rule that reads tokens leaves its results where nothing was known of it. -/
theorem not_silent_of_reads {input : Array Token} {fuel : Nat} {h : Handle} {s : Nat}
    {body : Expr Handle} {d : Chart} (hfresh : c.remembered? ⟨h, s⟩ = none)
    (hbody : rules.get? h = some body) (hreads : body.Reads)
    (hrun : (call rules input (fuel + 1) h s).run c = some (results, d)) : ¬ d.Silent rules := by
  intro hd
  rcases call_cases hrun with hfound | ⟨-, ⟨hnone, -, -⟩ | ⟨_, _, _, -, -, rfl⟩⟩
  · cases hfresh.symm.trans hfound
  · cases hbody.symm.trans hnone
  · exact hd ⟨h, s⟩ _ ⟨body, hbody, hreads⟩ Chart.finished_leave

/-- A run that looked at no token goes the same way on any other tokens. -/
theorem Registry.Runs.of_silent (hruns : rules.Runs root tokens results c)
    (hrules : ∀ h body, rules.get? h = some body → body.Reads ∨ body.Blind)
    (hsilent : c.Silent rules) (tokens' : List Token) : rules.Runs root tokens' results c := by
  have hretrace : ∀ fuel h s,
      (rules.watchFor tokens'.toArray.size (Chart.Silent rules) Chart.Silent.of_later).Retraces
        (s ≤ tokens'.toArray.size) (call rules tokens.toArray fuel h s)
        (call rules tokens'.toArray fuel h s) (Within tokens'.toArray.size) := by
    refine retraces_call_of_readers _ _ hrules fun hfresh hbody hreads hc hrun => ?_
    obtain ⟨hsteady, hlater, -⟩ :=
      call_retraces_of_reads (fun _ _ => rfl) le_rfl hfresh hbody hreads hc hrun
    exact ⟨hsteady, hlater, fun hd => absurd hd (not_silent_of_reads hfresh hbody hreads hrun)⟩
  have hsteady : ({} : Chart).Steady rules := by
    intro k entry _ hentry
    simp at hentry
  obtain ⟨-, -, hsame⟩ := hretrace _ root 0 {} results c hsteady hruns
  obtain ⟨hrun, -, -⟩ := hsame hsilent (Chart.holds_empty trivial) (Nat.zero_le _)
  refine run_call_of_fuel ?_ hrun
  rw [List.size_toArray]
  exact Nat.min_le_right _ _

end Silent

/-! ## Rejections -/

section Rejections

variable {rules : Registry} {root : Handle} {tokens : List Token} {results : Results} {c : Chart}
  {input : Array Token} {pos : Option Position} {found : Option Char}

/-- A chart that names nothing has noted nothing, and no rule got further than nowhere. -/
theorem Chart.quiet_of_conclude
    (h : c.conclude input results = .error (.unexpected pos found [])) :
    c.mismatch = none ∧ c.expected = [] ∧ c.reached ≤ c.furthest := by
  unfold conclude at h
  split at h
  · cases h
  · next hmismatch =>
    split at h
    · split at h <;> cases h
    · cases h
    · unfold report at h
      dsimp only at h
      split at h
      · cases h
      · next hnot =>
        injection h with h
        injection h with _ _ hexpected
        exact ⟨hmismatch, hexpected, Nat.not_lt.mp hnot⟩

theorem Chart.conclude_of_quiet (hmismatch : c.mismatch = none) (hquiet : c.expected = [])
    (hfurthest : c.furthest = 0) (hreached : c.reached ≤ 0) (hends : ∀ r ∈ results, r.1 = 0)
    (t : Token) (ts : List Token) :
    c.conclude (t :: ts).toArray results =
      .error (.unexpected (some t.position) (some t.char) []) := by
  have hnone : (results.find? fun r => r.1 == (t :: ts).toArray.size) = none := by
    refine List.find?_eq_none.mpr fun r hr hend => ?_
    rw [beq_iff_eq, hends r hr] at hend
    simp at hend
  have hreport : c.report (t :: ts).toArray =
      .unexpected (some t.position) (some t.char) [] := by
    simp [report, hfurthest, hquiet, Nat.le_zero.mp hreached]
  rw [conclude, hmismatch, hnone, hreport]

theorem Registry.Runs.parse_eq (h : rules.Runs root tokens results c)
    (hroot : root.index < rules.size) (hdefined : rules.firstUndefined? = none) :
    rules.parse root tokens = c.conclude tokens.toArray results := by
  unfold Runs at h
  rw [parse, parseReport, run?, if_pos hroot, hdefined]
  simp only [h, Option.getD_some]

end Rejections

/-! ## Compiled parsers -/

theorem Expr.eq_map_of_oneOf {ctor : Constructor} {e : Expr Handle} {others : List (Expr Handle)} :
    ∀ {first : Expr Handle}, Expr.oneOf first others = .map ctor e → first = .map ctor e := by
  induction others with
  | nil => exact fun h => h
  | cons other others ih => exact fun h => nomatch ih h

/-- Only a literal compiles to an expression for a literal. -/
theorem Rhs.eq_series_of_expr {rhs : Rhs Handle} {name rule literal : String} {list : Handle}
    (h : rhs.expr name list = .map (.series rule) (.symbol literal)) : rhs = .series literal := by
  cases rhs with
  | series literal' =>
    cases h
    rfl
  | choice branches =>
    cases branches with
    | nil => cases h
    | cons b bs => exact nomatch Expr.eq_map_of_oneOf h
  | _ => cases h

theorem CompiledRules.spellsOut {g : Grammar} {ids : List RuleId} {rules : Registry}
    {place : RuleId → Handle} (hc : CompiledRules g ids rules place) (hg : g.WellFormed) :
    rules.SpellsOut := by
  intro h title rule literal hbody
  rcases hc.covered h _ hbody with ⟨id, hid, rfl⟩ | ⟨inner, -, hlist⟩
  · obtain ⟨r, list, hr, hbody', -⟩ := hc.body id hid
    obtain ⟨-, hexpr⟩ := Expr.label.inj (Option.some.inj (hbody.symm.trans hbody'))
    have hseries := Rhs.eq_series_of_expr hexpr.symm
    have hfault := (hg.rules r (Grammar.mem_of_get? hr)).fault?_eq_none
    cases hrhs : r.rhs with
    | series literal' =>
      rw [hrhs] at hseries hfault
      cases hseries
      exact Rhs.fault?_series_eq_none_iff.mp hfault
    | _ =>
      rw [hrhs] at hseries
      cases hseries
  · cases hlist

/-- A compiled parser either says in every rejection what was expected, or never: then it
accepts no token at all, and rejects the first one whatever it is. -/
theorem Parser.names_expected_or_accepts_no_token {g : Grammar} (hg : g.Built) {sig : Signature}
    {root : RuleId} {p : Parser} (hp : Parser.compile sig g root = .ok p) :
    (∀ tokens pos found expected,
      p.parse tokens = .error (.unexpected pos found expected) → expected ≠ []) ∨
    ((∃ v, p.parse [] = .ok v) ∧ ∀ t ts,
      p.parse (t :: ts) = .error (.unexpected (some t.position) (some t.char) [])) := by
  obtain ⟨place, hc, hroot, hmem, -⟩ := compile_spec hg.wellFormed hp
  obtain ⟨r, list, -, hbody, -⟩ := hc.body root hmem
  obtain ⟨hκ, hnode⟩ := hc.kinded hg.wellFormed
  rw [← hroot] at hbody
  by_cases hsays : ∀ tokens pos found expected,
      p.parse tokens = .error (.unexpected pos found expected) → expected ≠ []
  · exact .inl hsays
  · push Not at hsays
    obtain ⟨tokens, pos, found, _, hfails, rfl⟩ := hsays
    have hindex := Registry.index_lt_of_get? hbody
    have hends : p.rules.Ends p.root tokens := by
      by_contra hends
      rw [Parser.parse, Registry.parse_of_not_ends hends] at hfails
      cases hfails
    obtain ⟨results, c, hruns, hparse⟩ := hends.exists_runs hindex hc.defined
    obtain ⟨hmismatch, hquiet, hreached⟩ :=
      Chart.quiet_of_conclude (hparse.symm.trans hfails)
    obtain ⟨-, hheard⟩ := hruns.told
    rw [hheard.furthest hquiet] at hreached
    have hsame := hruns.of_silent hc.reads_or_blind
      (hruns.told.silent (hc.spellsOut hg.wellFormed) hquiet hreached)
    -- the root has found something, and it ends where it began
    obtain ⟨deps, hentry⟩ := hruns.exists_entry hbody
    have hresults : ∀ r ∈ results, r.1 = 0 := fun r hr =>
      Nat.le_zero.mp ((Chart.reached_le_iff c 0).mp hreached _ _ hentry r hr)
    obtain ⟨⟨j, d⟩, hd⟩ := List.exists_mem_of_ne_nil _
      (hheard.titled hquiet _ _ _ _ hbody hentry)
    obtain rfl : j = 0 := hresults _ hd
    refine .inr ⟨?_, fun t ts => ?_⟩
    · exact (hsame []).exists_parse hκ (hroot ▸ hnode root hmem) hc.defined hbody ⟨d, hd⟩
    · rw [Parser.parse, (hsame (t :: ts)).parse_eq hindex hc.defined]
      exact Chart.conclude_of_quiet hmismatch hquiet (hheard.furthest hquiet) hreached hresults t ts

/-- Sums accept tokens, so every rejection of theirs says what was expected. -/
theorem Parser.names_expected_or_accepts_no_token_sums :
    ∃ p, Parser.compile (Signature.ofGrammar Grammar.sums) Grammar.sums ⟨0⟩ = .ok p ∧
      ∀ tokens pos found expected,
        p.parse tokens = .error (.unexpected pos found expected) → expected ≠ [] := by
  have hrun : (do
      let p ← Parser.compile (Signature.ofGrammar Grammar.sums) Grammar.sums ⟨0⟩
      return (p.rules.run? 8 p.root (Token.stream "1")).map fun r : Report => r.outcome.isOk) =
        .ok (some true) := by
    cbv
  obtain ⟨p, hp, hrun⟩ := bind_eq_ok_iff.mp hrun
  obtain ⟨report, hreport, hok⟩ := Option.map_eq_some_iff.mp (Except.ok.inj hrun)
  obtain ⟨v, hv⟩ := exists_ok_of_isOk hok
  have haccepts : p.parse (Token.stream "1") = .ok v :=
    (Registry.parse_of_run? hreport).trans hv
  refine ⟨p, hp, ?_⟩
  rcases Parser.names_expected_or_accepts_no_token (Grammar.built_of_parse Grammar.parse_sums)
    hp with hsays | ⟨-, hnever⟩
  · exact hsays
  · cases haccepts.symm.trans (hnever _ _)

/-- A rule without fields: it matches nowhere but at the end of an empty input. -/
def Grammar.fieldless : Grammar := ⟨#[⟨"a", none, .record []⟩]⟩

theorem Grammar.parse_fieldless : Grammar.parse "a = ( ) ;" = .ok fieldless := by
  cbv

/-- Its parser stops short of the first token, and does not say that the input should have
ended. -/
theorem Parser.names_nothing_fieldless :
    Grammar.fieldless.Built ∧
    ∃ p, Parser.compile (Signature.ofGrammar Grammar.fieldless) Grammar.fieldless ⟨0⟩ = .ok p ∧
      p.parse (Token.stream "x") = .error (.unexpected (some ⟨0, 1, 1⟩) (some 'x') []) := by
  have hrun : (do
      let p ← Parser.compile (Signature.ofGrammar Grammar.fieldless) Grammar.fieldless ⟨0⟩
      return (p.rules.run? 8 p.root (Token.stream "x")).map Report.outcome) =
        .ok (some (.error (.unexpected (some ⟨0, 1, 1⟩) (some 'x') []))) := by
    cbv
  obtain ⟨p, hp, hrun⟩ := bind_eq_ok_iff.mp hrun
  obtain ⟨report, hreport, houtcome⟩ := Option.map_eq_some_iff.mp (Except.ok.inj hrun)
  exact ⟨Grammar.built_of_parse Grammar.parse_fieldless, p, hp,
    (Registry.parse_of_run? hreport).trans houtcome⟩

end ChartGrammar
