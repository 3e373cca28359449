/-
  Proofs/ChartSoundness.lean --- whatever a chart finds is meant.

  A result of an expression at a start is sound if its derivation stands for a
  semantic value that the expression means on the tokens up to the result's end.
  Running an expression is sound if its references are, so every result in every
  chart is sound, those of unfinished rounds included.
-/
import Mathlib
import ChartGrammar.Proofs.Building
import ChartGrammar.Proofs.CompiledMeaning
import ChartGrammar.Proofs.Remembered

set_option autoImplicit false

namespace ChartGrammar

open ChartM

/-! ## Spans of the input -/

/-- The tokens from one position up to another. -/
def span (input : Array Token) (start stop : Nat) : List Token :=
  (input.toList.drop start).take (stop - start)

/-- A position that a parser can lead to from another one: that one itself, or a later one
within the input. -/
def Forward (input : Array Token) (start stop : Nat) : Prop :=
  start ≤ stop ∧ (start = stop ∨ stop ≤ input.size)

section Span

variable {input : Array Token} {i j k : Nat}

theorem Forward.refl (input : Array Token) (i : Nat) : Forward input i i :=
  ⟨Nat.le_refl i, .inl rfl⟩

theorem Forward.trans (hij : Forward input i j) (hjk : Forward input j k) :
    Forward input i k := by
  unfold Forward at *
  omega

theorem Forward.succ {t : Token} (h : input[i]? = some t) : Forward input i (i + 1) := by
  obtain ⟨hlt, -⟩ := Array.getElem?_eq_some_iff.mp h
  exact ⟨Nat.le_succ i, .inr hlt⟩

theorem span_self : span input i i = [] := by
  rw [span, Nat.sub_self, List.take_zero]

theorem span_append (hij : Forward input i j) (hjk : Forward input j k) :
    span input i j ++ span input j k = span input i k := by
  have hdrop : input.toList.drop j = (input.toList.drop i).drop (j - i) := by
    rw [List.drop_drop, Nat.add_sub_cancel' hij.1]
  have hlen : k - i = (j - i) + (k - j) := by
    have := hij.1
    have := hjk.1
    omega
  rw [span, span, span, hdrop, hlen, ← List.take_add]

theorem span_succ {t : Token} (h : input[i]? = some t) : span input i (i + 1) = [t] := by
  have hget : input.toList[i]? = some t := by rw [Array.getElem?_toList, h]
  obtain ⟨hlt, hval⟩ := List.getElem?_eq_some_iff.mp hget
  rw [span, Nat.add_sub_cancel_left, List.drop_eq_getElem_cons hlt, List.take_succ_cons,
    List.take_zero, hval]

theorem span_all : span input 0 input.size = input.toList := by
  rw [span, List.drop_zero, Nat.sub_zero, ← Array.length_toList, List.take_length]

end Span

/-! ## Sound results -/

section Sound

variable {rules : Registry} {input : Array Token}

/-- A derivation that stands for what an expression means from a start up to an end. -/
def Registry.Finds (rules : Registry) (input : Array Token) (e : Expr Handle) (start : Nat)
    (r : Nat × Deriv) : Prop :=
  Forward input start r.1 ∧ ∃ sv, r.2.Builds sv ∧ rules.Means e (span input start r.1) sv

/-- All results of an expression at a start are found there. -/
def Registry.FindsAll (rules : Registry) (input : Array Token) (e : Expr Handle) (start : Nat)
    (rs : Results) : Prop :=
  ∀ r ∈ rs, rules.Finds input e start r

/-- A node is found as the value that it stands for. -/
theorem Registry.Finds.node {e : Expr Handle} {s j : Nat} {n : Node}
    (h : rules.Finds input e s (j, .node n)) :
    Forward input s j ∧ ∃ v, n.Builds v ∧ rules.Means e (span input s j) (.node v) := by
  obtain ⟨hfwd, sv, hbuilds, hmeans⟩ := h
  obtain ⟨v, hv, rfl⟩ := Deriv.builds_node_iff.mp hbuilds
  exact ⟨hfwd, v, hv, hmeans⟩

/-- A list is found as the values that its items stand for. -/
theorem Registry.Finds.list {e : Expr Handle} {s j : Nat} {items : Chain Node}
    (h : rules.Finds input e s (j, .list items)) :
    Forward input s j ∧ ∃ vs, List.Forall₂ Node.Builds items.toList vs ∧
      rules.Means e (span input s j) (.list vs) := by
  obtain ⟨hfwd, sv, hbuilds, hmeans⟩ := h
  obtain ⟨vs, hvs, rfl⟩ := Deriv.builds_list_iff.mp hbuilds
  exact ⟨hfwd, vs, hvs, hmeans⟩

/-- Tokens that spell some characters stand where they were found. -/
theorem spell_eq_ok {cs : List Char} {s : Nat} {ts : List Token}
    (h : spell input cs s = .ok ts) :
    ts.map Token.char = cs ∧ Forward input s (s + ts.length) ∧
      span input s (s + ts.length) = ts := by
  induction cs generalizing s ts with
  | nil =>
    cases h
    exact ⟨rfl, Forward.refl input s, span_self⟩
  | cons c cs ih =>
    unfold spell at h
    split at h
    · next t ht =>
      split at h
      · next hchar =>
        split at h
        · next rest hrest =>
          cases h
          obtain ⟨hchars, hforward, hspan⟩ := ih hrest
          have hlen : s + (t :: rest).length = s + 1 + rest.length := by
            rw [List.length_cons]
            omega
          have hsucc := Forward.succ ht
          refine ⟨by rw [List.map_cons, hchars, hchar], hlen ▸ hsucc.trans hforward, ?_⟩
          rw [hlen, ← span_append hsucc hforward, span_succ ht, hspan]
          rfl
        · cases h
      · cases h
    · cases h

end Sound

/-! ## Running an expression -/

section Eval

variable {rules : Registry} {input : Array Token} {I : Chart → Prop}

/-- Fields found one after another, the latest first: whatever fields follow them, all
together are meant. -/
def Registry.FindsFields (rules : Registry) (input : Array Token) (done : List (Expr Handle))
    (start : Nat) (p : Nat × List Node) : Prop :=
  Forward input start p.1 ∧ ∃ vs, List.Forall₂ Node.Builds p.2.reverse vs ∧
    ∀ es ts ws, rules.Means (.seq es) ts (.fields ws) →
      rules.Means (.seq (done ++ es)) (span input start p.1 ++ ts) (.fields (vs ++ ws))

theorem Registry.FindsFields.snoc {done : List (Expr Handle)} {e : Expr Handle} {s i j : Nat}
    {ns : List Node} {n : Node} (h : rules.FindsFields input done s (i, ns))
    (hn : rules.Finds input e i (j, .node n)) :
    rules.FindsFields input (done ++ [e]) s (j, n :: ns) := by
  obtain ⟨hsi, vs, hvs, hcont⟩ := h
  obtain ⟨hij, v, hv, hmeans⟩ := hn.node
  refine ⟨hsi.trans hij, vs ++ [v], ?_, ?_⟩
  · rw [List.reverse_cons]
    exact List.rel_append hvs (.cons hv .nil)
  · intro es ts ws hes
    have hall := hcont (e :: es) _ _ (.seqCons hmeans hes)
    rw [← List.append_assoc, span_append hsi hij] at hall
    rwa [List.append_assoc, List.singleton_append, List.append_assoc, List.singleton_append]

/-- Running an expression finds only what it means, if its references do. -/
theorem ensures_eval {call : Handle → Nat → ChartM Results}
    (hexpect : ∀ c pos what, I c → I (c.expect pos what))
    (hnote : ∀ c ctor, I c → I (c.noteMismatch ctor))
    (hcall : ∀ h s, Ensures I (call h s) (rules.FindsAll input (.ref h) s)) (e : Expr Handle) :
    ∀ s, Ensures I (eval input call e s) (rules.FindsAll input e s) := by
  induction e using Expr.induction with
  | ref h =>
    intro s
    rw [eval]
    exact hcall h s
  | matchOne p =>
    intro s
    refine ensures_matchOne hexpect fun t ht htest => ?_
    refine ⟨Forward.succ ht, .token t, Deriv.builds_token t, ?_⟩
    rw [span_succ ht]
    exact .matchOne htest
  | symbol literal =>
    intro s
    refine ensures_symbol hexpect fun ts hts => ?_
    obtain ⟨hchars, hforward, hspan⟩ := spell_eq_ok hts
    refine ⟨hforward, .tokens ts, Deriv.builds_tokens ts, ?_⟩
    rw [hspan]
    exact .symbol hchars
  | unit =>
    intro s
    rw [eval]
    refine ensures_single ⟨Forward.refl input s, .fields [], Deriv.builds_fields .nil, ?_⟩
    rw [span_self]
    exact .unit
  | nothing =>
    intro s
    rw [eval]
    refine ensures_single ⟨Forward.refl input s, .nothing, Deriv.builds_nothing, ?_⟩
    rw [span_self]
    exact .nothing
  | nil =>
    intro s
    rw [eval]
    refine ensures_single ⟨Forward.refl input s, .list [],
      Deriv.builds_list_iff.mpr ⟨[], .nil, rfl⟩, ?_⟩
    rw [span_self]
    exact .nil
  | just e ih =>
    intro s
    refine ensures_just (ih s) fun j n hn => ?_
    obtain ⟨hfwd, v, hv, hmeans⟩ := hn.node
    exact ⟨hfwd, .just v, Deriv.builds_just hv, .just hmeans⟩
  | alt a b iha ihb =>
    intro s
    refine ensures_alt (iha s) (ihb s) ?_ ?_
    · rintro r ⟨hfwd, sv, hbuilds, hmeans⟩
      exact ⟨hfwd, sv, hbuilds, .altLeft hmeans⟩
    · rintro r ⟨hfwd, sv, hbuilds, hmeans⟩
      exact ⟨hfwd, sv, hbuilds, .altRight hmeans⟩
  | seq es ih =>
    intro s
    refine ensures_seq (K := fun done p => rules.FindsFields input done s p)
      (fun hp hn => hp.snoc hn) ih ?_ ?_
    · refine ⟨Forward.refl input s, [], .nil, fun es ts ws h => ?_⟩
      rwa [span_self, List.nil_append, List.nil_append, List.nil_append]
    · rintro j ns ⟨hfwd, vs, hvs, hcont⟩
      have hmeans := hcont [] [] [] .seqNil
      rw [List.append_nil, List.append_nil, List.append_nil] at hmeans
      exact ⟨hfwd, .fields vs, Deriv.builds_fields hvs, hmeans⟩
  | cons a b iha ihb =>
    intro s
    rw [eval]
    refine ensures_evalPair iha ihb (fun hn hitems => ?_) s
    obtain ⟨hij, v, hv, hhead⟩ := hn.node
    obtain ⟨hjk, vs, hvs, htail⟩ := hitems.list
    refine ⟨hij.trans hjk, .list (v :: vs), Deriv.builds_list_iff.mpr ⟨_, ?_, rfl⟩, ?_⟩
    · rw [Chain.toList_cons]
      exact .cons hv hvs
    · rw [← span_append hij hjk]
      exact .cons hhead htail
  | pair a b iha ihb =>
    intro s
    rw [eval]
    refine ensures_evalPair iha ihb (fun hn hitems => ?_) s
    obtain ⟨hij, v, hv, hhead⟩ := hn.node
    obtain ⟨hjk, vs, hvs, htail⟩ := hitems.list
    refine ⟨hij.trans hjk, .pair v vs, Deriv.builds_pair hv hvs, ?_⟩
    rw [← span_append hij hjk]
    exact .pair hhead htail
  | map ctor e ih =>
    intro s
    refine ensures_map (fun _ _ _ c hc => hnote c ctor hc) (ih s) ?_
    rintro j d n ⟨hfwd, sv, hbuilds, hmeans⟩ hn
    obtain ⟨v, happly, hv⟩ := Node.builds_of_make? hn hbuilds
    exact ⟨hfwd, .node v, Deriv.builds_node_iff.mpr ⟨v, hv, rfl⟩, .map hmeans happly⟩
  | label d e ih =>
    intro s
    refine ensures_label hexpect (ih s) ?_
    rintro r ⟨hfwd, sv, hbuilds, hmeans⟩
    exact ⟨hfwd, sv, hbuilds, .label hmeans⟩

/-! ## Repetition -/

/-- Items found one after another: whatever list follows them, all together are meant. -/
def Registry.FindsItems (rules : Registry) (input : Array Token) (list : Handle) (start : Nat)
    (stop : Repeat.Stop) : Prop :=
  Forward input start stop.1 ∧ ∃ vs, List.Forall₂ Node.Builds stop.2.toList vs ∧
    ∀ ts ws, rules.Means (.ref list) ts (.list ws) →
      rules.Means (.ref list) (span input start stop.1 ++ ts) (.list (vs ++ ws))

theorem repeatedItem?_eq_some {list : Handle} {body item : Expr Handle}
    (h : repeatedItem? list body = some item) : body = .alt .nil (.cons item (.ref list)) := by
  unfold repeatedItem? at h
  split at h
  · split at h
    · next heq =>
      cases h
      rw [heq]
    · cases h
  · cases h

/-- Repeating an item finds only lists that the rule means. -/
theorem ensures_repeatItem {list : Handle} {e : Expr Handle} {item : Nat → ChartM Results}
    (hbody : rules.get? list = some (.alt .nil (.cons e (.ref list))))
    (hitem : ∀ i, Ensures I (item i) (rules.FindsAll input e i)) (length s : Nat) :
    Ensures I (repeatItem length item s) (rules.FindsAll input (.ref list) s) := by
  have hnil : rules.Means (.ref list) [] (.list []) := .ref hbody (.altLeft .nil)
  have hstep : ∀ stop, rules.FindsItems input list s stop →
      Ensures I (item stop.1) fun found =>
        ∀ next ∈ Repeat.onward stop found, rules.FindsItems input list s next := by
    rintro ⟨i, items⟩ ⟨hsi, vs, hvs, hcont⟩
    refine ensures_mono (hitem i) fun found hfound => ?_
    rintro ⟨j, items'⟩ hnext
    obtain ⟨n, hn, -, rfl⟩ := mem_onward.mp hnext
    obtain ⟨hij, v, hv, hmeans⟩ := (hfound _ hn).node
    refine ⟨hsi.trans hij, vs ++ [v], ?_, ?_⟩
    · rw [Chain.toList_snoc]
      exact List.rel_append hvs (.cons hv .nil)
    · intro ts ws hws
      have hall := hcont _ _ (.ref hbody (.altRight (.cons hmeans hws)))
      rw [← List.append_assoc, span_append hsi hij] at hall
      rwa [List.append_assoc, List.singleton_append]
  have hstart : ∀ stop ∈ [((s, .empty) : Repeat.Stop)], rules.FindsItems input list s stop := by
    intro stop hstop
    cases List.mem_singleton.mp hstop
    refine ⟨Forward.refl input s, [], .nil, fun ts ws h => ?_⟩
    rwa [span_self, List.nil_append, List.nil_append]
  refine ensures_bind (ensures_search hstep (length + 1) _ ∅ [] hstart
    fun stop hstop => absurd hstop List.not_mem_nil) fun stops hstops => ?_
  refine ensures_pure fun r hr => ?_
  obtain ⟨⟨j, items⟩, hstop, rfl⟩ := List.mem_map.mp hr
  obtain ⟨hfwd, vs, hvs, hcont⟩ := hstops _ hstop
  have hmeans := hcont [] [] hnil
  rw [List.append_nil, List.append_nil] at hmeans
  exact ⟨hfwd, .list vs, Deriv.builds_list_iff.mpr ⟨vs, hvs, rfl⟩, hmeans⟩

/-! ## Running a rule -/

/-- Running the body of a rule finds only what the rule means, if references do. -/
theorem ensures_evalBody {call : Handle → Nat → ChartM Results} {h : Handle}
    {body : Expr Handle} (hexpect : ∀ c pos what, I c → I (c.expect pos what))
    (hnote : ∀ c ctor, I c → I (c.noteMismatch ctor)) (hbody : rules.get? h = some body)
    (hcall : ∀ h s, Ensures I (call h s) (rules.FindsAll input (.ref h) s)) (s : Nat) :
    Ensures I (evalBody input call h body s) (rules.FindsAll input (.ref h) s) := by
  unfold evalBody
  split
  · next item hitem =>
    rw [repeatedItem?_eq_some hitem] at hbody
    exact ensures_repeatItem hbody (ensures_eval hexpect hnote hcall item) _ s
  · refine ensures_mono (ensures_eval hexpect hnote hcall body s) fun found hfound => ?_
    intro r hr
    obtain ⟨hfwd, sv, hbuilds, hmeans⟩ := hfound r hr
    exact ⟨hfwd, sv, hbuilds, .ref hbody hmeans⟩

end Eval

/-- All results in a chart are found by the rules. -/
def Chart.Sound (rules : Registry) (input : Array Token) : Chart → Prop :=
  Chart.Holds (fun h s => rules.FindsAll input (.ref h) s) fun _ => True

/-- Every call finds only what its rule means, and leaves a chart of such results. -/
theorem ensures_call_sound (rules : Registry) (input : Array Token) (fuel : Nat) (h : Handle)
    (s : Nat) :
    Ensures (Chart.Sound rules input) (call rules input fuel h s)
      (rules.FindsAll input (.ref h) s) := by
  refine ensures_call (fun h s r hr => absurd hr List.not_mem_nil) ?_ fuel h s
  intro h body hbody call hcall s
  exact ensures_evalBody (fun c pos what hc => hc.expect pos what)
    (fun c ctor hc => hc.noteMismatch trivial) hbody hcall s

namespace Registry

variable {rules : Registry} {root : Handle} {tokens : List Token}

/-- A run of a registry that ends: the results of the root, and the chart they leave. -/
def Runs (rules : Registry) (root : Handle) (tokens : List Token) (results : Results)
    (c : Chart) : Prop :=
  (call rules tokens.toArray (rules.fuelFor tokens.length) root 0).run {} = some (results, c)

/-- A run leaves a sound chart and sound results. -/
theorem Runs.sound {results : Results} {c : Chart} (h : rules.Runs root tokens results c) :
    Chart.Sound rules tokens.toArray c ∧ rules.FindsAll tokens.toArray (.ref root) 0 results :=
  ensures_call_sound rules tokens.toArray _ root 0 {} results c (Chart.holds_empty trivial) h

/-- A parse that gives a value comes from a run whose chart concludes it. -/
theorem exists_runs_of_parse {v : Value} (h : rules.parse root tokens = .ok v) :
    ∃ results c, rules.Runs root tokens results c ∧
      c.conclude tokens.toArray results = .ok v := by
  unfold parse parseReport run? at h
  split at h
  · split at h
    · cases h
    · dsimp only at h
      split at h
      · next results c hrun => exact ⟨results, c, hrun, h⟩
      · cases h
  · cases h

/-- The value that a chart concludes is built from a result of the root that ends where
the input ends. -/
theorem exists_mem_of_conclude {c : Chart} {input : Array Token} {results : Results} {v : Value}
    (h : c.conclude input results = .ok v) :
    ∃ n, (input.size, .node n) ∈ results ∧ n.build = .ok v := by
  unfold Chart.conclude at h
  split at h
  · cases h
  · split at h
    · next j n hfind =>
      have hend : j = input.size := by simpa using List.find?_some hfind
      split at h
      · next w hbuild =>
        cases h
        exact ⟨n, hend ▸ List.mem_of_find?_eq_some hfind, hbuild⟩
      · cases h
    · cases h
    · cases h

/-- Whatever a registry parses its root means, on exactly the tokens of the input. -/
theorem means_of_parse {v : Value} (h : rules.parse root tokens = .ok v) :
    rules.Means (.ref root) tokens (.node v) := by
  obtain ⟨results, c, hruns, hconclude⟩ := exists_runs_of_parse h
  obtain ⟨n, hmem, hbuild⟩ := exists_mem_of_conclude hconclude
  obtain ⟨-, w, hw, hmeans⟩ := (hruns.sound.2 _ hmem).node
  have heq : w = v := by
    rw [Node.build_eq_ok hw] at hbuild
    exact Except.ok.inj hbuild
  rwa [heq, span_all] at hmeans

end Registry

/-! ## Compiled parsers -/

/-- What compiled rules parse is a value of the rule, with exactly the tokens of the
input. -/
theorem CompiledRules.parse_rule_sound {g : Grammar} {ids : List RuleId} {rules : Registry}
    {place : RuleId → Handle} (hc : CompiledRules g ids rules place) (hg : g.WellFormed)
    {id : RuleId} (hid : id ∈ ids) {ts : List Token} {v : Value}
    (h : rules.parse (place id) ts = .ok v) : g.IsValue id v ∧ v.leaves = ts := by
  obtain ⟨w, heq, hvalue, hleaves⟩ := (hc.means_rule_iff hg hid).mp (Registry.means_of_parse h)
  cases heq
  exact ⟨hvalue, hleaves⟩

/-- Whatever a compiled parser accepts is a value of its root, and the tokens of the value
are exactly the tokens that were parsed. -/
theorem Parser.isValue_of_parse {g : Grammar} {sig : Signature} {root : RuleId} {p : Parser}
    {ts : List Token} {v : Value} (hg : g.Built) (hp : Parser.compile sig g root = .ok p)
    (h : p.parse ts = .ok v) : g.IsValue root v ∧ v.leaves = ts := by
  obtain ⟨place, hc, hroot, hmem, -⟩ := Parser.compile_spec hg.wellFormed hp
  rw [Parser.parse, hroot] at h
  exact hc.parse_rule_sound hg.wellFormed hmem h

theorem Parser.isValue_of_parse_sums :
    ∃ p v, Parser.compile (Signature.ofGrammar Grammar.sums) Grammar.sums ⟨0⟩ = .ok p ∧
      p.parse (Token.stream "1+ 23+4") = .ok v ∧ Grammar.sums.IsValue ⟨0⟩ v ∧
      v.leaves = Token.stream "1+ 23+4" := by
  have hok : (Parser.compile (Signature.ofGrammar Grammar.sums) Grammar.sums ⟨0⟩).toOption.any
      (fun p => (p.parse (Token.stream "1+ 23+4")).isOk) = true := by
    cbv
  obtain ⟨p, hp, hok⟩ := exists_ok_of_any hok
  obtain ⟨v, hparse⟩ := exists_ok_of_isOk hok
  exact ⟨p, v, hp, hparse, Parser.isValue_of_parse (Grammar.built_of_parse Grammar.parse_sums)
    hp hparse⟩

end ChartGrammar
