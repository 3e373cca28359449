/-
  Proofs/ChartCompleteness.lean --- when a chart lists every end.

  A chart is complete if each of its entries lists every end that its rule derives.
  It is complete exactly if none of its entries is stale, that is, if no body leads
  further over what is known now than its entry says.  For a chart that holds every
  answer it needs this can be checked by running every body once more.
-/
import Mathlib.Logic.Relation
import ChartGrammar.Proofs.Kinds

set_option autoImplicit false

namespace ChartGrammar

open ChartM

/-! ## Ends -/

/-- The results reach an end. -/
def Results.Reach (rs : Results) (stop : Nat) : Prop := ∃ d, (stop, d) ∈ rs

/-- A rule derives the tokens from a start up to an end. -/
def Registry.Derives (rules : Registry) (input : Array Token) (h : Handle) (start stop : Nat) :
    Prop :=
  Forward input start stop ∧ ∃ sv, rules.Means (.ref h) (span input start stop) sv

theorem mem_foldl_insert {α : Type} (rs : List (Nat × α)) (n : Nat) :
    ∀ known : Std.HashSet Nat,
      (rs.foldl (fun (s : Std.HashSet Nat) r => s.insert r.1) known).contains n = true ↔
        known.contains n = true ∨ ∃ r ∈ rs, r.1 = n := by
  induction rs with
  | nil => simp
  | cons r rs ih =>
    intro known
    rw [List.foldl_cons, ih, Std.HashSet.contains_insert]
    simp only [Bool.or_eq_true, beq_iff_eq, List.mem_cons, exists_eq_or_imp]
    tauto

/-- Results that did not grow reach no new end. -/
theorem Results.reach_of_not_grew {before after : Results} (h : grew before after = false)
    {stop : Nat} (hstop : after.Reach stop) : before.Reach stop := by
  obtain ⟨d, hd⟩ := hstop
  unfold grew at h
  simp only [List.any_eq_false, Bool.not_eq_true', Bool.not_eq_false] at h
  have hknown := (mem_foldl_insert before stop ∅).mp (h _ hd)
  simp only [Std.HashSet.contains_empty, Bool.false_eq_true, false_or] at hknown
  obtain ⟨⟨j, d'⟩, hmem, rfl⟩ := hknown
  exact ⟨d', hmem⟩

/-! ## One more reading of a body -/

namespace Expr

mutual

/-- Where an expression leads from a start, if references lead where `known` says. -/
def LeadsTo (input : Array Token) (known : Handle → Nat → Nat → Prop) :
    Expr Handle → Nat → Nat → Prop
  | ref h, i, j => known h i j
  | matchOne p, i, j => ∃ t, input[i]? = some t ∧ p.test t.char = true ∧ j = i + 1
  | symbol literal, i, j => ∃ ts, spell input literal.toList i = .ok ts ∧ j = i + ts.length
  | unit, i, j => j = i
  | nothing, i, j => j = i
  | nil, i, j => j = i
  | just e, i, j => LeadsTo input known e i j
  | alt a b, i, j => LeadsTo input known a i j ∨ LeadsTo input known b i j
  | seq es, i, j => AllLeadTo input known es i j
  | cons a b, i, j => ∃ m, LeadsTo input known a i m ∧ LeadsTo input known b m j
  | pair a b, i, j => ∃ m, LeadsTo input known a i m ∧ LeadsTo input known b m j
  | map _ e, i, j => LeadsTo input known e i j
  | label _ e, i, j => LeadsTo input known e i j

/-- Where expressions one after another lead. -/
def AllLeadTo (input : Array Token) (known : Handle → Nat → Nat → Prop) :
    List (Expr Handle) → Nat → Nat → Prop
  | [], i, j => j = i
  | e :: es, i, j => ∃ m, LeadsTo input known e i m ∧ AllLeadTo input known es m j

end

end Expr

namespace Chart

/-- What is known of a rule at a start: the ends that its entry lists, and without an
entry every end that the rule derives. -/
def Knows (rules : Registry) (input : Array Token) (c : Chart) (h : Handle) (start stop : Nat) :
    Prop :=
  match c.finished[(⟨h, start⟩ : Key)]? with
  | some entry => entry.results.Reach stop
  | none => rules.Derives input h start stop

/-- An entry that was computed from less than is known now: its body leads to an end that
the entry does not list. -/
def Stale (rules : Registry) (input : Array Token) (c : Chart) (key : Key) : Prop :=
  ∃ entry body stop, c.finished[key]? = some entry ∧ rules.get? key.handle = some body ∧
    body.LeadsTo input (c.Knows rules input) key.start stop ∧ ¬ entry.results.Reach stop

/-- Every entry lists every end that its rule derives. -/
def Complete (rules : Registry) (input : Array Token) (c : Chart) : Prop :=
  ∀ (key : Key) (entry : Finished), c.finished[key]? = some entry →
    ∀ stop, rules.Derives input key.handle key.start stop → entry.results.Reach stop

end Chart

/-! ## Tokens at a position -/

/-- The tokens stand in the input from one position up to another. -/
def Spans (input : Array Token) (start : Nat) (ts : List Token) (stop : Nat) : Prop :=
  Forward input start stop ∧ span input start stop = ts

section Spans

variable {input : Array Token} {i j k : Nat} {ts us : List Token} {t : Token}

theorem length_span (h : Forward input i j) : (span input i j).length = j - i := by
  obtain ⟨hle, heq | hsize⟩ := h
  · rw [heq, span_self, List.length_nil, Nat.sub_self]
  · rw [span, List.length_take, List.length_drop, Array.length_toList]
    omega

theorem Spans.stop_eq (h : Spans input i ts j) : j = i + ts.length := by
  have hlen := length_span h.1
  rw [h.2] at hlen
  have := h.1.1
  omega

theorem Spans.eq_of_nil (h : Spans input i [] j) : j = i := h.stop_eq

/-- Tokens in two parts stand in two parts of the input. -/
theorem Spans.exists_of_append (h : Spans input i (ts ++ us) k) :
    ∃ j, Spans input i ts j ∧ Spans input j us k := by
  have hstop := h.stop_eq
  rw [List.length_append] at hstop
  have hij : Forward input i (i + ts.length) := by
    obtain ⟨-, heq | hsize⟩ := h.1
    · exact ⟨Nat.le_add_right _ _, .inl (by omega)⟩
    · exact ⟨Nat.le_add_right _ _, .inr (by omega)⟩
  have hjk : Forward input (i + ts.length) k := by
    obtain ⟨-, heq | hsize⟩ := h.1
    · exact ⟨by omega, .inl (by omega)⟩
    · exact ⟨by omega, .inr hsize⟩
  have hsplit := (span_append hij hjk).trans h.2
  have hlen : (span input i (i + ts.length)).length = ts.length := by
    rw [length_span hij]
    omega
  obtain ⟨hleft, hright⟩ := List.append_inj hsplit hlen
  exact ⟨i + ts.length, ⟨hij, hleft⟩, ⟨hjk, hright⟩⟩

theorem Spans.getElem?_of_cons (h : Spans input i (t :: ts) j) : input[i]? = some t := by
  have hspan := h.2
  rw [span] at hspan
  have hdrop : (input.toList.drop i)[0]? = some t := by
    have hhead : ((input.toList.drop i).take (j - i))[0]? = some t := by rw [hspan]; rfl
    rw [List.getElem?_take] at hhead
    split at hhead
    · exact hhead
    · cases hhead
  rwa [List.getElem?_drop, Nat.add_zero, Array.getElem?_toList] at hdrop

/-- Tokens that stand in the input are found by spelling their characters. -/
theorem Spans.spell (h : Spans input i ts j) :
    spell input (ts.map Token.char) i = .ok ts := by
  induction ts generalizing i with
  | nil => rfl
  | cons t ts ih =>
    have hget := h.getElem?_of_cons
    have hsplit : Spans input i ([t] ++ ts) j := h
    obtain ⟨m, hhead, htail⟩ := hsplit.exists_of_append
    have hm := hhead.stop_eq
    rw [List.length_singleton] at hm
    rw [List.map_cons, ChartGrammar.spell, hget]
    simp only [if_true]
    rw [← hm, ih htail]

end Spans

/-! ## Complete exactly if nothing is stale -/

section Stale

variable {rules : Registry} {input : Array Token} {c : Chart} {κ : Handle → Kind}

/-- An expression leads to every end of what it means, if a reference is known to lead
wherever its body leads. -/
theorem leadsTo_of_means {known : Handle → Nat → Nat → Prop}
    (hknown : ∀ h body, rules.get? h = some body → ∀ i j,
      rules.Derives input h i j → body.LeadsTo input known i j → known h i j)
    {e : Expr Handle} {ts : List Token} {sv : SemanticValue} (h : rules.Means e ts sv) :
    ∀ {i j}, Spans input i ts j → e.LeadsTo input known i j := by
  induction h with
  | @ref h body ts sv hbody hmeans ih =>
    intro i j hspans
    rw [Expr.LeadsTo]
    refine hknown h body hbody i j ⟨hspans.1, sv, ?_⟩ (ih hspans)
    rw [hspans.2]
    exact .ref hbody hmeans
  | matchOne ht =>
    intro i j hspans
    rw [Expr.LeadsTo]
    exact ⟨_, hspans.getElem?_of_cons, ht, hspans.stop_eq⟩
  | symbol hts =>
    intro i j hspans
    rw [Expr.LeadsTo]
    exact ⟨_, hts ▸ hspans.spell, hspans.stop_eq⟩
  | unit | nothing | nil =>
    intro i j hspans
    rw [Expr.LeadsTo]
    exact hspans.eq_of_nil
  | just _ ih | map _ _ ih | label _ ih =>
    intro i j hspans
    rw [Expr.LeadsTo]
    exact ih hspans
  | altLeft _ ih =>
    intro i j hspans
    rw [Expr.LeadsTo]
    exact .inl (ih hspans)
  | altRight _ ih =>
    intro i j hspans
    rw [Expr.LeadsTo]
    exact .inr (ih hspans)
  | seqNil =>
    intro i j hspans
    rw [Expr.LeadsTo, Expr.AllLeadTo]
    exact hspans.eq_of_nil
  | seqCons _ _ ihhead ihtail =>
    intro i j hspans
    obtain ⟨m, hhead, htail⟩ := hspans.exists_of_append
    have hrest := ihtail htail
    rw [Expr.LeadsTo] at hrest ⊢
    rw [Expr.AllLeadTo]
    exact ⟨m, ihhead hhead, hrest⟩
  | cons _ _ ihhead ihtail | pair _ _ ihhead ihtail =>
    intro i j hspans
    obtain ⟨m, hhead, htail⟩ := hspans.exists_of_append
    rw [Expr.LeadsTo]
    exact ⟨m, ihhead hhead, ihtail htail⟩

/-- Where a node and then a list are meant, both are meant on tokens that stand in one piece. -/
theorem exists_means_node_list (hκ : rules.Kinded κ) {a b : Expr Handle} {i m j : Nat}
    (ha : a.HasKind κ .node) (hb : b.HasKind κ .list)
    (hhead : Forward input i m ∧ ∃ sv, rules.Means a (span input i m) sv)
    (htail : Forward input m j ∧ ∃ sv, rules.Means b (span input m j) sv) :
    Forward input i j ∧ ∃ ts us v vs, span input i j = ts ++ us ∧
      rules.Means a ts (.node v) ∧ rules.Means b us (.list vs) := by
  obtain ⟨him, sv, hmeans⟩ := hhead
  obtain ⟨hmj, sv', hrest⟩ := htail
  obtain ⟨v, rfl⟩ := SemanticValue.exists_node (hmeans.kind hκ ha)
  obtain ⟨vs, rfl⟩ := SemanticValue.exists_list (hrest.kind hκ hb)
  exact ⟨him.trans hmj, _, _, v, vs, (span_append him hmj).symm, hmeans, hrest⟩

/-- Wherever an expression with a kind leads over references that derive what they are
known for, it means something on the tokens up to there. -/
theorem means_of_leadsTo (hκ : rules.Kinded κ) {known : Handle → Nat → Nat → Prop}
    (hknown : ∀ h i j, known h i j → rules.Derives input h i j) (e : Expr Handle) :
    ∀ {k}, e.HasKind κ k → ∀ {i j}, e.LeadsTo input known i j →
      Forward input i j ∧ ∃ sv, rules.Means e (span input i j) sv := by
  induction e using Expr.induction with
  | ref h =>
    intro k _ i j hlead
    rw [Expr.LeadsTo] at hlead
    exact hknown h i j hlead
  | matchOne p =>
    intro k _ i j hlead
    rw [Expr.LeadsTo] at hlead
    obtain ⟨t, ht, htest, rfl⟩ := hlead
    exact ⟨Forward.succ ht, _, by rw [span_succ ht]; exact .matchOne htest⟩
  | symbol literal =>
    intro k _ i j hlead
    rw [Expr.LeadsTo] at hlead
    obtain ⟨ts, hts, rfl⟩ := hlead
    obtain ⟨hchars, hforward, hspan⟩ := spell_eq_ok hts
    exact ⟨hforward, _, by rw [hspan]; exact .symbol hchars⟩
  | unit =>
    intro k _ i j hlead
    rw [Expr.LeadsTo] at hlead
    rw [hlead, span_self]
    exact ⟨Forward.refl input i, _, .unit⟩
  | nothing =>
    intro k _ i j hlead
    rw [Expr.LeadsTo] at hlead
    rw [hlead, span_self]
    exact ⟨Forward.refl input i, _, .nothing⟩
  | nil =>
    intro k _ i j hlead
    rw [Expr.LeadsTo] at hlead
    rw [hlead, span_self]
    exact ⟨Forward.refl input i, _, .nil⟩
  | just e ih =>
    intro k hk i j hlead
    cases hk with
    | just he =>
      rw [Expr.LeadsTo] at hlead
      obtain ⟨hforward, sv, hmeans⟩ := ih he hlead
      obtain ⟨v, rfl⟩ := SemanticValue.exists_node (hmeans.kind hκ he)
      exact ⟨hforward, _, .just hmeans⟩
  | alt a b iha ihb =>
    intro k hk i j hlead
    cases hk with
    | alt ha hb =>
      rw [Expr.LeadsTo] at hlead
      rcases hlead with hlead | hlead
      · obtain ⟨hforward, sv, hmeans⟩ := iha ha hlead
        exact ⟨hforward, sv, .altLeft hmeans⟩
      · obtain ⟨hforward, sv, hmeans⟩ := ihb hb hlead
        exact ⟨hforward, sv, .altRight hmeans⟩
  | seq es ih =>
    intro k hk i j hlead
    cases hk with
    | seq hes =>
      rw [Expr.LeadsTo] at hlead
      have hall : ∀ i j, Expr.AllLeadTo input known es i j → Forward input i j ∧
          ∃ vs, rules.Means (.seq es) (span input i j) (.fields vs) := by
        clear hlead i j
        induction es with
        | nil =>
          intro i j hlead
          rw [Expr.AllLeadTo] at hlead
          rw [hlead, span_self]
          exact ⟨Forward.refl input i, [], .seqNil⟩
        | cons e es ihes =>
          intro i j hlead
          rw [Expr.AllLeadTo] at hlead
          obtain ⟨m, hhead, htail⟩ := hlead
          obtain ⟨hekind, heskind⟩ := List.forall_mem_cons.mp hes
          obtain ⟨hihhead, hihtail⟩ := List.forall_mem_cons.mp ih
          obtain ⟨him, sv, hmeans⟩ := hihhead hekind hhead
          obtain ⟨hmj, vs, hrest⟩ := ihes hihtail heskind m j htail
          obtain ⟨v, rfl⟩ := SemanticValue.exists_node (hmeans.kind hκ hekind)
          rw [← span_append him hmj]
          exact ⟨him.trans hmj, v :: vs, .seqCons hmeans hrest⟩
      obtain ⟨hforward, vs, hmeans⟩ := hall i j hlead
      exact ⟨hforward, _, hmeans⟩
  | cons a b iha ihb =>
    intro k hk i j hlead
    cases hk with
    | cons ha hb =>
      rw [Expr.LeadsTo] at hlead
      obtain ⟨m, hhead, htail⟩ := hlead
      obtain ⟨hforward, ts, us, v, vs, hspan, hmeans, hrest⟩ :=
        exists_means_node_list hκ ha hb (iha ha hhead) (ihb hb htail)
      rw [hspan]
      exact ⟨hforward, _, .cons hmeans hrest⟩
  | pair a b iha ihb =>
    intro k hk i j hlead
    cases hk with
    | pair ha hb =>
      rw [Expr.LeadsTo] at hlead
      obtain ⟨m, hhead, htail⟩ := hlead
      obtain ⟨hforward, ts, us, v, vs, hspan, hmeans, hrest⟩ :=
        exists_means_node_list hκ ha hb (iha ha hhead) (ihb hb htail)
      rw [hspan]
      exact ⟨hforward, _, .pair hmeans hrest⟩
  | map ctor e ih =>
    intro k hk i j hlead
    cases hk with
    | map he =>
      rw [Expr.LeadsTo] at hlead
      obtain ⟨hforward, sv, hmeans⟩ := ih he hlead
      obtain ⟨v, hv⟩ := Constructor.exists_apply (hmeans.kind hκ he)
      exact ⟨hforward, _, .map hmeans hv⟩
  | label d e ih =>
    intro k hk i j hlead
    cases hk with
    | label he =>
      rw [Expr.LeadsTo] at hlead
      obtain ⟨hforward, sv, hmeans⟩ := ih he hlead
      exact ⟨hforward, sv, .label hmeans⟩

/-- Whatever a sound chart knows of a rule the rule derives. -/
theorem Chart.Sound.derives_of_knows (hsound : Chart.Sound rules input c) {h : Handle}
    {i j : Nat} (hknows : c.Knows rules input h i j) : rules.Derives input h i j := by
  unfold Chart.Knows at hknows
  split at hknows
  · next entry hentry =>
    obtain ⟨d, hd⟩ := hknows
    obtain ⟨hforward, sv, -, hmeans⟩ := hsound.finished ⟨h, i⟩ entry hentry _ hd
    exact ⟨hforward, sv, hmeans⟩
  · exact hknows

/-- A sound chart of rules with kinds is complete exactly if none of its entries is
stale. -/
theorem Chart.complete_iff_not_stale (hκ : rules.Kinded κ) (hsound : Chart.Sound rules input c) :
    c.Complete rules input ↔ ∀ key, ¬ c.Stale rules input key := by
  constructor
  · rintro hcomplete key ⟨entry, body, stop, hentry, hbody, hlead, hmissing⟩
    obtain ⟨hforward, sv, hmeans⟩ := means_of_leadsTo hκ
      (fun h i j hknows => hsound.derives_of_knows hknows) body (hκ _ _ hbody) hlead
    exact hmissing (hcomplete key entry hentry stop ⟨hforward, sv, .ref hbody hmeans⟩)
  · rintro hfresh key entry hentry stop ⟨hforward, sv, hmeans⟩
    have hknown : ∀ h body, rules.get? h = some body → ∀ i j, rules.Derives input h i j →
        body.LeadsTo input (c.Knows rules input) i j → c.Knows rules input h i j := by
      intro h body hbody i j hderives hlead
      unfold Chart.Knows
      split
      · next entry hentry =>
        by_contra hmissing
        exact hfresh ⟨h, i⟩ ⟨entry, body, j, hentry, hbody, hlead, hmissing⟩
      · exact hderives
    have hlead := leadsTo_of_means hknown hmeans ⟨hforward, rfl⟩
    rw [Expr.LeadsTo, Chart.Knows, hentry] at hlead
    exact hlead

end Stale

/-! ## Running a body finds every end -/

section Eval

variable {input : Array Token} {I : Chart → Prop} {κ : Handle → Kind}
  {call : Handle → Nat → ChartM Results} {known : Handle → Nat → Nat → Prop}

theorem mem_nodes_of_reach {rs : Results} (hnode : rs.AllOf .node) {j : Nat} (h : rs.Reach j) :
    ∃ n, (j, n) ∈ rs.nodes := by
  obtain ⟨d, hd⟩ := h
  obtain ⟨n, rfl⟩ := Deriv.exists_node (hnode _ hd)
  exact ⟨n, mem_nodes.mpr hd⟩

theorem mem_lists_of_reach {rs : Results} (hlist : rs.AllOf .list) {j : Nat} (h : rs.Reach j) :
    ∃ items, (j, items) ∈ rs.lists := by
  obtain ⟨d, hd⟩ := h
  obtain ⟨items, rfl⟩ := Deriv.exists_list (hlist _ hd)
  exact ⟨items, mem_lists.mpr hd⟩

/-- Every partial list of fields goes on to wherever the next field leads. -/
theorem ensures_extendFields_reach {field : Nat → ChartM Results} {lead : Nat → Nat → Prop}
    (hfield : ∀ i, Ensures I (field i) fun rs =>
      rs.AllOf .node ∧ ∀ j, lead i j → rs.Reach j) (partials : List (Nat × List Node)) :
    Ensures I (extendFields field partials) fun next =>
      ∀ p ∈ partials, ∀ j, lead p.1 j → ∃ ns, (j, ns) ∈ next := by
  refine ensures_bind (ensures_gather_all
    (fun (p : Nat × List Node) (found : List (Nat × List Node)) =>
      ∀ j, lead p.1 j → ∃ ns, (j, ns) ∈ found) partials fun p hp => ?_) fun next hnext => ?_
  · refine ensures_bind (hfield p.1) fun found hfound => ensures_pure fun j hlead => ?_
    obtain ⟨n, hn⟩ := mem_nodes_of_reach hfound.1 (hfound.2 j hlead)
    exact ⟨n :: p.2, List.mem_map.mpr ⟨(j, n), hn, rfl⟩⟩
  · refine ensures_pure fun p hp j hlead => ?_
    obtain ⟨found, hfound, hsub⟩ := hnext p hp
    obtain ⟨ns, hns⟩ := hfound j hlead
    exact exists_mem_firstPerEnd (hsub _ hns)

theorem ensures_evalFields_reach (es : List (Expr Handle))
    (heval : ∀ e ∈ es, ∀ i, Ensures I (eval input call e i) fun rs =>
      rs.AllOf .node ∧ ∀ j, e.LeadsTo input known i j → rs.Reach j) :
    ∀ partials, Ensures I (evalFields input call es partials) fun found =>
      ∀ p ∈ partials, ∀ j, Expr.AllLeadTo input known es p.1 j → ∃ ns, (j, ns) ∈ found := by
  induction es with
  | nil =>
    intro partials
    rw [evalFields]
    refine ensures_pure fun p hp j hlead => ?_
    rw [Expr.AllLeadTo] at hlead
    exact ⟨p.2, hlead ▸ hp⟩
  | cons e es ih =>
    intro partials
    obtain ⟨he, hes⟩ := List.forall_mem_cons.mp heval
    rw [evalFields]
    refine ensures_bind (ensures_extendFields_reach he partials) fun next hnext => ?_
    split
    · next hempty =>
      refine ensures_pure fun p hp j hlead => ?_
      rw [Expr.AllLeadTo] at hlead
      obtain ⟨m, hhead, -⟩ := hlead
      obtain ⟨ns, hns⟩ := hnext p hp m hhead
      rw [List.isEmpty_iff.mp hempty] at hns
      cases hns
    · refine ensures_mono (ih hes next) fun found hfound p hp j hlead => ?_
      rw [Expr.AllLeadTo] at hlead
      obtain ⟨m, hhead, htail⟩ := hlead
      obtain ⟨ns, hns⟩ := hnext p hp m hhead
      exact hfound (m, ns) hns j htail

theorem ensures_evalPair_reach {head tail : Nat → ChartM Results}
    {join : Node → Chain Node → Deriv} {leadHead leadTail : Nat → Nat → Prop}
    (hhead : ∀ i, Ensures I (head i) fun rs =>
      rs.AllOf .node ∧ ∀ j, leadHead i j → rs.Reach j)
    (htail : ∀ i, Ensures I (tail i) fun rs =>
      rs.AllOf .list ∧ ∀ j, leadTail i j → rs.Reach j) (i : Nat) :
    Ensures I (evalPair join head tail i) fun rs =>
      ∀ m j, leadHead i m → leadTail m j → rs.Reach j := by
  refine ensures_bind (hhead i) fun heads hheads => ?_
  refine ensures_bind (ensures_gather_all
    (fun (p : Nat × Node) (found : List (Nat × Deriv)) =>
      ∀ j, leadTail p.1 j → ∃ d, (j, d) ∈ found) heads.nodes fun p hp => ?_)
    fun joined hjoined => ?_
  · obtain ⟨m, n⟩ := p
    refine ensures_bind (htail m) fun tails htails => ensures_pure fun j hlead => ?_
    obtain ⟨items, hitems⟩ := mem_lists_of_reach htails.1 (htails.2 j hlead)
    exact ⟨join n items, List.mem_map.mpr ⟨(j, items), hitems, rfl⟩⟩
  · refine ensures_pure fun m j hm hj => ?_
    obtain ⟨n, hn⟩ := mem_nodes_of_reach hheads.1 (hheads.2 m hm)
    obtain ⟨found, hfound, hsub⟩ := hjoined (m, n) hn
    obtain ⟨d, hd⟩ := hfound j hj
    exact exists_mem_firstPerEnd (hsub _ hd)

/-- A constructor keeps every end of results that it accepts. -/
theorem ensures_construct_reach {ctor : Constructor} {rs : Results}
    (hrs : rs.AllOf ctor.accepts) :
    Ensures I (construct ctor rs) fun out => ∀ j, rs.Reach j → out.Reach j := by
  have hfits : (rs.all fun r => ctor.fits r.2) = true :=
    List.all_eq_true.mpr fun r hr => (ctor.fits_iff_kind r.2).mpr (hrs r hr)
  unfold construct
  rw [if_pos hfits]
  refine ensures_pure fun j hj => ?_
  obtain ⟨d, hd⟩ := hj
  refine ⟨.node (.mk ctor d), List.mem_filterMap.mpr ⟨(j, d), hd, ?_⟩⟩
  rw [Node.make?, if_pos ((ctor.fits_iff_kind d).mpr (hrs _ hd))]
  rfl

/-- Running an expression that has a kind finds every end that it leads to, if its
references find the ends that they are known for. -/
theorem ensures_eval_reach (hexpect : ∀ c pos what, I c → I (c.expect pos what))
    (hcall : ∀ h i, Ensures I (call h i) fun rs =>
      rs.AllOf (κ h) ∧ ∀ j, known h i j → rs.Reach j) (e : Expr Handle) :
    ∀ {k}, e.HasKind κ k → ∀ i, Ensures I (eval input call e i) fun rs =>
      ∀ j, e.LeadsTo input known i j → rs.Reach j := by
  have hkind : ∀ {e k}, Expr.HasKind κ e k → ∀ i,
      Ensures I (eval input call e i) (Results.AllOf k) := fun {e k} he i =>
    ensures_eval_kind hexpect (fun h s => ensures_mono (hcall h s) fun _ hrs => hrs.1) e k he i
  induction e using Expr.induction with
  | ref h =>
    intro k _ i
    rw [eval]
    refine ensures_mono (hcall h i) fun rs hrs j hlead => ?_
    rw [Expr.LeadsTo] at hlead
    exact hrs.2 j hlead
  | matchOne p =>
    intro k _ i
    rw [eval]
    refine ensures_mono ?_ fun rs (hrs : ∀ t, input[i]? = some t → p.test t.char = true →
      rs.Reach (i + 1)) j hlead => ?_
    · split
      · next t ht =>
        split
        · next htest => exact ensures_pure fun _ _ _ => ⟨_, List.mem_singleton_self _⟩
        · next htest =>
          refine ensures_mono (ensures_missing (Q := fun _ => True) hexpect i p.render)
            fun rs _ t' ht' htest' => ?_
          cases ht.symm.trans ht'
          exact absurd htest' htest
      · next ht =>
        refine ensures_mono (ensures_missing (Q := fun _ => True) hexpect i p.render)
          fun rs _ t' ht' _ => ?_
        cases ht.symm.trans ht'
    · rw [Expr.LeadsTo] at hlead
      obtain ⟨t, ht, htest, rfl⟩ := hlead
      exact hrs t ht htest
  | symbol literal =>
    intro k _ i
    rw [eval]
    refine ensures_mono ?_ fun rs (hrs : ∀ ts, spell input literal.toList i = .ok ts →
      rs.Reach (i + ts.length)) j hlead => ?_
    · split
      · next ts hts =>
        refine ensures_pure fun ts' hts' => ?_
        cases hts.symm.trans hts'
        exact ⟨_, List.mem_singleton_self _⟩
      · next far hfar =>
        refine ensures_mono (ensures_missing (Q := fun _ => True) hexpect far _)
          fun rs _ ts hts => ?_
        cases hfar.symm.trans hts
    · rw [Expr.LeadsTo] at hlead
      obtain ⟨ts, hts, rfl⟩ := hlead
      exact hrs ts hts
  | unit | nothing | nil =>
    intro k _ i
    rw [eval]
    refine ensures_pure fun j hlead => ?_
    rw [Expr.LeadsTo] at hlead
    rw [hlead]
    exact ⟨_, List.mem_singleton_self _⟩
  | just e ih =>
    intro k hk i
    cases hk with
    | just he =>
      rw [eval]
      refine ensures_bind (ensures_and (hkind he i) (ih he i)) fun found hfound => ?_
      refine ensures_pure fun j hlead => ?_
      rw [Expr.LeadsTo] at hlead
      obtain ⟨n, hn⟩ := mem_nodes_of_reach hfound.1 (hfound.2 j hlead)
      exact ⟨.just n, List.mem_map.mpr ⟨(j, n), hn, rfl⟩⟩
  | alt a b iha ihb =>
    intro k hk i
    cases hk with
    | alt ha hb =>
      rw [eval]
      refine ensures_bind (iha ha i) fun left hleft =>
        ensures_bind (ihb hb i) fun right hright => ?_
      refine ensures_pure fun j hlead => ?_
      rw [Expr.LeadsTo] at hlead
      rcases hlead with hlead | hlead
      · obtain ⟨d, hd⟩ := hleft j hlead
        exact exists_mem_firstPerEnd (List.mem_append_left right hd)
      · obtain ⟨d, hd⟩ := hright j hlead
        exact exists_mem_firstPerEnd (List.mem_append_right left hd)
  | seq es ih =>
    intro k hk i
    cases hk with
    | seq hes =>
      have hevals : ∀ e ∈ es, ∀ i, Ensures I (eval input call e i) fun rs =>
          rs.AllOf .node ∧ ∀ j, e.LeadsTo input known i j → rs.Reach j :=
        fun e he i => ensures_and (hkind (hes e he) i) (ih e he (hes e he) i)
      rw [eval]
      refine ensures_bind (ensures_evalFields_reach es hevals [(i, [])]) fun found hfound => ?_
      refine ensures_pure fun j hlead => ?_
      rw [Expr.LeadsTo] at hlead
      obtain ⟨ns, hns⟩ := hfound (i, []) (List.mem_singleton_self _) j hlead
      exact ⟨.fields ns.reverse, List.mem_map.mpr ⟨(j, ns), hns, rfl⟩⟩
  | cons a b iha ihb =>
    intro k hk i
    cases hk with
    | cons ha hb =>
      rw [eval]
      refine ensures_mono (ensures_evalPair_reach
        (fun i => ensures_and (hkind ha i) (iha ha i))
        (fun i => ensures_and (hkind hb i) (ihb hb i)) i) fun rs hrs j hlead => ?_
      rw [Expr.LeadsTo] at hlead
      obtain ⟨m, hm, hj⟩ := hlead
      exact hrs m j hm hj
  | pair a b iha ihb =>
    intro k hk i
    cases hk with
    | pair ha hb =>
      rw [eval]
      refine ensures_mono (ensures_evalPair_reach
        (fun i => ensures_and (hkind ha i) (iha ha i))
        (fun i => ensures_and (hkind hb i) (ihb hb i)) i) fun rs hrs j hlead => ?_
      rw [Expr.LeadsTo] at hlead
      obtain ⟨m, hm, hj⟩ := hlead
      exact hrs m j hm hj
  | map ctor e ih =>
    intro k hk i
    cases hk with
    | map he =>
      rw [eval]
      refine ensures_bind (ensures_and (hkind he i) (ih he i)) fun found hfound => ?_
      refine ensures_mono (ensures_construct_reach hfound.1) fun out hout j hlead => ?_
      rw [Expr.LeadsTo] at hlead
      exact hout j (hfound.2 j hlead)
  | label d e ih =>
    intro k hk i
    cases hk with
    | label he =>
      rw [eval]
      refine ensures_bind (ih he i) fun found hfound => ?_
      split
      · next hempty =>
        refine ensures_mono (ensures_missing (Q := fun _ => True) hexpect i d)
          fun rs _ j hlead => ?_
        rw [Expr.LeadsTo] at hlead
        obtain ⟨d', hd'⟩ := hfound j hlead
        rw [List.isEmpty_iff.mp hempty] at hd'
        cases hd'
      · refine ensures_pure fun j hlead => ?_
        rw [Expr.LeadsTo] at hlead
        exact hfound j hlead

/-! ## Repetition -/

/-- What a search has come to: every visited stop was asked for an item, and where the
item leads has been seen or is still on the stack. -/
structure SearchState (asked : Nat → Results → Prop) (stack : List Repeat.Stop)
    (seen : Std.HashSet Nat) (visited : List Repeat.Stop) : Prop where
  seen_visited : ∀ i, seen.contains i = true → ∃ stop ∈ visited, stop.1 = i
  onward : ∀ stop ∈ visited, ∃ found, asked stop.1 found ∧
    ∀ next ∈ Repeat.onward stop found, seen.contains next.1 = true ∨
      ∃ pending ∈ stack, pending.1 = next.1

variable {item : Nat → ChartM Results} {asked : Nat → Results → Prop}

theorem SearchState.visit {stack rest : List Repeat.Stop} {seen : Std.HashSet Nat}
    {visited : List Repeat.Stop} {stop : Repeat.Stop} {found : Results}
    (h : SearchState asked stack seen visited)
    (hdrop : (stack.dropWhile fun stop => seen.contains stop.1) = stop :: rest)
    (hfound : asked stop.1 found) :
    SearchState asked (Repeat.onward stop found ++ rest) (seen.insert stop.1)
      (stop :: visited) := by
  obtain ⟨-, hmem⟩ := dropWhile_eq_cons stack hdrop
  refine ⟨?_, ?_⟩
  · intro i hi
    rw [Std.HashSet.contains_insert, Bool.or_eq_true, beq_iff_eq] at hi
    rcases hi with rfl | hi
    · exact ⟨stop, List.mem_cons_self, rfl⟩
    · obtain ⟨stop', hstop', rfl⟩ := h.seen_visited i hi
      exact ⟨stop', List.mem_cons_of_mem _ hstop', rfl⟩
  · intro stop' hstop'
    rcases List.mem_cons.mp hstop' with rfl | hstop'
    · exact ⟨found, hfound, fun next hnext =>
        .inr ⟨next, List.mem_append_left _ hnext, rfl⟩⟩
    · obtain ⟨found', hfound', honward⟩ := h.onward stop' hstop'
      refine ⟨found', hfound', fun next hnext => ?_⟩
      rw [Std.HashSet.contains_insert, Bool.or_eq_true, beq_iff_eq]
      rcases honward next hnext with hseen | ⟨pending, hpending, heq⟩
      · exact .inl (.inr hseen)
      · rcases hmem pending hpending with hseen | rfl | hrest
        · exact .inl (.inr (heq ▸ hseen))
        · exact .inl (.inl heq)
        · exact .inr ⟨pending, List.mem_append_right _ hrest, heq⟩

/-- A search ends with stops that are closed under going on, among them every stop that
was visited or on the stack before. -/
theorem ensures_search_closed (hitem : ∀ i, Ensures I (item i) (asked i)) (room : Nat) :
    ∀ stack seen visited, SearchState asked stack seen visited →
      Ensures I (Repeat.search item room stack seen visited) fun stops =>
        (∀ stop, stop ∈ visited ∨ stop ∈ stack → ∃ stop' ∈ stops, stop'.1 = stop.1) ∧
        ∀ stop ∈ stops, ∃ found, asked stop.1 found ∧
          ∀ next ∈ Repeat.onward stop found, ∃ stop' ∈ stops, stop'.1 = next.1 := by
  -- with nothing left to visit, everything on the stack has been seen
  have hdone : ∀ stack seen visited, SearchState asked stack seen visited →
      (stack.dropWhile fun stop => seen.contains stop.1) = [] →
      (∀ stop, stop ∈ visited ∨ stop ∈ stack → ∃ stop' ∈ visited.reverse, stop'.1 = stop.1) ∧
        ∀ stop ∈ visited.reverse, ∃ found, asked stop.1 found ∧
          ∀ next ∈ Repeat.onward stop found, ∃ stop' ∈ visited.reverse, stop'.1 = next.1 := by
    intro stack seen visited h hdrop
    have hseen : ∀ i, seen.contains i = true → ∃ stop' ∈ visited.reverse, stop'.1 = i := by
      intro i hi
      obtain ⟨stop, hstop, heq⟩ := h.seen_visited i hi
      exact ⟨stop, List.mem_reverse.mpr hstop, heq⟩
    have hstack : ∀ stop ∈ stack, seen.contains stop.1 = true :=
      List.dropWhile_eq_nil_iff.mp hdrop
    refine ⟨?_, ?_⟩
    · rintro stop (hstop | hstop)
      · exact ⟨stop, List.mem_reverse.mpr hstop, rfl⟩
      · exact hseen stop.1 (hstack stop hstop)
    · intro stop hstop
      obtain ⟨found, hfound, honward⟩ := h.onward stop (List.mem_reverse.mp hstop)
      refine ⟨found, hfound, fun next hnext => ?_⟩
      rcases honward next hnext with hnext | ⟨pending, hpending, heq⟩
      · exact hseen next.1 hnext
      · exact hseen next.1 (heq ▸ hstack pending hpending)
  induction room with
  | zero =>
    intro stack seen visited h
    unfold Repeat.search
    split
    · next hdrop => exact ensures_pure (hdone stack seen visited h hdrop)
    · exact ensures_failure
  | succ room ih =>
    intro stack seen visited h
    unfold Repeat.search
    split
    · next hdrop => exact ensures_pure (hdone stack seen visited h hdrop)
    · next stop rest hdrop =>
      refine ensures_bind (hitem stop.1) fun found hfound => ?_
      refine ensures_mono (ih _ _ _ (h.visit hdrop hfound)) fun stops hstops => ⟨?_, hstops.2⟩
      obtain ⟨-, hmem⟩ := dropWhile_eq_cons stack hdrop
      rintro stop' (hstop' | hstop')
      · exact hstops.1 stop' (.inl (List.mem_cons_of_mem _ hstop'))
      · rcases hmem stop' hstop' with hseen | rfl | hrest
        · obtain ⟨stop'', hstop'', heq⟩ := h.seen_visited _ hseen
          obtain ⟨found', hfound', heq'⟩ := hstops.1 stop'' (.inl (List.mem_cons_of_mem _ hstop''))
          exact ⟨found', hfound', heq'.trans heq⟩
        · exact hstops.1 stop' (.inl List.mem_cons_self)
        · exact hstops.1 stop' (.inr (List.mem_append_right _ hrest))

/-- Repeating an item reaches every position that steps of the item lead to. -/
theorem ensures_repeatItem_reach {step : Nat → Nat → Prop}
    (hitem : ∀ i, Ensures I (item i) fun rs =>
      ∀ j, step i j → ∃ n, (j, .node n) ∈ rs) (length i : Nat) :
    Ensures I (repeatItem length item i) fun rs =>
      ∀ j, Relation.ReflTransGen step i j → rs.Reach j := by
  have hstart : SearchState (fun i rs => ∀ j, step i j → ∃ n, (j, .node n) ∈ rs)
      [(i, .empty)] ∅ [] := by
    refine ⟨fun k hk => ?_, fun stop hstop => absurd hstop List.not_mem_nil⟩
    rw [Std.HashSet.contains_empty] at hk
    cases hk
  refine ensures_bind (ensures_search_closed hitem (length + 1) _ _ _ hstart)
    fun stops hstops => ensures_pure fun j hsteps => ?_
  obtain ⟨hvisited, hclosed⟩ := hstops
  have hreached : ∃ stop ∈ stops, stop.1 = j := by
    induction hsteps with
    | refl => exact hvisited (i, .empty) (.inr (List.mem_singleton_self _))
    | @tail m j _ hstep ih =>
      obtain ⟨stop, hstop, rfl⟩ := ih
      obtain ⟨found, hfound, honward⟩ := hclosed stop hstop
      obtain ⟨n, hn⟩ := hfound j hstep
      by_cases heq : j = stop.1
      · exact ⟨stop, hstop, heq.symm⟩
      · exact honward (j, stop.2.snoc n) (mem_onward.mpr ⟨n, hn, heq, rfl⟩)
  obtain ⟨stop, hstop, rfl⟩ := hreached
  exact ⟨.list stop.2, List.mem_map.mpr ⟨stop, hstop, rfl⟩⟩

end Eval

/-! ## Checking a chart -/

namespace Chart

/-- Answer a reference from the finished results alone. -/
def answer (c : Chart) (h : Handle) (start : Nat) : ChartM Results :=
  match c.finished[(⟨h, start⟩ : Key)]? with
  | some entry => pure entry.results
  | none => failure

/-- What the body of a rule finds when it is run once more over the finished results; there
is no answer if it asks for results that the chart does not hold. -/
def rerun? (rules : Registry) (input : Array Token) (c : Chart) (key : Key) : Option Results := do
  let body ← rules.get? key.handle
  let (results, _) ← (evalBody input c.answer key.handle body key.start).run {}
  return results

/-- Whether running every body once more brings no new end. -/
def isUpToDate (rules : Registry) (input : Array Token) (c : Chart) : Bool :=
  c.finished.toList.all fun (key, entry) =>
    match c.rerun? rules input key with
    | some results => !grew entry.results results
    | none => false

theorem exists_rerun_of_isUpToDate {rules : Registry} {input : Array Token} {c : Chart}
    (h : c.isUpToDate rules input = true) {key : Key} {entry : Finished} {body : Expr Handle}
    (hentry : c.finished[key]? = some entry) (hbody : rules.get? key.handle = some body) :
    ∃ results c', (evalBody input c.answer key.handle body key.start).run {} =
      some (results, c') ∧ ∀ stop, results.Reach stop → entry.results.Reach stop := by
  have hmem : (key, entry) ∈ c.finished.toList :=
    Std.TreeMap.mem_toList_iff_getElem?_eq_some.mpr hentry
  have hcheck := List.all_eq_true.mp h _ hmem
  dsimp only at hcheck
  split at hcheck
  · next results hrerun =>
    unfold rerun? at hrerun
    obtain ⟨body', hbody', hrerun⟩ := Option.bind_eq_some_iff.mp hrerun
    obtain ⟨⟨results', c'⟩, hrun, hpure⟩ := Option.bind_eq_some_iff.mp hrerun
    cases hbody.symm.trans hbody'
    cases hpure
    exact ⟨results, c', hrun, fun stop hstop =>
      Results.reach_of_not_grew (by simpa using hcheck) hstop⟩
  · cases hcheck

/-- A node that an item must find when it is run over the finished results. -/
def ItemStep (input : Array Token) (c : Chart) (item : Expr Handle) (i j : Nat) : Prop :=
  Ensures (fun _ => True) (eval input c.answer item i) fun rs => ∃ n, (j, .node n) ∈ rs

/-- An end that no entry of a rule lacks, and that the items of a repetition lead to. -/
def Offers (rules : Registry) (input : Array Token) (c : Chart) (h : Handle) (i j : Nat) : Prop :=
  (∀ entry, c.finished[(⟨h, i⟩ : Key)]? = some entry → entry.results.Reach j) ∧
    ∀ item, rules.get? h = some (.alt .nil (.cons item (.ref h))) →
      Relation.ReflTransGen (c.ItemStep input item) i j

/-- A chart whose bodies bring no new end when they are run once more is complete. -/
theorem complete_of_isUpToDate {rules : Registry} {input : Array Token} {c : Chart}
    {κ : Handle → Kind} (hκ : rules.Kinded κ) (hc : c.Kinded κ)
    (hup : c.isUpToDate rules input = true) : c.Complete rules input := by
  have hexpect : ∀ (c : Chart) (pos : Nat) (what : String), True → True := fun _ _ _ h => h
  have hanswer : ∀ h i, Ensures (fun _ => True) (c.answer h i) fun rs =>
      rs.AllOf (κ h) ∧ ∀ j, c.Offers rules input h i j → rs.Reach j := by
    intro h i
    unfold answer
    split
    · next entry hentry =>
      exact ensures_pure ⟨hc.finished ⟨h, i⟩ entry hentry, fun j hj => hj.1 entry hentry⟩
    · exact ensures_failure
  have hkind : ∀ h i, Ensures (fun _ => True) (c.answer h i) (Results.AllOf (κ h)) :=
    fun h i => ensures_mono (hanswer h i) fun _ hrs => hrs.1
  -- the body of a repetition is not run as written but searched, so what it leads to is
  -- first read as steps of its item
  have hknown : ∀ h body, rules.get? h = some body → ∀ i j, rules.Derives input h i j →
      body.LeadsTo input (c.Offers rules input) i j → c.Offers rules input h i j := by
    intro h body hbody i j _ hlead
    have hsteps : ∀ item, rules.get? h = some (.alt .nil (.cons item (.ref h))) →
        Relation.ReflTransGen (c.ItemStep input item) i j := by
      intro item hitem
      cases hbody.symm.trans hitem
      have hbodyKind := hκ h _ hbody
      simp only [Expr.LeadsTo] at hlead
      rcases hlead with rfl | ⟨m, hhead, htail⟩
      · exact .refl
      · cases hbodyKind with
        | alt _ hcons =>
          -- the kind of the repetition is an index here, and must be a variable to split
          generalize κ h = k at hcons
          cases hcons with
          | cons hitemKind _ =>
            refine .head ?_ (htail.2 item hitem)
            refine ensures_mono (ensures_and
              (ensures_eval_kind hexpect hkind item _ hitemKind i)
              (ensures_eval_reach hexpect hanswer item hitemKind i)) fun rs hrs => ?_
            obtain ⟨n, hn⟩ := mem_nodes_of_reach hrs.1 (hrs.2 m hhead)
            exact ⟨n, mem_nodes.mp hn⟩
    refine ⟨fun entry hentry => ?_, hsteps⟩
    obtain ⟨results, c', hrun, hold⟩ := exists_rerun_of_isUpToDate hup hentry hbody
    apply hold
    unfold evalBody at hrun
    split at hrun
    · next item hitem =>
      rw [repeatedItem?_eq_some hitem] at hbody
      have hall : ∀ i, Ensures (fun _ => True) (eval input c.answer item i) fun rs =>
          ∀ j, c.ItemStep input item i j → ∃ n, (j, .node n) ∈ rs :=
        fun i c₀ rs c₁ _ hrun => ⟨trivial, fun j hstep => (hstep c₀ rs c₁ trivial hrun).2⟩
      exact (ensures_repeatItem_reach hall _ i {} results c' trivial hrun).2 j
        (hsteps item hbody)
    · exact (ensures_eval_reach hexpect hanswer body (hκ h body hbody) i {} results c' trivial
        hrun).2 j hlead
  rintro key entry hentry stop ⟨hforward, sv, hmeans⟩
  have hlead := leadsTo_of_means hknown hmeans ⟨hforward, rfl⟩
  rw [Expr.LeadsTo] at hlead
  exact hlead.1 entry hentry

end Chart

end ChartGrammar
