/-
  Proofs/CompiledMeaning.lean --- compiled rules mean the values of their rules.

  The handle of a rule means exactly the values of the rule with their tokens, and
  the handle of a repetition's list exactly the lists of values of the repeated
  rule.  One direction is a closure argument over `Denotes`, the other an induction
  over values.
-/
import Mathlib
import ChartGrammar.Proofs.CompiledParser
import ChartGrammar.Proofs.Conformance
import ChartGrammar.Proofs.Meaning

set_option autoImplicit false

namespace ChartGrammar

/-! ## What the handles of compiled rules should mean -/

/-- A reading of handles: a rule's handle stands for its values, and the handle of a list
for lists of values of its item. -/
structure ValueReading (g : Grammar) (ids : List RuleId) (rules : Registry)
    (place : RuleId → Handle) (h : Handle) (ts : List Token) (sv : SemanticValue) : Prop where
  rule : ∀ id ∈ ids, h = place id → ∃ v, sv = .node v ∧ g.IsValue id v ∧ v.leaves = ts
  list : ∀ inner ∈ ids, rules.get? h = some (.listOf (place inner) h) →
    ∃ vs, sv = .list vs ∧ (∀ v ∈ vs, g.IsValue inner v) ∧ Value.leavesAll vs = ts

section Denotes

variable {I : Handle → List Token → SemanticValue → Prop} {ts : List Token} {sv : SemanticValue}

/-- An alternative of several denotes what one of them denotes. -/
theorem denotes_oneOf (others : List (Expr Handle)) :
    ∀ {first : Expr Handle}, (Expr.oneOf first others).Denotes I ts sv →
      ∃ e ∈ first :: others, e.Denotes I ts sv := by
  induction others with
  | nil => exact fun {first} h => ⟨first, List.mem_cons_self, h⟩
  | cons e others ih =>
    intro first h
    obtain ⟨e', he', hdenotes⟩ := ih h
    rcases List.mem_cons.mp he' with rfl | hothers
    · rw [Expr.Denotes] at hdenotes
      rcases hdenotes with hfirst | he
      · exact ⟨first, List.mem_cons_self, hfirst⟩
      · exact ⟨e, List.mem_cons_of_mem _ List.mem_cons_self, he⟩
    · exact ⟨e', List.mem_cons_of_mem _ (List.mem_cons_of_mem _ hothers), hdenotes⟩

/-- References one after another denote one value per reference. -/
theorem denotesAll_refs {g : Grammar} {place : RuleId → Handle} (fields : List RuleId)
    (hfields : ∀ id ∈ fields, ∀ us v, I (place id) us (.node v) → g.IsValue id v ∧ v.leaves = us) :
    ∀ us vs, Expr.DenotesAll I ((fields.map place).map Expr.ref) us vs →
      List.Forall₂ g.IsValue fields vs ∧ Value.leavesAll vs = us := by
  induction fields with
  | nil =>
    intro us vs h
    simp only [List.map_nil, Expr.DenotesAll] at h
    obtain ⟨rfl, rfl⟩ := h
    exact ⟨.nil, rfl⟩
  | cons id fields ih =>
    intro us vs h
    simp only [List.map_cons, Expr.DenotesAll, Expr.Denotes] at h
    obtain ⟨us₁, us₂, v, vs', rfl, hv, hvs, rfl⟩ := h
    obtain ⟨hvalue, hleaves⟩ := hfields id List.mem_cons_self us₁ v hv
    obtain ⟨hvalues, hrest⟩ :=
      ih (fun c hc => hfields c (List.mem_cons_of_mem _ hc)) us₂ vs' hvs
    exact ⟨.cons hvalue hvalues, by rw [Value.leavesAll, hleaves, hrest]⟩

/-- The fields of a branch or of a record denote one value per field. -/
theorem denotes_ofFields {g : Grammar} {place : RuleId → Handle} {fields : List RuleId}
    (hfields : ∀ id ∈ fields, ∀ us v, I (place id) us (.node v) → g.IsValue id v ∧ v.leaves = us)
    (h : (Expr.ofFields (fields.map place)).Denotes I ts sv) :
    ∃ vs, sv = .fields vs ∧ List.Forall₂ g.IsValue fields vs ∧ Value.leavesAll vs = ts := by
  cases fields with
  | nil =>
    simp only [List.map_nil, Expr.ofFields, Expr.Denotes] at h
    obtain ⟨rfl, rfl⟩ := h
    exact ⟨[], rfl, .nil, rfl⟩
  | cons id fields =>
    have hseq : Expr.ofFields ((id :: fields).map place) =
        .seq (((id :: fields).map place).map .ref) := rfl
    rw [hseq, Expr.Denotes] at h
    obtain ⟨vs, hvs, rfl⟩ := h
    obtain ⟨hvalues, hleaves⟩ := denotesAll_refs _ hfields ts vs hvs
    exact ⟨vs, rfl, hvalues, hleaves⟩

end Denotes

namespace CompiledRules

variable {g : Grammar} {ids : List RuleId} {rules : Registry} {place : RuleId → Handle}

/-! ## Whatever a handle means is a value -/

section Soundness

variable {ts : List Token} {sv : SemanticValue}

theorem isValue_of_reading {id : RuleId} {v : Value} (hid : id ∈ ids)
    (h : ValueReading g ids rules place (place id) ts (.node v)) :
    g.IsValue id v ∧ v.leaves = ts := by
  obtain ⟨v', heq, hvalue, hleaves⟩ := h.rule id hid rfl
  cases heq
  exact ⟨hvalue, hleaves⟩

theorem isValues_of_reading {inner : RuleId} {list : Handle} {vs : List Value}
    (hinner : inner ∈ ids) (hlist : rules.get? list = some (.listOf (place inner) list))
    (h : ValueReading g ids rules place list ts (.list vs)) :
    (∀ v ∈ vs, g.IsValue inner v) ∧ Value.leavesAll vs = ts := by
  obtain ⟨vs', heq, hvalues, hleaves⟩ := h.list inner hinner hlist
  cases heq
  exact ⟨hvalues, hleaves⟩

/-- The expression of a branch denotes values of that branch. -/
theorem denotes_branchExpr {name : String} {b : Branch RuleId} (hb : ∀ c ∈ b.fields, c ∈ ids)
    (h : (Rhs.branchExpr name ⟨b.label, b.fields.map place⟩).Denotes
      (ValueReading g ids rules place) ts sv) :
    ∃ vs, sv = .node (.branch name b.label vs) ∧ List.Forall₂ g.IsValue b.fields vs ∧
      Value.leavesAll vs = ts := by
  rw [Rhs.branchExpr, Expr.Denotes] at h
  obtain ⟨sv', v, hfields, happly, rfl⟩ := h
  obtain ⟨vs, rfl, hvalues, hleaves⟩ :=
    denotes_ofFields (fun c hc us v h => isValue_of_reading (hb c hc) h) hfields
  have hlen : vs.length = (b.fields.map place).length := by
    rw [List.length_map, hvalues.length_eq]
  rw [Constructor.apply, if_pos hlen] at happly
  cases happly
  exact ⟨vs, rfl, hvalues, hleaves⟩

/-- The expression of a right-hand side denotes values of its rule. -/
theorem denotes_expr {id : RuleId} {r : Rule} {list : Handle} (hr : g.get? id = some r)
    (hbranches : r.rhs ≠ .choice []) (hchildren : ∀ c ∈ r.rhs.children, c ∈ ids)
    (hlist : ∀ inner, r.rhs.repeated? = some inner →
      rules.get? list = some (.listOf (place inner) list))
    (h : ((r.rhs.map place).expr r.name list).Denotes (ValueReading g ids rules place) ts sv) :
    ∃ v, sv = .node v ∧ g.IsValue id v ∧ v.leaves = ts := by
  cases hrhs : r.rhs with
  | terminal p =>
    simp only [hrhs, Rhs.map, Rhs.expr, Expr.Denotes] at h
    obtain ⟨_, v, ⟨t, ht, rfl, rfl⟩, happly, rfl⟩ := h
    cases happly
    exact ⟨_, rfl, .terminal hr hrhs ht, rfl⟩
  | series literal =>
    simp only [hrhs, Rhs.map, Rhs.expr, Expr.Denotes] at h
    obtain ⟨_, v, ⟨hts, rfl⟩, happly, rfl⟩ := h
    cases happly
    exact ⟨_, rfl, .series hr hrhs hts, rfl⟩
  | choice branches =>
    cases branches with
    | nil => exact absurd hrhs hbranches
    | cons b bs =>
      have hfields : ∀ b' ∈ b :: bs, ∀ c ∈ b'.fields, c ∈ ids := by
        intro b' hb' c hc
        apply hchildren
        rw [hrhs, Rhs.children]
        exact List.mem_flatMap.mpr ⟨b', hb', hc⟩
      simp only [hrhs, Rhs.map, List.map_cons, Rhs.expr, List.map_map] at h
      obtain ⟨e, he, hdenotes⟩ := denotes_oneOf _ h
      have : ∃ b' ∈ b :: bs, e = Rhs.branchExpr r.name ⟨b'.label, b'.fields.map place⟩ := by
        rcases List.mem_cons.mp he with rfl | he
        · exact ⟨b, List.mem_cons_self, rfl⟩
        · obtain ⟨b', hb', rfl⟩ := List.mem_map.mp he
          exact ⟨b', List.mem_cons_of_mem _ hb', rfl⟩
      obtain ⟨b', hb', rfl⟩ := this
      obtain ⟨vs, rfl, hvalues, hleaves⟩ := denotes_branchExpr (hfields b' hb') hdenotes
      exact ⟨_, rfl, .branch hr hrhs hb' hvalues, hleaves⟩
  | wrap inner =>
    have hinner : inner ∈ ids := hchildren inner (by rw [hrhs]; exact List.mem_singleton_self _)
    simp only [hrhs, Rhs.map, Rhs.expr, Expr.Denotes] at h
    obtain ⟨sv', v, hreading, happly, rfl⟩ := h
    obtain ⟨w, rfl, hvalue, hleaves⟩ := hreading.rule inner hinner rfl
    cases happly
    exact ⟨_, rfl, .wrap hr hrhs hvalue, hleaves⟩
  | record fields =>
    simp only [hrhs, Rhs.map, Rhs.expr, Expr.Denotes] at h
    obtain ⟨sv', v, hfields, happly, rfl⟩ := h
    obtain ⟨vs, rfl, hvalues, hleaves⟩ := denotes_ofFields
      (fun c hc us v h => isValue_of_reading (hchildren c (by rw [hrhs]; exact hc)) h) hfields
    have hlen : vs.length = (fields.map place).length := by
      rw [List.length_map, hvalues.length_eq]
    rw [Constructor.apply, if_pos hlen] at happly
    cases happly
    exact ⟨_, rfl, .record hr hrhs hvalues, hleaves⟩
  | opt inner =>
    have hinner : inner ∈ ids := hchildren inner (by rw [hrhs]; exact List.mem_singleton_self _)
    simp only [hrhs, Rhs.map, Rhs.expr, Expr.Denotes] at h
    obtain ⟨sv', v, ⟨rfl, rfl⟩ | ⟨w, hreading, rfl⟩, happly, rfl⟩ := h
    · cases happly
      exact ⟨_, rfl, .absent hr hrhs, rfl⟩
    · obtain ⟨hvalue, hleaves⟩ := isValue_of_reading hinner hreading
      cases happly
      exact ⟨_, rfl, .present hr hrhs hvalue, hleaves⟩
  | star inner =>
    have hinner : inner ∈ ids := hchildren inner (by rw [hrhs]; exact List.mem_singleton_self _)
    simp only [hrhs, Rhs.map, Rhs.expr, Expr.Denotes] at h
    obtain ⟨sv', v, hreading, happly, rfl⟩ := h
    have hrepeated : r.rhs.repeated? = some inner := by rw [hrhs]; rfl
    obtain ⟨vs, rfl, hvalues, hleaves⟩ := hreading.list inner hinner (hlist inner hrepeated)
    cases happly
    exact ⟨_, rfl, .star hr hrhs hvalues, hleaves⟩
  | plus inner =>
    have hinner : inner ∈ ids := hchildren inner (by rw [hrhs]; exact List.mem_singleton_self _)
    simp only [hrhs, Rhs.map, Rhs.expr, Expr.Denotes] at h
    obtain ⟨sv', v, ⟨us, ws, w, vs, rfl, hhead, htail, rfl⟩, happly, rfl⟩ := h
    obtain ⟨hvalue, rfl⟩ := isValue_of_reading hinner hhead
    obtain ⟨hvalues, rfl⟩ :=
      isValues_of_reading hinner (hlist inner (by rw [hrhs]; rfl)) htail
    cases happly
    exact ⟨_, rfl, .plus hr hrhs hvalue hvalues, rfl⟩

/-- A list body denotes lists of values of its item. -/
theorem denotes_listOf {inner : RuleId} {list : Handle} (hinner : inner ∈ ids)
    (hlist : rules.get? list = some (.listOf (place inner) list))
    (h : (Expr.listOf (place inner) list).Denotes (ValueReading g ids rules place) ts sv) :
    ∃ vs, sv = .list vs ∧ (∀ v ∈ vs, g.IsValue inner v) ∧ Value.leavesAll vs = ts := by
  simp only [Expr.listOf, Expr.Denotes] at h
  rcases h with ⟨rfl, rfl⟩ | ⟨us, ws, v, vs, rfl, hhead, htail, rfl⟩
  · exact ⟨[], rfl, fun _ hv => absurd hv List.not_mem_nil, rfl⟩
  · obtain ⟨hvalue, rfl⟩ := isValue_of_reading hinner hhead
    obtain ⟨hvalues, rfl⟩ := isValues_of_reading hinner hlist htail
    exact ⟨v :: vs, rfl, List.forall_mem_cons.mpr ⟨hvalue, hvalues⟩, rfl⟩

/-- The reading of handles as values is closed under the bodies of compiled rules, so it
holds whatever they mean. -/
theorem reading_of_means (hc : CompiledRules g ids rules place) (hg : g.WellFormed)
    {h : Handle} (hmeans : rules.Means (.ref h) ts sv) :
    ValueReading g ids rules place h ts sv := by
  -- the reading is closed under the bodies, and the meaning is the least such relation
  have hclosed : ∀ h body, rules.get? h = some body → ∀ ts sv,
      body.Denotes (ValueReading g ids rules place) ts sv →
        ValueReading g ids rules place h ts sv := by
    intro h body hbody ts sv hdenotes
    refine ⟨?_, ?_⟩
    · rintro id hid rfl
      obtain ⟨r, list, hr, hrule, hlist⟩ := hc.body id hid
      rw [hrule] at hbody
      cases hbody
      rw [Expr.Denotes] at hdenotes
      refine denotes_expr hr ?_ (hc.closed id hid r hr) hlist hdenotes
      intro hrhs
      exact (hg.rules r (Grammar.mem_of_get? hr)).branches_ne_nil hrhs rfl
    · intro inner hinner hlist
      have hlist' := hlist
      rw [hbody] at hlist'
      cases hlist'
      exact denotes_listOf hinner hlist hdenotes
  have hread := hmeans.denotes hclosed
  rwa [Expr.Denotes] at hread

end Soundness

/-! ## Every value is what its handle means -/

section Completeness

/-- Values that the references mean are fields that they mean together. -/
theorem means_ofFields {fields : List RuleId} {vs : List Value}
    (h : List.Forall₂ (fun c v => rules.Means (.ref (place c)) v.leaves (.node v)) fields vs) :
    rules.Means (.ofFields (fields.map place)) (Value.leavesAll vs) (.fields vs) := by
  have hseq : rules.Means (.seq ((fields.map place).map .ref)) (Value.leavesAll vs)
      (.fields vs) := by
    induction h with
    | nil => exact .seqNil
    | cons hv _ ih => exact .seqCons hv ih
  cases h with
  | nil => exact .unit
  | cons _ _ => exact hseq

/-- Values that the item means form lists that the list means. -/
theorem means_list {item list : Handle} (hlist : rules.get? list = some (.listOf item list))
    (vs : List Value) (hvs : ∀ v ∈ vs, rules.Means (.ref item) v.leaves (.node v)) :
    rules.Means (.ref list) (Value.leavesAll vs) (.list vs) := by
  induction vs with
  | nil => exact .ref hlist (.altLeft .nil)
  | cons v vs ih =>
    obtain ⟨hv, htail⟩ := List.forall_mem_cons.mp hvs
    exact .ref hlist (.altRight (.cons hv (ih htail)))

/-- The expression of a right-hand side means every value whose parts the references
mean. -/
theorem means_expr {id : RuleId} {r : Rule} {list : Handle} {v : Value}
    (hr : g.get? id = some r)
    (hlist : ∀ inner, r.rhs.repeated? = some inner →
      rules.get? list = some (.listOf (place inner) list))
    (hparts : ∀ c ∈ r.rhs.children, ∀ w ∈ v.children, g.IsValue c w →
      rules.Means (.ref (place c)) w.leaves (.node w))
    (hv : g.IsValue id v) :
    rules.Means ((r.rhs.map place).expr r.name list) v.leaves (.node v) := by
  cases hv with
  | terminal hr' hrhs ht =>
    cases hr.symm.trans hr'
    rw [hrhs]
    exact .map (.matchOne ht) rfl
  | series hr' hrhs hts =>
    cases hr.symm.trans hr'
    rw [hrhs]
    exact .map (.symbol hts) rfl
  | @branch _ _ branches b vs hr' hrhs hb hvs =>
    cases hr.symm.trans hr'
    have hfields : List.Forall₂ (fun c w => rules.Means (.ref (place c)) w.leaves (.node w))
        b.fields vs := by
      rw [List.forall₂_iff_zip] at hvs ⊢
      refine ⟨hvs.1, fun {c w} hmem => hparts c ?_ w (List.of_mem_zip hmem).2 (hvs.2 hmem)⟩
      rw [hrhs, Rhs.children]
      exact List.mem_flatMap.mpr ⟨b, hb, (List.of_mem_zip hmem).1⟩
    have hbranch : rules.Means (Rhs.branchExpr r.name ⟨b.label, b.fields.map place⟩)
        (Value.leavesAll vs) (.node (.branch r.name b.label vs)) := by
      refine .map (means_ofFields hfields) ?_
      rw [Constructor.apply, if_pos (by rw [List.length_map, hvs.length_eq])]
    cases branches with
    | nil => cases hb
    | cons b₀ bs =>
      simp only [hrhs, Rhs.map, List.map_cons, Rhs.expr, List.map_map]
      refine .oneOf _ ?_ hbranch
      rcases List.mem_cons.mp hb with rfl | hb
      · exact List.mem_cons_self
      · exact List.mem_cons_of_mem _ (List.mem_map.mpr ⟨b, hb, rfl⟩)
  | wrap hr' hrhs hw =>
    cases hr.symm.trans hr'
    have hmeans := hparts _ (by rw [hrhs]; exact List.mem_singleton_self _) _
      (List.mem_singleton_self _) hw
    rw [hrhs]
    exact .map hmeans rfl
  | @record _ _ fields vs hr' hrhs hvs =>
    cases hr.symm.trans hr'
    have hfields : List.Forall₂ (fun c w => rules.Means (.ref (place c)) w.leaves (.node w))
        fields vs := by
      rw [List.forall₂_iff_zip] at hvs ⊢
      refine ⟨hvs.1, fun {c w} hmem => hparts c ?_ w (List.of_mem_zip hmem).2 (hvs.2 hmem)⟩
      rw [hrhs]
      exact (List.of_mem_zip hmem).1
    rw [hrhs]
    refine .map (means_ofFields hfields) ?_
    rw [Constructor.apply, if_pos (by rw [List.length_map, hvs.length_eq])]
  | absent hr' hrhs =>
    cases hr.symm.trans hr'
    rw [hrhs]
    exact .map (.altLeft .nothing) rfl
  | present hr' hrhs hw =>
    cases hr.symm.trans hr'
    have hmeans := hparts _ (by rw [hrhs]; exact List.mem_singleton_self _) _
      (List.mem_singleton_self _) hw
    rw [hrhs]
    exact .map (.altRight (.just hmeans)) rfl
  | star hr' hrhs hvs =>
    cases hr.symm.trans hr'
    have hmeans := means_list (hlist _ (by rw [hrhs]; rfl)) _ fun w hw =>
      hparts _ (by rw [hrhs]; exact List.mem_singleton_self _) w hw (hvs w hw)
    rw [hrhs]
    exact .map hmeans rfl
  | plus hr' hrhs hw hvs =>
    cases hr.symm.trans hr'
    have hchild : ∀ w ∈ _ :: _, g.IsValue _ w → rules.Means (.ref (place _)) w.leaves (.node w) :=
      hparts _ (by rw [hrhs]; exact List.mem_singleton_self _)
    have htail := means_list (hlist _ (by rw [hrhs]; rfl)) _ fun w hw =>
      hchild w (List.mem_cons_of_mem _ hw) (hvs w hw)
    rw [hrhs]
    exact .map (.pair (hchild _ List.mem_cons_self hw) htail) rfl

/-- Every value of a compiled rule is among what its handle means. -/
theorem means_of_isValue (hc : CompiledRules g ids rules place) (v : Value) :
    ∀ id ∈ ids, g.IsValue id v → rules.Means (.ref (place id)) v.leaves (.node v) := by
  induction v using Value.induction_children with
  | step v ih =>
    intro id hid hv
    obtain ⟨r, list, hr, hrule, hlist⟩ := hc.body id hid
    have hparts : ∀ c ∈ r.rhs.children, ∀ w ∈ v.children, g.IsValue c w →
        rules.Means (.ref (place c)) w.leaves (.node w) :=
      fun c hchild w hw => ih w hw c (hc.closed id hid r hr c hchild)
    exact .ref hrule (.label (means_expr hr hlist hparts hv))

end Completeness

/-! ## The two together -/

/-- The handle of a compiled rule means exactly the values of the rule. -/
theorem means_rule_iff (hc : CompiledRules g ids rules place) (hg : g.WellFormed)
    {id : RuleId} (hid : id ∈ ids) {ts : List Token} {sv : SemanticValue} :
    rules.Means (.ref (place id)) ts sv ↔
      ∃ v, sv = .node v ∧ g.IsValue id v ∧ v.leaves = ts := by
  constructor
  · intro h
    exact (reading_of_means hc hg h).rule id hid rfl
  · rintro ⟨v, rfl, hv, rfl⟩
    exact hc.means_of_isValue v id hid hv

/-- The handle of a list means exactly the lists of values of its item. -/
theorem means_list_iff (hc : CompiledRules g ids rules place) (hg : g.WellFormed)
    {inner : RuleId} (hinner : inner ∈ ids) {list : Handle}
    (hlist : rules.get? list = some (.listOf (place inner) list)) {ts : List Token}
    {sv : SemanticValue} :
    rules.Means (.ref list) ts sv ↔
      ∃ vs, sv = .list vs ∧ (∀ v ∈ vs, g.IsValue inner v) ∧ Value.leavesAll vs = ts := by
  constructor
  · intro h
    exact (reading_of_means hc hg h).list inner hinner hlist
  · rintro ⟨vs, rfl, hvs, rfl⟩
    exact means_list hlist vs fun v hv => hc.means_of_isValue v inner hinner (hvs v hv)

end CompiledRules

/-- Compiling keeps the meaning of a grammar: over its own signature every rule compiles,
the handle of every rule that the root reaches means exactly the values of that rule, and
the list of a repetition means exactly the lists of values of the repeated rule. -/
theorem Parser.compile_means_values {g : Grammar} {root : RuleId} (hg : g.Built)
    (hroot : g.contains root = true) :
    ∃ p place, Parser.compile (Signature.ofGrammar g) g root = .ok p ∧ p.root = place root ∧
      ∀ id ∈ g.reachable [root], ∃ r, g.get? id = some r ∧
        ruleHandle? (Signature.ofGrammar g) g (g.reachable [root]) id = some (place id) ∧
        (∀ ts sv, p.rules.Means (.ref (place id)) ts sv ↔
          ∃ v, sv = .node v ∧ g.IsValue id v ∧ v.leaves = ts) ∧
        ∀ inner, r.rhs.repeated? = some inner → ∃ list,
          p.rules.get? (place id) =
            some (.label r.title ((r.rhs.map place).expr r.name list)) ∧
          p.rules.get? list = some (.listOf (place inner) list) ∧
          ∀ ts sv, p.rules.Means (.ref list) ts sv ↔
            ∃ vs, sv = .list vs ∧ (∀ v ∈ vs, g.IsValue inner v) ∧ Value.leavesAll vs = ts := by
  have hwf := hg.wellFormed
  obtain ⟨p, hp⟩ := Parser.exists_compile hwf hroot
  obtain ⟨place, hc, hplace, -, hhandle⟩ := Parser.compile_spec hwf hp
  refine ⟨p, place, hp, hplace, fun id hid => ?_⟩
  obtain ⟨r, list, hr, hrule, hlist⟩ := hc.body id hid
  refine ⟨r, hr, hhandle id hid, fun ts sv => hc.means_rule_iff hwf hid, fun inner hinner => ?_⟩
  have hmem : inner ∈ g.reachable [root] :=
    hc.closed id hid r hr inner (Rhs.repeated?_mem_children hinner)
  exact ⟨list, hrule, hlist inner hinner,
    fun ts sv => hc.means_list_iff hwf hmem (hlist inner hinner)⟩

/-- Sums of numbers, grouped to the left, with blanks after each of their signs. -/
def Grammar.sums : Grammar := ⟨#[
  ⟨"sum", none, .choice [⟨"Add", [⟨0⟩, ⟨1⟩, ⟨2⟩, ⟨3⟩]⟩, ⟨"One", [⟨3⟩]⟩]⟩,
  ⟨"sign", none, .terminal (.char '+')⟩,
  ⟨"blanks", none, .star ⟨4⟩⟩,
  ⟨"number", none, .plus ⟨5⟩⟩,
  ⟨"blank", none, .terminal (.char ' ')⟩,
  ⟨"digit", none, .terminal .digit⟩]⟩

theorem Grammar.parse_sums : Grammar.parse
    "sum = Add: sum sign blanks number | One: number ; sign = '+' ; blanks = blank* ;
     number = digit+ ; blank = ' ' ; digit = @digit ;" = .ok sums := by
  cbv

theorem Parser.compile_means_values_sums :
    Grammar.sums.contains ⟨0⟩ = true ∧
    ∃ p, Parser.compile (Signature.ofGrammar Grammar.sums) Grammar.sums ⟨0⟩ = .ok p ∧
      ∀ ts sv, p.rules.Means (.ref p.root) ts sv ↔
        ∃ v, sv = .node v ∧ Grammar.sums.IsValue ⟨0⟩ v ∧ v.leaves = ts := by
  have hroot : Grammar.sums.contains ⟨0⟩ = true := by decide
  obtain ⟨p, place, hp, hplace, hrules⟩ :=
    Parser.compile_means_values (Grammar.built_of_parse Grammar.parse_sums) hroot
  have hmem : (⟨0⟩ : RuleId) ∈ Grammar.sums.reachable [⟨0⟩] :=
    Grammar.mem_reachable_root (List.mem_singleton_self _) hroot
  obtain ⟨r, -, -, hmeans, -⟩ := hrules ⟨0⟩ hmem
  exact ⟨hroot, p, hp, by rw [hplace]; exact hmeans⟩

end ChartGrammar
