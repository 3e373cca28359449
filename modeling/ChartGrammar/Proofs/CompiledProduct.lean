/-
  Proofs/CompiledProduct.lean --- one product or many parsers.

  A product compiles every rule that some roots reach into one registry; a parser compiles
  what one rule reaches.  The registries differ in size and in all handles, but both hold
  what the rule reaches, so they parse it alike.  They also compile alike: what a root
  reaches belongs to the product, and the signature has to answer for it in either case.
-/
import ChartGrammar.Language
import ChartGrammar.Proofs.Seats

set_option autoImplicit false

namespace ChartGrammar

/-! ## When rules compile -/

section Success

variable {sig : Signature} {g : Grammar} {id : RuleId} {r : Rule} {ids body : List RuleId}

/-- A signature that has the constructor of a rule answers for the rule. -/
theorem Signature.agrees_of_resolveRule {c : Constructor} (h : sig.resolveRule r = .ok c) :
    sig.Agrees r := by
  have hneeds := resolveRule_eq_ok h
  unfold resolveRule check at h
  rw [hneeds] at h
  dsimp only at h
  split at h
  · next hanswer =>
    refine ⟨fun c' hc' => ?_, fun b hb => ?_⟩
    · cases hneeds.symm.trans hc'
      exact hanswer
    · cases hrhs : r.rhs with
      | choice branches => simp [Production.constructor?, hrhs] at hneeds
      | _ => simp [Production.branches, hrhs] at hb
  · cases h

theorem Signature.branch_of_resolveBranch {b : Branch RuleId} {c : Constructor}
    (h : sig.resolveBranch r b = .ok c) :
    sig.branch r.name b.label = some (r.branchConstructor b) := by
  unfold resolveBranch check at h
  split at h
  · assumption
  · cases h

/-- What compiles has branches if it is a choice, and all the constructors that it needs. -/
theorem agrees_of_compileRhs {x : Expr Ident × List (Binding (Expr Ident))} {s t : NameSupply}
    (h : (compileRhs sig g id r).run s = .ok (x, t)) : sig.Agrees r ∧ r.rhs ≠ .choice [] := by
  unfold compileRhs at h
  cases hrhs : r.rhs with
  | choice branches =>
    rw [hrhs] at h
    obtain ⟨es, u, hes, h⟩ := run_bind_eq_ok_iff.mp h
    have hall := forall₂_of_mapM_run hes
    refine ⟨⟨?_, ?_⟩, ?_⟩
    · intro c hc
      simp [Production.constructor?, hrhs] at hc
    · intro b hb
      simp only [Production.branches, hrhs] at hb
      obtain ⟨e, -, u', v, hrun⟩ := forall₂_exists_left hall hb
      obtain ⟨c, w, hask, -⟩ := run_bind_eq_ok_iff.mp hrun
      exact Signature.branch_of_resolveBranch (run_liftM_eq_ok_iff.mp hask).1
    · intro hnone
      cases hnone
      cases hall
      cases h
  | _ =>
    rw [hrhs] at h
    obtain ⟨c, u, hask, -⟩ := run_bind_eq_ok_iff.mp h
    exact ⟨Signature.agrees_of_resolveRule (run_liftM_eq_ok_iff.mp hask).1, by simp⟩

theorem agrees_of_compileRule {bs : List (Binding (Expr Ident))} {s t : NameSupply}
    (h : (compileRule sig g id).run s = .ok (bs, t)) :
    ∃ r, g.get? id = some r ∧ sig.Agrees r := by
  unfold compileRule at h
  obtain ⟨r, u, hask, h⟩ := run_bind_eq_ok_iff.mp h
  obtain ⟨i, u', -, h⟩ := run_bind_eq_ok_iff.mp h
  obtain ⟨x, v, hrhs, -⟩ := run_bind_eq_ok_iff.mp h
  exact ⟨r, Grammar.rule_eq_ok_iff.mp (run_liftM_eq_ok_iff.mp hask).1,
    (agrees_of_compileRhs hrhs).1⟩

/-- A signature answers for every one of some rules. -/
def Signature.AgreesOn (sig : Signature) (g : Grammar) (ids : List RuleId) : Prop :=
  ∀ id ∈ ids, ∃ r, g.get? id = some r ∧ sig.Agrees r

/-- A signature answers for all that some roots reach if and only if it does so for each root. -/
theorem Signature.agreesOn_reachable_iff {roots : List RuleId} :
    (∀ root ∈ roots, g.contains root = true) ∧ sig.AgreesOn g (g.reachable roots) ↔
      ∀ root ∈ roots, g.contains root = true ∧ sig.AgreesOn g (g.reachable [root]) := by
  constructor
  · rintro ⟨hroots, hagrees⟩ root hroot
    refine ⟨hroots root hroot, fun id hid => hagrees id ?_⟩
    exact Grammar.reachable_subset (Grammar.mem_reachable_root hroot (hroots root hroot)) id hid
  · intro hall
    refine ⟨fun root hroot => (hall root hroot).1, fun id hid => ?_⟩
    obtain ⟨root, hroot, -, hid⟩ := Grammar.exists_root_of_reachable hid
    exact (hall root hroot).2 id hid

/-- Rules that refer only to each other compile into a group if and only if the signature
answers for them. -/
theorem exists_compileGroup_iff (hg : g.WellFormed) (hnodup : ids.Nodup)
    (hclosed : ∀ id ∈ ids, ∀ r, g.get? id = some r → ∀ c ∈ r.rhs.children, c ∈ ids)
    (hbody : ∀ id ∈ body, id ∈ ids) :
    (∃ group, compileGroup sig g ids body = .ok group) ↔ sig.AgreesOn g ids := by
  constructor
  · rintro ⟨group, hgroup⟩
    obtain ⟨⟨⟨bindings, idents⟩, u⟩, hrun, -⟩ := bind_eq_ok_iff.mp hgroup
    obtain ⟨t, hcompile, -⟩ := run_compile_group hrun
    obtain ⟨bss, v, hbss, -⟩ := run_bind_eq_ok_iff.mp hcompile
    intro id hid
    obtain ⟨bs, -, v, w, hrule⟩ := forall₂_exists_left (forall₂_of_mapM_run hbss) hid
    exact agrees_of_compileRule hrule
  · intro hagrees
    refine exists_compileGroup hnodup (fun id hid => ?_) hclosed hbody
    obtain ⟨r, hr, hr'⟩ := hagrees id hid
    refine ⟨r, hr, hr', fun hnone => ?_⟩
    exact (hg.rules r (Grammar.mem_of_get? hr)).branches_ne_nil hnone rfl

/-- A rule has a parser if and only if it exists and the signature answers for all that it
reaches. -/
theorem Parser.exists_compile_iff (hg : g.WellFormed) {root : RuleId} :
    (∃ p, compile sig g root = .ok p) ↔
      g.contains root = true ∧ sig.AgreesOn g (g.reachable [root]) := by
  have hgroups : g.contains root = true →
      ((∃ group, compileGroup sig g (g.reachable [root]) [root] = .ok group) ↔
        sig.AgreesOn g (g.reachable [root])) := fun hroot =>
    exists_compileGroup_iff hg (Grammar.reachable_result g [root]).nodup
      (fun id hid r hr c hc => hg.mem_reachable_child hid hr hc)
      (List.forall_mem_singleton.mpr
        (Grammar.mem_reachable_root (List.mem_singleton_self root) hroot))
  constructor
  · rintro ⟨p, hp⟩
    obtain ⟨r, hr, h⟩ := bind_eq_ok_iff.mp hp
    obtain ⟨group, hgroup, -⟩ := bind_eq_ok_iff.mp h
    have hroot := Grammar.contains_iff.mpr ⟨r, Grammar.rule_eq_ok_iff.mp hr⟩
    exact ⟨hroot, (hgroups hroot).mp ⟨group, hgroup⟩⟩
  · rintro ⟨hroot, hagrees⟩
    obtain ⟨r, hr⟩ := Grammar.contains_iff.mp hroot
    obtain ⟨group, hgroup⟩ := (hgroups hroot).mpr hagrees
    exact ⟨_, bind_eq_ok_iff.mpr ⟨r, Grammar.rule_eq_ok_iff.mpr hr,
      bind_eq_ok_iff.mpr ⟨group, hgroup, rfl⟩⟩⟩

end Success

/-! ## Parsers and products -/

section Compiled

variable {sig : Signature} {g : Grammar} {label : String → String} {roots : List RuleId}

theorem Parser.exists_holds {root : RuleId} {p : Parser} (hg : g.WellFormed)
    (h : compile sig g root = .ok p) :
    ∃ f, p.rules.Holds (g.seatBodies (g.reachable [root])) f ∧ p.root = f root.seat := by
  obtain ⟨place, -, hroot, hmem, hplace⟩ := compile_spec hg h
  obtain ⟨r, -, h⟩ := bind_eq_ok_iff.mp h
  obtain ⟨group, hgroup, hp⟩ := bind_eq_ok_iff.mp h
  cases hp
  obtain ⟨f, hf, hhandle⟩ := exists_holds_of_compileGroup
    (Grammar.reachable_result g [root]).nodup hgroup (fun _ hid => hid)
    (fun id hid r hr c hc => hg.mem_reachable_child hid hr hc)
  refine ⟨f, hf, ?_⟩
  rw [hroot]
  exact Option.some.inj ((hplace root hmem).symm.trans (hhandle root hmem))

namespace Product

/-- The labels of the rules that some roots reach. -/
def labelsOf (label : String → String) (g : Grammar) (roots : List RuleId) : List String :=
  (g.reachable roots).map fun id => label (g.nameOf id)

/-- Once its group has compiled, a product needs distinct labels and nothing else. -/
theorem compile_eq (hroots : ∀ root ∈ roots, g.contains root = true) {group : Group (Expr Slot)}
    (hgroup : compileGroup sig g (g.reachable roots) (g.reachable roots) = .ok group) :
    compile sig label g roots =
      match firstRepeat? (labelsOf label g roots) with
      | some l => .error (.duplicateBinding l)
      | none => .ok ⟨group.toRegistry, roots.map fun id => label (g.nameOf id),
          (labelsOf label g roots).zip (group.body.map Slot.toHandle)⟩ := by
  unfold compile
  rw [Grammar.forM_rule_eq_ok_iff.mpr hroots]
  dsimp only
  rw [hgroup]
  rfl

/-- A product that compiled is a group of all the rules that its roots reach, under labels
that are distinct. -/
theorem compile_eq_ok {q : Product} (h : compile sig label g roots = .ok q) :
    (∀ root ∈ roots, g.contains root = true) ∧ (labelsOf label g roots).Nodup ∧
      ∃ group, compileGroup sig g (g.reachable roots) (g.reachable roots) = .ok group ∧
        q = ⟨group.toRegistry, roots.map fun id => label (g.nameOf id),
          (labelsOf label g roots).zip (group.body.map Slot.toHandle)⟩ := by
  obtain ⟨_, hroots, hrest⟩ := bind_eq_ok_iff.mp h
  obtain ⟨group, hgroup, -⟩ := bind_eq_ok_iff.mp hrest
  have hroots := Grammar.forM_rule_eq_ok_iff.mp hroots
  rw [compile_eq hroots hgroup] at h
  split at h
  · cases h
  · next hrepeat =>
    cases h
    exact ⟨hroots, (firstRepeat?_eq_none_iff _).mp hrepeat, group, hgroup, rfl⟩

/-- Products look rules up by labels that are distinct. -/
theorem lookup_zip_map {α β γ : Type} [DecidableEq β] {a : α → β} {b : α → γ} {as : List α}
    (hnodup : (as.map a).Nodup) {x : α} (hx : x ∈ as) :
    ((as.map a).zip (as.map b)).lookup (a x) = some (b x) := by
  induction as with
  | nil => cases hx
  | cons y as ih =>
    rw [List.map_cons, List.nodup_cons] at hnodup
    rw [List.map_cons, List.map_cons, List.zip_cons_cons, List.lookup_cons]
    rcases List.mem_cons.mp hx with rfl | hx
    · rw [beq_self_eq_true]
    · have hne : (a x == a y) = false := by
        rw [beq_eq_false_iff_ne]
        exact ne_of_mem_of_not_mem (List.mem_map_of_mem hx) hnodup.1
      rw [hne]
      exact ih hnodup.2 hx

/-- A compiled product holds every rule that its roots reach, and lists them by label. -/
theorem compile_spec {q : Product} (hg : g.WellFormed) (h : compile sig label g roots = .ok q) :
    ∃ place, CompiledRules g (g.reachable roots) q.rules place ∧
      q.labels = labelsOf label g roots ∧
      ∀ id ∈ g.reachable roots, q.get? (label (g.nameOf id)) = some (place id) ∧
        ruleHandle? sig g (g.reachable roots) id = some (place id) := by
  obtain ⟨-, hlabels, group, hgroup, rfl⟩ := compile_eq_ok h
  obtain ⟨place, hcompiled, hbody, hplace⟩ :=
    compileGroup_spec (Grammar.reachable_result g roots).nodup
      (fun id hid r hr c hc => hg.mem_reachable_child hid hr hc) (fun _ hid => hid) hgroup
  refine ⟨place, hcompiled, ?_, fun id hid => ⟨?_, hplace id hid⟩⟩
  · rw [labels, hbody]
    exact List.map_fst_zip (by simp [labelsOf])
  · rw [get?, hbody]
    exact lookup_zip_map hlabels hid

theorem exists_holds {q : Product} (hg : g.WellFormed) (h : compile sig label g roots = .ok q)
    {id : RuleId} (hid : id ∈ g.reachable roots) :
    ∃ f, q.rules.Holds (g.seatBodies (g.reachable [id])) f ∧
      q.get? (label (g.nameOf id)) = some (f id.seat) := by
  obtain ⟨place, -, -, hplace⟩ := compile_spec hg h
  obtain ⟨-, -, group, hgroup, rfl⟩ := compile_eq_ok h
  obtain ⟨f, hf, hhandle⟩ := exists_holds_of_compileGroup
    (Grammar.reachable_result g roots).nodup hgroup (Grammar.reachable_subset hid)
    (fun id hid r hr c hc => hg.mem_reachable_child hid hr hc)
  have hself : id ∈ g.reachable [id] := Grammar.mem_reachable_root (List.mem_singleton_self id)
    ((Grammar.reachable_result g roots).contained id hid)
  refine ⟨f, hf, (hplace id hid).1.trans ?_⟩
  exact (hplace id hid).2.symm.trans (hhandle id hself)

/-- The group of a product compiles if and only if every root has a parser. -/
theorem exists_group_iff (hg : g.WellFormed) :
    ((∀ root ∈ roots, g.contains root = true) ∧
      ∃ group, compileGroup sig g (g.reachable roots) (g.reachable roots) = .ok group) ↔
      ∀ root ∈ roots, ∃ p, Parser.compile sig g root = .ok p := by
  rw [exists_compileGroup_iff hg (Grammar.reachable_result g roots).nodup
    (fun id hid r hr c hc => hg.mem_reachable_child hid hr hc) fun _ hid => hid]
  simp only [Parser.exists_compile_iff hg]
  exact Signature.agreesOn_reachable_iff

/-- A label tells the rules that some roots reach apart by their names. -/
def TellsApart (label : String → String) (g : Grammar) (roots : List RuleId) : Prop :=
  ∀ id ∈ g.reachable roots, ∀ id' ∈ g.reachable roots,
    label (g.nameOf id) = label (g.nameOf id') → g.nameOf id = g.nameOf id'

/-- Labels are distinct if and only if they tell the rules apart. -/
theorem nodup_labelsOf_iff (hg : g.WellFormed) :
    (labelsOf label g roots).Nodup ↔ TellsApart label g roots := by
  have hnodup := (Grammar.reachable_result g roots).nodup
  have hnames : ∀ id ∈ g.reachable roots, ∀ id' ∈ g.reachable roots,
      g.nameOf id = g.nameOf id' → id = id' := by
    intro id hid id' hid' heq
    obtain ⟨r, hr⟩ := Grammar.exists_get?_of_reachable hid
    obtain ⟨r', hr'⟩ := Grammar.exists_get?_of_reachable hid'
    simp only [Grammar.nameOf, hr, hr'] at heq
    have hfind := hg.find?_name hr
    rw [heq, hg.find?_name hr'] at hfind
    exact (Option.some.inj hfind).symm
  constructor
  · intro h id hid id' hid' heq
    exact congrArg _ (List.inj_on_of_nodup_map h hid hid' heq)
  · intro h
    exact hnodup.map_on fun id hid id' hid' heq => hnames id hid id' hid' (h id hid id' hid' heq)

theorem sublist_of_firstRepeatFrom? {α : Type} [DecidableEq α] {a : α} (as : List α) :
    ∀ {seen : List α}, firstRepeatFrom? seen as = some a →
      (a ∈ seen ∧ a ∈ as) ∨ [a, a].Sublist as := by
  induction as with
  | nil =>
    intro seen h
    cases h
  | cons b as ih =>
    intro seen h
    rw [firstRepeatFrom?] at h
    split at h
    · next hseen =>
      cases h
      exact .inl ⟨hseen, List.mem_cons_self⟩
    · rcases ih h with ⟨hseen, has⟩ | hsub
      · rcases List.mem_cons.mp hseen with rfl | hseen
        · exact .inr (.cons_cons a (List.singleton_sublist.mpr has))
        · exact .inl ⟨hseen, List.mem_cons_of_mem b has⟩
      · exact .inr (hsub.cons b)

/-- A label that comes twice belongs to two rules. -/
theorem exists_of_repeat {l : String} (h : firstRepeat? (labelsOf label g roots) = some l) :
    ∃ id ∈ g.reachable roots, ∃ id' ∈ g.reachable roots, id ≠ id' ∧
      label (g.nameOf id) = l ∧ label (g.nameOf id') = l := by
  have hsub := (sublist_of_firstRepeatFrom? _ h).resolve_left fun hseen =>
    absurd hseen.1 List.not_mem_nil
  obtain ⟨ids, hids, hmap⟩ := List.sublist_map_iff.mp hsub
  obtain ⟨id, rest, rfl, hl, hmap⟩ := List.map_eq_cons_iff.mp hmap.symm
  obtain ⟨id', rest, rfl, hl', -⟩ := List.map_eq_cons_iff.mp hmap
  have hnodup := (Grammar.reachable_result g roots).nodup.sublist hids
  refine ⟨id, hids.mem (by simp), id', hids.mem (by simp), ?_, hl, hl'⟩
  rintro rfl
  simp at hnodup

/-- Every rule of a product has a parser of its own. -/
theorem exists_compile_alone {q : Product} (hg : g.WellFormed)
    (h : compile sig label g roots = .ok q) {id : RuleId} (hid : id ∈ g.reachable roots) :
    ∃ p, Parser.compile sig g id = .ok p := by
  obtain ⟨-, -, group, hgroup, -⟩ := compile_eq_ok h
  have hagrees : sig.AgreesOn g (g.reachable roots) :=
    (exists_compileGroup_iff hg (Grammar.reachable_result g roots).nodup
      (fun id hid r hr c hc => hg.mem_reachable_child hid hr hc) fun _ hid => hid).mp
        ⟨group, hgroup⟩
  exact (Parser.exists_compile_iff hg).mpr
    ⟨(Grammar.reachable_result g roots).contained id hid,
      fun id' hid' => hagrees id' (Grammar.reachable_subset hid id' hid')⟩

/-- A product parses a rule like the rule's own parser. -/
theorem parses_like {q : Product} {p : Parser} (hg : g.WellFormed)
    (hq : compile sig label g roots = .ok q) {id : RuleId} (hid : id ∈ g.reachable roots)
    (hp : Parser.compile sig g id = .ok p) :
    ∃ root, q.get? (label (g.nameOf id)) = some root ∧ ∀ tokens,
      q.rules.parse root tokens = p.parse tokens ∧
      ∀ fuel, (q.rules.run? fuel root tokens).map Report.outcome =
        (p.rules.run? fuel p.root tokens).map Report.outcome := by
  obtain ⟨f, hf, hroot⟩ := exists_holds hg hq hid
  obtain ⟨f', hf', hroot'⟩ := Parser.exists_holds hg hp
  obtain ⟨-, -, group, -, rfl⟩ := compile_eq_ok hq
  obtain ⟨_, hcompiled, -, hself, -⟩ := Parser.compile_spec hg hp
  obtain ⟨r, hr⟩ := Grammar.exists_get?_of_reachable hid
  have hbody := Grammar.seatBodies_seat hself hr
  refine ⟨f id.seat, hroot, fun tokens => ⟨?_, fun fuel => ?_⟩⟩
  · rw [Parser.parse, hroot']
    exact hf.parse_eq hf' (firstUndefined?_ofBodies _) hcompiled.defined hbody tokens
  · rw [hroot']
    exact hf.run?_eq hf' (firstUndefined?_ofBodies _) hcompiled.defined hbody fuel tokens

/-- A product compiles exactly if each of its roots has a parser and labels tell its rules
apart; if only labels are at fault, it blames one that two rules share.  It lists the rules in
the order in which they are reached, and under the label of a rule it gives, on every fuel and
for all tokens, the outcome of the rule's own parser. -/
theorem agrees_with_parsers (hg : g.Built) (sig : Signature) (label : String → String)
    (roots : List RuleId) :
    ((∃ q, compile sig label g roots = .ok q) ↔
      (∀ root ∈ roots, ∃ p, Parser.compile sig g root = .ok p) ∧ TellsApart label g roots) ∧
    ((∀ root ∈ roots, ∃ p, Parser.compile sig g root = .ok p) → ¬ TellsApart label g roots →
      ∃ id ∈ g.reachable roots, ∃ id' ∈ g.reachable roots, id ≠ id' ∧
        label (g.nameOf id) = label (g.nameOf id') ∧
        compile sig label g roots = .error (.duplicateBinding (label (g.nameOf id)))) ∧
    ∀ q, compile sig label g roots = .ok q →
      q.labels = (g.reachable roots).map (fun id => label (g.nameOf id)) ∧
      ∀ id ∈ g.reachable roots, ∃ p root, Parser.compile sig g id = .ok p ∧
        q.get? (label (g.nameOf id)) = some root ∧
        ∀ tokens,
          q.parse (label (g.nameOf id)) tokens = Failure.causedBy .parse (p.parse tokens) ∧
          ∀ fuel, (q.rules.run? fuel root tokens).map Report.outcome =
            (p.rules.run? fuel p.root tokens).map Report.outcome := by
  have hg := hg.wellFormed
  refine ⟨?_, ?_, ?_⟩
  · rw [← exists_group_iff hg, ← nodup_labelsOf_iff hg]
    constructor
    · rintro ⟨q, hq⟩
      obtain ⟨hroots, hlabels, group, hgroup, -⟩ := compile_eq_ok hq
      exact ⟨⟨hroots, group, hgroup⟩, hlabels⟩
    · rintro ⟨⟨hroots, group, hgroup⟩, hlabels⟩
      have hcompile : compile sig label g roots = _ := compile_eq hroots hgroup
      rw [(firstRepeat?_eq_none_iff _).mpr hlabels] at hcompile
      exact ⟨_, hcompile⟩
  · intro hparsers hapart
    rw [← nodup_labelsOf_iff hg, ← firstRepeat?_eq_none_iff] at hapart
    obtain ⟨l, hrepeat⟩ := Option.ne_none_iff_exists'.mp hapart
    obtain ⟨hroots, group, hgroup⟩ := (exists_group_iff hg).mpr hparsers
    obtain ⟨id, hid, id', hid', hne, hl, hl'⟩ := exists_of_repeat hrepeat
    refine ⟨id, hid, id', hid', hne, hl.trans hl'.symm, ?_⟩
    rw [compile_eq hroots hgroup, hrepeat, hl]
  · intro q hq
    obtain ⟨-, -, hlabels, -⟩ := compile_spec hg hq
    refine ⟨hlabels, fun id hid => ?_⟩
    obtain ⟨p, hp⟩ := exists_compile_alone hg hq hid
    obtain ⟨root, hroot, hparse⟩ := parses_like hg hq hid hp
    refine ⟨p, root, hp, hroot, fun tokens => ⟨?_, (hparse tokens).2⟩⟩
    rw [Product.parse, Product.parseReport, hroot, ← (hparse tokens).1]
    rfl

/-- Sums and numbers as roots: the number is shared, and parses in the product as it does
alone.  Under one label for all rules there is no product. -/
theorem agrees_with_parsers_sums :
    (∃ q p, compile (Signature.ofGrammar Grammar.sums) id Grammar.sums [⟨0⟩, ⟨3⟩] = .ok q ∧
      Parser.compile (Signature.ofGrammar Grammar.sums) Grammar.sums ⟨3⟩ = .ok p ∧
      ∀ tokens, q.parse "number" tokens = Failure.causedBy .parse (p.parse tokens)) ∧
    compile (Signature.ofGrammar Grammar.sums) (fun _ => "rule") Grammar.sums [⟨0⟩] =
      .error (.duplicateBinding "rule") := by
  have hg := Grammar.built_of_parse Grammar.parse_sums
  have hparsers : ∀ root, Grammar.sums.contains root = true →
      ∃ p, Parser.compile (Signature.ofGrammar Grammar.sums) Grammar.sums root = .ok p :=
    fun root hroot => Parser.exists_compile hg.wellFormed hroot
  refine ⟨?_, ?_⟩
  · obtain ⟨hiff, -, hproduct⟩ :=
      agrees_with_parsers hg (Signature.ofGrammar Grammar.sums) id [⟨0⟩, ⟨3⟩]
    obtain ⟨q, hq⟩ := hiff.mpr
      ⟨fun root hroot => hparsers root (by revert root; decide), fun _ _ _ _ heq => heq⟩
    obtain ⟨p, root, hp, -, hparse⟩ := (hproduct q hq).2 ⟨3⟩ (by decide)
    exact ⟨q, p, hq, hp, fun tokens => (hparse tokens).1⟩
  · obtain ⟨-, hrepeat, -⟩ :=
      agrees_with_parsers hg (Signature.ofGrammar Grammar.sums) (fun _ => "rule") [⟨0⟩]
    have hshared : ¬ TellsApart (fun _ => "rule") Grammar.sums [⟨0⟩] := fun hapart =>
      absurd (hapart ⟨0⟩ (by decide) ⟨1⟩ (by decide) rfl) (by decide)
    obtain ⟨-, -, -, -, -, -, herror⟩ :=
      hrepeat (fun root hroot => hparsers root (by revert root; decide)) hshared
    exact herror

end Product

end Compiled

end ChartGrammar
