/-
  Proofs/Simulation.lean --- two runs side by side.

  One computation is simulated by another if, from related charts, the second has a
  result whenever the first has one, the two results are related, and so are the charts
  that the two leave.  Running an expression keeps any relation between charts that
  noting an expectation and noting a mismatch keep, whatever references do, as long as
  the references of the two runs simulate each other.

  Results are related end by end: the same ends in the same order, with related
  derivations.  On the way it shows that every end comes once and satisfies whatever
  holds of the start and is kept by reading a token.
-/
import Mathlib.Data.List.Forall2
import Mathlib.Data.List.Nodup
import ChartGrammar.Proofs.Kinds
import ChartGrammar.Proofs.Reachable

set_option autoImplicit false

namespace ChartGrammar

namespace ChartM

variable {α α' β β' : Type} {R : Chart → Chart → Prop}

/-- Whenever the first computation has a result, the second has a related one, and the
charts stay related. -/
def Simulates (R : Chart → Chart → Prop) (m : ChartM α) (m' : ChartM α') (Q : α → α' → Prop) :
    Prop :=
  ∀ c c' a d, R c c' → m.run c = some (a, d) →
    ∃ a' d', m'.run c' = some (a', d') ∧ R d d' ∧ Q a a'

theorem simulates_pure {a : α} {a' : α'} {Q : α → α' → Prop} (h : Q a a') :
    Simulates R (pure a) (pure a') Q := by
  intro c c' b d hc hrun
  cases hrun
  exact ⟨a', c', rfl, hc, h⟩

theorem simulates_bind {m : ChartM α} {m' : ChartM α'} {f : α → ChartM β} {f' : α' → ChartM β'}
    {Q : α → α' → Prop} {P : β → β' → Prop} (hm : Simulates R m m' Q)
    (hf : ∀ a a', Q a a' → Simulates R (f a) (f' a') P) :
    Simulates R (m >>= f) (m' >>= f') P := by
  intro c c' b d hc hrun
  rw [StateT.run_bind] at hrun
  obtain ⟨⟨a, e⟩, hm₁, hf₁⟩ := Option.bind_eq_some_iff.mp hrun
  obtain ⟨a', e', hm₂, he, ha⟩ := hm c c' a e hc hm₁
  obtain ⟨b', d', hf₂, hd, hb⟩ := hf a a' ha e e' b d he hf₁
  refine ⟨b', d', ?_, hd, hb⟩
  rw [StateT.run_bind]
  exact Option.bind_eq_some_iff.mpr ⟨(a', e'), hm₂, hf₂⟩

theorem simulates_failure {m' : ChartM α'} {Q : α → α' → Prop} :
    Simulates R failure m' Q := by
  intro c c' a d _ hrun
  cases hrun

theorem simulates_get : Simulates R get get R := by
  intro c c' a d hc hrun
  cases hrun
  exact ⟨c', c', rfl, hc, hc⟩

theorem simulates_modifyGet {f : Chart → α × Chart} {f' : Chart → α' × Chart}
    {Q : α → α' → Prop} (hf : ∀ c c', R c c' → R (f c).2 (f' c').2 ∧ Q (f c).1 (f' c').1) :
    Simulates R (modifyGet f) (modifyGet f') Q := by
  intro c c' a d hc hrun
  have heq : f c = (a, d) := Option.some.inj hrun
  have hrel := hf c c' hc
  rw [heq] at hrel
  exact ⟨(f' c').1, (f' c').2, rfl, hrel⟩

theorem simulates_modify {f f' : Chart → Chart} (hf : ∀ c c', R c c' → R (f c) (f' c')) :
    Simulates R (modify f) (modify f') fun _ _ => True :=
  simulates_modifyGet fun c c' hc => ⟨hf c c' hc, trivial⟩

/-- A repeated step that is simulated is simulated answer by answer. -/
theorem simulates_repeatUpTo {step : ChartM (Option α)} {step' : ChartM (Option α')}
    {Q : α → α' → Prop} (hstep : Simulates R step step' (Option.Rel Q)) (n : Nat) :
    Simulates R (repeatUpTo step n) (repeatUpTo step' n) (Option.Rel Q) := by
  induction n with
  | zero => exact simulates_pure .none
  | succ n ih =>
    refine simulates_bind hstep fun answer answer' hanswer => ?_
    cases hanswer with
    | none => exact ih
    | some ha => exact simulates_pure (.some ha)

theorem simulates_untilAnswer {step : ChartM (Option α)} {step' : ChartM (Option α')}
    {Q : α → α' → Prop} (hstep : Simulates R step step' (Option.Rel Q)) (fuel : Nat) :
    Simulates R (untilAnswer step fuel) (untilAnswer step' fuel) Q := by
  rw [untilAnswer_eq, untilAnswer_eq]
  refine simulates_bind (simulates_repeatUpTo hstep _) fun answer answer' hanswer => ?_
  cases hanswer with
  | none => exact simulates_failure
  | some ha => exact simulates_pure ha

end ChartM

open ChartM

/-! ## Related results -/

section Related

variable {α α' β β' : Type} {S : Nat → Prop} {A : α → α' → Prop} {B : β → β' → Prop}

/-- The same ends in the same order, each of them in `S`, with related contents. -/
def Alongside (S : Nat → Prop) (A : α → α' → Prop) : List (Nat × α) → List (Nat × α') → Prop :=
  List.Forall₂ fun r r' => r.1 = r'.1 ∧ S r.1 ∧ A r.2 r'.2

/-- The same ends in the same order, each of them once. -/
def Matches (S : Nat → Prop) (A : α → α' → Prop) (rs : List (Nat × α)) (rs' : List (Nat × α')) :
    Prop :=
  Alongside S A rs rs' ∧ (rs.map Prod.fst).Nodup

variable {rs : List (Nat × α)} {rs' : List (Nat × α')}

theorem Alongside.imp {A' : α → α' → Prop} (h : Alongside S A rs rs')
    (hA : ∀ a a', A a a' → A' a a') : Alongside S A' rs rs' :=
  List.Forall₂.imp (fun _ _ ⟨hend, hs, ha⟩ => ⟨hend, hs, hA _ _ ha⟩) h

theorem Alongside.eq {A : α → α → Prop} {rs rs' : List (Nat × α)} (h : Alongside S A rs rs')
    (hA : ∀ a a', A a a' → a = a') : rs = rs' := by
  rw [← List.forall₂_eq_eq_eq]
  exact List.Forall₂.imp (fun r r' hr => Prod.ext hr.1 (hA _ _ hr.2.2)) h

theorem Alongside.map_fst (h : Alongside S A rs rs') : rs.map Prod.fst = rs'.map Prod.fst := by
  induction h with
  | nil => rfl
  | cons hr _ ih => rw [List.map_cons, List.map_cons, hr.1, ih]

theorem Alongside.isEmpty (h : Alongside S A rs rs') : rs.isEmpty = rs'.isEmpty := by
  cases h <;> rfl

theorem matches_nil : Matches S A [] [] := ⟨.nil, List.nodup_nil⟩

theorem matches_single {s : Nat} {a : α} {a' : α'} (hs : S s) (ha : A a a') :
    Matches S A [(s, a)] [(s, a')] :=
  ⟨.cons ⟨rfl, hs, ha⟩ .nil, List.nodup_singleton s⟩

/-- Contents may be replaced by related contents. -/
theorem Matches.map (h : Matches S A rs rs') {f : α → β} {f' : α' → β'}
    (hf : ∀ a a', A a a' → B (f a) (f' a')) :
    Matches S B (rs.map fun r => (r.1, f r.2)) (rs'.map fun r => (r.1, f' r.2)) := by
  refine ⟨?_, ?_⟩
  · refine List.rel_map (fun r r' hr => ?_) h.1
    exact ⟨hr.1, hr.2.1, hf _ _ hr.2.2⟩
  · rw [List.map_map]
    exact h.2

theorem Matches.reverse (h : Matches S A rs rs') : Matches S A rs.reverse rs'.reverse := by
  refine ⟨List.rel_reverse h.1, ?_⟩
  rw [List.map_reverse]
  exact List.nodup_reverse.mpr h.2

/-- Results may be left out, if they are left out on both sides. -/
theorem Alongside.filterMap (h : Alongside S A rs rs') {f : Nat × α → Option (Nat × β)}
    {f' : Nat × α' → Option (Nat × β')}
    (hf : ∀ e a a', A a a' →
      Option.Rel (fun q q' => q.1 = e ∧ q'.1 = e ∧ B q.2 q'.2) (f (e, a)) (f' (e, a'))) :
    Alongside S B (rs.filterMap f) (rs'.filterMap f') ∧
      ((rs.filterMap f).map Prod.fst).Sublist (rs.map Prod.fst) := by
  induction h with
  | nil => exact ⟨.nil, .slnil⟩
  | @cons r r' _ _ hr _ ih =>
    obtain ⟨e, a⟩ := r
    obtain ⟨e', a'⟩ := r'
    obtain ⟨rfl, hs, ha⟩ := hr
    rw [List.filterMap_cons, List.filterMap_cons]
    generalize hq : f (e, a) = q, hq' : f' (e, a') = q'
    have hrel := hf e a a' ha
    rw [hq, hq'] at hrel
    cases hrel with
    | none => exact ⟨ih.1, ih.2.cons _⟩
    | @some q q' hqq =>
      obtain ⟨hq₁, hq₂, hb⟩ := hqq
      refine ⟨.cons ⟨hq₁.trans hq₂.symm, hq₁ ▸ hs, hb⟩ ih.1, ?_⟩
      rw [List.map_cons, List.map_cons, hq₁]
      exact ih.2.cons_cons e

theorem Matches.filterMap (h : Matches S A rs rs') {f : Nat × α → Option (Nat × β)}
    {f' : Nat × α' → Option (Nat × β')}
    (hf : ∀ e a a', A a a' →
      Option.Rel (fun q q' => q.1 = e ∧ q'.1 = e ∧ B q.2 q'.2) (f (e, a)) (f' (e, a'))) :
    Matches S B (rs.filterMap f) (rs'.filterMap f') := by
  obtain ⟨hall, hsub⟩ := h.1.filterMap hf
  exact ⟨hall, h.2.sublist hsub⟩

theorem Alongside.firstPerEndFrom (h : Alongside S A rs rs') (seen : Std.HashSet Nat) :
    Alongside S A (firstPerEndFrom seen rs) (firstPerEndFrom seen rs') := by
  induction h generalizing seen with
  | nil => exact .nil
  | @cons r r' _ _ hr _ ih =>
    obtain ⟨e, a⟩ := r
    obtain ⟨e', a'⟩ := r'
    obtain ⟨rfl, hs, ha⟩ := hr
    rw [ChartGrammar.firstPerEndFrom, ChartGrammar.firstPerEndFrom]
    split
    · exact ih seen
    · exact .cons ⟨rfl, hs, ha⟩ (ih _)

theorem nodup_firstPerEndFrom (rs : List (Nat × α)) (seen : Std.HashSet Nat) :
    ((firstPerEndFrom seen rs).map Prod.fst).Nodup ∧
      ∀ r ∈ firstPerEndFrom seen rs, seen.contains r.1 = false := by
  fun_induction firstPerEndFrom seen rs with
  | case1 seen => exact ⟨List.nodup_nil, fun r hr => absurd hr List.not_mem_nil⟩
  | case2 seen e a rest _ ih => exact ih
  | case3 seen e a rest hseen ih =>
    obtain ⟨hnodup, hfresh⟩ := ih
    have hfresh' : ∀ r ∈ firstPerEndFrom (seen.insert e) rest,
        e ≠ r.1 ∧ seen.contains r.1 = false := by
      intro r hr
      have hcontains := hfresh r hr
      rw [Std.HashSet.contains_insert, Bool.or_eq_false_iff, beq_eq_false_iff_ne] at hcontains
      exact hcontains
    refine ⟨List.nodup_cons.mpr ⟨?_, hnodup⟩, ?_⟩
    · intro hmem
      obtain ⟨r, hr, heq⟩ := List.mem_map.mp hmem
      exact (hfresh' r hr).1 heq.symm
    · intro r hr
      rcases List.mem_cons.mp hr with rfl | hr
      · exact Bool.eq_false_iff.mpr hseen
      · exact (hfresh' r hr).2

/-- Taking the first result of each end leaves related results, and each end once. -/
theorem Alongside.firstPerEnd (h : Alongside S A rs rs') :
    Matches S A (firstPerEnd rs) (firstPerEnd rs') :=
  ⟨h.firstPerEndFrom ∅, (nodup_firstPerEndFrom rs ∅).1⟩

theorem Alongside.dropWhile (h : Alongside S A rs rs') (p : Nat → Bool) :
    Alongside S A (rs.dropWhile fun r => p r.1) (rs'.dropWhile fun r => p r.1) := by
  induction h with
  | nil => exact .nil
  | cons hr hrest ih =>
    rw [List.dropWhile_cons, List.dropWhile_cons, ← hr.1]
    split
    · exact ih
    · exact .cons hr hrest

theorem Alongside.grew {rs₁ : List (Nat × α)} {rs₁' : List (Nat × α')}
    (h : Alongside S A rs rs') (h₁ : Alongside S A rs₁ rs₁') : grew rs rs₁ = grew rs' rs₁' := by
  have hends : ∀ {γ : Type} (before after : List (Nat × γ)), ChartGrammar.grew before after =
      (after.map Prod.fst).any fun e => !((before.map Prod.fst).foldl
        (fun (known : Std.HashSet Nat) e => known.insert e) ∅).contains e := by
    intro γ before after
    rw [ChartGrammar.grew, List.any_map, List.foldl_map]
    rfl
  rw [hends, hends, h.map_fst, h₁.map_fst]

/-- Results gathered from related members, one after another, are related. -/
theorem simulates_gather {R : Chart → Chart → Prop} {f : Nat × α → ChartM (List (Nat × β))}
    {f' : Nat × α' → ChartM (List (Nat × β'))} (h : Alongside S A rs rs')
    (hf : ∀ e a a', S e → A a a' → Simulates R (f (e, a)) (f' (e, a')) (Alongside S B)) :
    Simulates R (gather f rs) (gather f' rs') (Alongside S B) := by
  induction h with
  | nil => exact simulates_pure .nil
  | @cons r r' _ _ hr _ ih =>
    obtain ⟨e, a⟩ := r
    obtain ⟨e', a'⟩ := r'
    obtain ⟨rfl, hs, ha⟩ := hr
    refine simulates_bind (hf e a a' hs ha) fun bs bs' hbs => ?_
    refine simulates_bind ih fun rest rest' hrest => simulates_pure ?_
    exact List.rel_append hbs hrest

end Related

/-! ## Related derivations -/

/-- Relations on nodes and on derivations that are kept when derivations are put together,
with at most `width` fields in a row.  Related derivations are of the same kind. -/
structure Congruence (N : Node → Node → Prop) (D : Deriv → Deriv → Prop) (width : Nat) : Prop where
  token : ∀ t, D (.token t) (.token t)
  tokens : ∀ ts, D (.tokens ts) (.tokens ts)
  nothing : D .nothing .nothing
  node : ∀ {n n'}, N n n' → D (.node n) (.node n')
  just : ∀ {n n'}, N n n' → D (.just n) (.just n')
  fields : ∀ {ns ns'}, ns.length ≤ width → List.Forall₂ N ns ns' → D (.fields ns) (.fields ns')
  empty : D (.list .empty) (.list .empty)
  snoc : ∀ {items items' n n'}, D (.list items) (.list items') → N n n' →
    D (.list (items.snoc n)) (.list (items'.snoc n'))
  cons : ∀ {items items' n n'}, N n n' → D (.list items) (.list items') →
    D (.list (items.cons n)) (.list (items'.cons n'))
  pair : ∀ {items items' n n'}, N n n' → D (.list items) (.list items') →
    D (.pair n items) (.pair n' items')
  make : ∀ {d d'} (ctor : Constructor), D d d' → N (.mk ctor d) (.mk ctor d')
  kind : ∀ {d d'}, D d d' → d.kind = d'.kind
  node_inv : ∀ {n n'}, D (.node n) (.node n') → N n n'

/-- The number of fields of a kind. -/
def Kind.arity : Kind → Nat
  | .fields arity => arity
  | _ => 0

/-- Two derivations of the same kind, with at most `width` fields. -/
def Deriv.Akin (width : Nat) (d d' : Deriv) : Prop :=
  d.kind = d'.kind ∧ d.kind.arity ≤ width

/-- The kind of what is put together does not depend on what the nodes are. -/
theorem congruence_akin (width : Nat) : Congruence (fun _ _ => True) (Deriv.Akin width) width where
  token _ := ⟨rfl, Nat.zero_le _⟩
  tokens _ := ⟨rfl, Nat.zero_le _⟩
  nothing := ⟨rfl, Nat.zero_le _⟩
  node _ := ⟨rfl, Nat.zero_le _⟩
  just _ := ⟨rfl, Nat.zero_le _⟩
  fields hle h := ⟨congrArg Kind.fields h.length_eq, hle⟩
  empty := ⟨rfl, Nat.zero_le _⟩
  snoc _ _ := ⟨rfl, Nat.zero_le _⟩
  cons _ _ := ⟨rfl, Nat.zero_le _⟩
  pair _ _ := ⟨rfl, Nat.zero_le _⟩
  make _ _ := trivial
  kind h := h.1
  node_inv _ := trivial

/-- Equal derivations are put together to equal ones. -/
theorem congruence_eq (width : Nat) :
    Congruence Eq (fun d d' => d = d' ∧ d.Akin width d) width where
  token _ := ⟨rfl, (congruence_akin width).token _⟩
  tokens _ := ⟨rfl, (congruence_akin width).tokens _⟩
  nothing := ⟨rfl, (congruence_akin width).nothing⟩
  node h := ⟨congrArg _ h, (congruence_akin width).node trivial⟩
  just h := ⟨congrArg _ h, (congruence_akin width).just trivial⟩
  fields hle h := by
    rw [List.forall₂_eq_eq_eq] at h
    cases h
    exact ⟨rfl, rfl, hle⟩
  empty := ⟨rfl, (congruence_akin width).empty⟩
  snoc h h' := by
    cases h.1
    cases h'
    exact ⟨rfl, (congruence_akin width).snoc h.2 trivial⟩
  cons h h' := by
    cases h
    cases h'.1
    exact ⟨rfl, (congruence_akin width).cons trivial h'.2⟩
  pair h h' := by
    cases h
    cases h'.1
    exact ⟨rfl, (congruence_akin width).pair trivial h'.2⟩
  make _ h := congrArg _ h.1
  kind h := congrArg _ h.1
  node_inv h := by
    cases h.1
    rfl

/-! ## Running expressions -/

/-- Charts stay related when the same is noted for diagnostics in both. -/
structure KeepsNotes (R : Chart → Chart → Prop) : Prop where
  expect : ∀ {c c'} (pos : Nat) (what : String), R c c' →
    R (c.expect pos what) (c'.expect pos what)
  noteMismatch : ∀ {c c'} (ctor : Constructor), R c c' →
    R (c.noteMismatch ctor) (c'.noteMismatch ctor)

section Eval

variable {R : Chart → Chart → Prop} {N : Node → Node → Prop} {D : Deriv → Deriv → Prop}
  {width : Nat} {S : Nat → Prop} {input : Array Token} {rs rs' : Results}

theorem Matches.nodes (hD : Congruence N D width) (h : Matches S D rs rs') :
    Matches S N (Results.nodes rs) (Results.nodes rs') := by
  refine h.filterMap fun e d d' hd => ?_
  have hkind := hD.kind hd
  cases d with
  | node n =>
    obtain ⟨n', rfl⟩ := Deriv.exists_node hkind.symm
    exact .some ⟨rfl, rfl, hD.node_inv hd⟩
  | _ =>
    cases d' with
    | node n' => cases hkind
    | _ => exact .none

theorem Matches.lists (hD : Congruence N D width) (h : Matches S D rs rs') :
    Matches S (fun items items' => D (.list items) (.list items'))
      (Results.lists rs) (Results.lists rs') := by
  refine h.filterMap fun e d d' hd => ?_
  have hkind := hD.kind hd
  cases d with
  | list items =>
    obtain ⟨items', rfl⟩ := Deriv.exists_list hkind.symm
    exact .some ⟨rfl, rfl, hd⟩
  | _ =>
    cases d' with
    | list items' => cases hkind
    | _ => exact .none

theorem Congruence.fits (hD : Congruence N D width) {d d' : Deriv} (h : D d d')
    (ctor : Constructor) : ctor.fits d = ctor.fits d' := by
  rw [Bool.eq_iff_iff, ctor.fits_iff_kind, ctor.fits_iff_kind, hD.kind h]

theorem simulates_missing {α α' : Type} {A : α → α' → Prop} (hR : KeepsNotes R) (pos : Nat)
    (what : String) : Simulates R (missing pos what) (missing pos what) (Matches S A) := by
  refine simulates_bind (simulates_modify fun c c' hc => hR.expect pos what hc) fun _ _ _ => ?_
  exact simulates_pure matches_nil

theorem simulates_construct (hR : KeepsNotes R) (hD : Congruence N D width) (ctor : Constructor)
    (h : Matches S D rs rs') :
    Simulates R (construct ctor rs) (construct ctor rs') (Matches S D) := by
  have hall : (rs.all fun r => ctor.fits r.2) = rs'.all fun r => ctor.fits r.2 := by
    obtain ⟨halong, -⟩ := h
    induction halong with
    | nil => rfl
    | cons hr _ ih => rw [List.all_cons, List.all_cons, ih, hD.fits hr.2.2]
  have hmade : Matches S D
      (rs.filterMap fun r => (Node.make? ctor r.2).map fun n => (r.1, .node n))
      (rs'.filterMap fun r => (Node.make? ctor r.2).map fun n => (r.1, .node n)) := by
    refine h.filterMap fun e d d' hd => ?_
    rw [Node.make?, Node.make?, hD.fits hd]
    split
    · exact .some ⟨rfl, rfl, hD.node (hD.make ctor hd)⟩
    · exact .none
  unfold construct
  rw [hall]
  split
  · exact simulates_pure hmade
  · exact simulates_bind (simulates_modify fun c c' hc => hR.noteMismatch ctor hc)
      fun _ _ _ => simulates_pure hmade

theorem simulates_evalPair (hD : Congruence N D width) {join : Node → Chain Node → Deriv}
    {head head' tail tail' : Nat → ChartM Results}
    (hjoin : ∀ {n n' items items'}, N n n' → D (.list items) (.list items') →
      D (join n items) (join n' items'))
    (hhead : ∀ s, S s → Simulates R (head s) (head' s) (Matches S D))
    (htail : ∀ s, S s → Simulates R (tail s) (tail' s) (Matches S D)) {s : Nat} (hs : S s) :
    Simulates R (evalPair join head tail s) (evalPair join head' tail' s) (Matches S D) := by
  refine simulates_bind (hhead s hs) fun heads heads' hheads => ?_
  refine simulates_bind (simulates_gather (B := D) (hheads.nodes hD).1 ?_)
    fun joined joined' hjoined => simulates_pure hjoined.firstPerEnd
  · intro mid n n' hmid hn
    refine simulates_bind (htail mid hmid) fun tails tails' htails => simulates_pure ?_
    exact ((htails.lists hD).map fun items items' hitems => hjoin hn hitems).1

/-- Lists of fields found so far: `count` of them, related one by one. -/
def FieldsSoFar (S : Nat → Prop) (N : Node → Node → Prop) (count : Nat) :
    List (Nat × List Node) → List (Nat × List Node) → Prop :=
  Matches S fun ns ns' => ns.length = count ∧ List.Forall₂ N ns ns'

theorem simulates_extendFields (hD : Congruence N D width) {field field' : Nat → ChartM Results}
    (hfield : ∀ s, S s → Simulates R (field s) (field' s) (Matches S D)) {count : Nat}
    {partials partials' : List (Nat × List Node)}
    (hpartials : FieldsSoFar S N count partials partials') :
    Simulates R (extendFields field partials) (extendFields field' partials')
      (FieldsSoFar S N (count + 1)) := by
  refine simulates_bind (simulates_gather (B := fun (ns ns' : List Node) =>
      ns.length = count + 1 ∧ List.Forall₂ N ns ns') hpartials.1 ?_)
    fun next next' hnext => simulates_pure hnext.firstPerEnd
  rintro pos ns ns' hpos ⟨hlength, hns⟩
  refine simulates_bind (hfield pos hpos) fun found found' hfound => simulates_pure ?_
  refine List.rel_map (fun r r' hr => ?_) (hfound.nodes hD).1
  exact ⟨hr.1, hr.2.1, congrArg (· + 1) hlength, .cons hr.2.2 hns⟩

theorem simulates_evalFields (hD : Congruence N D width)
    {call call' : Handle → Nat → ChartM Results} (es : List (Expr Handle))
    (hes : ∀ e ∈ es, ∀ s, S s →
      Simulates R (eval input call e s) (eval input call' e s) (Matches S D)) :
    ∀ {count : Nat} {partials partials' : List (Nat × List Node)},
      FieldsSoFar S N count partials partials' →
      Simulates R (evalFields input call es partials) (evalFields input call' es partials')
        (FieldsSoFar S N (count + es.length)) := by
  induction es with
  | nil =>
    intro count partials partials' hpartials
    rw [evalFields, evalFields]
    exact simulates_pure hpartials
  | cons e es ih =>
    intro count partials partials' hpartials
    rw [evalFields, evalFields]
    obtain ⟨he, hes⟩ := List.forall_mem_cons.mp hes
    refine simulates_bind (simulates_extendFields hD he hpartials) fun next next' hnext => ?_
    rw [hnext.1.isEmpty]
    split
    · exact simulates_pure matches_nil
    · have hrest := ih hes hnext
      rwa [show count + 1 + es.length = count + (e :: es).length by
        rw [List.length_cons]; omega] at hrest

/-- Reading the characters of a literal moves from a start in `S` to an end in `S`. -/
theorem stop_of_spell (hS : ∀ s t, S s → input[s]? = some t → S (s + 1)) {cs : List Char}
    {s : Nat} {ts : List Token} (hs : S s) (h : spell input cs s = .ok ts) :
    S (s + ts.length) := by
  induction cs generalizing s ts with
  | nil =>
    cases h
    exact hs
  | cons c cs ih =>
    simp only [spell] at h
    split at h
    · next t ht =>
      split at h
      · split at h
        · next rest hrest =>
          cases h
          have hstop := ih (hS s t hs ht) hrest
          rwa [List.length_cons, show s + (rest.length + 1) = s + 1 + rest.length by omega]
        · cases h
      · cases h
    · cases h

theorem width_le_of_mem {ρ : Type} {es : List (Expr ρ)} {e : Expr ρ} (h : e ∈ es) :
    e.width ≤ Expr.widthAll es := by
  induction h with
  | head => exact Nat.le_max_left _ _
  | tail _ _ ih => exact ih.trans (Nat.le_max_right _ _)

/-- Running an expression on one side is simulated by running it on the other, if this holds
of its references. -/
theorem simulates_eval (hR : KeepsNotes R) (hD : Congruence N D width)
    (hS : ∀ s t, S s → input[s]? = some t → S (s + 1))
    {call call' : Handle → Nat → ChartM Results}
    (hcall : ∀ h s, S s → Simulates R (call h s) (call' h s) (Matches S D)) (e : Expr Handle) :
    e.width ≤ width → ∀ s, S s →
      Simulates R (eval input call e s) (eval input call' e s) (Matches S D) := by
  induction e using Expr.induction with
  | ref h =>
    intro _ s hs
    rw [eval, eval]
    exact hcall h s hs
  | matchOne p =>
    intro _ s hs
    rw [eval, eval]
    split
    · next t ht =>
      split
      · exact simulates_pure (matches_single (hS s t hs ht) (hD.token t))
      · exact simulates_missing hR s _
    · exact simulates_missing hR s _
  | symbol literal =>
    intro _ s hs
    rw [eval, eval]
    split
    · next ts hts =>
      exact simulates_pure (matches_single (stop_of_spell hS hs hts) (hD.tokens ts))
    · exact simulates_missing hR _ _
  | unit =>
    intro _ s hs
    rw [eval, eval]
    exact simulates_pure (matches_single hs (hD.fields (Nat.zero_le _) .nil))
  | nothing =>
    intro _ s hs
    rw [eval, eval]
    exact simulates_pure (matches_single hs hD.nothing)
  | nil =>
    intro _ s hs
    rw [eval, eval]
    exact simulates_pure (matches_single hs hD.empty)
  | just e ih =>
    intro hw s hs
    rw [eval, eval]
    refine simulates_bind (ih hw s hs) fun found found' hfound => simulates_pure ?_
    exact (hfound.nodes hD).map fun n n' hn => hD.just hn
  | alt a b iha ihb =>
    intro hw s hs
    rw [Expr.width] at hw
    rw [eval, eval]
    refine simulates_bind (iha (by omega) s hs) fun left left' hleft => ?_
    refine simulates_bind (ihb (by omega) s hs) fun right right' hright => simulates_pure ?_
    exact Alongside.firstPerEnd (List.rel_append hleft.1 hright.1)
  | seq es ih =>
    intro hw s hs
    rw [Expr.width] at hw
    rw [eval, eval]
    have hes : ∀ e ∈ es, ∀ s, S s →
        Simulates R (eval input call e s) (eval input call' e s) (Matches S D) := by
      intro e he
      exact ih e he ((width_le_of_mem he).trans (by omega))
    have hstart : FieldsSoFar S N 0 [(s, [])] [(s, [])] := matches_single hs ⟨rfl, .nil⟩
    refine simulates_bind (simulates_evalFields hD es hes hstart) fun found found' hfound =>
      simulates_pure (hfound.map fun ns ns' hns => hD.fields ?_ ?_)
    · rw [List.length_reverse, hns.1]
      omega
    · exact List.rel_reverse hns.2
  | cons a b iha ihb =>
    intro hw s hs
    rw [Expr.width] at hw
    rw [eval, eval]
    exact simulates_evalPair hD hD.cons (iha (by omega)) (ihb (by omega)) hs
  | pair a b iha ihb =>
    intro hw s hs
    rw [Expr.width] at hw
    rw [eval, eval]
    exact simulates_evalPair hD hD.pair (iha (by omega)) (ihb (by omega)) hs
  | map ctor e ih =>
    intro hw s hs
    rw [eval, eval]
    exact simulates_bind (ih hw s hs) fun found found' hfound =>
      simulates_construct hR hD ctor hfound
  | label description e ih =>
    intro hw s hs
    rw [eval, eval]
    refine simulates_bind (ih hw s hs) fun found found' hfound => ?_
    rw [hfound.1.isEmpty]
    split
    · exact simulates_missing hR s description
    · exact simulates_pure hfound

/-! ## Repetition -/

theorem Alongside.onward (hD : Congruence N D width) {stop stop' : Repeat.Stop}
    (hstop : stop.1 = stop'.1) (hitems : D (.list stop.2) (.list stop'.2))
    (h : Alongside S D rs rs') :
    Alongside S (fun items items' => D (.list items) (.list items'))
      (Repeat.onward stop rs) (Repeat.onward stop' rs') := by
  refine (h.filterMap fun e d d' hd => ?_).1
  have hkind := hD.kind hd
  cases d with
  | node n =>
    obtain ⟨n', rfl⟩ := Deriv.exists_node hkind.symm
    dsimp only
    rw [hstop]
    split
    · exact .none
    · exact .some ⟨rfl, rfl, hD.snoc hitems (hD.node_inv hd)⟩
  | _ =>
    cases d' with
    | node n' => cases hkind
    | _ => exact .none

/-- A stop that has not been seen is visited for the first time. -/
theorem nodup_visit {stop : Repeat.Stop} {visited : List Repeat.Stop} {seen : Std.HashSet Nat}
    (hfresh : seen.contains stop.1 = false) (hnodup : (visited.map Prod.fst).Nodup)
    (hseen : ∀ v ∈ visited, seen.contains v.1 = true) :
    ((stop :: visited).map Prod.fst).Nodup ∧
      ∀ v ∈ stop :: visited, (seen.insert stop.1).contains v.1 = true := by
  refine ⟨List.nodup_cons.mpr ⟨fun hmem => ?_, hnodup⟩, fun v hv => ?_⟩
  · obtain ⟨v, hv, heq⟩ := List.mem_map.mp hmem
    have hcontains := hseen v hv
    rw [heq, hfresh] at hcontains
    cases hcontains
  · rw [Std.HashSet.contains_insert, Bool.or_eq_true]
    rcases List.mem_cons.mp hv with rfl | hv
    · exact .inl (beq_self_eq_true _)
    · exact .inr (hseen v hv)

/-- A search visits related stops, and no position twice. -/
theorem simulates_search (hD : Congruence N D width) {item item' : Nat → ChartM Results}
    (hitem : ∀ s, S s → Simulates R (item s) (item' s) (Matches S D)) (room : Nat) :
    ∀ {stack stack' visited visited' : List Repeat.Stop} {seen : Std.HashSet Nat},
      Alongside S (fun items items' => D (.list items) (.list items')) stack stack' →
      Matches S (fun items items' => D (.list items) (.list items')) visited visited' →
      (∀ stop ∈ visited, seen.contains stop.1 = true) →
      Simulates R (Repeat.search item room stack seen visited)
        (Repeat.search item' room stack' seen visited')
        (Matches S fun items items' => D (.list items) (.list items')) := by
  induction room with
  | zero =>
    intro stack stack' visited visited' seen hstack hvisited hseen
    unfold Repeat.search
    have hdrop := hstack.dropWhile fun e => seen.contains e
    generalize (stack.dropWhile fun stop => seen.contains stop.1) = left at hdrop ⊢
    generalize (stack'.dropWhile fun stop => seen.contains stop.1) = left' at hdrop ⊢
    cases hdrop with
    | nil => exact simulates_pure hvisited.reverse
    | cons _ _ => exact simulates_failure
  | succ room ih =>
    intro stack stack' visited visited' seen hstack hvisited hseen
    unfold Repeat.search
    have hdrop := hstack.dropWhile fun e => seen.contains e
    generalize hleft : (stack.dropWhile fun stop => seen.contains stop.1) = left at hdrop ⊢
    generalize (stack'.dropWhile fun stop => seen.contains stop.1) = left' at hdrop ⊢
    cases hdrop with
    | nil => exact simulates_pure hvisited.reverse
    | @cons stop stop' rest rest' hstop hrest =>
      obtain ⟨hend, hs, hitems⟩ := hstop
      obtain ⟨hfresh, -⟩ := dropWhile_eq_cons stack hleft
      dsimp only
      rw [← hend]
      refine simulates_bind (hitem stop.1 hs) fun found found' hfound => ?_
      obtain ⟨hnodup, hseen⟩ := nodup_visit hfresh hvisited.2 hseen
      exact ih (List.rel_append (hfound.1.onward hD hend hitems) hrest)
        ⟨.cons ⟨hend, hs, hitems⟩ hvisited.1, hnodup⟩ hseen

theorem simulates_repeatItem (hD : Congruence N D width) {item item' : Nat → ChartM Results}
    (hitem : ∀ s, S s → Simulates R (item s) (item' s) (Matches S D)) (length : Nat) {s : Nat}
    (hs : S s) :
    Simulates R (repeatItem length item s) (repeatItem length item' s) (Matches S D) := by
  have hstart : Matches S (fun items items' => D (.list items) (.list items'))
      [((s, .empty) : Repeat.Stop)] [(s, .empty)] := matches_single hs hD.empty
  refine simulates_bind (simulates_search hD hitem (length + 1) hstart.1 matches_nil
    fun stop hstop => absurd hstop List.not_mem_nil) fun stops stops' hstops => simulates_pure ?_
  exact hstops.map fun items items' hitems => hitems

/-- Running the body of a rule on one side is simulated by running it on the other. -/
theorem simulates_evalBody (hR : KeepsNotes R) (hD : Congruence N D width)
    (hS : ∀ s t, S s → input[s]? = some t → S (s + 1))
    {call call' : Handle → Nat → ChartM Results}
    (hcall : ∀ h s, S s → Simulates R (call h s) (call' h s) (Matches S D)) (h : Handle)
    {body : Expr Handle} (hw : body.width ≤ width) {s : Nat} (hs : S s) :
    Simulates R (evalBody input call h body s) (evalBody input call' h body s)
      (Matches S D) := by
  unfold evalBody
  split
  · next item hitem =>
    rw [repeatedItem?_eq_some hitem] at hw
    simp only [Expr.width] at hw
    exact simulates_repeatItem hD (simulates_eval hR hD hS hcall item (by omega)) _ hs
  · exact simulates_eval hR hD hS hcall body hw s hs

end Eval

/-! ## Rounds -/

/-- A round is simulated by a round, if the body is and the two charts agree on whether the
rule must run again.  The rule may go by different keys in the two runs. -/
theorem simulates_growRound {R : Chart → Chart → Prop} {Q : Results → Results → Prop}
    {O : List Key → List Key → Prop} {key key' : Key} {body body' : ChartM Results}
    (hbody : Simulates R body body' Q)
    (hdeps : ∀ c c' : Chart, R c c' → R { c with deps := [] } { c' with deps := [] } ∧
      O (c.deps.filter (· ≠ key)) (c'.deps.filter (· ≠ key')))
    (hmust : ∀ c c' results results', R c c' → Q results results' →
      c.mustRegrow key results = c'.mustRegrow key' results')
    (hregrow : ∀ c c' results results' deps deps', R c c' → Q results results' → O deps deps' →
      R (c.regrow key results deps) (c'.regrow key' results' deps')) :
    Simulates R (growRound key body) (growRound key' body')
      (Option.Rel fun a a' => Q a.1 a'.1 ∧ O a.2 a'.2) := by
  refine simulates_bind hbody fun results results' hresults => ?_
  refine simulates_bind (simulates_modifyGet hdeps) fun deps deps' hdeps => ?_
  refine simulates_bind simulates_get fun c c' hc => ?_
  rw [hmust c c' results results' hc hresults]
  split
  · refine simulates_bind (simulates_modify fun c c' hc => ?_) fun _ _ _ => simulates_pure .none
    exact hregrow c c' results results' deps deps' hc hresults hdeps
  · exact simulates_pure (.some ⟨hresults, hdeps⟩)

end ChartGrammar
