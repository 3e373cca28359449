/-
  Proofs/Building.lean --- building the values of derivations.

  `Builds` says which value a node stands for, by recursion over the nodes below it.
  The walk that builds values with a stack of results computes exactly that, and a
  constructor that fits a derivation always has a value for it.
-/
import Mathlib.Data.List.Forall2
import ChartGrammar.Chart.Derivation

set_option autoImplicit false

namespace ChartGrammar

/-- The value that a node stands for: its constructor on the values of the nodes below. -/
inductive Node.Builds : Node → Value → Prop where
  | mk {ctor : Constructor} {args : Deriv} {vs : List Value} {sv : SemanticValue} {v : Value}
      (hvs : List.Forall₂ Builds args.children vs) (hsem : args.sem vs = some sv)
      (hv : ctor.apply sv = some v) :
      Builds (.mk ctor args) v

/-- The semantic value that a derivation stands for. -/
def Deriv.Builds (d : Deriv) (sv : SemanticValue) : Prop :=
  ∃ vs, List.Forall₂ Node.Builds d.children vs ∧ d.sem vs = some sv

/-! ## The walk -/

namespace Node

theorem sizeOf_le_sizes {n : Node} {ns : List Node} (h : n ∈ ns) : sizeOf n ≤ sizes ns := by
  induction ns with
  | nil => cases h
  | cons m ns ih =>
    rw [sizes]
    rcases List.mem_cons.mp h with rfl | h
    · omega
    · have := ih h
      omega

theorem sizeOf_lt_of_mem_children {n m : Node} (h : m ∈ n.args.children) :
    sizeOf m < sizeOf n := by
  have hle := sizeOf_le_sizes h
  have hchildren := sizes_children_lt n.args
  have hargs := sizeOf_args_lt n
  omega

/-- Nodes that are worked off one after another leave their values on the stack, the
latest first. -/
theorem walk_enter_append {ns : List Node} {vs : List Value}
    (h : List.Forall₂ (fun n v => ∀ steps built,
      walk (.enter n :: steps) built = walk steps (v :: built)) ns vs) :
    ∀ steps built, walk (ns.map Step.enter ++ steps) built = walk steps (vs.reverse ++ built) := by
  induction h with
  | nil => exact fun _ _ => rfl
  | cons hn _ ih =>
    intro steps built
    rw [List.map_cons, List.cons_append, hn, ih, List.reverse_cons, List.append_assoc,
      List.singleton_append]

/-- Working off a node puts the value that it stands for on the stack. -/
theorem walk_enter {n : Node} {v : Value} (h : n.Builds v) (steps : List Step)
    (built : List Value) : walk (.enter n :: steps) built = walk steps (v :: built) := by
  obtain ⟨hvs, hsem, hv⟩ := h
  rename_i ctor args vs sv
  have hwalk : List.Forall₂ (fun m w => ∀ steps built,
      walk (.enter m :: steps) built = walk steps (w :: built)) args.children vs := by
    rw [List.forall₂_iff_zip] at hvs ⊢
    refine ⟨hvs.1, fun {m w} hmem steps built => ?_⟩
    have : sizeOf m < sizeOf (Node.mk ctor args) :=
      sizeOf_lt_of_mem_children (List.of_mem_zip hmem).1
    exact walk_enter (hvs.2 hmem) steps built
  have hlen : vs.reverse.length = args.children.length := by
    rw [List.length_reverse, hvs.length_eq]
  rw [walk, Node.args, walk_enter_append hwalk, walk]
  simp only [Node.args, Node.ctor, ← hlen, List.take_left, List.drop_left, List.reverse_reverse,
    hsem, Option.bind_some, hv]
termination_by sizeOf n

/-- Building a node gives the value that it stands for. -/
theorem build_eq_ok {n : Node} {v : Value} (h : n.Builds v) : n.build = .ok v := by
  rw [build, walk_enter h, walk]

end Node

/-! ## Derivations of each shape -/

namespace Deriv

variable {sv : SemanticValue}

theorem builds_token (t : Token) : (token t).Builds (.token t) := ⟨[], .nil, rfl⟩

theorem builds_tokens (ts : List Token) : (tokens ts).Builds (.tokens ts) := ⟨[], .nil, rfl⟩

theorem builds_nothing : nothing.Builds .nothing := ⟨[], .nil, rfl⟩

theorem builds_node_iff {n : Node} :
    (node n).Builds sv ↔ ∃ v, n.Builds v ∧ sv = .node v := by
  constructor
  · rintro ⟨vs, hvs, hsem⟩
    cases hvs with
    | cons hv hnil =>
      cases hnil
      cases hsem
      exact ⟨_, hv, rfl⟩
  · rintro ⟨v, hv, rfl⟩
    exact ⟨[v], .cons hv .nil, rfl⟩

theorem builds_just {n : Node} {v : Value} (h : n.Builds v) : (just n).Builds (.just v) :=
  ⟨[v], .cons h .nil, rfl⟩

theorem builds_fields {ns : List Node} {vs : List Value} (h : List.Forall₂ Node.Builds ns vs) :
    (fields ns).Builds (.fields vs) :=
  ⟨vs, h, rfl⟩

theorem builds_list_iff {items : Chain Node} :
    (list items).Builds sv ↔ ∃ vs, List.Forall₂ Node.Builds items.toList vs ∧ sv = .list vs := by
  constructor
  · rintro ⟨vs, hvs, hsem⟩
    cases hsem
    exact ⟨vs, hvs, rfl⟩
  · rintro ⟨vs, hvs, rfl⟩
    exact ⟨vs, hvs, rfl⟩

theorem builds_pair {n : Node} {items : Chain Node} {v : Value} {vs : List Value}
    (hn : n.Builds v) (hitems : List.Forall₂ Node.Builds items.toList vs) :
    (pair n items).Builds (.pair v vs) :=
  ⟨v :: vs, .cons hn hitems, rfl⟩

end Deriv

/-- A constructor accepts the shape of a derivation exactly if it has a value for what
the derivation stands for. -/
theorem Constructor.fits_iff {ctor : Constructor} {d : Deriv} {sv : SemanticValue}
    (h : d.Builds sv) : ctor.fits d = true ↔ ∃ v, ctor.apply sv = some v := by
  obtain ⟨vs, hvs, hsem⟩ := h
  have hlen := hvs.length_eq
  cases d with
  | token t =>
    cases hsem
    cases ctor <;> simp [fits, apply]
  | tokens ts =>
    cases hsem
    cases ctor <;> simp [fits, apply]
  | nothing =>
    cases hsem
    cases ctor <;> simp [fits, apply]
  | node n =>
    obtain ⟨v, -, rfl⟩ := Deriv.builds_node_iff.mp ⟨vs, hvs, hsem⟩
    cases ctor <;> simp [fits, apply]
  | just n =>
    cases hvs with
    | cons hv hnil =>
      cases hnil
      cases hsem
      cases ctor <;> simp [fits, apply]
  | fields ns =>
    cases hsem
    simp only [Deriv.children] at hlen
    cases ctor <;> simp [fits, apply, hlen]
  | list items =>
    cases hsem
    cases ctor <;> simp [fits, apply]
  | pair head items =>
    cases hvs with
    | cons hv hitems =>
      cases hsem
      cases ctor <;> simp [fits, apply]

/-- A constructor that fits what a derivation stands for makes a node of it, which stands
for the constructor's value. -/
theorem Node.builds_of_make? {ctor : Constructor} {d : Deriv} {n : Node} {sv : SemanticValue}
    (hmake : Node.make? ctor d = some n) (h : d.Builds sv) :
    ∃ v, ctor.apply sv = some v ∧ n.Builds v := by
  unfold Node.make? at hmake
  split at hmake
  · next hfits =>
    cases hmake
    obtain ⟨v, hv⟩ := (Constructor.fits_iff h).mp hfits
    obtain ⟨vs, hvs, hsem⟩ := h
    exact ⟨v, hv, .mk hvs hsem hv⟩
  · cases hmake

end ChartGrammar
