/-
  Chart/Derivation.lean --- what the chart keeps of a parse.

  A chart holds many partial results, and most of them end in no value.  So a
  constructor is only paired with its arguments, once they have the shape it
  accepts, and the values are built when a complete parse has been chosen.
  Building walks an explicit stack: trees as deep as the input are built without
  a deep recursion.
-/
import ChartGrammar.Chart.Chain
import ChartGrammar.Constructor

set_option autoImplicit false

namespace ChartGrammar

mutual

/-- A constructor that waits for its arguments. -/
inductive Node where
  | mk (ctor : Constructor) (args : Deriv)

/-- What an expression found, with values still to be built. -/
inductive Deriv where
  | token (t : Token)
  | tokens (ts : List Token)
  | node (n : Node)
  | fields (ns : List Node)
  | nothing
  | just (n : Node)
  | list (items : Chain Node)
  | pair (head : Node) (items : Chain Node)

end

instance : Inhabited Deriv := ⟨.nothing⟩

instance : Inhabited Node := ⟨.mk default default⟩

namespace Deriv

/-- The nodes of a derivation, from left to right. -/
def children : Deriv → List Node
  | token _ | tokens _ | nothing => []
  | node n | just n => [n]
  | fields ns => ns
  | list items => items.toList
  | pair head items => head :: items.toList

/-- The semantic value of a derivation whose nodes have been built, given the
values in the order of `children`. -/
def sem : Deriv → List Value → Option SemanticValue
  | token t, _ => some (.token t)
  | tokens ts, _ => some (.tokens ts)
  | nothing, _ => some .nothing
  | node _, vs => vs.head?.map .node
  | just _, vs => vs.head?.map .just
  | fields _, vs => some (.fields vs)
  | list _, vs => some (.list vs)
  | pair _ _, v :: vs => some (.pair v vs)
  | pair _ _, [] => none

end Deriv

/-- Whether a constructor accepts the shape of a derivation. -/
def Constructor.fits : Constructor → Deriv → Bool
  | terminal _, .token _ => true
  | branch _ _ arity, .fields ns => ns.length == arity
  | wrap _, .node _ => true
  | record _ arity, .fields ns => ns.length == arity
  | opt _, .nothing => true
  | opt _, .just _ => true
  | star _, .list _ => true
  | plus _, .pair _ _ => true
  | series _, .tokens _ => true
  | _, _ => false

namespace Node

/-- The constructor of a node. -/
def ctor : Node → Constructor
  | mk c _ => c

/-- The arguments of a node. -/
def args : Node → Deriv
  | mk _ d => d

/-- A constructor on top of a derivation, if it accepts the shape. -/
def make? (ctor : Constructor) (args : Deriv) : Option Node :=
  if ctor.fits args then some (mk ctor args) else none

/-! ## Building values

The walk enters a node, walks the nodes below it from left to right, and leaves
it again.  Leaving takes the values of the nodes below off the stack of results
and puts the node's own value there. -/

/-- One step of the walk that is still to be done. -/
inductive Step where
  | enter (n : Node)
  /-- `below` is the number of nodes directly below -/
  | leave (n : Node) (below : Nat)

/-- The room that a step still takes, for the termination of the walk. -/
noncomputable def Step.weight : Step → Nat
  | enter n => 2 * sizeOf n
  | leave _ _ => 1

/-- The room that pending steps take together. -/
noncomputable def Step.weights : List Step → Nat
  | [] => 0
  | s :: steps => s.weight + weights steps

/-- The size of nodes taken together. -/
noncomputable def sizes : List Node → Nat
  | [] => 0
  | n :: ns => sizeOf n + sizes ns

theorem sizes_append (ns ms : List Node) : sizes (ns ++ ms) = sizes ns + sizes ms := by
  induction ns with
  | nil => simp only [List.nil_append, sizes, Nat.zero_add]
  | cons n ns ih => simp only [List.cons_append, sizes, ih, Nat.add_assoc]

theorem weights_enter_append (ns : List Node) (steps : List Step) :
    Step.weights (ns.map Step.enter ++ steps) = 2 * sizes ns + Step.weights steps := by
  induction ns with
  | nil => simp only [List.map_nil, List.nil_append, sizes, Nat.mul_zero, Nat.zero_add]
  | cons n ns ih =>
    simp only [List.map_cons, List.cons_append, Step.weights, ih, Step.weight, sizes]
    omega

theorem sizes_lt_list (ns : List Node) : sizes ns < sizeOf ns := by
  induction ns with
  | nil => decide
  | cons n ns ih =>
    simp only [sizes, List.cons.sizeOf_spec]
    omega

theorem sizes_lt_chain (c : Chain Node) : sizes c.toList < sizeOf c := by
  induction c with
  | empty =>
    simp only [Chain.toList_empty, sizes, Chain.empty.sizeOf_spec]
    omega
  | snoc init last ih =>
    simp only [Chain.toList_snoc, sizes_append, sizes, Chain.snoc.sizeOf_spec]
    omega

theorem sizes_children_lt (d : Deriv) : sizes d.children < sizeOf d := by
  cases d with
  | token t =>
    simp only [Deriv.children, sizes, Deriv.token.sizeOf_spec]
    omega
  | tokens ts =>
    simp only [Deriv.children, sizes, Deriv.tokens.sizeOf_spec]
    omega
  | nothing =>
    simp only [Deriv.children, sizes, Deriv.nothing.sizeOf_spec]
    omega
  | node n =>
    simp only [Deriv.children, sizes, Deriv.node.sizeOf_spec]
    omega
  | just n =>
    simp only [Deriv.children, sizes, Deriv.just.sizeOf_spec]
    omega
  | fields ns =>
    have := sizes_lt_list ns
    simp only [Deriv.children, Deriv.fields.sizeOf_spec]
    omega
  | list items =>
    have := sizes_lt_chain items
    simp only [Deriv.children, Deriv.list.sizeOf_spec]
    omega
  | pair head items =>
    have := sizes_lt_chain items
    simp only [Deriv.children, sizes, Deriv.pair.sizeOf_spec]
    omega

theorem sizeOf_args_lt (n : Node) : sizeOf n.args < sizeOf n := by
  cases n with
  | mk c d =>
    simp only [args, Node.mk.sizeOf_spec]
    omega

/-- Work off the pending steps.  The values built so far are held with the latest
first. -/
def walk : List Step → List Value → Except Constructor (List Value)
  | [], built => .ok built
  | .enter n :: steps, built =>
    walk (n.args.children.map Step.enter ++ .leave n n.args.children.length :: steps) built
  | .leave n below :: steps, built =>
    match (n.args.sem (built.take below).reverse).bind n.ctor.apply with
    | some v => walk steps (v :: built.drop below)
    | none => .error n.ctor
termination_by steps => Step.weights steps
decreasing_by
  · have h := sizes_children_lt n.args
    have hn := sizeOf_args_lt n
    simp only [weights_enter_append, Step.weights, Step.weight]
    omega
  · simp only [Step.weights, Step.weight]
    omega

/-- The value of a node, or the constructor that did not accept its arguments. -/
def build (n : Node) : Except Constructor Value :=
  match walk [.enter n] [] with
  | .ok (v :: _) => .ok v
  | .ok [] => .error n.ctor
  | .error c => .error c

end Node

end ChartGrammar
