/-
  Chart/Chain.lean --- lists that grow at their end and share what came before.

  A repetition reaches many ends, and the list of items at one end is the list at
  an earlier end with one item more.  A chain keeps that item beside the earlier
  chain, so all these lists together take as much room as the longest one.
-/
set_option autoImplicit false

namespace ChartGrammar

/-- A list that is extended at its end. -/
inductive Chain (α : Type) where
  /-- no items -/
  | empty
  /-- the items of an earlier chain, then one more -/
  | snoc (init : Chain α) (last : α)
  deriving Repr, Inhabited

namespace Chain

variable {α : Type}

/-- The items of a chain in front of a list. -/
def prepend : Chain α → List α → List α
  | empty, rest => rest
  | snoc init last, rest => prepend init (last :: rest)

/-- The items of a chain, the earliest first. -/
def toList (c : Chain α) : List α := c.prepend []

/-- A chain with one item more at its front. -/
def cons (head : α) : Chain α → Chain α
  | empty => snoc empty head
  | snoc init last => snoc (cons head init) last

theorem prepend_eq (c : Chain α) (rest : List α) : c.prepend rest = c.toList ++ rest := by
  induction c generalizing rest with
  | empty => rfl
  | snoc init last ih =>
    show init.prepend (last :: rest) = init.prepend [last] ++ rest
    rw [ih, ih [last]]
    simp

@[simp] theorem toList_empty : (empty : Chain α).toList = [] := rfl

@[simp] theorem toList_snoc (init : Chain α) (last : α) :
    (snoc init last).toList = init.toList ++ [last] :=
  prepend_eq init [last]

@[simp] theorem toList_cons (head : α) (c : Chain α) :
    (c.cons head).toList = head :: c.toList := by
  induction c with
  | empty => rfl
  | snoc init last ih => simp [cons, ih]

end Chain

end ChartGrammar
