/-
  Yield/NonEmptyList.lean --- lists with at least one element.
-/
set_option autoImplicit false

namespace ChartGrammar

/-- A list with at least one element. -/
structure NonEmptyList (α : Type) where
  head : α
  tail : List α
  deriving DecidableEq, Repr, Inhabited

namespace NonEmptyList

variable {α : Type}

/-- The list of one element. -/
def singleton (a : α) : NonEmptyList α := ⟨a, []⟩

/-- A list as a nonempty one, if it is. -/
def ofList? : List α → Option (NonEmptyList α)
  | [] => none
  | a :: as => some ⟨a, as⟩

/-- The elements in order. -/
def toList (l : NonEmptyList α) : List α := l.head :: l.tail

/-- The number of elements. -/
def length (l : NonEmptyList α) : Nat := l.tail.length + 1

/-- The last element. -/
def last (l : NonEmptyList α) : α := l.tail.getLastD l.head

/-- A list in front of a nonempty one. -/
def prepend (l : NonEmptyList α) : List α → NonEmptyList α
  | [] => l
  | a :: as => ⟨a, as ++ l.toList⟩

/-- A list behind a nonempty one. -/
def append (l : NonEmptyList α) (as : List α) : NonEmptyList α := ⟨l.head, l.tail ++ as⟩

@[simp] theorem toList_singleton (a : α) : (singleton a).toList = [a] := rfl

@[simp] theorem toList_prepend (l : NonEmptyList α) (as : List α) :
    (l.prepend as).toList = as ++ l.toList := by
  cases as <;> rfl

@[simp] theorem toList_append (l : NonEmptyList α) (as : List α) :
    (l.append as).toList = l.toList ++ as := rfl

/-- A nonempty list as diagnostics show it: the head apart from the tail. -/
def render (showElem : α → String) (l : NonEmptyList α) : String :=
  showElem l.head ++ " :| [" ++ ", ".intercalate (l.tail.map showElem) ++ "]"

end NonEmptyList

end ChartGrammar
