/-
  Distinct.lean --- the first repeat in a list.
-/
set_option autoImplicit false

namespace ChartGrammar

/-- The first member of a list that stands earlier in it too, or in `seen`. -/
def firstRepeatFrom? {α : Type} [DecidableEq α] (seen : List α) : List α → Option α
  | [] => none
  | a :: as => if a ∈ seen then some a else firstRepeatFrom? (a :: seen) as

/-- The first member of a list that stands earlier in it too. -/
def firstRepeat? {α : Type} [DecidableEq α] (as : List α) : Option α := firstRepeatFrom? [] as

/-- A list without a repeat has distinct members, none of them in `seen`. -/
theorem firstRepeatFrom?_eq_none_iff {α : Type} [DecidableEq α] (seen as : List α) :
    firstRepeatFrom? seen as = none ↔ as.Nodup ∧ ∀ a ∈ as, a ∉ seen := by
  induction as generalizing seen with
  | nil => simp [firstRepeatFrom?]
  | cons a as ih =>
    by_cases h : a ∈ seen
    · simp [firstRepeatFrom?, h]
    · simp only [firstRepeatFrom?, h, if_false, ih, List.nodup_cons, List.mem_cons]
      grind

/-- A list has no repeat exactly when its members are distinct. -/
theorem firstRepeat?_eq_none_iff {α : Type} [DecidableEq α] (as : List α) :
    firstRepeat? as = none ↔ as.Nodup := by
  simp [firstRepeat?, firstRepeatFrom?_eq_none_iff]

end ChartGrammar
