/-
  Chart/Iterate.lean --- taking a step again and again until it gives an answer.

  How often a step must be taken may be exponential in the size of the input, and
  a counter of that many steps would be as long as the input.  Here the steps are
  taken in blocks, each twice as long as the one before, so that fuel `n` pays for
  `2 ^ n - 1` steps, and nothing is spent on steps that are not taken.
-/
import ChartGrammar.Chart.State

set_option autoImplicit false

namespace ChartGrammar

namespace ChartM

variable {α : Type}

/-- Take a step until it gives an answer, at most `n` times. -/
def repeatUpTo (step : ChartM (Option α)) : Nat → ChartM (Option α)
  | 0 => pure none
  | n + 1 => do
    match ← step with
    | some a => return some a
    | none => repeatUpTo step n

/-- Take a step until it gives an answer, at most `2 ^ k` times. -/
def repeatBlock (step : ChartM (Option α)) : Nat → ChartM (Option α)
  | 0 => step
  | k + 1 => do
    match ← repeatBlock step k with
    | some a => return some a
    | none => repeatBlock step k

/-- Take a step until it gives an answer, in a block of at most `2 ^ k` steps, then in
one of twice that length, and so on.  The first argument bounds the number of
blocks. -/
def repeatBlocks (step : ChartM (Option α)) : Nat → Nat → ChartM α
  | 0, _ => failure
  | n + 1, k => do
    match ← repeatBlock step k with
    | some a => return a
    | none => repeatBlocks step n (k + 1)

/-- Take a step until it gives an answer, at most `2 ^ fuel - 1` times. -/
def untilAnswer (step : ChartM (Option α)) (fuel : Nat) : ChartM α :=
  repeatBlocks step fuel 0

/-! ## Blocks are bounded repetition -/

theorem repeatUpTo_add (step : ChartM (Option α)) (m n : Nat) :
    repeatUpTo step (m + n) = (do
      match ← repeatUpTo step m with
      | some a => return some a
      | none => repeatUpTo step n) := by
  induction m with
  | zero => simp [repeatUpTo]
  | succ m ih =>
    rw [Nat.add_right_comm, repeatUpTo, repeatUpTo, bind_assoc]
    refine bind_congr fun answer => ?_
    cases answer with
    | none => exact ih
    | some a => simp

theorem repeatBlock_eq (step : ChartM (Option α)) (k : Nat) :
    repeatBlock step k = repeatUpTo step (Nat.pow 2 k) := by
  induction k with
  | zero =>
    rw [Nat.pow, repeatBlock, repeatUpTo]
    refine (bind_pure step).symm.trans (bind_congr fun answer => ?_)
    cases answer <;> rfl
  | succ k ih =>
    have double : Nat.pow 2 (k + 1) = Nat.pow 2 k + Nat.pow 2 k := Nat.mul_two _
    rw [double, repeatUpTo_add, repeatBlock, ih]

theorem repeatBlocks_eq (step : ChartM (Option α)) (n k : Nat) :
    repeatBlocks step n k = (do
      match ← repeatUpTo step (Nat.pow 2 (k + n) - Nat.pow 2 k) with
      | some a => return a
      | none => failure) := by
  induction n generalizing k with
  | zero => simp [repeatBlocks, repeatUpTo]
  | succ n ih =>
    have le : Nat.pow 2 (k + 1) ≤ Nat.pow 2 (k + 1 + n) :=
      Nat.pow_le_pow_right (by decide) (Nat.le_add_right _ _)
    have double : Nat.pow 2 (k + 1) = Nat.pow 2 k * 2 := rfl
    have split : Nat.pow 2 (k + (n + 1)) - Nat.pow 2 k =
        Nat.pow 2 k + (Nat.pow 2 (k + 1 + n) - Nat.pow 2 (k + 1)) := by
      rw [show k + (n + 1) = k + 1 + n by omega]
      omega
    rw [split, repeatUpTo_add, repeatBlocks, repeatBlock_eq, bind_assoc]
    refine bind_congr fun answer => ?_
    cases answer with
    | none => exact ih (k + 1)
    | some a => simp

/-- Fuel `n` pays for `2 ^ n - 1` steps. -/
theorem untilAnswer_eq (step : ChartM (Option α)) (fuel : Nat) :
    untilAnswer step fuel = (do
      match ← repeatUpTo step (Nat.pow 2 fuel - 1) with
      | some a => return a
      | none => failure) := by
  rw [untilAnswer, repeatBlocks_eq, Nat.zero_add, Nat.pow]

end ChartM

end ChartGrammar
