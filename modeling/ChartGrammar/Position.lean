/-
  Position.lean --- where a character stands in its text.
-/
set_option autoImplicit false

namespace ChartGrammar

/-- Where a character stands.  The offset counts characters from zero; lines and
columns count from one. -/
structure Position where
  offset : Nat
  line : Nat
  column : Nat
  deriving DecidableEq, Repr, Inhabited

namespace Position

/-- The position of the first character of any text. -/
def start : Position := ⟨0, 1, 1⟩

/-- The position after a character.  A line feed starts a new line, and nothing
else does. -/
def advance (p : Position) (c : Char) : Position :=
  if c = '\n' then ⟨p.offset + 1, p.line + 1, 1⟩
  else ⟨p.offset + 1, p.line, p.column + 1⟩

/-- The position after a run of characters. -/
def advanceAll (p : Position) (cs : List Char) : Position :=
  cs.foldl advance p

/-- Every position passed on the way over a run of characters, the first one and
the last one included. -/
def trail (p : Position) : List Char → List Position
  | [] => [p]
  | c :: cs => p :: trail (p.advance c) cs

/-- Positions are ordered by offset, then by line, then by column. -/
instance : LT Position where
  lt p q :=
    p.offset < q.offset ∨
      (p.offset = q.offset ∧
        (p.line < q.line ∨ (p.line = q.line ∧ p.column < q.column)))

instance (p q : Position) : Decidable (p < q) :=
  inferInstanceAs (Decidable (_ ∨ _))

/-- A position as diagnostics show it: the offset is left out. -/
def render (p : Position) : String :=
  "line " ++ toString p.line ++ ", column " ++ toString p.column

end Position

end ChartGrammar
