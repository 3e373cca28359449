/-
  Token.lean --- the input of a parse: characters that know where they stand.
-/
import ChartGrammar.Position
import ChartGrammar.Text.Quoted

set_option autoImplicit false

namespace ChartGrammar

/-- A character of the input together with its position. -/
structure Token where
  char : Char
  position : Position
  deriving DecidableEq, Repr, Inhabited

namespace Token

/-- The tokens of a run of characters whose first one stands at `p`. -/
def streamFrom (p : Position) : List Char → List Token
  | [] => []
  | c :: cs => ⟨c, p⟩ :: streamFrom (p.advance c) cs

/-- The tokens of a text: every character with its position. -/
def stream (s : String) : List Token :=
  streamFrom Position.start s.toList

/-- The text that a run of tokens spells. -/
def text (ts : List Token) : String :=
  String.ofList (ts.map char)

/-- A token as diagnostics show it. -/
def render (t : Token) : String :=
  Text.quoteChar t.char ++ " at " ++ t.position.render

/-- A run of tokens spells the characters it was made from. -/
theorem map_char_streamFrom (p : Position) (cs : List Char) :
    (streamFrom p cs).map char = cs := by
  induction cs generalizing p with
  | nil => rfl
  | cons c cs ih => simp [streamFrom, ih]

/-- Nothing is lost between a text and its tokens. -/
theorem text_stream (s : String) : text (stream s) = s := by
  simp [text, stream, map_char_streamFrom]

end Token

end ChartGrammar
