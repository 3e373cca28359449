/-
  Proofs/Layout.lean --- which texts say what.

  A grammar text is a row of words with filler around them: names, literals and marks.
  What the words of a production are does not depend on how they are laid out, and how a
  word is spelled does not depend on what stands around it.  Only two names need something
  between them.  Nothing here reads a text: `IsLayout` says which texts say the same.
-/
import ChartGrammar.Grammar.Rhs

set_option autoImplicit false

namespace ChartGrammar

namespace Layout

/-! ## Filler -/

/-- A space, a tab or an end of line. -/
def Blank (c : Char) : Prop := c = ' ' ∨ c = '\t' ∨ c = '\r' ∨ c = '\n'

/-- The text of a comment after its `#`: it stays on one line. -/
def CommentBody (cs : List Char) : Prop := ∀ c ∈ cs, c ≠ '\n' ∧ c ≠ '\r'

/-- What may stand between words: blanks, and comments with the ends of their lines. -/
inductive Filler : List Char → Prop where
  | nil : Filler []
  | blank {c : Char} {f : List Char} (hc : Blank c) (hf : Filler f) : Filler (c :: f)
  | comment {body eol f : List Char} (hbody : CommentBody body)
      (heol : eol = ['\n'] ∨ eol = ['\r', '\n']) (hf : Filler f) :
      Filler ('#' :: (body ++ (eol ++ f)))

/-- What may stand after the last word: filler, where the last comment need not end its
line. -/
inductive EndFiller : List Char → Prop where
  | filler {f : List Char} (hf : Filler f) : EndFiller f
  | comment {f body : List Char} (hf : Filler f) (hbody : CommentBody body) :
      EndFiller (f ++ '#' :: body)

/-! ## Names and literals -/

/-- A character that a name may begin with. -/
def NameStart (c : Char) : Prop := ('a' ≤ c ∧ c ≤ 'z') ∨ ('A' ≤ c ∧ c ≤ 'Z') ∨ c = '_'

/-- A character that a name may go on with. -/
def NamePart (c : Char) : Prop := NameStart c ∨ ('0' ≤ c ∧ c ≤ '9')

instance : DecidablePred NameStart := fun c =>
  inferInstanceAs (Decidable (('a' ≤ c ∧ c ≤ 'z') ∨ ('A' ≤ c ∧ c ≤ 'Z') ∨ c = '_'))

instance : DecidablePred NamePart := fun c =>
  inferInstanceAs (Decidable (NameStart c ∨ ('0' ≤ c ∧ c ≤ '9')))

/-- A name: an ASCII letter or an underscore, then ASCII letters, digits and underscores. -/
inductive IsName : List Char → Prop where
  | mk {c : Char} {cs : List Char} (hc : NameStart c) (hcs : ∀ d ∈ cs, NamePart d) :
      IsName (c :: cs)

instance : DecidablePred IsName
  | [] => isFalse nofun
  | c :: cs => decidable_of_iff (NameStart c ∧ cs.all (NamePart ·) = true)
      ⟨fun h => .mk h.1 (by simpa using h.2), fun | .mk hc hcs => ⟨hc, by simpa using hcs⟩⟩

/-- The characters that may follow a backslash, and what they stand for then. -/
def escapes : List (Char × Char) :=
  [('n', '\n'), ('t', '\t'), ('r', '\r'), ('\\', '\\'), ('\'', '\''), ('"', '"')]

/-- How a character is written between quotes: as itself or by an escape. -/
inductive LiteralChar (quote : Char) : Char → List Char → Prop where
  | plain {c : Char} (hback : c ≠ '\\') (hquote : c ≠ quote) : LiteralChar quote c [c]
  | escape {e c : Char} (h : (e, c) ∈ escapes) : LiteralChar quote c ['\\', e]

/-- A character in apostrophes. -/
inductive CharLiteral : Char → List Char → Prop where
  | mk {c : Char} {t : List Char} (h : LiteralChar '\'' c t) :
      CharLiteral c ('\'' :: (t ++ ['\'']))

/-- What stands between double quotes. -/
inductive LiteralBody : List Char → List Char → Prop where
  | nil : LiteralBody [] []
  | cons {c : Char} {t cs ts : List Char} (h : LiteralChar '"' c t) (hs : LiteralBody cs ts) :
      LiteralBody (c :: cs) (t ++ ts)

/-- The classes of characters that have a name. -/
def classes : List (String × Predicate) :=
  [("digit", .digit), ("space", .space), ("alpha", .alpha), ("alnum", .alnum),
    ("upper", .upper), ("lower", .lower), ("punct", .punct), ("any", .any)]

/-! ## Words -/

/-- A word of a grammar text. -/
inductive Word where
  /-- a name -/
  | name (n : String)
  /-- a name and the mark directly after it that says how often its rule may occur -/
  | suffixed (n : String) (suffix : Char)
  /-- a test on a character -/
  | predicate (p : Predicate)
  /-- a text in double quotes -/
  | text (s : String)
  /-- a mark that stands for itself -/
  | mark (c : Char)
  deriving DecidableEq, Repr, Inhabited

namespace Word

/-- How words are spelled. -/
inductive Spelled : Word → List Char → Prop where
  | name {n : String} (h : IsName n.toList) : Spelled (name n) n.toList
  | suffixed {n : String} {c : Char} (h : IsName n.toList) (hc : c ∈ ['?', '*', '+']) :
      Spelled (suffixed n c) (n.toList ++ [c])
  | className {n : String} {p : Predicate} (h : (n, p) ∈ classes) :
      Spelled (predicate p) ('@' :: n.toList)
  | char {c : Char} {t : List Char} (h : CharLiteral c t) : Spelled (predicate (.char c)) t
  | range {lo hi : Char} {t u : List Char} (hlo : CharLiteral lo t) (hhi : CharLiteral hi u) :
      Spelled (predicate (.range lo hi)) (t ++ '.' :: '.' :: u)
  | text {s : String} {t : List Char} (hne : s ≠ "") (h : LiteralBody s.toList t) :
      Spelled (text s) ('"' :: (t ++ ['"']))
  | mark {c : Char} (h : c ∈ ['=', ';', '(', ')', ':', '|']) : Spelled (mark c) [c]

/-- Whether a word begins with a name. -/
def beginsName : Word → Bool
  | name _ | suffixed _ _ => true
  | _ => false

/-- Whether a word ends with a name, be it that of a class. -/
def endsName : Word → Bool
  | name _ => true
  | suffixed _ _ | text _ | mark _ => false
  | predicate (.char _) | predicate (.range _ _) => false
  | predicate _ => true

end Word

/-- Words in a row, each after filler of any length; after a name, filler that is not empty
before another one.  `named` says whether a name stands directly before the text. -/
inductive Spaced : Bool → List Word → List Char → Prop where
  | nil {named : Bool} : Spaced named [] []
  | cons {named : Bool} {w : Word} {ws : List Word} {f t cs : List Char} (hf : Filler f)
      (hgap : named = true → w.beginsName = true → f ≠ []) (hw : w.Spelled t)
      (hws : Spaced w.endsName ws cs) : Spaced named (w :: ws) (f ++ (t ++ cs))

/-- A text of these words: filler stands before each of them, and after the last one. -/
def TextOf (ws : List Word) (cs : List Char) : Prop :=
  ∃ body tail, cs = body ++ tail ∧ Spaced false ws body ∧ EndFiller tail

end Layout

open Layout

/-! ## Productions in words -/

/-- A branch: its label, a colon, its fields. -/
def Branch.words (b : Branch String) : List Word :=
  .name b.label :: .mark ':' :: b.fields.map .name

namespace Rhs

/-- The words of a right-hand side.  A choice has bars between its branches. -/
def words : Rhs String → List Word
  | terminal p => [.predicate p]
  | choice [] => []
  | choice (b :: bs) => b.words ++ bs.flatMap fun b => .mark '|' :: b.words
  | wrap n => [.name n]
  | record fields => .mark '(' :: (fields.map .name ++ [.mark ')'])
  | opt n => [.suffixed n '?']
  | star n => [.suffixed n '*']
  | plus n => [.suffixed n '+']
  | series s => [.text s]

end Rhs

/-- The words of a production: its name, its description if it has one, an equals sign, its
right-hand side and a semicolon. -/
def Production.words (p : Production String) : List Word :=
  .name p.name :: ((p.description.map Word.text).toList ++
    .mark '=' :: (p.rhs.words ++ [.mark ';']))

/-- A text says these productions: it has their words in order, with filler around them.  A
choice has a branch. -/
structure IsLayout (ps : List (Production String)) (cs : List Char) : Prop where
  choices : ∀ p ∈ ps, p.rhs ≠ .choice []
  words : TextOf (ps.flatMap Production.words) cs

end ChartGrammar
