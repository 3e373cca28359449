/-
  Expr.lean --- composed parsers.

  An expression says what to match and how to arrange what was found.  It refers
  to other rules by references of any type, so the same expressions serve while
  names are still identifiers and after they have become handles of a registry.
-/
import ChartGrammar.Constructor
import ChartGrammar.Predicate

set_option autoImplicit false

namespace ChartGrammar

/-- A composed parser whose references to rules have type `ρ`. -/
inductive Expr (ρ : Type) where
  /-- whatever the referenced rule finds -/
  | ref (r : ρ)
  /-- one token whose character passes the test -/
  | matchOne (p : Predicate)
  /-- the characters of a literal, one after another -/
  | symbol (literal : String)
  /-- no token and no fields -/
  | unit
  /-- no token and an absent value -/
  | nothing
  /-- no token and an empty list -/
  | nil
  /-- a present value -/
  | just (e : Expr ρ)
  /-- what either side finds, the left side first -/
  | alt (a b : Expr ρ)
  /-- one value per element, one after another -/
  | seq (es : List (Expr ρ))
  /-- a value in front of a list -/
  | cons (head tail : Expr ρ)
  /-- a value beside a list -/
  | pair (head tail : Expr ρ)
  /-- a constructor on top of what was found -/
  | map (ctor : Constructor) (e : Expr ρ)
  /-- a description for diagnostics -/
  | label (description : String) (e : Expr ρ)
  deriving Repr, Inhabited

namespace Expr

variable {ρ σ ε : Type}

mutual

/-- The length of the longest sequence in an expression. -/
def width : Expr ρ → Nat
  | ref _ | matchOne _ | symbol _ | unit | nothing | nil => 0
  | just e => width e
  | alt a b => max (width a) (width b)
  | seq es => max es.length (widthAll es)
  | cons a b => max (width a) (width b)
  | pair a b => max (width a) (width b)
  | map _ e => width e
  | label _ e => width e

/-- The length of the longest sequence in several expressions. -/
def widthAll : List (Expr ρ) → Nat
  | [] => 0
  | e :: es => max (width e) (widthAll es)

end

mutual

/-- The references of an expression, in order of appearance. -/
def refs : Expr ρ → List ρ
  | ref r => [r]
  | matchOne _ | symbol _ | unit | nothing | nil => []
  | just e => refs e
  | alt a b => refs a ++ refs b
  | seq es => refsAll es
  | cons a b => refs a ++ refs b
  | pair a b => refs a ++ refs b
  | map _ e => refs e
  | label _ e => refs e

/-- The references of several expressions, in order of appearance. -/
def refsAll : List (Expr ρ) → List ρ
  | [] => []
  | e :: es => refs e ++ refsAll es

end

mutual

/-- The same expression over other references. -/
def mapRefs (f : ρ → σ) : Expr ρ → Expr σ
  | ref r => ref (f r)
  | matchOne p => matchOne p
  | symbol s => symbol s
  | unit => unit
  | nothing => nothing
  | nil => nil
  | just e => just (mapRefs f e)
  | alt a b => alt (mapRefs f a) (mapRefs f b)
  | seq es => seq (mapRefsAll f es)
  | cons a b => cons (mapRefs f a) (mapRefs f b)
  | pair a b => pair (mapRefs f a) (mapRefs f b)
  | map c e => map c (mapRefs f e)
  | label d e => label d (mapRefs f e)

/-- The same expressions over other references. -/
def mapRefsAll (f : ρ → σ) : List (Expr ρ) → List (Expr σ)
  | [] => []
  | e :: es => mapRefs f e :: mapRefsAll f es

end

mutual

/-- The same expression over other references, or the failure of the first
reference that has none. -/
def resolveRefs (f : ρ → Except ε σ) : Expr ρ → Except ε (Expr σ)
  | ref r => return ref (← f r)
  | matchOne p => return matchOne p
  | symbol s => return symbol s
  | unit => return unit
  | nothing => return nothing
  | nil => return nil
  | just e => return just (← resolveRefs f e)
  | alt a b => return alt (← resolveRefs f a) (← resolveRefs f b)
  | seq es => return seq (← resolveRefsAll f es)
  | cons a b => return cons (← resolveRefs f a) (← resolveRefs f b)
  | pair a b => return pair (← resolveRefs f a) (← resolveRefs f b)
  | map c e => return map c (← resolveRefs f e)
  | label d e => return label d (← resolveRefs f e)

/-- The same expressions over other references, or the first failure. -/
def resolveRefsAll (f : ρ → Except ε σ) : List (Expr ρ) → Except ε (List (Expr σ))
  | [] => return []
  | e :: es => return (← resolveRefs f e) :: (← resolveRefsAll f es)

end

mutual

/-- The text of an expression. -/
def render (showRef : ρ → String) : Expr ρ → String
  | ref r => showRef r
  | matchOne p => "match(" ++ p.render ++ ")"
  | symbol s => "symbol(" ++ Text.quote s ++ ")"
  | unit => "pure(())"
  | nothing => "pure(nothing)"
  | nil => "pure([])"
  | just e => "just(" ++ render showRef e ++ ")"
  | alt a b => "alt(" ++ render showRef a ++ ", " ++ render showRef b ++ ")"
  | seq es => "seq(" ++ ", ".intercalate (renderAll showRef es) ++ ")"
  | cons a b => "cons(" ++ render showRef a ++ ", " ++ render showRef b ++ ")"
  | pair a b => "pair(" ++ render showRef a ++ ", " ++ render showRef b ++ ")"
  | map c e => "map(" ++ c.render ++ ", " ++ render showRef e ++ ")"
  | label d e => render showRef e ++ " <?> " ++ Text.quote d

/-- The texts of several expressions. -/
def renderAll (showRef : ρ → String) : List (Expr ρ) → List String
  | [] => []
  | e :: es => render showRef e :: renderAll showRef es

end

end Expr

end ChartGrammar
