/-
  Grammar/Rhs.lean --- the right-hand sides of rules.

  A right-hand side applies exactly one construction to other rules.  It refers to
  them by references of any type: by names in a grammar text, by ids in a grammar.
-/
import ChartGrammar.Predicate

set_option autoImplicit false

namespace ChartGrammar

/-- A labelled alternative of a choice. -/
structure Branch (ρ : Type) where
  label : String
  fields : List ρ
  deriving DecidableEq, Repr, Inhabited

/-- The right-hand side of a rule whose references to rules have type `ρ`. -/
inductive Rhs (ρ : Type) where
  /-- one token that passes a test -/
  | terminal (p : Predicate)
  /-- one of several labelled branches, the earlier ones preferred -/
  | choice (branches : List (Branch ρ))
  /-- another rule -/
  | wrap (inner : ρ)
  /-- rules one after another -/
  | record (fields : List ρ)
  /-- a rule or nothing -/
  | opt (inner : ρ)
  /-- a rule any number of times -/
  | star (inner : ρ)
  /-- a rule at least once -/
  | plus (inner : ρ)
  /-- the characters of a literal -/
  | series (literal : String)
  deriving DecidableEq, Repr, Inhabited

namespace Rhs

variable {ρ σ ε : Type}

/-- The rules that a right-hand side refers to, in order and with repeats. -/
def children : Rhs ρ → List ρ
  | terminal _ | series _ => []
  | choice branches => branches.flatMap Branch.fields
  | record fields => fields
  | wrap r | opt r | star r | plus r => [r]

/-- The name of a right-hand side's kind. -/
def kind : Rhs ρ → String
  | terminal _ => "terminal"
  | choice _ => "choice"
  | wrap _ => "wrap"
  | record _ => "record"
  | opt _ => "opt"
  | star _ => "star"
  | plus _ => "plus"
  | series _ => "series"

/-- The same right-hand side over other references. -/
def map (f : ρ → σ) : Rhs ρ → Rhs σ
  | terminal p => terminal p
  | choice branches => choice (branches.map fun b => ⟨b.label, b.fields.map f⟩)
  | wrap r => wrap (f r)
  | record fields => record (fields.map f)
  | opt r => opt (f r)
  | star r => star (f r)
  | plus r => plus (f r)
  | series s => series s

/-- The same right-hand side over other references, or the failure of the first
reference that has none. -/
def resolve (f : ρ → Except ε σ) : Rhs ρ → Except ε (Rhs σ)
  | terminal p => return terminal p
  | choice branches =>
    return choice (← branches.mapM fun b => return ⟨b.label, ← b.fields.mapM f⟩)
  | wrap r => return wrap (← f r)
  | record fields => return record (← fields.mapM f)
  | opt r => return opt (← f r)
  | star r => return star (← f r)
  | plus r => return plus (← f r)
  | series s => return series s

theorem map_id (rhs : Rhs ρ) : rhs.map id = rhs := by
  cases rhs with
  | choice branches => simp only [map, List.map_id, List.map_id']
  | record fields => rw [map, List.map_id]
  | _ => rfl

theorem map_map {τ : Type} (f : ρ → σ) (h : σ → τ) (rhs : Rhs ρ) :
    (rhs.map f).map h = rhs.map (h ∘ f) := by
  cases rhs with
  | choice branches => simp only [map, List.map_map, Function.comp_def]
  | record fields => simp only [map, List.map_map]
  | _ => rfl

theorem children_map (f : ρ → σ) (rhs : Rhs ρ) :
    (rhs.map f).children = rhs.children.map f := by
  cases rhs with
  | choice branches => simp only [map, children, List.flatMap_map, List.map_flatMap]
  | _ => rfl

theorem map_congr {f h : ρ → σ} {rhs : Rhs ρ} (heq : ∀ c ∈ rhs.children, f c = h c) :
    rhs.map f = rhs.map h := by
  cases rhs with
  | terminal p => rfl
  | series s => rfl
  | choice branches =>
    rw [map, map, Rhs.choice.injEq]
    refine List.map_congr_left fun b hb => ?_
    rw [Branch.mk.injEq]
    exact ⟨rfl, List.map_congr_left fun c hc => heq c (List.mem_flatMap.mpr ⟨b, hb, hc⟩)⟩
  | record fields =>
    rw [map, map, Rhs.record.injEq]
    exact List.map_congr_left heq
  | wrap r => rw [map, map, heq r (List.mem_singleton_self _)]
  | opt r => rw [map, map, heq r (List.mem_singleton_self _)]
  | star r => rw [map, map, heq r (List.mem_singleton_self _)]
  | plus r => rw [map, map, heq r (List.mem_singleton_self _)]

end Rhs

/-- A named rule with an optional description. -/
structure Production (ρ : Type) where
  name : String
  description : Option String
  rhs : Rhs ρ
  deriving DecidableEq, Repr, Inhabited

/-- How diagnostics call a rule: by its description if it has one. -/
def Production.title {ρ : Type} (p : Production ρ) : String := p.description.getD p.name

end ChartGrammar
