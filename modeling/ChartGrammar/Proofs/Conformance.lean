/-
  Proofs/Conformance.lean --- the values of a rule, read off from the grammar.

  A rule of a grammar says what its values look like: which name and kind they
  carry, which labels, how many values stand below them and of which rules, and
  which tokens they hold.  `Conforms` says so without a parser.  Whether a token is
  tested is left open: a parser promises it (`IsValue`), and the tokens can be given
  back without it (`HasShape`).
-/
import Mathlib.Data.List.Forall2
import ChartGrammar.Grammar.Basic
import ChartGrammar.Value

set_option autoImplicit false

namespace ChartGrammar

/-- What relates two lists member by member may be weakened at the members of the
second one. -/
theorem forall₂_imp_right {α β : Type} {R S : α → β → Prop} {as : List α} {bs : List β}
    (h : List.Forall₂ R as bs) (himp : ∀ a, ∀ b ∈ bs, R a b → S a b) :
    List.Forall₂ S as bs := by
  induction h with
  | nil => exact .nil
  | cons hab _ ih =>
    exact .cons (himp _ _ List.mem_cons_self hab)
      (ih fun a b hb => himp a b (List.mem_cons_of_mem _ hb))

/-! ## The tokens of a value -/

namespace Value

mutual

/-- The tokens that a value holds, from left to right. -/
def leaves : Value → List Token
  | terminal _ t => [t]
  | branch _ _ fields => leavesAll fields
  | wrap _ inner => leaves inner
  | record _ fields => leavesAll fields
  | opt _ none => []
  | opt _ (some inner) => leaves inner
  | star _ items => leavesAll items
  | plus _ head tail => leaves head ++ leavesAll tail
  | series _ ts => ts

/-- The tokens that values hold, one value after another. -/
def leavesAll : List Value → List Token
  | [] => []
  | v :: vs => leaves v ++ leavesAll vs

end

/-- A value is larger than the values directly below it. -/
theorem sizeOf_lt_of_mem_children {v c : Value} (h : c ∈ v.children) : sizeOf c < sizeOf v := by
  cases v with
  | terminal r t => simp [children] at h
  | series r ts => simp [children] at h
  | branch r label fields =>
    have : sizeOf c < sizeOf fields := List.sizeOf_lt_of_mem h
    simp only [branch.sizeOf_spec]
    omega
  | record r fields =>
    have : sizeOf c < sizeOf fields := List.sizeOf_lt_of_mem h
    simp only [record.sizeOf_spec]
    omega
  | wrap r inner =>
    rw [List.mem_singleton.mp h, wrap.sizeOf_spec]
    omega
  | star r items =>
    have : sizeOf c < sizeOf items := List.sizeOf_lt_of_mem h
    simp only [star.sizeOf_spec]
    omega
  | plus r head tail =>
    rcases List.mem_cons.mp h with rfl | htail
    · simp only [plus.sizeOf_spec]
      omega
    · have := List.sizeOf_lt_of_mem htail
      simp only [plus.sizeOf_spec]
      omega
  | opt r inner =>
    cases inner with
    | none => simp [children] at h
    | some inner =>
      rw [List.mem_singleton.mp h, opt.sizeOf_spec, Option.some.sizeOf_spec]
      omega

/-- What holds of a value whenever it holds of the values directly below it holds of
every value. -/
theorem induction_children {P : Value → Prop} (step : ∀ v, (∀ c ∈ v.children, P c) → P v)
    (v : Value) : P v :=
  step v fun c _ => induction_children step c
termination_by sizeOf v
decreasing_by
  rename_i hc
  exact sizeOf_lt_of_mem_children hc

end Value

/-! ## Values of a rule -/

namespace Grammar

/-- A value looks as a rule demands, down to its tokens.  `ok` says which character a
test lets pass. -/
inductive Conforms (g : Grammar) (ok : Predicate → Char → Prop) : RuleId → Value → Prop where
  /-- one token that passes the test -/
  | terminal {id : RuleId} {r : Rule} {p : Predicate} {t : Token}
      (hr : g.get? id = some r) (hrhs : r.rhs = .terminal p) (ht : ok p t.char) :
      Conforms g ok id (.terminal r.name t)
  /-- a branch of the choice, with one value for each of its fields -/
  | branch {id : RuleId} {r : Rule} {branches : List (Branch RuleId)} {b : Branch RuleId}
      {vs : List Value} (hr : g.get? id = some r) (hrhs : r.rhs = .choice branches)
      (hb : b ∈ branches) (hvs : List.Forall₂ (Conforms g ok) b.fields vs) :
      Conforms g ok id (.branch r.name b.label vs)
  /-- a value of the rule that is wrapped -/
  | wrap {id inner : RuleId} {r : Rule} {v : Value}
      (hr : g.get? id = some r) (hrhs : r.rhs = .wrap inner) (hv : Conforms g ok inner v) :
      Conforms g ok id (.wrap r.name v)
  /-- one value for each field -/
  | record {id : RuleId} {r : Rule} {fields : List RuleId} {vs : List Value}
      (hr : g.get? id = some r) (hrhs : r.rhs = .record fields)
      (hvs : List.Forall₂ (Conforms g ok) fields vs) :
      Conforms g ok id (.record r.name vs)
  /-- no value -/
  | absent {id inner : RuleId} {r : Rule}
      (hr : g.get? id = some r) (hrhs : r.rhs = .opt inner) :
      Conforms g ok id (.opt r.name none)
  /-- a value of the optional rule -/
  | present {id inner : RuleId} {r : Rule} {v : Value}
      (hr : g.get? id = some r) (hrhs : r.rhs = .opt inner) (hv : Conforms g ok inner v) :
      Conforms g ok id (.opt r.name (some v))
  /-- any number of values of the repeated rule -/
  | star {id inner : RuleId} {r : Rule} {vs : List Value}
      (hr : g.get? id = some r) (hrhs : r.rhs = .star inner)
      (hvs : ∀ v ∈ vs, Conforms g ok inner v) :
      Conforms g ok id (.star r.name vs)
  /-- at least one value of the repeated rule -/
  | plus {id inner : RuleId} {r : Rule} {v : Value} {vs : List Value}
      (hr : g.get? id = some r) (hrhs : r.rhs = .plus inner) (hv : Conforms g ok inner v)
      (hvs : ∀ w ∈ vs, Conforms g ok inner w) :
      Conforms g ok id (.plus r.name v vs)
  /-- tokens that spell the literal -/
  | series {id : RuleId} {r : Rule} {literal : String} {ts : List Token}
      (hr : g.get? id = some r) (hrhs : r.rhs = .series literal)
      (hts : ts.map Token.char = literal.toList) :
      Conforms g ok id (.series r.name ts)

/-- A value of a rule: it looks as the rule demands, and its tokens pass the rule's
tests. -/
def IsValue (g : Grammar) : RuleId → Value → Prop := g.Conforms fun p c => p.test c = true

/-- A value that looks as a rule demands, whatever its tokens are where the rule asks
for a test. -/
def HasShape (g : Grammar) : RuleId → Value → Prop := g.Conforms fun _ _ => True

variable {g : Grammar} {ok ok' : Predicate → Char → Prop}

/-- A weaker test lets more values pass. -/
theorem Conforms.mono (hok : ∀ p c, ok p c → ok' p c) (v : Value) :
    ∀ id, g.Conforms ok id v → g.Conforms ok' id v := by
  induction v using Value.induction_children with
  | step v ih =>
    intro id h
    cases h with
    | terminal hr hrhs ht => exact .terminal hr hrhs (hok _ _ ht)
    | branch hr hrhs hb hvs =>
      exact .branch hr hrhs hb (forall₂_imp_right hvs fun id c hc h => ih c hc id h)
    | wrap hr hrhs hv => exact .wrap hr hrhs (ih _ (List.mem_singleton_self _) _ hv)
    | record hr hrhs hvs =>
      exact .record hr hrhs (forall₂_imp_right hvs fun id c hc h => ih c hc id h)
    | absent hr hrhs => exact .absent hr hrhs
    | present hr hrhs hv => exact .present hr hrhs (ih _ (List.mem_singleton_self _) _ hv)
    | star hr hrhs hvs => exact .star hr hrhs fun v hv => ih v hv _ (hvs v hv)
    | plus hr hrhs hv hvs =>
      exact .plus hr hrhs (ih _ List.mem_cons_self _ hv)
        fun w hw => ih w (List.mem_cons_of_mem _ hw) _ (hvs w hw)
    | series hr hrhs hts => exact .series hr hrhs hts

/-- A value of a rule has its shape. -/
theorem IsValue.hasShape {id : RuleId} {v : Value} (h : g.IsValue id v) : g.HasShape id v :=
  Conforms.mono (fun _ _ _ => trivial) v id h

end Grammar

end ChartGrammar
