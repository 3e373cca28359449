/-
  Proofs/Meaning.lean --- what the rules of a registry mean, with no chart involved.

  `Means` is the least relation that reads expressions as they are written: a
  reference means what its body means, an alternative what either side means, and
  parts that follow each other mean runs of tokens that follow each other.
  `Denotes` is one level of that reading, with the meaning of references left open;
  whatever is closed under it contains `Means`.
-/
import ChartGrammar.Parser.Bindings
import ChartGrammar.Registry

set_option autoImplicit false

namespace ChartGrammar

/-- The tokens and the semantic value that an expression relates, over the rules of a
registry. -/
inductive Registry.Means (rules : Registry) :
    Expr Handle → List Token → SemanticValue → Prop where
  | ref {h : Handle} {body : Expr Handle} {ts : List Token} {sv : SemanticValue}
      (hbody : rules.get? h = some body) (hmeans : Means rules body ts sv) :
      Means rules (.ref h) ts sv
  | matchOne {p : Predicate} {t : Token} (ht : p.test t.char = true) :
      Means rules (.matchOne p) [t] (.token t)
  | symbol {literal : String} {ts : List Token} (hts : ts.map Token.char = literal.toList) :
      Means rules (.symbol literal) ts (.tokens ts)
  | unit : Means rules .unit [] (.fields [])
  | nothing : Means rules .nothing [] .nothing
  | nil : Means rules .nil [] (.list [])
  | just {e : Expr Handle} {ts : List Token} {v : Value}
      (h : Means rules e ts (.node v)) : Means rules (.just e) ts (.just v)
  | altLeft {a b : Expr Handle} {ts : List Token} {sv : SemanticValue}
      (h : Means rules a ts sv) : Means rules (.alt a b) ts sv
  | altRight {a b : Expr Handle} {ts : List Token} {sv : SemanticValue}
      (h : Means rules b ts sv) : Means rules (.alt a b) ts sv
  | seqNil : Means rules (.seq []) [] (.fields [])
  | seqCons {e : Expr Handle} {es : List (Expr Handle)} {ts us : List Token} {v : Value}
      {vs : List Value} (hhead : Means rules e ts (.node v))
      (htail : Means rules (.seq es) us (.fields vs)) :
      Means rules (.seq (e :: es)) (ts ++ us) (.fields (v :: vs))
  | cons {a b : Expr Handle} {ts us : List Token} {v : Value} {vs : List Value}
      (hhead : Means rules a ts (.node v)) (htail : Means rules b us (.list vs)) :
      Means rules (.cons a b) (ts ++ us) (.list (v :: vs))
  | pair {a b : Expr Handle} {ts us : List Token} {v : Value} {vs : List Value}
      (hhead : Means rules a ts (.node v)) (htail : Means rules b us (.list vs)) :
      Means rules (.pair a b) (ts ++ us) (.pair v vs)
  | map {ctor : Constructor} {e : Expr Handle} {ts : List Token} {sv : SemanticValue}
      {v : Value} (h : Means rules e ts sv) (hv : ctor.apply sv = some v) :
      Means rules (.map ctor e) ts (.node v)
  | label {d : String} {e : Expr Handle} {ts : List Token} {sv : SemanticValue}
      (h : Means rules e ts sv) : Means rules (.label d e) ts sv

namespace Expr

mutual

/-- What an expression relates if references relate what `I` says. -/
def Denotes (I : Handle → List Token → SemanticValue → Prop) :
    Expr Handle → List Token → SemanticValue → Prop
  | ref h, ts, sv => I h ts sv
  | matchOne p, ts, sv => ∃ t, p.test t.char = true ∧ ts = [t] ∧ sv = .token t
  | symbol literal, ts, sv => ts.map Token.char = literal.toList ∧ sv = .tokens ts
  | unit, ts, sv => ts = [] ∧ sv = .fields []
  | nothing, ts, sv => ts = [] ∧ sv = .nothing
  | nil, ts, sv => ts = [] ∧ sv = .list []
  | just e, ts, sv => ∃ v, Denotes I e ts (.node v) ∧ sv = .just v
  | alt a b, ts, sv => Denotes I a ts sv ∨ Denotes I b ts sv
  | seq es, ts, sv => ∃ vs, DenotesAll I es ts vs ∧ sv = .fields vs
  | cons a b, ts, sv => ∃ us ws v vs, ts = us ++ ws ∧ Denotes I a us (.node v) ∧
      Denotes I b ws (.list vs) ∧ sv = .list (v :: vs)
  | pair a b, ts, sv => ∃ us ws v vs, ts = us ++ ws ∧ Denotes I a us (.node v) ∧
      Denotes I b ws (.list vs) ∧ sv = .pair v vs
  | map ctor e, ts, sv => ∃ sv' v, Denotes I e ts sv' ∧ ctor.apply sv' = some v ∧ sv = .node v
  | label _ e, ts, sv => Denotes I e ts sv

/-- What expressions one after another relate if references relate what `I` says. -/
def DenotesAll (I : Handle → List Token → SemanticValue → Prop) :
    List (Expr Handle) → List Token → List Value → Prop
  | [], ts, vs => ts = [] ∧ vs = []
  | e :: es, ts, vs => ∃ us ws v vs', ts = us ++ ws ∧ Denotes I e us (.node v) ∧
      DenotesAll I es ws vs' ∧ vs = v :: vs'

end

end Expr

namespace Registry.Means

variable {rules : Registry}

/-- The meaning of expressions is contained in every reading of references that is
closed under the bodies of the rules. -/
theorem denotes {I : Handle → List Token → SemanticValue → Prop}
    (hI : ∀ h body, rules.get? h = some body → ∀ ts sv, body.Denotes I ts sv → I h ts sv)
    {e : Expr Handle} {ts : List Token} {sv : SemanticValue} (h : rules.Means e ts sv) :
    e.Denotes I ts sv := by
  induction h with
  | ref hbody _ ih =>
    rw [Expr.Denotes]
    exact hI _ _ hbody _ _ ih
  | matchOne ht =>
    rw [Expr.Denotes]
    exact ⟨_, ht, rfl, rfl⟩
  | symbol hts =>
    rw [Expr.Denotes]
    exact ⟨hts, rfl⟩
  | unit => simp only [Expr.Denotes, and_self]
  | nothing => simp only [Expr.Denotes, and_self]
  | nil => simp only [Expr.Denotes, and_self]
  | just _ ih =>
    rw [Expr.Denotes]
    exact ⟨_, ih, rfl⟩
  | altLeft _ ih =>
    rw [Expr.Denotes]
    exact .inl ih
  | altRight _ ih =>
    rw [Expr.Denotes]
    exact .inr ih
  | seqNil =>
    rw [Expr.Denotes]
    exact ⟨[], by simp only [Expr.DenotesAll, and_self], rfl⟩
  | seqCons _ _ ihhead ihtail =>
    rw [Expr.Denotes] at ihtail ⊢
    obtain ⟨vs, hvs, heq⟩ := ihtail
    cases heq
    refine ⟨_, ?_, rfl⟩
    rw [Expr.DenotesAll]
    exact ⟨_, _, _, _, rfl, ihhead, hvs, rfl⟩
  | cons _ _ ihhead ihtail =>
    rw [Expr.Denotes]
    exact ⟨_, _, _, _, rfl, ihhead, ihtail, rfl⟩
  | pair _ _ ihhead ihtail =>
    rw [Expr.Denotes]
    exact ⟨_, _, _, _, rfl, ihhead, ihtail, rfl⟩
  | map _ hv ih =>
    rw [Expr.Denotes]
    exact ⟨_, _, ih, hv, rfl⟩
  | label _ ih =>
    rw [Expr.Denotes]
    exact ih

/-- An alternative of several means what each of them means. -/
theorem oneOf {ts : List Token} {sv : SemanticValue} (others : List (Expr Handle)) :
    ∀ {first e : Expr Handle}, e ∈ first :: others → rules.Means e ts sv →
      rules.Means (.oneOf first others) ts sv := by
  induction others with
  | nil =>
    intro first e he h
    cases List.mem_singleton.mp he
    exact h
  | cons e' others ih =>
    intro first e he h
    rcases List.mem_cons.mp he with rfl | he
    · exact ih List.mem_cons_self (.altLeft h)
    · rcases List.mem_cons.mp he with rfl | he
      · exact ih List.mem_cons_self (.altRight h)
      · exact ih (List.mem_cons_of_mem _ he) h

end Registry.Means

end ChartGrammar
