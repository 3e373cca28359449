/-
  Proofs/References.lean --- expressions under a change of references.

  Resolving references succeeds exactly when each of them resolves, and then it is
  the plain replacement of references.  `Expr.induction` is the induction on
  expressions that all later proofs use.
-/
import ChartGrammar.Expr
import ChartGrammar.Proofs.Outcome

set_option autoImplicit false

namespace ChartGrammar

namespace Expr

variable {ρ σ τ ε : Type}

/-- Induction on expressions; a sequence may use what holds of its members. -/
@[elab_as_elim] theorem induction {P : Expr ρ → Prop}
    (ref : ∀ r, P (.ref r)) (matchOne : ∀ p, P (.matchOne p)) (symbol : ∀ s, P (.symbol s))
    (unit : P .unit) (nothing : P .nothing) (nil : P .nil)
    (just : ∀ e, P e → P (.just e)) (alt : ∀ a b, P a → P b → P (.alt a b))
    (seq : ∀ es, (∀ e ∈ es, P e) → P (.seq es))
    (cons : ∀ a b, P a → P b → P (.cons a b)) (pair : ∀ a b, P a → P b → P (.pair a b))
    (map : ∀ c e, P e → P (.map c e)) (label : ∀ d e, P e → P (.label d e))
    (e : Expr ρ) : P e := by
  refine @Expr.rec ρ P (fun es => ∀ e ∈ es, P e) ref matchOne symbol unit nothing nil just alt
    seq cons pair map label ?_ ?_ e
  · intro e he
    simp at he
  · intro e es he hes e' he'
    rcases List.mem_cons.mp he' with rfl | he'
    · exact he
    · exact hes e' he'

theorem refsAll_eq_flatMap (es : List (Expr ρ)) : refsAll es = es.flatMap refs := by
  induction es with
  | nil => rfl
  | cons e es ih => rw [refsAll, ih, List.flatMap_cons]

theorem mapRefsAll_eq_map (f : ρ → σ) (es : List (Expr ρ)) :
    mapRefsAll f es = es.map (mapRefs f) := by
  induction es with
  | nil => rfl
  | cons e es ih => rw [mapRefsAll, ih, List.map_cons]

theorem resolveRefsAll_eq_mapM (f : ρ → Except ε σ) (es : List (Expr ρ)) :
    resolveRefsAll f es = es.mapM (resolveRefs f) := by
  induction es with
  | nil => rfl
  | cons e es ih => rw [resolveRefsAll, ih, List.mapM_cons]

theorem mapRefs_mapRefs (f : ρ → σ) (h : σ → τ) (e : Expr ρ) :
    (e.mapRefs f).mapRefs h = e.mapRefs (h ∘ f) := by
  induction e using Expr.induction with
  | ref r => simp only [mapRefs, Function.comp]
  | matchOne p => simp only [mapRefs]
  | symbol s => simp only [mapRefs]
  | unit => simp only [mapRefs]
  | nothing => simp only [mapRefs]
  | nil => simp only [mapRefs]
  | just e ih => simp only [mapRefs, ih]
  | alt a b iha ihb => simp only [mapRefs, iha, ihb]
  | seq es ih =>
    simp only [mapRefs, mapRefsAll_eq_map, List.map_map, Expr.seq.injEq]
    exact List.map_congr_left ih
  | cons a b iha ihb => simp only [mapRefs, iha, ihb]
  | pair a b iha ihb => simp only [mapRefs, iha, ihb]
  | map c e ih => simp only [mapRefs, ih]
  | label d e ih => simp only [mapRefs, ih]

/-- Resolving references succeeds exactly when each of them resolves, and then it
replaces them. -/
theorem resolveRefs_eq_ok_iff {f : ρ → Except ε σ} {P : ρ → Prop} {h : ρ → σ}
    (hf : ∀ r x, f r = .ok x ↔ P r ∧ x = h r) (e : Expr ρ) :
    ∀ e', resolveRefs f e = .ok e' ↔ (∀ r ∈ e.refs, P r) ∧ e' = e.mapRefs h := by
  have hpure : ∀ {α : Type} {a b : α}, (pure a : Except ε α) = .ok b ↔ b = a := by
    intro α a b
    exact ⟨fun heq => (Except.ok.inj heq).symm, fun heq => heq ▸ rfl⟩
  -- one subexpression, then two: the remaining constructors only differ in their name
  have unary : ∀ (a : Expr ρ) (k : Expr σ → Expr σ) (e' : Expr σ),
      (∀ a', resolveRefs f a = .ok a' ↔ (∀ r ∈ a.refs, P r) ∧ a' = a.mapRefs h) →
      ((do return k (← resolveRefs f a)) = .ok e' ↔
        (∀ r ∈ a.refs, P r) ∧ e' = k (a.mapRefs h)) := by
    intro a k e' ih
    rw [bind_eq_ok_iff]
    constructor
    · rintro ⟨a', ha', heq⟩
      obtain ⟨hrefs, rfl⟩ := (ih a').mp ha'
      exact ⟨hrefs, hpure.mp heq⟩
    · rintro ⟨hrefs, rfl⟩
      exact ⟨_, (ih _).mpr ⟨hrefs, rfl⟩, rfl⟩
  have binary : ∀ (a b : Expr ρ) (k : Expr σ → Expr σ → Expr σ) (e' : Expr σ),
      (∀ a', resolveRefs f a = .ok a' ↔ (∀ r ∈ a.refs, P r) ∧ a' = a.mapRefs h) →
      (∀ b', resolveRefs f b = .ok b' ↔ (∀ r ∈ b.refs, P r) ∧ b' = b.mapRefs h) →
      ((do return k (← resolveRefs f a) (← resolveRefs f b)) = .ok e' ↔
        (∀ r ∈ a.refs ++ b.refs, P r) ∧ e' = k (a.mapRefs h) (b.mapRefs h)) := by
    intro a b k e' iha ihb
    rw [bind_eq_ok_iff, List.forall_mem_append]
    constructor
    · rintro ⟨a', ha', hrest⟩
      obtain ⟨hrefs, rfl⟩ := (iha a').mp ha'
      obtain ⟨hrefs', heq⟩ := (unary b (k (a.mapRefs h)) e' ihb).mp hrest
      exact ⟨⟨hrefs, hrefs'⟩, heq⟩
    · rintro ⟨⟨hrefs, hrefs'⟩, rfl⟩
      exact ⟨_, (iha _).mpr ⟨hrefs, rfl⟩, (unary b (k _) _ ihb).mpr ⟨hrefs', rfl⟩⟩
  induction e using Expr.induction with
  | ref r =>
    intro e'
    rw [resolveRefs, refs, mapRefs, bind_eq_ok_iff]
    constructor
    · rintro ⟨x, hx, heq⟩
      obtain ⟨hr, rfl⟩ := (hf r x).mp hx
      exact ⟨by simpa using hr, hpure.mp heq⟩
    · rintro ⟨hr, rfl⟩
      exact ⟨h r, (hf r _).mpr ⟨by simpa using hr, rfl⟩, rfl⟩
  | matchOne p => exact fun e' => by simp [resolveRefs, refs, mapRefs, hpure]
  | symbol s => exact fun e' => by simp [resolveRefs, refs, mapRefs, hpure]
  | unit => exact fun e' => by simp [resolveRefs, refs, mapRefs, hpure]
  | nothing => exact fun e' => by simp [resolveRefs, refs, mapRefs, hpure]
  | nil => exact fun e' => by simp [resolveRefs, refs, mapRefs, hpure]
  | just e ih => exact fun e' => by simpa [resolveRefs, refs, mapRefs] using unary e .just e' ih
  | alt a b iha ihb =>
    exact fun e' => by simpa [resolveRefs, refs, mapRefs] using binary a b .alt e' iha ihb
  | seq es ih =>
    intro e'
    rw [resolveRefs, resolveRefsAll_eq_mapM, refs, refsAll_eq_flatMap, mapRefs,
      mapRefsAll_eq_map, bind_eq_ok_iff]
    constructor
    · rintro ⟨es', hes', heq⟩
      have hpairs : List.Forall₂
          (fun e e' => (∀ r ∈ e.refs, P r) ∧ e' = e.mapRefs h) es es' := by
        have hall := mapM_eq_ok_iff.mp hes'
        clear hes' heq
        induction hall with
        | nil => exact .nil
        | cons he _ ihes =>
          exact .cons ((ih _ List.mem_cons_self _).mp he)
            (ihes fun e he => ih e (List.mem_cons_of_mem _ he))
      obtain ⟨hrefs, rfl⟩ := forall_and_eq_map hpairs
      refine ⟨?_, hpure.mp heq⟩
      intro r hr
      obtain ⟨e, he, hre⟩ := List.mem_flatMap.mp hr
      exact hrefs e he r hre
    · rintro ⟨hrefs, rfl⟩
      refine ⟨es.map (mapRefs h), mapM_eq_ok_iff.mpr ?_, rfl⟩
      rw [List.forall₂_map_right_iff]
      refine List.forall₂_same.mpr fun e he => (ih e he _).mpr ⟨?_, rfl⟩
      exact fun r hr => hrefs r (List.mem_flatMap.mpr ⟨e, he, hr⟩)
  | cons a b iha ihb =>
    exact fun e' => by simpa [resolveRefs, refs, mapRefs] using binary a b .cons e' iha ihb
  | pair a b iha ihb =>
    exact fun e' => by simpa [resolveRefs, refs, mapRefs] using binary a b .pair e' iha ihb
  | map c e ih =>
    exact fun e' => by simpa [resolveRefs, refs, mapRefs] using unary e (.map c) e' ih
  | label d e ih =>
    exact fun e' => by simpa [resolveRefs, refs, mapRefs] using unary e (.label d) e' ih

end Expr

end ChartGrammar
