/-
  Proofs/Outcome.lean --- what a computation that succeeded went through.

  Compilers and builders are chains of steps that may fail.  From the success of a
  chain these lemmas recover the success of every step, and the values and states
  in between.
-/
import Mathlib.Data.List.Forall2

set_option autoImplicit false

namespace ChartGrammar

variable {ε σ α β : Type}

/-- In lists that are related member by member, every member of the second has a
partner in the first. -/
theorem exists_of_mem_right {R : α → β → Prop} {as : List α} {bs : List β}
    (h : List.Forall₂ R as bs) {b : β} (hb : b ∈ bs) : ∃ a ∈ as, R a b := by
  induction h with
  | nil => simp at hb
  | cons hab _ ih =>
    rcases List.mem_cons.mp hb with rfl | hb
    · exact ⟨_, List.mem_cons_self, hab⟩
    · obtain ⟨a, ha, hab⟩ := ih hb
      exact ⟨a, List.mem_cons_of_mem _ ha, hab⟩

/-- A list whose members all have partners has a list of them. -/
theorem exists_forall₂ {R : α → β → Prop} {as : List α} (h : ∀ a ∈ as, ∃ b, R a b) :
    ∃ bs, List.Forall₂ R as bs := by
  induction as with
  | nil => exact ⟨[], .nil⟩
  | cons a as ih =>
    obtain ⟨⟨b, hb⟩, has⟩ := List.forall_mem_cons.mp h
    obtain ⟨bs, hbs⟩ := ih has
    exact ⟨b :: bs, .cons hb hbs⟩

/-- Lists whose members agree in something agree in it as wholes. -/
theorem map_eq_map_of_forall₂ {γ : Type} {f : α → γ} {k : β → γ} {as : List α} {bs : List β}
    (h : List.Forall₂ (fun a b => f a = k b) as bs) : as.map f = bs.map k := by
  rw [← List.forall₂_eq_eq_eq, List.forall₂_map_left_iff, List.forall₂_map_right_iff]
  exact h

/-- Lists that are related by a function are related as wholes. -/
theorem forall_and_eq_map {P : α → Prop} {f : α → β} {as : List α} {bs : List β}
    (h : List.Forall₂ (fun a b => P a ∧ b = f a) as bs) :
    (∀ a ∈ as, P a) ∧ bs = as.map f := by
  induction h with
  | nil => exact ⟨by simp, rfl⟩
  | cons hab _ ih =>
    refine ⟨?_, by rw [List.map_cons, hab.2, ih.2]⟩
    intro a ha
    rcases List.mem_cons.mp ha with rfl | ha
    · exact hab.1
    · exact ih.1 a ha

/-! ## Steps that may fail -/

theorem bind_eq_ok_iff {x : Except ε α} {f : α → Except ε β} {b : β} :
    x >>= f = .ok b ↔ ∃ a, x = .ok a ∧ f a = .ok b := by
  cases x with
  | error e => simp [bind, Except.bind]
  | ok a => simp [bind, Except.bind]

theorem exists_ok_of_isOk {x : Except ε α} (h : x.isOk = true) : ∃ a, x = .ok a := by
  cases x with
  | error e => cases h
  | ok a => exact ⟨a, rfl⟩

/-- A test that a result passes is passed by what the computation gave. -/
theorem exists_ok_of_any {x : Except ε α} {test : α → Bool} (h : x.toOption.any test = true) :
    ∃ a, x = .ok a ∧ test a = true := by
  cases x with
  | error e => cases h
  | ok a => exact ⟨a, rfl, h⟩

/-- A list of steps succeeds if and only if every one of them does. -/
theorem mapM_eq_ok_iff {f : α → Except ε β} {as : List α} {bs : List β} :
    as.mapM f = .ok bs ↔ List.Forall₂ (fun a b => f a = .ok b) as bs := by
  induction as generalizing bs with
  | nil =>
    cases bs with
    | nil => simp [pure, Except.pure]
    | cons b bs => simp [pure, Except.pure]
  | cons a as ih =>
    rw [List.mapM_cons, bind_eq_ok_iff]
    constructor
    · rintro ⟨b, hb, hrest⟩
      obtain ⟨bs', hbs', hpure⟩ := bind_eq_ok_iff.mp hrest
      cases hpure
      exact .cons hb (ih.mp hbs')
    · intro h
      cases h with
      | cons hb hbs =>
        exact ⟨_, hb, bind_eq_ok_iff.mpr ⟨_, ih.mpr hbs, rfl⟩⟩

/-- Steps that succeed on every member of a list succeed on the list. -/
theorem exists_mapM_eq_ok {f : α → Except ε β} {as : List α}
    (h : ∀ a ∈ as, ∃ b, f a = .ok b) : ∃ bs, as.mapM f = .ok bs := by
  induction as with
  | nil => exact ⟨[], rfl⟩
  | cons a as ih =>
    obtain ⟨b, hb⟩ := h a List.mem_cons_self
    obtain ⟨bs, hbs⟩ := ih fun a' ha' => h a' (List.mem_cons_of_mem _ ha')
    exact ⟨b :: bs, mapM_eq_ok_iff.mpr (.cons hb (mapM_eq_ok_iff.mp hbs))⟩

/-- Steps that can only give the values of a function give these values. -/
theorem eq_map_of_mapM_eq_ok {f : α → Except ε β} {k : α → β} {as : List α} {bs : List β}
    (hf : ∀ a b, f a = .ok b → b = k a) (h : as.mapM f = .ok bs) : bs = as.map k := by
  have hall := (mapM_eq_ok_iff.mp h).imp hf
  exact (forall_and_eq_map (hall.imp fun _ _ heq => And.intro trivial heq)).2

/-- A list of steps fails as the first of them that fails. -/
theorem mapM_eq_error_iff {f : α → Except ε β} {as : List α} {e : ε} :
    as.mapM f = .error e ↔ ∃ before a after, as = before ++ a :: after ∧
      (∀ x ∈ before, ∃ y, f x = .ok y) ∧ f a = .error e := by
  constructor
  · induction as with
    | nil => simp [pure, Except.pure]
    | cons a as ih =>
      intro h
      cases ha : f a with
      | error e' =>
        rw [List.mapM_cons, ha] at h
        cases h
        exact ⟨[], a, as, rfl, by simp, ha⟩
      | ok b =>
        have hrest : as.mapM f = .error e := by
          rw [List.mapM_cons, ha] at h
          cases hbs : as.mapM f with
          | error e' =>
            rw [hbs] at h
            exact h
          | ok bs =>
            rw [hbs] at h
            cases h
        obtain ⟨before, x, after, rfl, hbefore, hx⟩ := ih hrest
        exact ⟨a :: before, x, after, rfl, List.forall_mem_cons.mpr ⟨⟨b, ha⟩, hbefore⟩, hx⟩
  · rintro ⟨before, a, after, rfl, hbefore, ha⟩
    obtain ⟨bs, hbs⟩ := exists_mapM_eq_ok hbefore
    rw [List.mapM_append, hbs, List.mapM_cons, ha]
    rfl

/-- A check of every member of a list passes if and only if it passes for each of them. -/
theorem forM_eq_ok_iff {f : α → Except ε Unit} {as : List α} :
    as.forM f = .ok () ↔ ∀ a ∈ as, f a = .ok () := by
  induction as with
  | nil => exact ⟨fun _ a ha => absurd ha List.not_mem_nil, fun _ => rfl⟩
  | cons a as ih =>
    rw [List.forall_mem_cons, ← ih]
    refine Iff.trans bind_eq_ok_iff ?_
    exact ⟨fun ⟨_, ha, has⟩ => ⟨ha, has⟩, fun ⟨ha, has⟩ => ⟨(), ha, has⟩⟩

/-- What every step of a fold keeps is kept by the fold. -/
theorem foldlM_invariant {f : β → α → Except ε β} {I : β → Prop}
    (step : ∀ b a b', I b → f b a = .ok b' → I b') (as : List α) :
    ∀ {b b' : β}, I b → as.foldlM f b = .ok b' → I b' := by
  induction as with
  | nil =>
    intro b b' hb h
    cases h
    exact hb
  | cons a as ih =>
    intro b b' hb h
    rw [List.foldlM_cons, bind_eq_ok_iff] at h
    obtain ⟨c, hc, hrest⟩ := h
    exact ih (step b a c hb hc) hrest

/-- Of a fold that succeeded every step succeeded, from some value on. -/
theorem forall_of_foldlM_eq_ok {f : β → α → Except ε β} (as : List α) :
    ∀ {b b' : β}, as.foldlM f b = .ok b' → ∀ a ∈ as, ∃ c c', f c a = .ok c' := by
  induction as with
  | nil => simp
  | cons a as ih =>
    intro b b' h
    rw [List.foldlM_cons, bind_eq_ok_iff] at h
    obtain ⟨c, hc, hrest⟩ := h
    exact List.forall_mem_cons.mpr ⟨⟨b, c, hc⟩, ih hrest⟩

/-! ## Steps that may fail and carry a state -/

theorem run_bind_eq_ok_iff {x : StateT σ (Except ε) α} {f : α → StateT σ (Except ε) β}
    {s s' : σ} {b : β} :
    (x >>= f).run s = .ok (b, s') ↔
      ∃ a t, x.run s = .ok (a, t) ∧ (f a).run t = .ok (b, s') := by
  rw [StateT.run_bind, bind_eq_ok_iff]
  constructor
  · rintro ⟨⟨a, t⟩, hx, hf⟩
    exact ⟨a, t, hx, hf⟩
  · rintro ⟨a, t, hx, hf⟩
    exact ⟨(a, t), hx, hf⟩

theorem run_liftM_eq_ok_iff {x : Except ε α} {s t : σ} {a : α} :
    (liftM x : StateT σ (Except ε) α).run s = .ok (a, t) ↔ x = .ok a ∧ s = t := by
  cases x with
  | error e =>
    constructor
    · intro h
      cases h
    · rintro ⟨h, -⟩
      cases h
  | ok b =>
    constructor
    · intro h
      cases h
      exact ⟨rfl, rfl⟩
    · rintro ⟨h, rfl⟩
      cases h
      rfl

theorem run_pure_eq_ok_iff {s t : σ} {a b : α} :
    (pure a : StateT σ (Except ε) α).run s = .ok (b, t) ↔ a = b ∧ s = t := by
  constructor
  · intro h
    cases h
    exact ⟨rfl, rfl⟩
  · rintro ⟨rfl, rfl⟩
    rfl

/-- A list of stateful steps.  `le` says how states may grow, and `R` what a step
promises of its answer in the state that it leaves and in every later one. -/
theorem mapM_run_ok {f : α → StateT σ (Except ε) β} {I : σ → Prop} {le : σ → σ → Prop}
    {R : α → β → σ → Prop} (hrefl : ∀ s, le s s)
    (htrans : ∀ s t u, le s t → le t u → le s u)
    (hstable : ∀ a b s t, R a b s → le s t → R a b t)
    (hstep : ∀ a s b t, I s → (f a).run s = .ok (b, t) → I t ∧ le s t ∧ R a b t)
    (as : List α) :
    ∀ {s t : σ} {bs : List β}, I s → (as.mapM f).run s = .ok (bs, t) →
      I t ∧ le s t ∧ List.Forall₂ (fun a b => R a b t) as bs := by
  induction as with
  | nil =>
    intro s t bs hs h
    cases h
    exact ⟨hs, hrefl _, .nil⟩
  | cons a as ih =>
    intro s t bs hs h
    rw [List.mapM_cons, run_bind_eq_ok_iff] at h
    obtain ⟨b, u, hb, hrest⟩ := h
    obtain ⟨bs', u', hbs', hpure⟩ := run_bind_eq_ok_iff.mp hrest
    cases hpure
    obtain ⟨hu, hsu, hR⟩ := hstep a s b u hs hb
    obtain ⟨ht, hut, hRs⟩ := ih hu hbs'
    exact ⟨ht, htrans _ _ _ hsu hut, .cons (hstable _ _ _ _ hR hut) hRs⟩

/-- Of stateful steps that succeeded one after another every one succeeded, in some state. -/
theorem forall₂_of_mapM_run {f : α → StateT σ (Except ε) β} {as : List α} {bs : List β}
    {s t : σ} (h : (as.mapM f).run s = .ok (bs, t)) :
    List.Forall₂ (fun a b => ∃ u v, (f a).run u = .ok (b, v)) as bs := by
  obtain ⟨-, -, hall⟩ := mapM_run_ok (I := fun _ => True)
    (R := fun a b _ => ∃ u v, (f a).run u = .ok (b, v)) (fun _ => trivial)
    (fun _ _ _ (_ : True) _ => trivial) (fun _ _ _ _ hR _ => hR)
    (fun _ s _ t _ hrun => ⟨trivial, trivial, s, t, hrun⟩) as trivial h
  exact hall

/-- Stateful steps that succeed in every state succeed one after another. -/
theorem exists_mapM_run_eq_ok {f : α → StateT σ (Except ε) β} {as : List α}
    (h : ∀ a ∈ as, ∀ s, ∃ b t, (f a).run s = .ok (b, t)) (s : σ) :
    ∃ bs t, (as.mapM f).run s = .ok (bs, t) := by
  induction as generalizing s with
  | nil => exact ⟨[], s, rfl⟩
  | cons a as ih =>
    obtain ⟨b, u, hb⟩ := h a List.mem_cons_self s
    obtain ⟨bs, t, hbs⟩ := ih (fun a' ha' => h a' (List.mem_cons_of_mem _ ha')) u
    refine ⟨b :: bs, t, ?_⟩
    rw [List.mapM_cons]
    exact run_bind_eq_ok_iff.mpr
      ⟨b, u, hb, run_bind_eq_ok_iff.mpr ⟨bs, t, hbs, rfl⟩⟩

/-! ## Steps that fail and carry a state -/

theorem run_bind_of_error {x : StateT σ (Except ε) α} {f : α → StateT σ (Except ε) β} {s : σ}
    {e : ε} (h : x.run s = .error e) : (x >>= f).run s = .error e := by
  rw [StateT.run_bind, h]
  rfl

theorem run_bind_of_ok {x : StateT σ (Except ε) α} {f : α → StateT σ (Except ε) β} {s t : σ}
    {a : α} (h : x.run s = .ok (a, t)) : (x >>= f).run s = (f a).run t := by
  rw [StateT.run_bind, h]
  rfl

theorem run_liftM_of_error {x : Except ε α} {e : ε} (h : x = .error e) (s : σ) :
    (liftM x : StateT σ (Except ε) α).run s = .error e := by
  subst h
  rfl

/-- Stateful steps fail as the first of them that fails, if those before it succeed in every
state. -/
theorem mapM_run_eq_error {f : α → StateT σ (Except ε) β} {before after : List α} {a : α} {e : ε}
    (hbefore : ∀ x ∈ before, ∀ s, ∃ y t, (f x).run s = .ok (y, t))
    (ha : ∀ s, (f a).run s = .error e) (s : σ) :
    ((before ++ a :: after).mapM f).run s = .error e := by
  obtain ⟨bs, t, hbs⟩ := exists_mapM_run_eq_ok hbefore s
  rw [List.mapM_append, run_bind_of_ok hbs, List.mapM_cons]
  exact run_bind_of_error (run_bind_of_error (ha t))

end ChartGrammar
