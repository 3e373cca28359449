/-
  Proofs/JoinPlans.lean --- plans decide the form of a result, never its tokens.

  A plan is made for the fields of a product, its references are resolved, and it joins
  the results that the fields gave.  The field that it joins onto is found when the plan
  is made, and looked up by its place when results are joined; in between the parts may
  change what they refer to, and nothing else.
-/
import ChartGrammar.Proofs.Terminalizing

set_option autoImplicit false

namespace ChartGrammar.JoinPlan

variable {ρ σ ε : Type} {rule : String} {ps : List (Part ρ)} {nonempty : Bool}
  {plan : JoinPlan ρ} {results : List Yield}

/-- The place of the field that a plan joins onto. -/
def pivotPlace? : JoinPlan ρ → Option Nat
  | flat _ => none
  | pivot before _ _ => some before.length

/-! ## Making a plan -/

/-- There is no plan for a nonempty rule none of whose fields is nonempty, and for no other
reason. -/
theorem make_eq_error_iff {e : CompileError} :
    make rule ps nonempty = .error e ↔
      e = .malformedProduct rule ∧ nonempty = true ∧ ∀ p ∈ ps, p.nonempty = false := by
  have hunflagged : (ps.dropWhile fun p => !p.nonempty) = [] ↔ ∀ p ∈ ps, p.nonempty = false := by
    simp [List.dropWhile_eq_nil_iff]
  unfold make
  split
  · next hnonempty =>
    split
    · next p after hdrop =>
      have hflagged : ¬ ∀ p ∈ ps, p.nonempty = false := by
        rw [← hunflagged, hdrop]
        exact List.cons_ne_nil p after
      simp [hflagged]
    · next hdrop =>
      have hall := hunflagged.mp hdrop
      constructor
      · intro h
        cases h
        exact ⟨rfl, hnonempty, hall⟩
      · rintro ⟨rfl, -, -⟩
        rfl
  · next hnonempty => simp [hnonempty]

/-- A plan joins onto the first nonempty field. -/
theorem of_make_eq_pivot {before after : List (Part ρ)} {p : Part ρ}
    (h : make rule ps nonempty = .ok (.pivot before p after)) :
    p.nonempty = true ∧ ∀ q ∈ before, q.nonempty = false := by
  unfold make at h
  split at h
  · split at h
    · next p' after' hdrop =>
      cases h
      refine ⟨by simpa using (dropWhile_eq_cons ps hdrop).1, fun q hq => ?_⟩
      simpa using List.mem_takeWhile_imp hq
    · cases h
  · cases h

/-- A plan joins onto a field exactly if it was made for a nonempty rule. -/
theorem isSome_pivotPlace?_of_make (h : make rule ps nonempty = .ok plan) :
    plan.pivotPlace?.isSome = nonempty := by
  unfold make at h
  split at h
  · next hnonempty =>
    split at h
    · cases h
      exact hnonempty.symm
    · cases h
  · next hnonempty =>
    cases h
    exact (Bool.eq_false_iff.mpr hnonempty).symm

/-! ## Resolving a plan -/

/-- Resolving a plan resolves its parts one by one, and the field that it joins onto keeps its
place. -/
theorem of_resolve {f : ρ → Except ε σ} {plan' : JoinPlan σ} (h : plan.resolve f = .ok plan') :
    List.Forall₂ (fun p p' => p.resolve f = .ok p') plan.parts plan'.parts ∧
      plan'.pivotPlace? = plan.pivotPlace? := by
  cases plan with
  | flat ps =>
    obtain ⟨ps', hps, hpure⟩ := bind_eq_ok_iff.mp h
    cases hpure
    exact ⟨mapM_eq_ok_iff.mp hps, rfl⟩
  | pivot before p after =>
    obtain ⟨before', hbefore, h⟩ := bind_eq_ok_iff.mp h
    obtain ⟨p', hp, h⟩ := bind_eq_ok_iff.mp h
    obtain ⟨after', hafter, hpure⟩ := bind_eq_ok_iff.mp h
    cases hpure
    have hparts := mapM_eq_ok_iff.mp hbefore
    refine ⟨List.rel_append hparts (.cons hp (mapM_eq_ok_iff.mp hafter)), ?_⟩
    rw [pivotPlace?, pivotPlace?, hparts.length_eq]

/-! ## Joining by a plan -/

/-- What a plan makes of the results of its fields: it refuses them only if the field to join
onto did not give a nonempty result, and what it gives holds all their tokens in the order
of the fields. -/
structure Joins (plan : JoinPlan ρ) (results : List Yield) : Prop where
  refuses : plan.join results = none ↔
    ∃ place ts, plan.pivotPlace? = some place ∧ results[place]? = some (.possiblyEmpty ts)
  tokens : ∀ out, plan.join results = some out → out.toList = results.flatMap Yield.toList
  form : ∀ out, plan.join results = some out → out.isNonempty = plan.pivotPlace?.isSome

/-- The result at the place of the pivot is the one that the others are joined onto. -/
theorem join_pivot_append {before : List (Part ρ)} {front : List Yield}
    (hfront : front.length = before.length) (p : Part ρ) (after : List (Part ρ)) (t : Yield)
    (back : List Yield) :
    (pivot before p after).join (front ++ t :: back) =
      match t with
      | .nonempty ts =>
        some (.nonempty ((ts.prepend (Yield.flatten front)).append (Yield.flatten back)))
      | .possiblyEmpty _ => none := by
  rw [join, ← hfront, List.drop_left, List.take_left]
  cases t <;> rfl

/-- Every plan joins as many results as it has fields. -/
theorem joins_of_length (plan : JoinPlan ρ) (h : results.length = plan.arity) :
    plan.Joins results := by
  cases plan with
  | flat ps =>
    refine ⟨by simp [join, pivotPlace?], fun out hout => ?_, fun out hout => ?_⟩
    · cases hout
      exact Yield.flatten_eq_flatMap results
    · cases hout
      rfl
  | pivot before p after =>
    have hlt : before.length < results.length := by
      rw [h, arity]
      omega
    -- the results before the pivot, the pivot's own, and those behind it
    obtain ⟨front, t, back, hresults, hfront⟩ :
        ∃ front t back, results = front ++ t :: back ∧ front.length = before.length := by
      refine ⟨results.take before.length, results[before.length], results.drop (before.length + 1),
        ?_, List.length_take_of_le hlt.le⟩
      rw [← List.drop_eq_getElem_cons hlt, List.take_append_drop]
    have hplace : results[before.length]? = some t := by
      rw [hresults, ← hfront, List.getElem?_append_right le_rfl, Nat.sub_self]
      rfl
    have hjoin := join_pivot_append hfront p after t back
    rw [← hresults] at hjoin
    refine ⟨?_, fun out hout => ?_, fun out hout => ?_⟩
    · cases t with
      | possiblyEmpty ts => simp [hjoin, pivotPlace?, hplace]
      | nonempty ts => simp [hjoin, pivotPlace?, hplace]
    · cases t with
      | possiblyEmpty ts => cases hjoin.symm.trans hout
      | nonempty ts =>
        cases hjoin.symm.trans hout
        rw [hresults, List.flatMap_append, List.flatMap_cons]
        simp only [Yield.toList, NonEmptyList.toList_append, NonEmptyList.toList_prepend,
          Yield.flatten_eq_flatMap, List.append_assoc]
    · cases t with
      | possiblyEmpty ts => cases hjoin.symm.trans hout
      | nonempty ts =>
        cases hjoin.symm.trans hout
        rfl

/-- There is a plan for the fields of a rule unless the rule is nonempty and none of its fields
is, and then the failure names the rule.  A plan has the parts that it was made of in their
order, and joins onto the first nonempty one if the rule is nonempty.  Before and after its
references are resolved it refuses results only for want of a nonempty one at the place that
it joins onto; otherwise it gives all their tokens in order, and as a nonempty list exactly
if it joins onto a field. -/
theorem make_keeps_tokens (rule : String) (ps : List (Part ρ)) (nonempty : Bool) :
    (∀ e, make rule ps nonempty = .error e ↔
      e = .malformedProduct rule ∧ nonempty = true ∧ ∀ p ∈ ps, p.nonempty = false) ∧
    ∀ plan, make rule ps nonempty = .ok plan →
      plan.parts = ps ∧ plan.arity = ps.length ∧ plan.pivotPlace?.isSome = nonempty ∧
      (∀ before p after, plan = .pivot before p after →
        p.nonempty = true ∧ ∀ q ∈ before, q.nonempty = false) ∧
      (∀ results, results.length = ps.length → plan.Joins results) ∧
      ∀ (ε σ : Type) (f : ρ → Except ε σ) (plan' : JoinPlan σ), plan.resolve f = .ok plan' →
        List.Forall₂ (fun p p' => p.resolve f = .ok p') ps plan'.parts ∧
        plan'.pivotPlace? = plan.pivotPlace? ∧
        ∀ results, results.length = ps.length → plan'.Joins results := by
  refine ⟨fun e => make_eq_error_iff, fun plan h => ?_⟩
  have hparts := parts_of_make h
  have harity : plan.arity = ps.length := by rw [arity_eq_length, hparts]
  refine ⟨hparts, harity, isSome_pivotPlace?_of_make h, ?_, ?_, ?_⟩
  · rintro before p after rfl
    exact of_make_eq_pivot h
  · intro results hlength
    exact joins_of_length plan (hlength.trans harity.symm)
  · intro ε σ f plan' hresolve
    obtain ⟨hresolved, hplace⟩ := of_resolve hresolve
    rw [hparts] at hresolved
    refine ⟨hresolved, hplace, fun results hlength => joins_of_length plan' ?_⟩
    rw [arity_eq_length, ← hresolved.length_eq, hlength]

/-- A blank that may be missing, a word and a mark: with its references resolved to slots, the
plan still joins the blank and the mark onto the word. -/
theorem make_keeps_tokens_word :
    let ps : List (Part String) := [⟨"blank", false⟩, ⟨"word", true⟩, ⟨"mark", true⟩]
    let plan : JoinPlan Nat := .pivot [⟨5, false⟩] ⟨4, true⟩ [⟨4, true⟩]
    let word : Yield := .nonempty ⟨⟨'b', .start⟩, []⟩
    let mark : Yield := .nonempty ⟨⟨'!', .start⟩, []⟩
    plan.Joins [.possiblyEmpty [], word, mark] ∧ plan.Joins [word, .possiblyEmpty [], mark] ∧
      plan.join [.possiblyEmpty [], word, mark] =
        some (.nonempty ⟨⟨'b', .start⟩, [⟨'!', .start⟩]⟩) ∧
      plan.join [word, .possiblyEmpty [], mark] = none ∧
      make "line" (ps.take 1) true = .error (.malformedProduct "line") := by
  intro ps plan word mark
  obtain ⟨-, -, -, -, -, hresolve⟩ := (make_keeps_tokens "line" ps true).2 _ rfl
  obtain ⟨-, -, hjoins⟩ :=
    hresolve Unit Nat (fun name => .ok name.length) plan rfl
  refine ⟨hjoins _ rfl, hjoins _ rfl, rfl, rfl, ?_⟩
  exact ((make_keeps_tokens "line" (ps.take 1) true).1 _).mpr ⟨rfl, rfl, by simp [ps]⟩

end ChartGrammar.JoinPlan
