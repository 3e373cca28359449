/-
  Proofs/FirstFault.lean --- where reading a text stops, and what the error shows.

  A text that is no layout has a first place that is neither the end nor the beginning of a
  production.  What comes before it is a row of whole productions, and it is the only row
  that ends there.  The error shows how the text goes on from that place; only when a class
  that does not exist stands where a right-hand side should, it shows the text from the `@`.
-/
import ChartGrammar.Proofs.ReaderCompleteness

set_option autoImplicit false

namespace ChartGrammar

open Layout Reader

/-! ## The place of the first fault -/

/-- A text is these productions, then filler, then a rest that is not the end of a text and
does not begin with filler or a production. -/
structure StopsAt (ps : List (Production String)) (rest cs : List Char) : Prop where
  choices : ∀ p ∈ ps, p.rhs ≠ .choice []
  split : ∃ body f, cs = body ++ (f ++ rest) ∧ Spaced false (ps.flatMap Production.words) body ∧
    Filler f
  unfilled : ∀ f more, rest = f ++ more → Filler f → f = []
  unfinished : ¬ EndFiller rest
  noProduction : ∀ (p : Production String) s more, p.rhs ≠ .choice [] → rest = s ++ more →
    ¬ Spaced false p.words s

/-- A text begins with a name, a description or none, `=`, and the name of a class that does
not exist.  The second text is the first one from the `@` on. -/
inductive UnknownClass : List Char → List Char → Prop where
  | mk {n word : String} {description : Option String} {s f more : List Char}
      (hs : Spaced false (.name n :: ((description.map Word.text).toList ++ [.mark '='])) s)
      (hf : Filler f) (hword : IsName word.toList) (hclass : ∀ p, (word, p) ∉ classes)
      (hmore : Apart more) :
      UnknownClass (s ++ (f ++ '@' :: (word.toList ++ more))) ('@' :: (word.toList ++ more))

namespace Reader

variable {α β : Type} {p q : Step α} {cs mid rest : List Char} {f : Fault}

/-! ## Final faults -/

/-- A step fails on a text, and nothing else is tried. -/
def Halts (p : Step α) (cs : List Char) (f : Fault) : Prop := p cs = .error f ∧ f.final = true

theorem bind_eq_error {k : α → Step β} :
    (p >>= k) cs = .error f ↔
      p cs = .error f ∨ ∃ a mid, p cs = .ok (a, mid) ∧ k a mid = .error f := by
  change (p cs >>= fun r => k r.1 r.2) = .error f ↔ _
  cases p cs with
  | error e => simp [bind, Except.bind]
  | ok r =>
    obtain ⟨a, mid⟩ := r
    simp [bind, Except.bind]

theorem halts_bind_iff {k : α → Step β} :
    Halts (p >>= k) cs f ↔ Halts p cs f ∨ ∃ a mid, p cs = .ok (a, mid) ∧ Halts (k a) mid f := by
  simp only [Halts, bind_eq_error]
  constructor
  · rintro ⟨h | ⟨a, mid, hp, hk⟩, hfinal⟩
    · exact .inl ⟨h, hfinal⟩
    · exact .inr ⟨a, mid, hp, hk, hfinal⟩
  · rintro (⟨h, hfinal⟩ | ⟨a, mid, hp, hk, hfinal⟩)
    · exact ⟨.inl h, hfinal⟩
    · exact ⟨.inr ⟨a, mid, hp, hk⟩, hfinal⟩

/-- No fault of a step is final. -/
def Lenient (p : Step α) : Prop := ∀ cs f, ¬ Halts p cs f

theorem lenient_ofOption {wanted : Wanted} {read? : List Char → Option (α × List Char)} :
    Lenient (ofOption wanted read?) := by
  rintro cs f ⟨h, hfinal⟩
  unfold ofOption at h
  split at h
  · cases h
  · cases h
    cases hfinal

theorem lenient_filler : Lenient filler := by
  rintro cs f ⟨h, -⟩
  cases h

theorem lenient_pure (a : α) : Lenient (pure a : Step α) := by
  rintro cs f ⟨h, -⟩
  cases h

theorem Lenient.bind {k : α → Step β} (hp : Lenient p) (hk : ∀ a, Lenient (k a)) :
    Lenient (p >>= k) := by
  intro cs f h
  rcases halts_bind_iff.mp h with h | ⟨a, mid, -, h⟩
  · exact hp cs f h
  · exact hk a mid f h

theorem halts_orElse (h : Halts (orElse p q) cs f) : Halts p cs f ∨ Halts q cs f := by
  obtain ⟨h, hfinal⟩ := h
  unfold orElse at h
  split at h
  · cases h
  · next g hp =>
    split at h
    · cases h
      exact .inl ⟨hp, hfinal⟩
    · exact .inr ⟨h, hfinal⟩

theorem Halts.orElse (h : Halts p cs f) : Halts (orElse p q) cs f := by
  obtain ⟨h, hfinal⟩ := h
  exact ⟨by simp [Reader.orElse, h, hfinal], hfinal⟩

theorem Lenient.orElse (hp : Lenient p) (hq : Lenient q) : Lenient (orElse p q) := by
  intro cs f h
  rcases halts_orElse h with h | h
  · exact hp cs f h
  · exact hq cs f h

theorem Lenient.maybe (hp : Lenient p) : Lenient (maybe p) := by
  rintro cs f ⟨h, hfinal⟩
  unfold Reader.maybe at h
  split at h
  · cases h
  · next g hg =>
    split at h
    · cases h
      exact hp cs f ⟨hg, hfinal⟩
    · cases h

theorem Lenient.many (hp : Lenient p) : Lenient (many p) := by
  intro cs
  fun_induction Reader.many p cs with
  | case1 cs g hg hfinal => exact fun f _ => hp cs g ⟨hg, hfinal⟩
  | case2 cs g hg hfinal =>
    rintro f ⟨h, -⟩
    rw [Reader.many, hg] at h
    simp [hfinal] at h
  | case3 cs a mid hread hlt as rest hmany ih =>
    rintro f ⟨h, -⟩
    rw [Reader.many_of_ok hread hlt hmany] at h
    cases h
  | case4 cs a mid hread hlt g hmany ih =>
    rintro f ⟨h, hfinal⟩
    rw [Reader.many, hread] at h
    simp only [hlt, if_true, hmany] at h
    cases h
    exact ih g ⟨hmany, hfinal⟩
  | case5 cs a mid hread hlt =>
    rintro f ⟨h, -⟩
    rw [Reader.many, hread] at h
    simp [hlt] at h

/-! ## Right-hand sides -/

theorem lenient_series : Lenient series := lenient_ofOption.bind fun _ => lenient_pure _

theorem lenient_record : Lenient record := by
  have hfields : Lenient (do let field ← name; filler; return field) :=
    lenient_ofOption.bind fun _ => lenient_filler.bind fun _ => lenient_pure _
  exact lenient_ofOption.bind fun _ => lenient_filler.bind fun _ => hfields.many.bind fun _ =>
    lenient_ofOption.bind fun _ => lenient_pure _

theorem lenient_branch : Lenient branch := by
  have hfields : Lenient (do filler; name) := lenient_filler.bind fun _ => lenient_ofOption
  exact lenient_ofOption.bind fun _ => lenient_filler.bind fun _ => lenient_ofOption.bind fun _ =>
    hfields.many.bind fun _ => lenient_pure _

theorem lenient_choice : Lenient choice := by
  have hbar : Lenient (do filler; mark '|'; filler) :=
    lenient_filler.bind fun _ => lenient_ofOption.bind fun _ => lenient_filler
  have hothers := (hbar.bind fun _ => lenient_branch).many
  exact (lenient_branch.bind fun _ => hothers.bind fun _ => lenient_pure _).bind
    fun _ => lenient_pure _

theorem lenient_repetition : Lenient repetition := by
  refine lenient_ofOption.bind fun n => (lenient_ofOption.maybe).bind fun suffix => ?_
  cases suffix with
  | none => exact lenient_pure _
  | some make => exact lenient_pure _

/-- Only the name of a class that does not exist is a final fault. -/
theorem halts_className_iff :
    Halts className cs f ↔ f = ⟨.word, cs, true⟩ ∧
      ∃ word more, IsName word.toList ∧ (∀ p, (word, p) ∉ classes) ∧ Apart more ∧
        cs = '@' :: (word.toList ++ more) := by
  have hlenient : Lenient (do mark '@'; name) := lenient_ofOption.bind fun _ => lenient_ofOption
  constructor
  · rintro ⟨h, hfinal⟩
    unfold className at h
    split at h
    · next word more hread =>
      obtain ⟨_, mid, hmark, hname⟩ := bind_eq_ok.mp hread
      rw [mark_eq_ok] at hmark
      obtain ⟨hword, rfl, hmore⟩ := name_eq_ok.mp hname
      split at h
      · cases h
      · next hnone =>
        cases h
        refine ⟨rfl, word, more, hword, fun p hp => ?_, hmore, hmark⟩
        rw [Predicate.ofClass?_eq_some_iff.mpr hp] at hnone
        cases hnone
    · next g hg =>
      cases h
      exact absurd ⟨hg, hfinal⟩ (hlenient cs f)
  · rintro ⟨rfl, word, more, hword, hclass, hmore, rfl⟩
    have hread : (do mark '@'; name : Step String) ('@' :: (word.toList ++ more)) =
        .ok (word, more) :=
      bind_eq_ok.mpr ⟨(), _, mark_eq_ok.mpr rfl, name_eq_ok.mpr ⟨hword, rfl, hmore⟩⟩
    have hnone : Predicate.ofClass? word = none := by
      refine Option.eq_none_iff_forall_ne_some.mpr fun p hp => ?_
      exact hclass p (Predicate.ofClass?_eq_some_iff.mp hp)
    refine ⟨?_, rfl⟩
    unfold className
    rw [hread]
    simp [hnone]

theorem halts_rhs_iff : Halts rhs cs f ↔ Halts className (skipFiller cs) f := by
  constructor
  · intro h
    rcases halts_bind_iff.mp h with h | ⟨_, _, hfiller, h⟩
    · exact absurd h (lenient_filler cs f)
    cases hfiller
    rcases halts_orElse h with h | h
    · rcases halts_bind_iff.mp h with h | ⟨_, _, -, h⟩
      · exact (halts_orElse h).resolve_right (lenient_ofOption _ f)
      · exact absurd h (lenient_pure _ _ f)
    · have hothers := lenient_series.orElse (lenient_record.orElse
        (lenient_choice.orElse lenient_repetition))
      exact absurd h (hothers _ f)
  · intro h
    refine halts_bind_iff.mpr (.inr ⟨(), _, rfl, Halts.orElse ?_⟩)
    exact halts_bind_iff.mpr (.inl h.orElse)

/-! ## Productions -/

/-- A production comes to a final fault only after its name, its description and `=`. -/
theorem halts_production_iff :
    Halts production cs f ↔
      ∃ n description cs₁ cs₂ cs₃, name (skipFiller cs) = .ok (n, cs₁) ∧
        maybe (do filler; textLiteral) cs₁ = .ok (description, cs₂) ∧
        mark '=' (skipFiller cs₂) = .ok ((), cs₃) ∧ Halts className (skipFiller cs₃) f := by
  have hdescription : Lenient (maybe (do filler; textLiteral)) :=
    (lenient_filler.bind fun _ => lenient_ofOption).maybe
  have hend : ∀ (p : Production String), Lenient (do filler; mark ';'; return p) := fun p =>
    lenient_filler.bind fun _ => lenient_ofOption.bind fun _ => lenient_pure p
  constructor
  · intro h
    rcases halts_bind_iff.mp h with h | ⟨_, _, hfiller, h⟩
    · exact absurd h (lenient_filler cs f)
    cases hfiller
    rcases halts_bind_iff.mp h with h | ⟨n, cs₁, hname, h⟩
    · exact absurd h (lenient_ofOption _ f)
    rcases halts_bind_iff.mp h with h | ⟨description, cs₂, hdescribed, h⟩
    · exact absurd h (hdescription _ f)
    rcases halts_bind_iff.mp h with h | ⟨_, _, hfiller, h⟩
    · exact absurd h (lenient_filler _ f)
    cases hfiller
    rcases halts_bind_iff.mp h with h | ⟨_, cs₃, hequals, h⟩
    · exact absurd h (lenient_ofOption _ f)
    rcases halts_bind_iff.mp h with h | ⟨r, cs₄, -, h⟩
    · exact ⟨n, description, cs₁, cs₂, cs₃, hname, hdescribed, hequals, halts_rhs_iff.mp h⟩
    · exact absurd h (hend _ _ f)
  · rintro ⟨n, description, cs₁, cs₂, cs₃, hname, hdescribed, hequals, h⟩
    refine halts_bind_iff.mpr (.inr ⟨(), _, rfl, ?_⟩)
    refine halts_bind_iff.mpr (.inr ⟨n, cs₁, hname, ?_⟩)
    refine halts_bind_iff.mpr (.inr ⟨description, cs₂, hdescribed, ?_⟩)
    refine halts_bind_iff.mpr (.inr ⟨(), _, rfl, ?_⟩)
    refine halts_bind_iff.mpr (.inr ⟨(), cs₃, hequals, ?_⟩)
    exact halts_bind_iff.mpr (.inl (halts_rhs_iff.mpr h))

/-- The place of an unknown class is the place of a final fault. -/
theorem unknownClass_iff {site : List Char} :
    UnknownClass cs site ↔ Halts production cs ⟨.word, site, true⟩ := by
  rw [halts_production_iff]
  constructor
  · rintro ⟨hs, hf, hword, hclass, hmore⟩
    obtain ⟨cs₁, hname, h₁⟩ := name_of_ahead ⟨_, rfl, hs⟩ (by simp)
    obtain ⟨_, cs₂, hdescribed, h₂⟩ := description_of_ahead _ h₁
    obtain ⟨cs₃, hequals, _, rfl, ⟨⟩⟩ := mark_of_ahead h₂
    refine ⟨_, _, cs₁, cs₂, _, hname, hdescribed, hequals, ?_⟩
    rw [List.nil_append, skipFiller_append hf, skipFiller_solid (by simp [Solid, Blank])]
    exact halts_className_iff.mpr ⟨rfl, _, _, hword, hclass, hmore, rfl⟩
  · rintro ⟨n, description, cs₁, cs₂, cs₃, hname, hdescribed, hequals, h⟩
    obtain ⟨hsite, word, more, hword, hclass, hmore, hat⟩ := halts_className_iff.mp h
    cases hsite
    have hread := sound_name (hasRead_nil cs).skipFiller hname
    have hread := sound_description.maybe hread hdescribed
    have hread := (sound_mark (by decide) hread.skipFiller hequals).skipFiller
    obtain ⟨s, mid, rfl, hs, -, hskips⟩ := hread
    obtain ⟨g, hg, rfl⟩ := hskips.exists_filler (by simp [hat])
    have hwords : Spaced false (.name n :: ((description.map Word.text).toList ++ [.mark '=']))
        s := by
      cases description <;> simpa using hs
    rw [hat]
    exact .mk hwords hg hword hclass hmore

theorem exists_site_of_halts (h : Halts production cs f) : ∃ site, f = ⟨.word, site, true⟩ := by
  obtain ⟨_, _, _, _, cs₃, _, _, _, hclass⟩ := halts_production_iff.mp h
  exact ⟨_, (halts_className_iff.mp hclass).1⟩

theorem ne_nil_of_halts (h : Halts production cs f) : skipFiller cs ≠ [] := by
  intro hnil
  obtain ⟨n, _, cs₁, _, _, hname, -⟩ := halts_production_iff.mp h
  obtain ⟨g, hg, -⟩ := refuses_name_nil
  rw [hnil, hg] at hname
  cases hname

theorem skipFiller_skipFiller (cs : List Char) : skipFiller (skipFiller cs) = skipFiller cs := by
  rcases skips_skipFiller cs with ⟨f, hf, hcs⟩ | ⟨hnil, -⟩
  · conv_rhs => rw [hcs, skipFiller_append hf]
  · rw [hnil, skipFiller]

theorem filler_bind (k : Unit → Step β) (cs : List Char) :
    (filler >>= k) cs = k () (skipFiller cs) := rfl

theorem production_skipFiller (cs : List Char) : production (skipFiller cs) = production cs := by
  unfold production
  rw [filler_bind, filler_bind, skipFiller_skipFiller]

/-! ## Productions in turn -/

/-- These productions are read from a text one after another, and what is left of it. -/
inductive InTurn : List Char → List (Production String) → List Char → Prop where
  | nil {cs : List Char} : InTurn cs [] cs
  | cons {p : Production String} {ps : List (Production String)} {cs mid rest : List Char}
      (hp : production cs = .ok (p, mid)) (hps : InTurn mid ps rest) : InTurn cs (p :: ps) rest

variable {ps ps' : List (Production String)}

theorem length_lt_of_production {p : Production String}
    (h : production cs = .ok (p, mid)) : mid.length < cs.length :=
  sound_production.length_lt h (by simp [Production.words])

/-- Productions can be read in turn until there is none. -/
theorem exists_inTurn (cs : List Char) :
    ∃ ps mid f, InTurn cs ps mid ∧ production mid = .error f := by
  induction hlen : cs.length using Nat.strong_induction_on generalizing cs with
  | _ len ih =>
    cases hread : production cs with
    | error f => exact ⟨[], cs, f, .nil, hread⟩
    | ok r =>
      obtain ⟨p, mid⟩ := r
      have hlt : mid.length < len := hlen ▸ length_lt_of_production hread
      obtain ⟨ps, rest, f, hps, hf⟩ := ih _ hlt mid rfl
      exact ⟨p :: ps, rest, f, .cons hread hps, hf⟩

/-- There is one way to do so. -/
theorem InTurn.unique {mid' : List Char} {f' : Fault} (h : InTurn cs ps mid)
    (hf : production mid = .error f) (h' : InTurn cs ps' mid')
    (hf' : production mid' = .error f') : ps = ps' ∧ mid = mid' := by
  induction h generalizing ps' with
  | nil =>
    cases h' with
    | nil => exact ⟨rfl, rfl⟩
    | cons hp _ => cases hf.symm.trans hp
  | cons hp _ ih =>
    cases h' with
    | nil => cases hf'.symm.trans hp
    | cons hp' hps' =>
      cases hp.symm.trans hp'
      obtain ⟨rfl, rfl⟩ := ih hf hps'
      exact ⟨rfl, rfl⟩

/-- A run of productions ends with the first fault: it is passed on if it is final, and
forgotten if not. -/
theorem InTurn.many_production (h : InTurn cs ps mid) (hf : production mid = .error f) :
    many production cs = if f.final then .error f else .ok (ps, mid) := by
  induction h with
  | nil => rw [many, hf]
  | @cons p ps cs mid rest hp _ ih =>
    have hlt := length_lt_of_production hp
    cases hfinal : f.final with
    | true => simp [many, hp, hlt, ih hf, hfinal]
    | false => simp [many, hp, hlt, ih hf, hfinal]

/-- What is made of a text: the productions in turn if only filler is left, and a fault
otherwise. -/
theorem InTurn.productions_eq (h : InTurn cs ps mid) (hf : production mid = .error f) :
    productions cs = if f.final then .error f
      else if skipFiller mid = [] then .ok (ps, [])
      else .error ⟨.finish, skipFiller mid, false⟩ := by
  have hmany := h.many_production hf
  split
  · next hfinal =>
    rw [if_pos hfinal] at hmany
    exact bind_eq_error.mpr (.inl hmany)
  · next hfinal =>
    rw [if_neg hfinal] at hmany
    split
    · next hend => exact productions_eq_ok.mpr ⟨rfl, mid, hmany, hend⟩
    · next hend =>
      refine bind_eq_error.mpr (.inr ⟨ps, mid, hmany, bind_eq_error.mpr (.inr ?_)⟩)
      refine ⟨(), skipFiller mid, rfl, bind_eq_error.mpr (.inr ⟨skipFiller mid, _, rfl, ?_⟩)⟩
      cases hskip : skipFiller mid with
      | nil => contradiction
      | cons c cs => rfl

theorem inTurn_of_ahead {tail : List Char} (ps : List (Production String)) :
    ∀ {named cs}, (∀ p ∈ ps, p.rhs ≠ .choice []) →
      Ahead tail named (ps.flatMap Production.words) cs → InTurn cs ps tail := by
  induction ps with
  | nil =>
    rintro named cs - ⟨s, rfl, ⟨⟩⟩
    exact .nil
  | cons p ps ih =>
    intro named cs hps h
    obtain ⟨hp, hps⟩ := List.forall_mem_cons.mp hps
    rw [List.flatMap_cons] at h
    obtain ⟨mid, hread, hmid⟩ := production_of_ahead hp h
    exact .cons hread (ih hps hmid)

theorem InTurn.hasRead {text : List Char} {ws : List Word} (h : InTurn cs ps rest)
    (hread : HasRead text ws cs) : HasRead text (ws ++ ps.flatMap Production.words) rest := by
  induction h generalizing ws with
  | nil => simpa using hread
  | cons hp _ ih =>
    have hall := ih (sound_production hread hp)
    rwa [List.append_assoc] at hall

theorem InTurn.choices (h : InTurn cs ps rest) : ∀ p ∈ ps, p.rhs ≠ .choice [] := by
  induction h with
  | nil => simp
  | cons hp _ ih => exact List.forall_mem_cons.mpr ⟨ne_choice_nil_of_production hp, ih⟩

/-- A production cannot be read where there is none. -/
theorem exists_production_eq_error
    (h : ∀ (p : Production String) s more, p.rhs ≠ .choice [] → cs = s ++ more →
      ¬ Spaced false p.words s) : ∃ f, production cs = .error f := by
  cases hread : production cs with
  | error f => exact ⟨f, rfl⟩
  | ok r =>
    obtain ⟨p, mid⟩ := r
    obtain ⟨s, more, hcs, hs, -⟩ := sound_production (hasRead_nil cs) hread
    exact absurd hs (h p s more (ne_choice_nil_of_production hread) hcs)

/-- A text stops where productions in turn come to a fault, after filler. -/
theorem stopsAt_iff :
    StopsAt ps rest cs ↔ rest ≠ [] ∧
      ∃ mid f, InTurn cs ps mid ∧ skipFiller mid = rest ∧ production mid = .error f := by
  constructor
  · intro h
    obtain ⟨body, g, hcs, hbody, hg⟩ := h.split
    have hrest : skipFiller rest = rest := by
      rcases skips_skipFiller rest with ⟨g', hg', heq⟩ | ⟨-, hend⟩
      · have hnil := h.unfilled g' _ heq hg'
        rwa [hnil, List.nil_append, eq_comm] at heq
      · exact absurd hend h.unfinished
    have hskip : skipFiller (g ++ rest) = rest := (skipFiller_append hg rest).trans hrest
    obtain ⟨f, hf⟩ := exists_production_eq_error h.noProduction
    refine ⟨?_, g ++ rest, f, inTurn_of_ahead ps h.choices ⟨body, hcs, hbody⟩, hskip, ?_⟩
    · rintro rfl
      exact h.unfinished (.filler .nil)
    · rw [← production_skipFiller, hskip, hf]
  · rintro ⟨hne, mid, f, hps, rfl, hf⟩
    have hfails : production (skipFiller mid) = .error f := (production_skipFiller mid).trans hf
    obtain ⟨body, mid', hcs, hbody, -, hskips⟩ := (hps.hasRead (hasRead_nil cs)).skipFiller
    obtain ⟨g, hg, rfl⟩ := hskips.exists_filler hne
    refine ⟨hps.choices, ⟨body, g, hcs, hbody, hg⟩, ?_, ?_, ?_⟩
    · intro f' more heq hf'
      have hle := (skips_skipFiller more).length_le
      rw [← skipFiller_append hf' more, ← heq, skipFiller_skipFiller, heq,
        List.length_append] at hle
      exact List.eq_nil_of_length_eq_zero (by omega)
    · intro hend
      rw [← skipFiller_skipFiller] at hne
      exact hne (skipFiller_end hend)
    · intro p s more hp heq hs
      have hahead : Ahead more false (p.words ++ []) (skipFiller mid) :=
        ⟨s, heq, by rwa [List.append_nil]⟩
      obtain ⟨_, hread, -⟩ := production_of_ahead hp hahead
      cases hfails.symm.trans hread

end Reader

/-! ## The error -/

/-- A text that stops somewhere gives one of two errors. -/
theorem Production.parseAll_of_stopsAt {ps : List (Production String)} {rest : List Char}
    {s : String} (h : StopsAt ps rest s.toList) :
    (∃ site, UnknownClass rest site ∧
      Production.parseAll s = .error (.malformed .word (String.ofList (site.take 24)))) ∨
    ((∀ site, ¬ UnknownClass rest site) ∧
      Production.parseAll s = .error (.malformed .finish (String.ofList (rest.take 24)))) := by
  obtain ⟨hne, mid, f, hps, rfl, hf⟩ := stopsAt_iff.mp h
  have hread := hps.productions_eq hf
  have hrest : Reader.production (skipFiller mid) = .error f := (production_skipFiller mid).trans hf
  unfold Production.parseAll Reader.read
  cases hfinal : f.final with
  | true =>
    obtain ⟨site, rfl⟩ := exists_site_of_halts ⟨hrest, hfinal⟩
    refine .inl ⟨site, unknownClass_iff.mpr ⟨hrest, rfl⟩, ?_⟩
    rw [hread]
    rfl
  | false =>
    refine .inr ⟨fun site hsite => ?_, ?_⟩
    · cases hrest.symm.trans (unknownClass_iff.mp hsite).1
      cases hfinal
    · rw [hread, hfinal, if_neg Bool.false_ne_true, if_neg hne]
      rfl

theorem Production.exists_stopsAt {s : String} {e : GrammarError}
    (h : Production.parseAll s = .error e) : ∃ ps rest, StopsAt ps rest s.toList := by
  obtain ⟨ps, mid, f, hps, hf⟩ := exists_inTurn s.toList
  refine ⟨ps, skipFiller mid, stopsAt_iff.mpr ⟨fun hnil => ?_, mid, f, hps, rfl, hf⟩⟩
  have hlenient : ¬ f.final = true := fun hfinal => ne_nil_of_halts ⟨hf, hfinal⟩ hnil
  have hread := hps.productions_eq hf
  rw [if_neg hlenient, if_pos hnil] at hread
  unfold Production.parseAll Reader.read at h
  rw [hread] at h
  cases h

theorem StopsAt.unique {ps ps' : List (Production String)} {rest rest' cs : List Char}
    (h : StopsAt ps rest cs) (h' : StopsAt ps' rest' cs) : ps' = ps ∧ rest' = rest := by
  obtain ⟨-, mid, f, hps, rfl, hf⟩ := stopsAt_iff.mp h
  obtain ⟨-, mid', f', hps', rfl, hf'⟩ := stopsAt_iff.mp h'
  obtain ⟨rfl, rfl⟩ := hps.unique hf hps' hf'
  exact ⟨rfl, rfl⟩

theorem UnknownClass.unique {cs site site' : List Char} (h : UnknownClass cs site)
    (h' : UnknownClass cs site') : site = site' := by
  have hhalts := (unknownClass_iff.mp h).1.symm.trans (unknownClass_iff.mp h').1
  cases hhalts
  rfl

section

variable {ps : List (Production String)} {rest : List Char} {s near : String}

theorem Production.wants_word_iff (h : StopsAt ps rest s.toList) :
    Production.parseAll s = .error (.malformed .word near) ↔
      ∃ site, UnknownClass rest site ∧ near = String.ofList (site.take 24) := by
  rcases parseAll_of_stopsAt h with ⟨site, hsite, herror⟩ | ⟨hnone, herror⟩
  · rw [herror]
    constructor
    · rintro ⟨⟩
      exact ⟨site, hsite, rfl⟩
    · rintro ⟨site', hsite', rfl⟩
      rw [hsite.unique hsite']
  · rw [herror]
    exact ⟨nofun, fun ⟨site, hsite, _⟩ => absurd hsite (hnone site)⟩

theorem Production.wants_finish_iff (h : StopsAt ps rest s.toList) :
    Production.parseAll s = .error (.malformed .finish near) ↔
      (∀ site, ¬ UnknownClass rest site) ∧ near = String.ofList (rest.take 24) := by
  rcases parseAll_of_stopsAt h with ⟨site, hsite, herror⟩ | ⟨hnone, herror⟩
  · rw [herror]
    exact ⟨nofun, fun ⟨hnone, _⟩ => absurd hsite (hnone site)⟩
  · rw [herror]
    constructor
    · rintro ⟨⟩
      exact ⟨hnone, rfl⟩
    · rintro ⟨-, rfl⟩
      rfl

end

/-- A text is rejected if and only if it stops somewhere: it is productions, filler and a rest
on which no production can be read, in one way.  The error shows 24 characters of that rest
where the end of the text was wanted, or of the class that does not exist if one stands after
a name, a description and `=`. -/
theorem Production.parseAll_points_at_first_fault (s : String) :
    ((∃ e, Production.parseAll s = .error e) ↔ ∃ ps rest, StopsAt ps rest s.toList) ∧
    ∀ ps rest, StopsAt ps rest s.toList →
      (∀ ps' rest', StopsAt ps' rest' s.toList → ps' = ps ∧ rest' = rest) ∧
      rest ≠ [] ∧ (∀ r, Reader.production rest ≠ .ok r) ∧
      (∀ near, Production.parseAll s = .error (.malformed .word near) ↔
        ∃ site, UnknownClass rest site ∧ near = String.ofList (site.take 24)) ∧
      (∀ near, Production.parseAll s = .error (.malformed .finish near) ↔
        (∀ site, ¬ UnknownClass rest site) ∧ near = String.ofList (rest.take 24)) ∧
      (∀ near, (GrammarError.malformed .word near).message =
        "failed to parse grammar: Tag near " ++ Text.quote near) ∧
      (∀ near, (GrammarError.malformed .finish near).message =
        "failed to parse grammar: Eof near " ++ Text.quote near) ∧
      ∀ e, Production.parseAll s = .error e → Grammar.parse s = .error e := by
  refine ⟨⟨fun ⟨e, he⟩ => exists_stopsAt he, ?_⟩, fun ps rest h => ?_⟩
  · rintro ⟨ps, rest, h⟩
    rcases parseAll_of_stopsAt h with ⟨_, -, herror⟩ | ⟨-, herror⟩
    · exact ⟨_, herror⟩
    · exact ⟨_, herror⟩
  · refine ⟨fun ps' rest' h' => h.unique h', (stopsAt_iff.mp h).1, fun r hr => ?_,
      fun near => wants_word_iff h, fun near => wants_finish_iff h, fun near => rfl,
      fun near => rfl, fun e he => ?_⟩
    · obtain ⟨f, hf⟩ := exists_production_eq_error h.noProduction
      cases hf.symm.trans hr
    · unfold Grammar.parse
      rw [he]
      rfl

/-- A text whose second production, after a comment, asks for a class that does not exist: the
error leaves out the name, the description and `=`. -/
theorem Production.parseAll_points_at_first_fault_letters :
    let text := "digit = @digit ;\n# words\nword \"w\" = @letters ; more"
    let rest := "word \"w\" = @letters ; more".toList
    StopsAt [⟨"digit", none, .terminal .digit⟩] rest text.toList ∧
      (∃ site, UnknownClass rest site ∧ "@letters ; more" = String.ofList (site.take 24)) ∧
      Grammar.parse text = .error (.malformed .word "@letters ; more") := by
  intro text rest
  have hstops : StopsAt [⟨"digit", none, .terminal .digit⟩] rest text.toList := by
    refine stopsAt_iff.mpr ⟨by decide, '\n' :: '#' :: " words\n".toList ++ rest,
      ⟨.word, "@letters ; more".toList, true⟩, .cons ?_ .nil, ?_, ?_⟩
    · decide +kernel
    · decide +kernel
    · decide +kernel
  have herror : Production.parseAll text = .error (.malformed .word "@letters ; more") := by
    decide +kernel
  obtain ⟨-, -, -, hword, -, -, -, hparse⟩ :=
    (Production.parseAll_points_at_first_fault text).2 _ rest hstops
  exact ⟨hstops, (hword _).mp herror, hparse _ herror⟩

end ChartGrammar
