/-
  Proofs/Scanning.lean --- what the reader's scanners take and what they leave.

  A scanner takes filler, a name or a literal from the front of a text.  For each of them
  there are two facts: what it takes is of its kind, and given something of its kind it
  takes exactly that, if the text does not go on in a way that would make it longer.
-/
import Mathlib
import ChartGrammar.Grammar.Reader
import ChartGrammar.Proofs.Layout
import ChartGrammar.Proofs.Outcome

set_option autoImplicit false

namespace ChartGrammar

open Layout

namespace Reader

/-! ## Kinds of characters -/

theorem isBlank_iff {c : Char} : isBlank c = true ↔ Blank c := by
  simp [isBlank, Blank, or_assoc]

theorem beginsName_iff {c : Char} : beginsName c = true ↔ NameStart c := by
  simp only [beginsName, Char.isAlpha, Char.isUpper, Char.isLower, NameStart, Bool.or_eq_true,
    Bool.and_eq_true, decide_eq_true_eq, beq_iff_eq, Char.le_def]
  tauto

theorem continuesName_iff {c : Char} : continuesName c = true ↔ NamePart c := by
  simp only [continuesName, Char.isAlphanum, NamePart, Bool.or_eq_true, ← beginsName_iff,
    beginsName, Char.isDigit, Bool.and_eq_true, decide_eq_true_eq, beq_iff_eq, Char.le_def]
  tauto

theorem unescape?_eq_some_iff {e c : Char} : unescape? e = some c ↔ (e, c) ∈ escapes := by
  unfold unescape?
  split <;> simp_all [escapes, eq_comm]

end Reader

theorem Predicate.ofClass?_eq_some_iff {n : String} {p : Predicate} :
    Predicate.ofClass? n = some p ↔ (n, p) ∈ classes := by
  unfold Predicate.ofClass?
  split <;> simp_all [classes, eq_comm]

namespace Reader

/-! ## Filler -/

/-- A character that ends filler: neither a blank nor the beginning of a comment. -/
def Solid (c : Char) : Prop := ¬ Blank c ∧ c ≠ '#'

theorem skipFiller_blank {c : Char} (hc : Blank c) (cs : List Char) :
    skipFiller (c :: cs) = skipFiller cs := by
  rw [skipFiller, if_pos (isBlank_iff.mpr hc)]

theorem skipFiller_comment {cs after : List Char} (h : afterComment? cs = some after) :
    skipFiller ('#' :: cs) = skipFiller after := by
  rw [skipFiller, if_neg (by decide), if_pos rfl]
  split
  · next after' h' =>
    cases h.symm.trans h'
    rfl
  · next h' =>
    rw [h] at h'
    cases h'

theorem skipFiller_solid {c : Char} (hc : Solid c) (cs : List Char) :
    skipFiller (c :: cs) = c :: cs := by
  rw [skipFiller, if_neg (by rw [isBlank_iff]; exact hc.1), if_neg hc.2]

theorem skipFiller_eol {eol : List Char} (heol : eol = ['\n'] ∨ eol = ['\r', '\n'])
    (cs : List Char) : skipFiller (eol ++ cs) = skipFiller cs := by
  have hlf : Blank '\n' := .inr (.inr (.inr rfl))
  have hcr : Blank '\r' := .inr (.inr (.inl rfl))
  rcases heol with rfl | rfl
  · exact skipFiller_blank hlf cs
  · exact (skipFiller_blank hcr _).trans (skipFiller_blank hlf cs)

/-- A comment goes on to the end of its line or of the text. -/
theorem afterComment?_eq_some {cs after : List Char} (h : afterComment? cs = some after) :
    ∃ body, CommentBody body ∧ cs = body ++ after ∧
      (after = [] ∨ ∃ eol rest, (eol = ['\n'] ∨ eol = ['\r', '\n']) ∧ after = eol ++ rest) := by
  fun_induction afterComment? cs with
  | case1 =>
    cases h
    exact ⟨[], by simp [CommentBody], rfl, .inl rfl⟩
  | case2 rest =>
    cases h
    exact ⟨[], by simp [CommentBody], rfl, .inr ⟨_, rest, .inl rfl, rfl⟩⟩
  | case3 rest =>
    cases h
    exact ⟨[], by simp [CommentBody], rfl, .inr ⟨_, rest, .inr rfl, rfl⟩⟩
  | case4 => cases h
  | case5 c rest hlf _ hcr ih =>
    obtain ⟨body, hbody, rfl, hafter⟩ := ih h
    refine ⟨c :: body, List.forall_mem_cons.mpr ⟨⟨?_, ?_⟩, hbody⟩, rfl, hafter⟩
    · exact hlf
    · exact hcr

/-- A comment ends where its line ends. -/
theorem afterComment?_append {body : List Char} (hbody : CommentBody body) {cs : List Char}
    (h : afterComment? cs = some cs) : afterComment? (body ++ cs) = some cs := by
  induction body with
  | nil => exact h
  | cons c body ih =>
    obtain ⟨⟨hlf, hcr⟩, hbody⟩ := List.forall_mem_cons.mp hbody
    rw [List.cons_append, afterComment?]
    · exact ih hbody
    · exact hlf
    · exact fun _ hc _ => hcr hc
    · exact hcr

/-- Filler is skipped, whatever follows it. -/
theorem skipFiller_append {f : List Char} (hf : Filler f) (cs : List Char) :
    skipFiller (f ++ cs) = skipFiller cs := by
  induction hf with
  | nil => rfl
  | blank hc _ ih => rw [List.cons_append, skipFiller_blank hc, ih]
  | @comment body eol f hbody heol _ ih =>
    have hend : afterComment? (eol ++ (f ++ cs)) = some (eol ++ (f ++ cs)) := by
      rcases heol with rfl | rfl <;> rfl
    rw [List.cons_append, List.append_assoc, List.append_assoc,
      skipFiller_comment (afterComment?_append hbody hend), skipFiller_eol heol, ih]

theorem skipFiller_end {cs : List Char} (h : EndFiller cs) : skipFiller cs = [] := by
  cases h with
  | filler hf =>
    have hskip := skipFiller_append hf []
    rwa [List.append_nil, skipFiller] at hskip
  | @comment f body hf hbody =>
    have hend : afterComment? (body ++ []) = some [] := afterComment?_append hbody rfl
    rw [List.append_nil] at hend
    rw [skipFiller_append hf, skipFiller_comment hend, skipFiller]

/-- What is left of a text after filler in front of it; at the end of a text the last comment
need not end its line. -/
def Skips (cs rest : List Char) : Prop :=
  (∃ f, Filler f ∧ cs = f ++ rest) ∨ (rest = [] ∧ EndFiller cs)

theorem filler_append {f g : List Char} (hf : Filler f) (hg : Filler g) : Filler (f ++ g) := by
  induction hf with
  | nil => exact hg
  | blank hc _ ih => exact .blank hc ih
  | comment hbody heol _ ih =>
    rw [List.cons_append, List.append_assoc, List.append_assoc]
    exact .comment hbody heol ih

theorem Skips.append {f cs rest : List Char} (hf : Filler f) (h : Skips cs rest) :
    Skips (f ++ cs) rest := by
  rcases h with ⟨g, hg, rfl⟩ | ⟨rfl, hend⟩
  · exact .inl ⟨f ++ g, filler_append hf hg, (List.append_assoc ..).symm⟩
  · refine .inr ⟨rfl, ?_⟩
    cases hend with
    | filler hg => exact .filler (filler_append hf hg)
    | comment hg hbody =>
      rw [← List.append_assoc]
      exact .comment (filler_append hf hg) hbody

/-- What is skipped is filler. -/
theorem skips_skipFiller (cs : List Char) : Skips cs (skipFiller cs) := by
  match cs with
  | [] =>
    rw [skipFiller]
    exact .inl ⟨[], .nil, rfl⟩
  | c :: cs =>
    by_cases hblank : Blank c
    · rw [skipFiller_blank hblank]
      exact (skips_skipFiller cs).append (.blank hblank .nil)
    · by_cases hhash : c = '#'
      · subst hhash
        cases hcomment : afterComment? cs with
        | none =>
          have hstays : skipFiller ('#' :: cs) = '#' :: cs := by
            rw [skipFiller, if_neg (by decide), if_pos rfl]
            split
            · next h =>
              rw [hcomment] at h
              cases h
            · rfl
          rw [hstays]
          exact .inl ⟨[], .nil, rfl⟩
        | some after =>
          rw [skipFiller_comment hcomment]
          obtain ⟨body, hbody, hcs, rfl | ⟨eol, rest, heol, rfl⟩⟩ := afterComment?_eq_some hcomment
          · rw [skipFiller, hcs, List.append_nil]
            exact .inr ⟨rfl, .comment .nil hbody⟩
          · have hline := (skips_skipFiller rest).append (.comment hbody heol .nil)
            rw [skipFiller_eol heol, hcs]
            simpa using hline
      · rw [skipFiller_solid ⟨hblank, hhash⟩]
        exact .inl ⟨[], .nil, rfl⟩
termination_by cs.length
decreasing_by
  · simp
  · rw [hcs]
    simp
    omega

theorem Skips.exists_filler {cs rest : List Char} (h : Skips cs rest) (hne : rest ≠ []) :
    ∃ f, Filler f ∧ cs = f ++ rest :=
  h.resolve_right fun hend => hne hend.1

theorem Skips.length_le {cs rest : List Char} (h : Skips cs rest) : rest.length ≤ cs.length := by
  rcases h with ⟨f, -, rfl⟩ | ⟨rfl, -⟩
  · simp
  · exact Nat.zero_le _

/-! ## Steps that refuse a text -/

section

variable {α β : Type} {p q : Step α} {cs rest : List Char}

/-- A step fails on a text, and something else may be tried. -/
def Refuses (p : Step α) (cs : List Char) : Prop :=
  ∃ f, p cs = .error f ∧ f.final = false

theorem bind_eq_ok {k : α → Step β} {b : β} :
    (p >>= k) cs = .ok (b, rest) ↔ ∃ a mid, p cs = .ok (a, mid) ∧ k a mid = .ok (b, rest) :=
  run_bind_eq_ok_iff

theorem Refuses.bind {k : α → Step β} (h : Refuses p cs) : Refuses (p >>= k) cs := by
  obtain ⟨f, hf, hfinal⟩ := h
  refine ⟨f, ?_, hfinal⟩
  change (p cs >>= fun r => k r.1 r.2) = .error f
  rw [hf]
  rfl

theorem Refuses.bind_right {k : α → Step β} {a : α} (hp : p cs = .ok (a, rest))
    (h : Refuses (k a) rest) : Refuses (p >>= k) cs := by
  obtain ⟨f, hf, hfinal⟩ := h
  refine ⟨f, ?_, hfinal⟩
  change (p cs >>= fun r => k r.1 r.2) = .error f
  rw [hp]
  exact hf

theorem refuses_ofOption {wanted : Wanted} {read? : List Char → Option (α × List Char)}
    (h : read? cs = none) : Refuses (ofOption wanted read?) cs := by
  refine ⟨⟨wanted, cs, false⟩, ?_, rfl⟩
  unfold ofOption
  rw [h]

theorem ofOption_eq_ok {wanted : Wanted} {read? : List Char → Option (α × List Char)} {a : α} :
    ofOption wanted read? cs = .ok (a, rest) ↔ read? cs = some (a, rest) := by
  unfold ofOption
  cases read? cs with
  | none => simp
  | some r => simp

theorem orElse_of_ok {r : α × List Char} (h : p cs = .ok r) : orElse p q cs = .ok r := by
  unfold orElse
  rw [h]

theorem orElse_of_refuses (h : Refuses p cs) : orElse p q cs = q cs := by
  obtain ⟨f, hf, hfinal⟩ := h
  simp [orElse, hf, hfinal]

theorem orElse_eq_ok {r : α × List Char} (h : orElse p q cs = .ok r) :
    p cs = .ok r ∨ q cs = .ok r := by
  unfold orElse at h
  split at h
  · next hp => exact .inl (hp.trans h)
  · split at h
    · cases h
    · exact .inr h

theorem Refuses.orElse (hp : Refuses p cs) (hq : Refuses q cs) : Refuses (orElse p q) cs := by
  obtain ⟨f, hf, hfinal⟩ := hq
  exact ⟨f, (orElse_of_refuses hp).trans hf, hfinal⟩

theorem maybe_of_ok {a : α} (h : p cs = .ok (a, rest)) : maybe p cs = .ok (some a, rest) := by
  unfold maybe
  rw [h]

theorem maybe_of_refuses (h : Refuses p cs) : maybe p cs = .ok (none, cs) := by
  obtain ⟨f, hf, hfinal⟩ := h
  simp [maybe, hf, hfinal]

theorem maybe_eq_ok {o : Option α} (h : maybe p cs = .ok (o, rest)) :
    (∃ a, o = some a ∧ p cs = .ok (a, rest)) ∨ (o = none ∧ rest = cs) := by
  unfold maybe at h
  split at h
  · next a rest' hp =>
    cases h
    exact .inl ⟨a, rfl, hp⟩
  · split at h
    · cases h
    · cases h
      exact .inr ⟨rfl, rfl⟩

theorem many_of_refuses (h : Refuses p cs) : many p cs = .ok ([], cs) := by
  obtain ⟨f, hf, hfinal⟩ := h
  rw [many, hf]
  simp [hfinal]

theorem many_of_ok {a : α} {as : List α} {mid : List Char} (h : p cs = .ok (a, mid))
    (hlt : mid.length < cs.length) (hs : many p mid = .ok (as, rest)) :
    many p cs = .ok (a :: as, rest) := by
  rw [many, h]
  simp [hlt, hs]

/-- What every step of a run keeps is kept by the run. -/
theorem many_invariant {I : List α → List Char → Prop}
    (step : ∀ as a cs rest, I as cs → p cs = .ok (a, rest) → I (as ++ [a]) rest)
    (done : List α) {as : List α} (hI : I done cs) (h : many p cs = .ok (as, rest)) :
    I (done ++ as) rest := by
  fun_induction many p cs generalizing as done with
  | case1 cs f _ _ => cases h
  | case2 cs f _ _ =>
    cases h
    rwa [List.append_nil]
  | case3 cs a mid hp _ as' rest' hmany ih =>
    cases h
    have hrest := ih _ (step done a cs mid hI hp) hmany
    rwa [List.append_assoc] at hrest
  | case4 => cases h
  | case5 =>
    cases h
    rwa [List.append_nil]

end

/-! ## Marks and names -/

theorem mark_eq_ok {c : Char} {cs rest : List Char} {u : Unit} :
    mark c cs = .ok (u, rest) ↔ cs = c :: rest := by
  rw [mark, ofOption_eq_ok]
  cases cs with
  | nil => simp
  | cons d cs =>
    by_cases hd : d = c
    · simp [hd]
    · simp [hd]

theorem refuses_mark {c d : Char} (hd : d ≠ c) (cs : List Char) : Refuses (mark c) (d :: cs) :=
  refuses_ofOption (by simp [hd])

/-- A text that does not continue a name. -/
def Apart (cs : List Char) : Prop := ∀ c ∈ cs.head?, ¬ NamePart c

/-- A name is read as far as it goes. -/
theorem name_eq_ok {n : String} {cs rest : List Char} :
    name cs = .ok (n, rest) ↔ IsName n.toList ∧ cs = n.toList ++ rest ∧ Apart rest := by
  rw [name, ofOption_eq_ok]
  constructor
  · intro h
    split at h
    · next c cs =>
      split at h
      · next hc =>
        cases h
        rw [String.toList_ofList]
        refine ⟨.mk (beginsName_iff.mp hc) ?_, ?_, ?_⟩
        · intro d hd
          exact continuesName_iff.mp (List.all_eq_true.mp List.all_takeWhile d hd)
        · rw [List.cons_append, List.takeWhile_append_dropWhile]
        · intro d hd hpart
          have hstop := List.head?_dropWhile_not continuesName cs
          rw [Option.mem_def.mp hd] at hstop
          simp [continuesName_iff.mpr hpart] at hstop
      · cases h
    · cases h
  · rintro ⟨hname, rfl, hrest⟩
    generalize hn : n.toList = t at hname
    cases hname with
    | @mk c t hc ht =>
      have hall : ∀ d ∈ t, continuesName d = true := fun d hd => continuesName_iff.mpr (ht d hd)
      have hstop : rest.takeWhile continuesName = [] ∧ rest.dropWhile continuesName = rest := by
        cases rest with
        | nil => exact ⟨rfl, rfl⟩
        | cons d rest =>
          have hd : ¬ continuesName d = true := fun hd => hrest d rfl (continuesName_iff.mp hd)
          exact ⟨List.takeWhile_cons_of_neg hd, List.dropWhile_cons_of_neg hd⟩
      simp only [List.cons_append, beginsName_iff.mpr hc, if_true]
      rw [List.takeWhile_append_of_pos hall, List.dropWhile_append_of_pos hall, hstop.1,
        hstop.2, List.append_nil, ← hn, String.ofList_toList]

theorem refuses_name_nil : Refuses name [] := refuses_ofOption rfl

theorem refuses_name {c : Char} (hc : ¬ NameStart c) (cs : List Char) :
    Refuses name (c :: cs) :=
  refuses_ofOption (by simp [beginsName_iff, hc])

/-! ## Literals -/

theorem charLiteral?_eq_some_iff {c : Char} {cs rest : List Char} :
    charLiteral? cs = some (c, rest) ↔ ∃ t, CharLiteral c t ∧ cs = t ++ rest := by
  constructor
  · intro h
    unfold charLiteral? at h
    split at h
    · next e rest' =>
      obtain ⟨d, hd, heq⟩ := Option.map_eq_some_iff.mp h
      cases heq
      exact ⟨_, .mk (.escape (unescape?_eq_some_iff.mp hd)), rfl⟩
    · next d rest' _ =>
      split at h
      · cases h
      · next hplain =>
        cases h
        rw [Bool.or_eq_true, decide_eq_true_eq, decide_eq_true_eq, not_or] at hplain
        exact ⟨_, .mk (.plain hplain.1 hplain.2), rfl⟩
    · cases h
  · rintro ⟨_, ⟨hc⟩, rfl⟩
    cases hc with
    | plain hback hquote =>
      simp only [List.cons_append, List.nil_append]
      rw [charLiteral?]
      · simp [hback, hquote]
      · exact fun _ hc _ => hback hc
    | escape hesc => simp [charLiteral?, unescape?_eq_some_iff.mpr hesc]

theorem literalBody?_eq_some {cs body rest : List Char} (h : literalBody? cs = some (body, rest)) :
    ∃ t, LiteralBody body t ∧ cs = t ++ '"' :: rest := by
  fun_induction literalBody? cs generalizing body with
  | case1 => cases h
  | case2 rest' =>
    cases h
    exact ⟨[], .nil, rfl⟩
  | case3 e cs d body' rest' hbody hesc ih =>
    cases h
    obtain ⟨t, ht, rfl⟩ := ih hbody
    exact ⟨_, .cons (.escape (unescape?_eq_some_iff.mp hesc)) ht, rfl⟩
  | case4 => cases h
  | case5 => cases h
  | case6 c cs hquote _ hback body' rest' hbody ih =>
    cases h
    obtain ⟨t, ht, rfl⟩ := ih hbody
    exact ⟨_, .cons (.plain hback hquote) ht, rfl⟩
  | case7 => cases h

theorem literalBody?_append {body t : List Char} (h : LiteralBody body t) (rest : List Char) :
    literalBody? (t ++ '"' :: rest) = some (body, rest) := by
  induction h with
  | nil => rfl
  | @cons c t body ts hc _ ih =>
    cases hc with
    | plain hback hquote =>
      rw [List.append_assoc, List.singleton_append, literalBody?]
      · simp [hback, ih]
      · exact hquote
      · exact fun _ _ h _ => hback h
    | escape hesc => simp [literalBody?, unescape?_eq_some_iff.mpr hesc, ih]

theorem textLiteral_eq_ok {s : String} {cs rest : List Char} :
    textLiteral cs = .ok (s, rest) ↔ ∃ t, (Word.text s).Spelled t ∧ cs = t ++ rest := by
  rw [textLiteral, ofOption_eq_ok]
  constructor
  · intro h
    split at h
    · next cs =>
      split at h
      · next body rest' hbody =>
        split at h
        · cases h
        · next hne =>
          cases h
          obtain ⟨t, ht, rfl⟩ := literalBody?_eq_some hbody
          refine ⟨'"' :: (t ++ ['"']), .text ?_ ?_, by simp⟩
          · intro heq
            rw [← String.toList_inj, String.toList_ofList] at heq
            simp [heq] at hne
          · rwa [String.toList_ofList]
      · cases h
    · cases h
  · rintro ⟨_, hs, rfl⟩
    cases hs with
    | text hne ht =>
      have hbody : s.toList ≠ [] := fun h => hne (String.toList_inj.mp h)
      simp [literalBody?_append ht, hbody]

theorem refuses_textLiteral {c : Char} (hc : c ≠ '"') (cs : List Char) :
    Refuses textLiteral (c :: cs) :=
  refuses_ofOption (by simp [hc])

/-! ## Tests on a character -/

/-- The names of classes are names. -/
theorem isName_of_mem_classes {n : String} {p : Predicate} (h : (n, p) ∈ classes) :
    IsName n.toList := by
  simp only [classes, List.mem_cons, Prod.mk.injEq, List.not_mem_nil, or_false] at h
  rcases h with ⟨rfl, -⟩ | ⟨rfl, -⟩ | ⟨rfl, -⟩ | ⟨rfl, -⟩ | ⟨rfl, -⟩ | ⟨rfl, -⟩ | ⟨rfl, -⟩ |
    ⟨rfl, -⟩ <;> decide

theorem className_eq_ok {p : Predicate} {cs rest : List Char} :
    className cs = .ok (p, rest) ↔
      ∃ n, (n, p) ∈ classes ∧ cs = '@' :: (n.toList ++ rest) ∧ Apart rest := by
  constructor
  · intro h
    unfold className at h
    split at h
    · next n rest' hread =>
      obtain ⟨_, mid, hmark, hname⟩ := bind_eq_ok.mp hread
      rw [mark_eq_ok] at hmark
      obtain ⟨-, rfl, hapart⟩ := name_eq_ok.mp hname
      split at h
      · next p' hclass =>
        cases h
        exact ⟨n, Predicate.ofClass?_eq_some_iff.mp hclass, hmark, hapart⟩
      · cases h
    · cases h
  · rintro ⟨n, hn, rfl, hapart⟩
    have hread : (do mark '@'; name : Step String) ('@' :: (n.toList ++ rest)) = .ok (n, rest) :=
      bind_eq_ok.mpr ⟨(), _, mark_eq_ok.mpr rfl,
        name_eq_ok.mpr ⟨isName_of_mem_classes hn, rfl, hapart⟩⟩
    unfold className
    rw [hread]
    simp [Predicate.ofClass?_eq_some_iff.mpr hn]

theorem refuses_className {c : Char} (hc : c ≠ '@') (cs : List Char) :
    Refuses className (c :: cs) := by
  obtain ⟨f, hf, hfinal⟩ := (refuses_mark hc cs).bind (k := fun _ => name)
  refine ⟨f, ?_, hfinal⟩
  unfold className
  rw [hf]

theorem charPredicate_eq_ok {p : Predicate} {cs rest : List Char}
    (h : charPredicate cs = .ok (p, rest)) :
    ∃ t, (Word.predicate p).Spelled t ∧ (Word.predicate p).endsName = false ∧ cs = t ++ rest := by
  rw [charPredicate, ofOption_eq_ok] at h
  split at h
  · next lo mid hlo =>
    obtain ⟨t, ht, rfl⟩ := charLiteral?_eq_some_iff.mp hlo
    split at h
    · next hi _ hhi =>
      cases h
      obtain ⟨u, hu, rfl⟩ := charLiteral?_eq_some_iff.mp hhi
      exact ⟨_, .range ht hu, rfl, by simp⟩
    · cases h
      exact ⟨t, .char ht, rfl, rfl⟩
  · next c _ _ hc =>
    cases h
    obtain ⟨t, ht, rfl⟩ := charLiteral?_eq_some_iff.mp hc
    exact ⟨t, .char ht, rfl, rfl⟩
  · cases h

theorem charPredicate_char {c : Char} {t rest : List Char} (h : CharLiteral c t)
    (hrest : rest.head? ≠ some '.') : charPredicate (t ++ rest) = .ok (.char c, rest) := by
  rw [charPredicate, ofOption_eq_ok, charLiteral?_eq_some_iff.mpr ⟨t, h, rfl⟩]
  split
  · next heq =>
    cases heq
    exact absurd rfl hrest
  · next heq =>
    cases heq
    rfl
  · next heq => cases heq

theorem charPredicate_range {lo hi : Char} {t u : List Char} (hlo : CharLiteral lo t)
    (hhi : CharLiteral hi u) (rest : List Char) :
    charPredicate (t ++ '.' :: '.' :: u ++ rest) = .ok (.range lo hi, rest) := by
  rw [charPredicate, ofOption_eq_ok, List.append_assoc,
    charLiteral?_eq_some_iff.mpr ⟨t, hlo, rfl⟩]
  simp [charLiteral?_eq_some_iff.mpr ⟨u, hhi, rfl⟩]

theorem refuses_charPredicate {c : Char} (hc : c ≠ '\'') (cs : List Char) :
    Refuses charPredicate (c :: cs) := by
  refine refuses_ofOption ?_
  have hnone : charLiteral? (c :: cs) = none := by
    unfold charLiteral?
    split
    · next heq =>
      cases heq
      exact absurd rfl hc
    · next heq =>
      cases heq
      exact absurd rfl hc
    · rfl
  rw [hnone]

/-! ## How words begin -/

/-- What the first character of a word may be. -/
def Begins : Word → Char → Prop
  | .name _, c | .suffixed _ _, c => NameStart c
  | .predicate _, c => c = '@' ∨ c = '\''
  | .text _, c => c = '"'
  | .mark d, c => c = d ∧ d ∈ ['=', ';', '(', ')', ':', '|']

theorem begins_of_spelled {w : Word} {t : List Char} (h : w.Spelled t) :
    ∃ c r, t = c :: r ∧ Begins w c := by
  have hlit : ∀ {c t}, CharLiteral c t → ∃ r, t = '\'' :: r := fun ⟨_⟩ => ⟨_, rfl⟩
  have hname : ∀ {t}, IsName t → ∃ c r, t = c :: r ∧ NameStart c := fun ⟨hc, _⟩ => ⟨_, _, rfl, hc⟩
  cases h with
  | name h => exact hname h
  | suffixed h _ =>
    obtain ⟨c, r, hr, hc⟩ := hname h
    exact ⟨c, r ++ _, by rw [hr, List.cons_append], hc⟩
  | className _ => exact ⟨_, _, rfl, .inl rfl⟩
  | char h =>
    obtain ⟨r, rfl⟩ := hlit h
    exact ⟨_, r, rfl, .inr rfl⟩
  | range h _ =>
    obtain ⟨r, rfl⟩ := hlit h
    exact ⟨_, _, rfl, .inr rfl⟩
  | text _ _ => exact ⟨_, _, rfl, rfl⟩
  | mark h => exact ⟨_, [], rfl, rfl, h⟩

/-- The marks that stand inside words only: the dots of a range, and suffixes. -/
def Inner (c : Char) : Prop := c ∈ ['.', '?', '*', '+']

/-- A word does not begin as filler does, nor with a mark that stands inside words only. -/
theorem Begins.solid {w : Word} {c : Char} (h : Begins w c) : Solid c ∧ ¬ Inner c := by
  have hname : NameStart c → Solid c ∧ ¬ Inner c := by
    intro hc
    have hne : ∀ d ∈ [' ', '\t', '\r', '\n', '#', '.', '?', '*', '+'], c ≠ d := by
      have hnot : ∀ d ∈ [' ', '\t', '\r', '\n', '#', '.', '?', '*', '+'], ¬ NameStart d := by
        simp [NameStart]
      rintro d hd rfl
      exact hnot c hd hc
    simpa [Solid, Blank, Inner, and_assoc] using hne
  cases w with
  | name _ => exact hname h
  | suffixed _ _ => exact hname h
  | predicate _ => rcases h with rfl | rfl <;> simp [Solid, Blank, Inner]
  | text _ =>
    cases h
    simp [Solid, Blank, Inner]
  | mark d =>
    obtain ⟨rfl, hd⟩ := h
    simp only [List.mem_cons, List.not_mem_nil, or_false] at hd
    rcases hd with rfl | rfl | rfl | rfl | rfl | rfl <;> simp [Solid, Blank, Inner]

/-- Only names go on a name. -/
theorem Begins.apart {w : Word} {c : Char} (h : Begins w c) (hw : w.beginsName = false) :
    ¬ NamePart c := by
  cases w with
  | name _ => cases hw
  | suffixed _ _ => cases hw
  | predicate _ => rcases h with rfl | rfl <;> decide
  | text _ =>
    cases h
    decide
  | mark d =>
    obtain ⟨rfl, hd⟩ := h
    simp only [List.mem_cons, List.not_mem_nil, or_false] at hd
    rcases hd with rfl | rfl | rfl | rfl | rfl | rfl <;> decide

theorem Begins.namePart {w : Word} {c : Char} (h : Begins w c) (hw : w.beginsName = true) :
    NamePart c := by
  cases w with
  | name _ => exact .inl h
  | suffixed _ _ => exact .inl h
  | predicate _ => cases hw
  | text _ => cases hw
  | mark _ => cases hw

end Reader

end ChartGrammar
