/-
  Proofs/ReaderSoundness.lean --- what the reader takes for productions says them.

  While a text is read, it is in two parts: words that have been read, and what is left.
  Every step of the reader moves words of its own from the second part to the first, in the
  order that the layout of productions asks for.  Filler may have been skipped at the point
  between the parts, so that what is left can be shorter than the second part.
-/
import ChartGrammar.Proofs.Scanning

set_option autoImplicit false

namespace ChartGrammar.Reader

open Layout

variable {α : Type} {text cs rest : List Char} {ws : List Word}

/-! ## Words that have been read -/

/-- Whether a name stands at the end of a row of words, or before it if there are none. -/
def endsNamed (named : Bool) (ws : List Word) : Bool := ws.foldl (fun _ w => w.endsName) named

@[simp] theorem endsNamed_append_singleton (named : Bool) (ws : List Word) (w : Word) :
    endsNamed named (ws ++ [w]) = w.endsName := by
  simp [endsNamed]

theorem spaced_append_singleton {named : Bool} {s f t : List Char} {w : Word}
    (hs : Spaced named ws s) (hf : Filler f)
    (hgap : endsNamed named ws = true → w.beginsName = true → f ≠ []) (hw : w.Spelled t) :
    Spaced named (ws ++ [w]) (s ++ (f ++ t)) := by
  induction hs with
  | nil =>
    have hone := Spaced.cons hf hgap hw .nil
    rwa [List.append_nil] at hone
  | cons hf' hgap' hw' _ ih =>
    rw [List.cons_append, List.append_assoc, List.append_assoc]
    exact .cons hf' hgap' hw' (ih hgap)

/-- Of a text these words have been read, and `cs` is left. -/
def HasRead (text : List Char) (ws : List Word) (cs : List Char) : Prop :=
  ∃ s mid, text = s ++ mid ∧ Spaced false ws s ∧ (endsNamed false ws = true → Apart mid) ∧
    Skips mid cs

theorem hasRead_nil (text : List Char) : HasRead text [] text :=
  ⟨[], text, rfl, .nil, nofun, .inl ⟨[], .nil, rfl⟩⟩

/-- Skipping filler reads no word. -/
theorem HasRead.skipFiller (h : HasRead text ws cs) : HasRead text ws (skipFiller cs) := by
  obtain ⟨s, mid, htext, hs, hapart, hskips⟩ := h
  refine ⟨s, mid, htext, hs, hapart, ?_⟩
  rcases hskips with ⟨f, hf, rfl⟩ | ⟨rfl, hend⟩
  · exact (skips_skipFiller cs).append hf
  · rw [Reader.skipFiller]
    exact .inr ⟨rfl, hend⟩

/-- The word in front of what is left is read next. -/
theorem HasRead.word {w : Word} {t : List Char} (h : HasRead text ws (t ++ rest))
    (hw : w.Spelled t) (hend : w.endsName = true → Apart rest) :
    HasRead text (ws ++ [w]) rest := by
  obtain ⟨s, mid, rfl, hs, hapart, hskips⟩ := h
  obtain ⟨c, r, rfl, hc⟩ := begins_of_spelled hw
  obtain ⟨f, hf, rfl⟩ := hskips.exists_filler (by simp)
  refine ⟨s ++ (f ++ c :: r), rest, by simp, spaced_append_singleton hs hf ?_ hw, ?_,
    .inl ⟨[], .nil, rfl⟩⟩
  · -- A name directly before would have gone on with this one.
    rintro hnamed hbegins rfl
    exact hapart hnamed c rfl (hc.namePart hbegins)
  · rwa [endsNamed_append_singleton]

/-! ## Steps -/

/-- Whenever a step succeeds, it has read these words. -/
def Sound (p : Step α) (words : α → List Word) : Prop :=
  ∀ ⦃text ws cs a rest⦄, HasRead text ws cs → p cs = .ok (a, rest) →
    HasRead text (ws ++ words a) rest

/-- A step that has read a word leaves less. -/
theorem Sound.length_lt {p : Step α} {words : α → List Word} (hp : Sound p words) {a : α}
    (h : p cs = .ok (a, rest)) (hne : words a ≠ []) : rest.length < cs.length := by
  obtain ⟨s, mid, rfl, hs, -, hskips⟩ := hp (hasRead_nil cs) h
  obtain ⟨w, ws, hcons⟩ := List.exists_cons_of_ne_nil hne
  rw [List.nil_append, hcons] at hs
  have hle := hskips.length_le
  cases hs with
  | cons _ _ hw _ =>
    obtain ⟨c, r, rfl, -⟩ := begins_of_spelled hw
    simp
    omega

/-- A run goes on after a step that has read a word. -/
theorem Sound.many_of_ok {p : Step α} {words : α → List Word} (hp : Sound p words) {a : α}
    {as : List α} {mid : List Char} (h : p cs = .ok (a, mid)) (hne : words a ≠ [])
    (hs : Reader.many p mid = .ok (as, rest)) : Reader.many p cs = .ok (a :: as, rest) :=
  Reader.many_of_ok h (hp.length_lt h hne) hs

theorem sound_filler : Sound filler fun _ => [] := by
  intro text ws cs _ rest h hread
  cases hread
  rw [List.append_nil]
  exact h.skipFiller

theorem Sound.orElse {p q : Step α} {words : α → List Word} (hp : Sound p words)
    (hq : Sound q words) : Sound (orElse p q) words := by
  intro text ws cs a rest h hread
  rcases orElse_eq_ok hread with hread | hread
  · exact hp h hread
  · exact hq h hread

theorem Sound.many {p : Step α} {words : α → List Word} (hp : Sound p words) :
    Sound (many p) (List.flatMap words) := by
  intro text ws cs as rest h hread
  refine many_invariant (I := fun as cs => HasRead text (ws ++ as.flatMap words) cs) ?_ [] ?_
    hread
  · intro as a cs rest h hread
    have hnext := hp h hread
    rw [List.append_assoc] at hnext
    rwa [List.flatMap_append, List.flatMap_singleton]
  · rwa [List.flatMap_nil, List.append_nil]

theorem Sound.maybe {p : Step α} {words : α → List Word} (hp : Sound p words) :
    Sound (maybe p) fun o => o.toList.flatMap words := by
  intro text ws cs o rest h hread
  rcases maybe_eq_ok hread with ⟨a, rfl, hone⟩ | ⟨rfl, rfl⟩
  · simpa using hp h hone
  · simpa using h

theorem sound_mark {c : Char} (hc : c ∈ ['=', ';', '(', ')', ':', '|']) :
    Sound (mark c) fun _ => [.mark c] := by
  intro text ws cs _ rest h hread
  rw [mark_eq_ok] at hread
  subst hread
  exact HasRead.word (t := [c]) h (.mark hc) nofun

theorem sound_name : Sound name fun n => [.name n] := by
  intro text ws cs n rest h hread
  obtain ⟨hn, rfl, hapart⟩ := name_eq_ok.mp hread
  exact h.word (.name hn) fun _ => hapart

theorem sound_textLiteral : Sound textLiteral fun s => [.text s] := by
  intro text ws cs s rest h hread
  obtain ⟨t, ht, rfl⟩ := textLiteral_eq_ok.mp hread
  exact h.word ht nofun

/-! ## Right-hand sides -/

theorem sound_terminal : Sound terminal Rhs.words := by
  intro text ws cs r rest h hread
  obtain ⟨p, mid, hread, hpure⟩ := bind_eq_ok.mp hread
  cases hpure
  rcases orElse_eq_ok hread with hclass | hchar
  · obtain ⟨n, hn, rfl, hapart⟩ := className_eq_ok.mp hclass
    exact HasRead.word (t := '@' :: n.toList) h (.className hn) fun _ => hapart
  · obtain ⟨t, ht, hend, rfl⟩ := charPredicate_eq_ok hchar
    refine h.word ht fun hnamed => ?_
    rw [hend] at hnamed
    cases hnamed

theorem sound_series : Sound series Rhs.words := by
  intro text ws cs r rest h hread
  obtain ⟨s, mid, hread, hpure⟩ := bind_eq_ok.mp hread
  cases hpure
  exact sound_textLiteral h hread

/-- A field of a record, with the filler after it. -/
theorem sound_record_field :
    Sound (do let field ← name; filler; return field) fun n => [.name n] := by
  intro text ws cs n rest h hread
  obtain ⟨n, _, hname, hread⟩ := bind_eq_ok.mp hread
  obtain ⟨_, _, hfiller, hpure⟩ := bind_eq_ok.mp hread
  cases hpure
  have h := sound_filler (sound_name h hname) hfiller
  rwa [List.append_nil] at h

theorem sound_record : Sound record Rhs.words := by
  intro text ws cs r rest h hread
  obtain ⟨_, _, hopen, hread⟩ := bind_eq_ok.mp hread
  obtain ⟨_, _, hfiller, hread⟩ := bind_eq_ok.mp hread
  obtain ⟨fields, _, hfields, hread⟩ := bind_eq_ok.mp hread
  obtain ⟨_, _, hclose, hpure⟩ := bind_eq_ok.mp hread
  cases hpure
  have h := sound_filler (sound_mark (by decide) h hopen) hfiller
  have h := sound_mark (by decide) (sound_record_field.many h hfields) hclose
  simpa [Rhs.words, List.map_eq_flatMap] using h

/-- A field of a branch, with the filler before it. -/
theorem sound_branch_field : Sound (do filler; name) fun n => [.name n] := by
  intro text ws cs n rest h hread
  obtain ⟨_, _, hfiller, hname⟩ := bind_eq_ok.mp hread
  cases hfiller
  exact sound_name h.skipFiller hname

theorem sound_branch : Sound branch Branch.words := by
  intro text ws cs b rest h hread
  obtain ⟨label, _, hlabel, hread⟩ := bind_eq_ok.mp hread
  obtain ⟨_, _, hfiller, hread⟩ := bind_eq_ok.mp hread
  obtain ⟨_, _, hcolon, hread⟩ := bind_eq_ok.mp hread
  obtain ⟨fields, _, hfields, hpure⟩ := bind_eq_ok.mp hread
  cases hpure
  have h := sound_filler (sound_name h hlabel) hfiller
  have h := sound_branch_field.many (sound_mark (by decide) h hcolon) hfields
  simpa [Branch.words, List.map_eq_flatMap] using h

/-- A branch after the first one, with the bar before it. -/
theorem sound_other_branch :
    Sound (do let _ ← (do filler; mark '|'; filler : Step Unit); branch)
      fun b => .mark '|' :: b.words := by
  intro text ws cs b rest h hread
  obtain ⟨_, _, hbar, hbranch⟩ := bind_eq_ok.mp hread
  obtain ⟨_, _, hbefore, hbar⟩ := bind_eq_ok.mp hbar
  obtain ⟨_, _, hmark, hafter⟩ := bind_eq_ok.mp hbar
  have h := sound_mark (by decide) (sound_filler h hbefore) hmark
  simpa using sound_branch (sound_filler h hafter) hbranch

theorem sound_choice : Sound choice Rhs.words := by
  intro text ws cs r rest h hread
  obtain ⟨branches, _, hread, hpure⟩ := bind_eq_ok.mp hread
  cases hpure
  obtain ⟨first, _, hfirst, hread⟩ := bind_eq_ok.mp hread
  obtain ⟨others, _, hothers, hpure⟩ := bind_eq_ok.mp hread
  cases hpure
  have h := sound_other_branch.many (sound_branch h hfirst) hothers
  rwa [List.append_assoc] at h

theorem suffix?_eq_some {make : String → Rhs String} (h : suffix? cs = some (make, rest)) :
    ∃ c ∈ ['?', '*', '+'], cs = c :: rest ∧ ∀ n, (make n).words = [.suffixed n c] := by
  unfold suffix? at h
  split at h <;> cases h <;> exact ⟨_, by decide, rfl, fun _ => rfl⟩

theorem sound_repetition : Sound repetition Rhs.words := by
  intro text ws cs r rest h hread
  obtain ⟨n, mid, hname, hread⟩ := bind_eq_ok.mp hread
  obtain ⟨suffix, _, hsuffix, hpure⟩ := bind_eq_ok.mp hread
  rcases maybe_eq_ok hsuffix with ⟨make, rfl, hmake⟩ | ⟨rfl, rfl⟩
  · -- The suffix belongs to the word: it is read without a look at filler.
    cases hpure
    obtain ⟨hn, rfl, -⟩ := name_eq_ok.mp hname
    obtain ⟨c, hc, rfl, hwords⟩ := suffix?_eq_some (ofOption_eq_ok.mp hmake)
    rw [hwords]
    refine HasRead.word (t := n.toList ++ [c]) ?_ (.suffixed hn hc) nofun
    rwa [List.append_assoc]
  · cases hpure
    exact sound_name h hname

theorem sound_rhs : Sound rhs Rhs.words := by
  intro text ws cs r rest h hread
  obtain ⟨_, _, hfiller, hread⟩ := bind_eq_ok.mp hread
  cases hfiller
  have hone := sound_terminal.orElse (sound_series.orElse (sound_record.orElse
    (sound_choice.orElse sound_repetition)))
  exact hone h.skipFiller hread

/-- A choice that has been read has a branch. -/
theorem ne_choice_nil_of_rhs {r : Rhs String} (h : rhs cs = .ok (r, rest)) : r ≠ .choice [] := by
  obtain ⟨_, _, -, h⟩ := bind_eq_ok.mp h
  rintro rfl
  rcases orElse_eq_ok h with h | h
  · obtain ⟨_, _, -, hpure⟩ := bind_eq_ok.mp h
    cases hpure
  rcases orElse_eq_ok h with h | h
  · obtain ⟨_, _, -, hpure⟩ := bind_eq_ok.mp h
    cases hpure
  rcases orElse_eq_ok h with h | h
  · simp only [record, bind_eq_ok] at h
    obtain ⟨_, _, -, _, _, -, _, _, -, _, _, -, hpure⟩ := h
    cases hpure
  rcases orElse_eq_ok h with h | h
  · obtain ⟨_, _, hbranches, hpure⟩ := bind_eq_ok.mp h
    obtain ⟨_, _, -, hbranches⟩ := bind_eq_ok.mp hbranches
    obtain ⟨_, _, -, hcons⟩ := bind_eq_ok.mp hbranches
    cases hpure
    cases hcons
  · obtain ⟨n, _, -, h⟩ := bind_eq_ok.mp h
    obtain ⟨_, _, hsuffix, hpure⟩ := bind_eq_ok.mp h
    rcases maybe_eq_ok hsuffix with ⟨make, rfl, hmake⟩ | ⟨rfl, rfl⟩
    · obtain ⟨c, _, -, hwords⟩ := suffix?_eq_some (ofOption_eq_ok.mp hmake)
      injection hpure with hpair
      have hnil := hwords n
      rw [(Prod.mk.inj hpair).1] at hnil
      cases hnil
    · cases hpure

/-! ## Productions -/

theorem sound_description : Sound (do filler; textLiteral) fun s => [.text s] := by
  intro text ws cs s rest h hread
  obtain ⟨_, _, hfiller, hliteral⟩ := bind_eq_ok.mp hread
  cases hfiller
  exact sound_textLiteral h.skipFiller hliteral

theorem sound_production : Sound production Production.words := by
  intro text ws cs p rest h hread
  obtain ⟨_, _, hbegin, hread⟩ := bind_eq_ok.mp hread
  obtain ⟨n, _, hname, hread⟩ := bind_eq_ok.mp hread
  obtain ⟨description, _, hdescribed, hread⟩ := bind_eq_ok.mp hread
  obtain ⟨_, _, hbefore, hread⟩ := bind_eq_ok.mp hread
  obtain ⟨_, _, hequals, hread⟩ := bind_eq_ok.mp hread
  obtain ⟨r, _, hrhs, hread⟩ := bind_eq_ok.mp hread
  obtain ⟨_, _, hafter, hread⟩ := bind_eq_ok.mp hread
  obtain ⟨_, _, hend, hpure⟩ := bind_eq_ok.mp hread
  cases hpure
  have h := sound_name (sound_filler h hbegin) hname
  have h := sound_description.maybe h hdescribed
  have h := sound_mark (by decide) (sound_filler h hbefore) hequals
  have h := sound_mark (by decide) (sound_filler (sound_rhs h hrhs) hafter) hend
  cases description <;> simpa [Production.words] using h

theorem ne_choice_nil_of_production {p : Production String}
    (h : production cs = .ok (p, rest)) : p.rhs ≠ .choice [] := by
  simp only [production, bind_eq_ok] at h
  obtain ⟨_, _, -, _, _, -, _, _, -, _, _, -, _, _, -, _, _, hrhs, _, _, -, _, _, -, hpure⟩ := h
  cases hpure
  exact ne_choice_nil_of_rhs hrhs

/-- A text is read to its end. -/
theorem productions_eq_ok {ps : List (Production String)} :
    productions text = .ok (ps, rest) ↔
      rest = [] ∧ ∃ mid, many production text = .ok (ps, mid) ∧ skipFiller mid = [] := by
  constructor
  · intro h
    obtain ⟨ps', mid, hread, h⟩ := bind_eq_ok.mp h
    obtain ⟨_, _, hfiller, h⟩ := bind_eq_ok.mp h
    obtain ⟨_, _, hget, hend⟩ := bind_eq_ok.mp h
    cases hfiller
    cases hget
    cases hmid : skipFiller mid with
    | nil =>
      rw [hmid] at hend
      cases hend
      exact ⟨rfl, mid, hread, hmid⟩
    | cons c cs =>
      rw [hmid] at hend
      cases hend
  · rintro ⟨rfl, mid, hread, hend⟩
    refine bind_eq_ok.mpr ⟨ps, mid, hread, bind_eq_ok.mpr ⟨(), skipFiller mid, rfl, ?_⟩⟩
    rw [hend]
    rfl

/-- The productions that are read from a text are what it says. -/
theorem isLayout_of_productions {ps : List (Production String)}
    (h : productions text = .ok (ps, rest)) : IsLayout ps text := by
  obtain ⟨-, mid, hread, hend⟩ := productions_eq_ok.mp h
  constructor
  · have hone : ∀ done p cs rest, (∀ p ∈ done, p.rhs ≠ .choice []) →
        production cs = .ok (p, rest) → ∀ q ∈ done ++ [p], q.rhs ≠ .choice [] := by
      intro done p cs rest hdone hp q hq
      rcases List.mem_append.mp hq with hq | hq
      · exact hdone q hq
      · rw [List.mem_singleton.mp hq]
        exact ne_choice_nil_of_production hp
    exact many_invariant (I := fun ps _ => ∀ p ∈ ps, p.rhs ≠ .choice []) hone [] (by simp) hread
  · have hall := (sound_production.many (hasRead_nil text) hread).skipFiller
    rw [hend] at hall
    obtain ⟨s, tail, htext, hs, -, hskips⟩ := hall
    refine ⟨s, tail, htext, hs, ?_⟩
    rcases hskips with ⟨f, hf, rfl⟩ | ⟨-, htail⟩
    · rw [List.append_nil]
      exact .filler hf
    · exact htail

end ChartGrammar.Reader
