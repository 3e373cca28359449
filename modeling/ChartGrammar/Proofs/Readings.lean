/-
  Proofs/Readings.lean --- a text says one thing.

  The reader and the description of layouts agree on every text.  That leaves no choice in
  how a text is taken apart: its words are determined, so that filler can be changed freely,
  and so are the productions that it says.
-/
import ChartGrammar.Proofs.ReaderCompleteness

set_option autoImplicit false

namespace ChartGrammar

open Layout

namespace Reader

variable {tail cs : List Char} {w : Word} {ws : List Word}

/-! ## The first word of a text -/

/-- The kinds of words that a first character tells apart. -/
inductive Kind where
  | name
  | predicate
  | text
  | mark
  deriving DecidableEq

/-- The kind of a word. -/
def kind : Word → Kind
  | .name _ | .suffixed _ _ => .name
  | .predicate _ => .predicate
  | .text _ => .text
  | .mark _ => .mark

/-- The kind of the words that begin with a character. -/
def kindOf (c : Char) : Kind :=
  if NameStart c then .name
  else if c = '@' ∨ c = '\'' then .predicate
  else if c = '"' then .text
  else .mark

theorem Begins.kindOf_eq {c : Char} (h : Begins w c) : kindOf c = kind w := by
  cases w with
  | name _ => exact if_pos h
  | suffixed _ _ => exact if_pos h
  | predicate _ =>
    rcases h with rfl | rfl
    · exact (by decide : kindOf '@' = .predicate)
    · exact (by decide : kindOf '\'' = .predicate)
  | text _ =>
    cases h
    exact (by decide : kindOf '"' = .text)
  | mark d =>
    obtain ⟨rfl, hd⟩ := h
    have hmarks : ∀ d ∈ ['=', ';', '(', ')', ':', '|'], kindOf d = .mark := by
      simp [kindOf, NameStart]
    exact hmarks c hd

/-- A word that begins with a name, and where the name ends. -/
theorem name_of_spelled {t rest : List Char} (hw : w.Spelled t) (hrest : Follows w.endsName rest)
    (hkind : kind w = .name) :
    (∃ n, w = .name n ∧ name (t ++ rest) = .ok (n, rest)) ∨
      ∃ n c, w = .suffixed n c ∧ Inner c ∧ name (t ++ rest) = .ok (n, c :: rest) := by
  cases hw with
  | name hn => exact .inl ⟨_, rfl, name_eq_ok.mpr ⟨hn, rfl, hrest.apart rfl⟩⟩
  | suffixed hn hc =>
    exact .inr ⟨_, _, rfl, List.mem_cons_of_mem _ hc, name_suffix hn hc rest⟩
  | _ => cases hkind

/-- A text begins with one word only. -/
theorem word_unique {w' : Word} {t t' rest rest' : List Char} (hw : w.Spelled t)
    (hw' : w'.Spelled t') (hrest : Follows w.endsName rest) (hrest' : Follows w'.endsName rest')
    (heq : t ++ rest = t' ++ rest') : w = w' ∧ rest = rest' := by
  have hkind : kind w = kind w' := by
    obtain ⟨c, r, hcons, hc⟩ := begins_of_spelled hw
    obtain ⟨c', r', hcons', hc'⟩ := begins_of_spelled hw'
    rw [hcons, hcons'] at heq
    rw [← hc.kindOf_eq, (List.cons.inj heq).1, hc'.kindOf_eq]
  by_cases hname : kind w = .name
  · rcases name_of_spelled hw hrest hname with ⟨n, rfl, hn⟩ | ⟨n, c, rfl, hc, hn⟩ <;>
    rcases name_of_spelled hw' hrest' (hkind ▸ hname) with ⟨n', rfl, hn'⟩ | ⟨n', c', rfl, hc', hn'⟩
    all_goals
      rw [heq, hn'] at hn
      cases hn
    · exact ⟨rfl, rfl⟩
    · exact absurd hc' (hrest.inner c' rfl)
    · exact absurd hc (hrest'.inner c rfl)
    · exact ⟨rfl, rfl⟩
  · cases w with
    | name _ | suffixed _ _ => exact absurd rfl hname
    | predicate p =>
      cases w' with
      | predicate p' =>
        have hread := predicate_eq_ok hw hrest
        rw [heq, predicate_eq_ok hw' hrest'] at hread
        cases hread
        exact ⟨rfl, rfl⟩
      | _ => cases hkind
    | text s =>
      cases w' with
      | text s' =>
        have hread : textLiteral (t ++ rest) = .ok (s, rest) := textLiteral_eq_ok.mpr ⟨t, hw, rfl⟩
        rw [textLiteral_eq_ok.mpr ⟨t', hw', heq⟩] at hread
        cases hread
        exact ⟨rfl, rfl⟩
      | _ => cases hkind
    | mark d =>
      cases w' with
      | mark d' =>
        cases hw
        cases hw'
        cases heq
        exact ⟨rfl, rfl⟩
      | _ => cases hkind

/-! ## The words of a text -/

/-- A text has one row of words only. -/
theorem words_unique {tail' : List Char} (htail : EndFiller tail) (htail' : EndFiller tail')
    (ws : List Word) : ∀ {named named' ws' cs}, Ahead tail named ws cs →
      Ahead tail' named' ws' cs → ws = ws' := by
  have hnil : ∀ {tail named cs w ws}, EndFiller cs → ¬ Ahead tail named (w :: ws) cs := by
    intro tail named cs w ws hend h
    obtain ⟨c, r, hskip, -⟩ := h.begins
    rw [skipFiller_end hend] at hskip
    cases hskip
  induction ws with
  | nil =>
    rintro named named' ws' _ ⟨_, rfl, ⟨⟩⟩ h'
    cases ws' with
    | nil => rfl
    | cons w' ws' => exact absurd h' (hnil htail)
  | cons w ws ih =>
    intro named named' ws' cs h h'
    cases ws' with
    | nil =>
      obtain ⟨_, rfl, ⟨⟩⟩ := h'
      exact absurd h (hnil htail')
    | cons w' ws' =>
      obtain ⟨t, rest, hw, hskip, hrest⟩ := h.next
      obtain ⟨t', rest', hw', hskip', hrest'⟩ := h'.next
      obtain ⟨rfl, rfl⟩ := word_unique hw hw' (hrest.follows (.inr htail))
        (hrest'.follows (.inr htail')) (hskip.symm.trans hskip')
      rw [ih hrest hrest']

theorem textOf_unique {ws' : List Word} (h : TextOf ws cs) (h' : TextOf ws' cs) : ws = ws' := by
  obtain ⟨s, tail, hcs, hs, htail⟩ := h
  obtain ⟨s', tail', hcs', hs', htail'⟩ := h'
  exact words_unique htail htail' ws ⟨s, hcs, hs⟩ ⟨s', hcs', hs'⟩

end Reader

/-! ## What a text says -/

/-- The reader accepts exactly the layouts of productions.  So no text says two things, and
how the words of a text are laid out does not matter. -/
theorem Production.parseAll_reads_layouts :
    (∀ s ps, Production.parseAll s = .ok ps ↔ IsLayout ps s.toList) ∧
    (∀ s ps ps', IsLayout ps s → IsLayout ps' s → ps = ps') ∧
    (∀ ws s s', TextOf ws s.toList → TextOf ws s'.toList →
      ∀ ps, Production.parseAll s = .ok ps ↔ Production.parseAll s' = .ok ps) := by
  refine ⟨fun s ps => parseAll_eq_ok, fun s ps ps' h h' => ?_, fun ws s s' h h' ps => ?_⟩
  · have hread := (Reader.productions_of_isLayout h).symm.trans (Reader.productions_of_isLayout h')
    cases hread
    rfl
  · rw [parseAll_eq_ok, parseAll_eq_ok]
    constructor
    · rintro ⟨hchoices, hwords⟩
      exact ⟨hchoices, Reader.textOf_unique h hwords ▸ h'⟩
    · rintro ⟨hchoices, hwords⟩
      exact ⟨hchoices, Reader.textOf_unique h' hwords ▸ h⟩

/-- Two texts of the same words, one with no more filler than there must be and one with
blanks, line ends and comments, say the same. -/
theorem Production.parseAll_reads_layouts_letters :
    let terse := "word\"w\"=letter+;letter='a'..'z';"
    let loose := "# words\r\nword \"w\" = letter+ ;\n\tletter = 'a'..'z' ; # the end"
    let ps : List (Production String) :=
      [⟨"word", some "w", .plus "letter"⟩, ⟨"letter", none, .terminal (.range 'a' 'z')⟩]
    IsLayout ps terse.toList ∧ TextOf (ps.flatMap Production.words) terse.toList ∧
      TextOf (ps.flatMap Production.words) loose.toList ∧ Production.parseAll loose = .ok ps := by
  intro terse loose ps
  obtain ⟨hreads, -, hsame⟩ := Production.parseAll_reads_layouts
  have hterse : IsLayout ps terse.toList := (hreads terse ps).mp (by decide +kernel)
  have hloose : IsLayout ps loose.toList := (hreads loose ps).mp (by decide +kernel)
  refine ⟨hterse, hterse.words, hloose.words, ?_⟩
  exact (hsame _ terse loose hterse.words hloose.words ps).mp ((hreads terse ps).mpr hterse)

end ChartGrammar
