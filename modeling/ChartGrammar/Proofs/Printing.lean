/-
  Proofs/Printing.lean --- written grammars are read back.

  The written form of a production has its words in order, each spelled in one way, with
  blanks between them.  So it is a layout of the production, whatever characters stand in its
  literals and its description, if only its names and labels are names.
-/
import ChartGrammar.Grammar.Printer
import ChartGrammar.Proofs.Lowering
import ChartGrammar.Proofs.ReaderCompleteness
import ChartGrammar.Signature

set_option autoImplicit false

namespace ChartGrammar

namespace Layout

/-! ## The written form of words -/

/-- How a word is written. -/
def Word.write : Word → List Char
  | name n => n.toList
  | suffixed n c => n.toList ++ [c]
  | predicate p => p.write
  | text s => writeLiteral s
  | mark c => [c]

theorem charLiteral_writeChar (c : Char) : CharLiteral c (Predicate.writeChar c) := by
  unfold Predicate.writeChar
  split
  · exact .mk (.escape (by decide))
  · exact .mk (.escape (by decide))
  · exact .mk (.escape (by decide))
  · exact .mk (.escape (by decide))
  · exact .mk (.escape (by decide))
  · next hback hquote => exact .mk (.plain hback hquote)

theorem literalChar_writeLiteralChar (c : Char) : LiteralChar '"' c (writeLiteralChar c) := by
  unfold writeLiteralChar
  split
  · exact .escape (by decide)
  · exact .escape (by decide)
  · exact .escape (by decide)
  · exact .escape (by decide)
  · exact .escape (by decide)
  · next hquote hback _ _ _ => exact .plain hback hquote

theorem literalBody_write (cs : List Char) : LiteralBody cs (cs.flatMap writeLiteralChar) := by
  induction cs with
  | nil => exact .nil
  | cons c cs ih => exact .cons (literalChar_writeLiteralChar c) ih

/-- Every test on a character can be written. -/
theorem spelled_predicate (p : Predicate) : (Word.predicate p).Spelled p.write := by
  cases p with
  | digit => exact .className (n := "digit") (by decide)
  | space => exact .className (n := "space") (by decide)
  | alpha => exact .className (n := "alpha") (by decide)
  | alnum => exact .className (n := "alnum") (by decide)
  | upper => exact .className (n := "upper") (by decide)
  | lower => exact .className (n := "lower") (by decide)
  | punct => exact .className (n := "punct") (by decide)
  | any => exact .className (n := "any") (by decide)
  | char c => exact .char (charLiteral_writeChar c)
  | range lo hi => exact .range (charLiteral_writeChar lo) (charLiteral_writeChar hi)

/-- A word that can be spelled is spelled as it is written. -/
theorem Word.Spelled.write {w : Word} {t : List Char} (h : w.Spelled t) : w.Spelled w.write := by
  cases h with
  | name h => exact .name h
  | suffixed h hc => exact .suffixed h hc
  | className _ => exact spelled_predicate _
  | char _ => exact spelled_predicate _
  | range _ _ => exact spelled_predicate _
  | text hne _ => exact .text hne (literalBody_write _)
  | mark h => exact .mark h

/-! ## Words in a row -/

section

variable {w : Word} {ws : List Word} {t cs : List Char}

theorem Spaced.blank (hw : w.Spelled t) (hws : Spaced w.endsName ws cs) (named : Bool) :
    Spaced named (w :: ws) (' ' :: (t ++ cs)) :=
  .cons (f := [' ']) (.blank (.inl rfl) .nil) (by simp) hw hws

theorem Spaced.mark {c : Char} (hw : (Word.mark c).Spelled [c]) (hws : Spaced false ws cs)
    (named : Bool) : Spaced named (.mark c :: ws) (c :: cs) :=
  .cons (f := []) .nil (fun _ hbegins => by cases hbegins) hw hws

/-- Names with blanks before them. -/
theorem spaced_writeFields (ns : List String) (hns : ∀ w ∈ ns.map Word.name, w.Spelled w.write)
    (hws : ∀ named, Spaced named ws cs) (named : Bool) :
    Spaced named (ns.map .name ++ ws) (writeFields ns ++ cs) := by
  induction ns generalizing named with
  | nil => exact hws named
  | cons n ns ih =>
    rw [List.map_cons, List.forall_mem_cons] at hns
    have h := Spaced.blank hns.1 (ih hns.2 true) named
    simpa [writeFields, Word.write] using h

end

end Layout

open Layout

/-! ## The written form of productions -/

section

variable {ws : List Word} {cs : List Char} (hws : ∀ named, Spaced named ws cs)
include hws

theorem Branch.spaced_write {b : Branch String} (h : ∀ w ∈ b.words, w.Spelled w.write)
    (named : Bool) : Spaced named (b.words ++ ws) (' ' :: (b.write ++ cs)) := by
  obtain ⟨hlabel, h⟩ := List.forall_mem_cons.mp h
  obtain ⟨hcolon, hfields⟩ := List.forall_mem_cons.mp h
  have hrest := Spaced.mark hcolon (spaced_writeFields b.fields hfields hws false) true
  have hall := Spaced.blank hlabel hrest named
  simpa [Branch.words, Branch.write, Word.write] using hall

/-- Branches with bars between them. -/
theorem Rhs.spaced_writeBranches (bs : List (Branch String)) :
    ∀ {b : Branch String}, (∀ w ∈ (choice (b :: bs)).words, w.Spelled w.write) →
      ∀ named, Spaced named ((choice (b :: bs)).words ++ ws)
        (' ' :: (writeBranches (b :: bs) ++ cs)) := by
  induction bs with
  | nil =>
    intro b h named
    have hb := Branch.spaced_write hws (b := b) (by simpa [words] using h) named
    simpa [words, writeBranches] using hb
  | cons b' bs ih =>
    intro b h named
    have hwords : (choice (b :: b' :: bs)).words =
        b.words ++ .mark '|' :: (choice (b' :: bs)).words := by simp [words]
    rw [hwords, List.forall_mem_append, List.forall_mem_cons] at h
    obtain ⟨hb, hbar, hothers⟩ := h
    have hall := Branch.spaced_write (Spaced.blank hbar (ih hothers false)) hb named
    simpa [hwords, writeBranches, Word.write] using hall

/-- A right-hand side after a blank. -/
theorem Rhs.spaced_write {r : Rhs String} (hr : r ≠ .choice [])
    (h : ∀ w ∈ r.words, w.Spelled w.write) (named : Bool) :
    Spaced named (r.words ++ ws) (' ' :: (r.write ++ cs)) := by
  cases r with
  | terminal p => exact Spaced.blank (h _ (by simp [words])) (hws _) named
  | series s => exact Spaced.blank (h _ (by simp [words])) (hws _) named
  | wrap n => exact Spaced.blank (h _ (by simp [words])) (hws _) named
  | opt n => exact Spaced.blank (h _ (by simp [words])) (hws _) named
  | star n => exact Spaced.blank (h _ (by simp [words])) (hws _) named
  | plus n => exact Spaced.blank (h _ (by simp [words])) (hws _) named
  | choice bs =>
    cases bs with
    | nil => exact absurd rfl hr
    | cons b bs => exact spaced_writeBranches hws bs h named
  | record ns =>
    obtain ⟨hopen, h⟩ := List.forall_mem_cons.mp h
    obtain ⟨hfields, hclose⟩ := List.forall_mem_append.mp h
    have hend := Spaced.blank (hclose _ List.mem_cons_self) (hws false)
    have hall := Spaced.blank hopen (spaced_writeFields ns hfields hend false) named
    simpa [words, write, Word.write] using hall

end

/-- A production whose words can be spelled. -/
structure Production.Writable (p : Production String) : Prop where
  choice : p.rhs ≠ .choice []
  spelled : ∀ w ∈ p.words, w.Spelled w.write

theorem spelled_of_spaced {named : Bool} {ws : List Word} {cs : List Char}
    (h : Spaced named ws cs) : ∀ w ∈ ws, w.Spelled w.write := by
  induction h with
  | nil => simp
  | cons _ _ hw _ ih => exact List.forall_mem_cons.mpr ⟨hw.write, ih⟩

/-- What a text says can be written. -/
theorem IsLayout.writable {ps : List (Production String)} {cs : List Char} (h : IsLayout ps cs)
    {p : Production String} (hp : p ∈ ps) : p.Writable := by
  obtain ⟨body, tail, -, hbody, -⟩ := h.words
  refine ⟨h.choices p hp, fun w hw => ?_⟩
  exact spelled_of_spaced hbody w (List.mem_flatMap.mpr ⟨p, hp, hw⟩)

theorem Production.Writable.spaced_write {p : Production String} (hp : p.Writable)
    {ws : List Word} {f cs : List Char} (hf : Filler f) (hws : Spaced false ws cs) :
    Spaced false (p.words ++ ws) (f ++ (p.write ++ cs)) := by
  obtain ⟨hname, h⟩ := List.forall_mem_cons.mp hp.spelled
  obtain ⟨hdescription, h⟩ := List.forall_mem_append.mp h
  obtain ⟨hequals, h⟩ := List.forall_mem_cons.mp h
  obtain ⟨hrhs, hend⟩ := List.forall_mem_append.mp h
  have hbody := Rhs.spaced_write (Spaced.blank (hend _ List.mem_cons_self) hws) hp.choice hrhs false
  have hafter := Spaced.blank hequals hbody
  cases hd : p.description with
  | none =>
    have hall : Spaced false _ _ := .cons hf nofun hname (hafter true)
    simpa [Production.words, Production.write, Word.write, hd] using hall
  | some d =>
    rw [hd] at hdescription
    have htext := Spaced.blank (hdescription (.text d) (by simp)) (hafter false) true
    have hall : Spaced false _ _ := .cons hf nofun hname htext
    simpa [Production.words, Production.write, Word.write, hd] using hall

/-- Productions that can be written are said by their written form. -/
theorem isLayout_write {ps : List (Production String)} (h : ∀ p ∈ ps, p.Writable) :
    IsLayout ps (ps.flatMap fun p => p.write ++ ['\n']) := by
  -- The end of a line is filler before the next production, and in the end after the last.
  have hlines : ∀ f, Filler f →
      ∃ body tail, f ++ ps.flatMap (fun p => p.write ++ ['\n']) = body ++ tail ∧
        Spaced false (ps.flatMap Production.words) body ∧ EndFiller tail := by
    induction ps with
    | nil => exact fun f hf => ⟨[], f, by simp, .nil, .filler hf⟩
    | cons p ps ih =>
      intro f hf
      obtain ⟨hp, hps⟩ := List.forall_mem_cons.mp h
      obtain ⟨body, tail, htext, hbody, htail⟩ :=
        ih hps ['\n'] (.blank (.inr (.inr (.inr rfl))) .nil)
      refine ⟨f ++ (p.write ++ body), tail, ?_, hp.spaced_write hf hbody, htail⟩
      rw [List.flatMap_cons, List.append_assoc p.write, htext]
      simp
  exact ⟨fun p hp => (h p hp).choice, hlines [] .nil⟩

/-! ## Grammars -/

/-- A grammar whose rules and branches have names that can be read. -/
structure Grammar.Named (g : Grammar) : Prop where
  rules : ∀ r ∈ g.rules.toList, IsName r.name.toList
  labels : ∀ r ∈ g.rules.toList, ∀ b ∈ r.branches, IsName b.label.toList

theorem Rhs.mem_words_choice {bs : List (Branch String)} {w : Word}
    (h : w ∈ (choice bs).words) : w = .mark '|' ∨ ∃ b ∈ bs, w ∈ b.words := by
  cases bs with
  | nil => cases h
  | cons b bs =>
    rcases List.mem_append.mp h with h | h
    · exact .inr ⟨b, List.mem_cons_self, h⟩
    · obtain ⟨b', hb', h⟩ := List.mem_flatMap.mp h
      rcases List.mem_cons.mp h with rfl | h
      · exact .inl rfl
      · exact .inr ⟨b', List.mem_cons_of_mem _ hb', h⟩

theorem spelled_names {ns : List String} (h : ∀ n ∈ ns, IsName n.toList) :
    ∀ w ∈ ns.map Word.name, w.Spelled w.write :=
  List.forall_mem_map.mpr fun n hn => .name (h n hn)

theorem Branch.spelled_words {b : Branch String} (hlabel : IsName b.label.toList)
    (hfields : ∀ n ∈ b.fields, IsName n.toList) : ∀ w ∈ b.words, w.Spelled w.write :=
  List.forall_mem_cons.mpr ⟨.name hlabel,
    List.forall_mem_cons.mpr ⟨.mark (by decide), spelled_names hfields⟩⟩

namespace Grammar

variable {g : Grammar} (hnamed : g.Named) (hg : g.WellFormed)
include hnamed

theorem Named.isName_nameOf {c : RuleId} (hc : c.index < g.size) : IsName (g.nameOf c).toList := by
  obtain ⟨r, hr⟩ := contains_iff.mp (decide_eq_true hc : g.contains c = true)
  rw [nameOf, hr]
  exact hnamed.rules r (mem_of_get? hr)

include hg

theorem Named.spelled_rhs {r : Rule} (hr : r ∈ g.rules.toList) :
    ∀ w ∈ (r.rhs.map g.nameOf).words, w.Spelled w.write := by
  have hwf := hg.rules r hr
  have hname : ∀ c ∈ r.rhs.children, IsName (g.nameOf c).toList :=
    fun c hc => hnamed.isName_nameOf (hwf.children_lt c hc)
  cases hrhs : r.rhs with
  | terminal p => exact List.forall_mem_singleton.mpr (spelled_predicate p)
  | series s =>
    exact List.forall_mem_singleton.mpr (.text (hwf.literal_ne hrhs) (literalBody_write _))
  | wrap c =>
    exact List.forall_mem_singleton.mpr (.name (hname c (by simp [hrhs, Rhs.children])))
  | opt c | star c | plus c =>
    exact List.forall_mem_singleton.mpr
      (.suffixed (hname c (by simp [hrhs, Rhs.children])) (by decide))
  | record fields =>
    refine List.forall_mem_cons.mpr ⟨.mark (by decide), List.forall_mem_append.mpr ⟨?_, ?_⟩⟩
    · refine spelled_names (List.forall_mem_map.mpr fun c hc => hname c ?_)
      simpa [hrhs, Rhs.children] using hc
    · exact List.forall_mem_singleton.mpr (.mark (by decide))
  | choice branches =>
    intro w hw
    rcases Rhs.mem_words_choice hw with rfl | ⟨_, hb, hw⟩
    · exact .mark (by decide)
    · obtain ⟨b, hmem, rfl⟩ := List.mem_map.mp hb
      refine Branch.spelled_words ?_ ?_ w hw
      · exact hnamed.labels r hr b (by simpa [Production.branches, hrhs] using hmem)
      · refine List.forall_mem_map.mpr fun c hc => hname c ?_
        simpa [hrhs, Rhs.children] using ⟨b, hmem, hc⟩

/-- The rules of a well-formed grammar can be written if its names can. -/
theorem Named.writable {p : Production String} (hp : p ∈ g.productions) : p.Writable := by
  obtain ⟨r, hr, rfl⟩ := List.mem_map.mp hp
  have hwf := hg.rules r hr
  constructor
  · intro hnil
    cases hrhs : r.rhs with
    | choice branches =>
      rw [hrhs, Rhs.map, Rhs.choice.injEq, List.map_eq_nil_iff] at hnil
      exact hwf.branches_ne_nil hrhs hnil
    | _ =>
      rw [hrhs] at hnil
      cases hnil
  · refine List.forall_mem_cons.mpr ⟨.name (hnamed.rules r hr), List.forall_mem_append.mpr ⟨?_,
      List.forall_mem_cons.mpr ⟨.mark (by decide), List.forall_mem_append.mpr ⟨?_, ?_⟩⟩⟩⟩
    · intro w hw
      obtain ⟨d, hd, rfl⟩ := Option.map_eq_some_iff.mp (Option.mem_toList.mp hw)
      exact .text (fun hempty => hwf.description_ne (hempty ▸ hd)) (literalBody_write _)
    · exact hnamed.spelled_rhs hg hr
    · exact List.forall_mem_singleton.mpr (.mark (by decide))

end Grammar

theorem Grammar.parse_render_of_writable {g : Grammar} (hg : g.WellFormed)
    (h : ∀ p ∈ g.productions, p.Writable) : Grammar.parse g.render = .ok g := by
  refine bind_eq_ok_iff.mpr ⟨g.productions, ?_, ofProductions_productions hg⟩
  rw [Production.parseAll_eq_ok, render, String.toList_ofList]
  exact isLayout_write h

/-- Writing a grammar down loses nothing: a grammar that was built with names that can be
read, and every grammar that was read, is what its written form is read as. -/
theorem Grammar.parse_render :
    (∀ g : Grammar, g.Built → g.Named → Grammar.parse g.render = .ok g) ∧
    (∀ text g, Grammar.parse text = .ok g → Grammar.parse g.render = .ok g) := by
  constructor
  · intro g hg hnamed
    exact parse_render_of_writable hg.wellFormed fun p hp => hnamed.writable hg.wellFormed hp
  · intro text g h
    obtain ⟨ps, hps, hg⟩ := bind_eq_ok_iff.mp h
    obtain ⟨hwf, rfl⟩ := ofProductions_eq_ok_iff.mp hg
    exact parse_render_of_writable hwf fun p hp => (Production.parseAll_eq_ok.mp hps).writable hp

/-- A grammar with quotes, line ends and characters far from ASCII in a description, a literal
and a test, and with a branch without fields; and one that was read from a text. -/
theorem Grammar.parse_render_quotes :
    let mark : Rhs RuleId := .terminal (.range '\'' '😀')
    let dash : Rhs RuleId := .series "—\r\n\t\"'\\"
    let speech : Rhs RuleId := .choice [⟨"Said", [⟨0⟩, ⟨1⟩]⟩, ⟨"none", []⟩]
    let g : Grammar := ⟨#[⟨"mark", none, mark⟩, ⟨"dash", some "a \"dash\" \\", dash⟩,
      ⟨"_1", none, speech⟩]⟩
    let text := "list=item*;item='\\n';# read"
    let read : Grammar := ⟨#[⟨"list", none, .star ⟨1⟩⟩, ⟨"item", none, .terminal (.char '\n')⟩]⟩
    (g.Built ∧ g.Named ∧ Grammar.parse g.render = .ok g) ∧
      (Grammar.parse text = .ok read ∧ Grammar.parse read.render = .ok read) := by
  intro mark dash speech g text read
  let b := (Builder.empty.add "mark" none mark).2
  let b' := (b.add "dash" (some "a \"dash\" \\") dash).2
  have hbuilt : g.Built :=
    ⟨(b'.add "_1" none speech).2, .add (.add (.add .empty)), by decide +kernel⟩
  have hnamed : g.Named := ⟨by decide +kernel, by decide +kernel⟩
  have hread : Grammar.parse text = .ok read := by decide +kernel
  obtain ⟨hrender, hagain⟩ := Grammar.parse_render
  exact ⟨⟨hbuilt, hnamed, hrender g hbuilt hnamed⟩, hread, hagain text read hread⟩

end ChartGrammar
