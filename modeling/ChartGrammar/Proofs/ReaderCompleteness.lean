/-
  Proofs/ReaderCompleteness.lean --- the reader accepts every layout and nothing else.

  Given a row of words, the reader takes them one after another.  It tries several kinds of
  right-hand side in turn, takes as many fields as there are, and puts back what it read in
  vain.  None of this is left to chance: the first character of a word tells its kind, and
  the word after a name tells a label from a reference.
-/
import ChartGrammar.Proofs.ReaderSoundness

set_option autoImplicit false

namespace ChartGrammar.Reader

open Layout

variable {tail cs : List Char} {named : Bool} {w : Word} {ws : List Word}

/-! ## Words to come -/

/-- These words are to come, and then `tail`. -/
def Ahead (tail : List Char) (named : Bool) (ws : List Word) (cs : List Char) : Prop :=
  ∃ s, cs = s ++ tail ∧ Spaced named ws s

/-- After its filler a text goes on with its first word. -/
theorem Ahead.next (h : Ahead tail named (w :: ws) cs) :
    ∃ t rest, w.Spelled t ∧ skipFiller cs = t ++ rest ∧ Ahead tail w.endsName ws rest := by
  obtain ⟨_, rfl, hs⟩ := h
  cases hs with
  | @cons _ _ _ f t s hf _ hw hws =>
    obtain ⟨c, r, rfl, hc⟩ := begins_of_spelled hw
    refine ⟨c :: r, s ++ tail, hw, ?_, ⟨s, rfl, hws⟩⟩
    rw [List.append_assoc, List.append_assoc, skipFiller_append hf]
    exact skipFiller_solid hc.solid.1 _

/-- A text that does not go on the word before it, be it a name or not. -/
structure Follows (named : Bool) (cs : List Char) : Prop where
  inner : ∀ c ∈ cs.head?, ¬ Inner c
  apart : named = true → Apart cs

theorem follows_of_filler {c : Char} (hc : Blank c ∨ c = '#') (named : Bool) (cs : List Char) :
    Follows named (c :: cs) := by
  constructor
  · rintro _ ⟨⟩
    rcases hc with (rfl | rfl | rfl | rfl) | rfl <;> simp [Inner]
  · rintro _ _ ⟨⟩
    rcases hc with (rfl | rfl | rfl | rfl) | rfl <;> decide

theorem follows_of_endFiller (h : EndFiller tail) (named : Bool) : Follows named tail := by
  cases h with
  | filler hf =>
    cases hf with
    | nil => exact ⟨nofun, fun _ => nofun⟩
    | blank hc _ => exact follows_of_filler (.inl hc) named _
    | comment _ _ _ => exact follows_of_filler (.inr rfl) named _
  | @comment f _ hf _ =>
    cases hf with
    | nil => exact follows_of_filler (.inr rfl) named _
    | blank hc _ => exact follows_of_filler (.inl hc) named _
    | comment _ _ _ => exact follows_of_filler (.inr rfl) named _

/-- Words that are to come do not go on the word before. -/
theorem Ahead.follows (h : Ahead tail named ws cs) (hend : ws ≠ [] ∨ EndFiller tail) :
    Follows named cs := by
  obtain ⟨_, rfl, hs⟩ := h
  cases hs with
  | nil => exact follows_of_endFiller (hend.resolve_left (fun hne => hne rfl)) named
  | @cons _ _ _ f t s hf hgap hw _ =>
    cases hf with
    | nil =>
      obtain ⟨c, r, rfl, hc⟩ := begins_of_spelled hw
      constructor
      · rintro _ ⟨⟩
        exact hc.solid.2
      · rintro hnamed _ ⟨⟩
        refine hc.apart ?_
        rw [← Bool.not_eq_true]
        exact fun hbegins => hgap hnamed hbegins rfl
    | blank hc _ => exact follows_of_filler (.inl hc) named _
    | comment _ _ _ => exact follows_of_filler (.inr rfl) named _

/-- The first character after filler tells the kind of the word to come. -/
theorem Ahead.begins (h : Ahead tail named (w :: ws) cs) :
    ∃ c r, skipFiller cs = c :: r ∧ Begins w c := by
  obtain ⟨t, rest, hw, hskip, -⟩ := h.next
  obtain ⟨c, r, rfl, hc⟩ := begins_of_spelled hw
  exact ⟨c, r ++ rest, hskip, hc⟩

/-! ## Steps that take one word -/

theorem mark_of_ahead {c : Char} (h : Ahead tail named (.mark c :: ws) cs) :
    ∃ rest, mark c (skipFiller cs) = .ok ((), rest) ∧ Ahead tail false ws rest := by
  obtain ⟨t, rest, hw, hskip, hrest⟩ := h.next
  cases hw
  exact ⟨rest, mark_eq_ok.mpr hskip, hrest⟩

theorem name_of_ahead {n : String} (h : Ahead tail named (.name n :: ws) cs) (hne : ws ≠ []) :
    ∃ rest, name (skipFiller cs) = .ok (n, rest) ∧ Ahead tail true ws rest := by
  obtain ⟨t, rest, hw, hskip, hrest⟩ := h.next
  generalize hname : Word.name n = v at hw
  cases hw with
  | name hn =>
    cases hname
    exact ⟨rest, name_eq_ok.mpr ⟨hn, hskip, (hrest.follows (.inl hne)).apart rfl⟩, hrest⟩
  | _ => cases hname

theorem textLiteral_of_ahead {s : String} (h : Ahead tail named (.text s :: ws) cs) :
    ∃ rest, textLiteral (skipFiller cs) = .ok (s, rest) ∧ Ahead tail false ws rest := by
  obtain ⟨t, rest, hw, hskip, hrest⟩ := h.next
  exact ⟨rest, textLiteral_eq_ok.mpr ⟨t, hw, hskip⟩, hrest⟩

theorem refuses_mark_of_ahead {c d : Char} (h : Ahead tail named (.mark c :: ws) cs)
    (hne : c ≠ d) : Refuses (mark d) (skipFiller cs) := by
  obtain ⟨_, r, hskip, rfl, -⟩ := h.begins
  rw [hskip]
  exact refuses_mark hne r

/-! ## Fields -/

/-- Words that begin with a mark.  No list of names goes on there. -/
def MarkFirst (ws : List Word) : Prop := ∃ c ws', ws = .mark c :: ws'

theorem MarkFirst.refuses_name (hws : MarkFirst ws) (h : Ahead tail named ws cs) :
    Refuses name (skipFiller cs) := by
  obtain ⟨c, ws, rfl⟩ := hws
  obtain ⟨d, r, hskip, hd⟩ := h.begins
  rw [hskip]
  exact Reader.refuses_name (fun hstart => hd.apart rfl (.inl hstart)) r

theorem MarkFirst.ne_nil (hws : MarkFirst ws) (us : List Word) : us ++ ws ≠ [] := by
  obtain ⟨c, ws, rfl⟩ := hws
  simp

/-- The fields of a record are taken with the filler after them. -/
theorem record_fields_of_ahead (hws : MarkFirst ws) (ns : List String) :
    ∀ {named cs}, Ahead tail named (ns.map .name ++ ws) cs →
      ∃ named' mid, many (do let field ← name; filler; return field) (skipFiller cs) =
        .ok (ns, skipFiller mid) ∧ Ahead tail named' ws mid := by
  induction ns with
  | nil =>
    intro named cs h
    exact ⟨named, cs, many_of_refuses (hws.refuses_name h).bind, h⟩
  | cons n ns ih =>
    intro named cs h
    obtain ⟨rest, hname, hrest⟩ := name_of_ahead h (hws.ne_nil _)
    obtain ⟨named', mid, hmany, hmid⟩ := ih hrest
    refine ⟨named', mid, sound_record_field.many_of_ok ?_ nofun hmany, hmid⟩
    exact bind_eq_ok.mpr ⟨n, rest, hname, rfl⟩

/-- The fields of a branch are taken with the filler before them. -/
theorem branch_fields_of_ahead (hws : MarkFirst ws) (ns : List String) :
    ∀ {named cs}, Ahead tail named (ns.map .name ++ ws) cs →
      ∃ named' rest, many (do filler; name) cs = .ok (ns, rest) ∧ Ahead tail named' ws rest := by
  induction ns with
  | nil =>
    intro named cs h
    refine ⟨named, cs, many_of_refuses ?_, h⟩
    exact .bind_right (p := filler) rfl (hws.refuses_name h)
  | cons n ns ih =>
    intro named cs h
    obtain ⟨mid, hname, hmid⟩ := name_of_ahead h (hws.ne_nil _)
    obtain ⟨named', rest, hmany, hrest⟩ := ih hmid
    refine ⟨named', rest, sound_branch_field.many_of_ok ?_ nofun hmany, hrest⟩
    exact bind_eq_ok.mpr ⟨(), _, rfl, hname⟩

/-! ## Right-hand sides -/

theorem record_of_ahead {ns : List String}
    (h : Ahead tail named ((Rhs.record ns).words ++ ws) cs) :
    ∃ rest, record (skipFiller cs) = .ok (.record ns, rest) ∧ Ahead tail false ws rest := by
  rw [Rhs.words, List.cons_append, List.append_assoc] at h
  obtain ⟨mid, hopen, hmid⟩ := mark_of_ahead h
  obtain ⟨named', mid', hfields, hmid'⟩ := record_fields_of_ahead ⟨_, _, rfl⟩ ns hmid
  obtain ⟨rest, hclose, hrest⟩ := mark_of_ahead hmid'
  exact ⟨rest, bind_eq_ok.mpr ⟨(), mid, hopen, bind_eq_ok.mpr ⟨(), _, rfl,
    bind_eq_ok.mpr ⟨ns, _, hfields, bind_eq_ok.mpr ⟨(), rest, hclose, rfl⟩⟩⟩⟩, hrest⟩

theorem branch_of_ahead (hws : MarkFirst ws) {b : Branch String}
    (h : Ahead tail named (b.words ++ ws) cs) :
    ∃ named' rest, branch (skipFiller cs) = .ok (b, rest) ∧ Ahead tail named' ws rest := by
  obtain ⟨mid, hlabel, hmid⟩ := name_of_ahead h (by simp)
  obtain ⟨mid', hcolon, hmid'⟩ := mark_of_ahead hmid
  obtain ⟨named', rest, hfields, hrest⟩ := branch_fields_of_ahead hws b.fields hmid'
  exact ⟨named', rest, bind_eq_ok.mpr ⟨b.label, mid, hlabel, bind_eq_ok.mpr ⟨(), _, rfl,
    bind_eq_ok.mpr ⟨(), mid', hcolon, bind_eq_ok.mpr ⟨b.fields, rest, hfields, rfl⟩⟩⟩⟩, hrest⟩

theorem markFirst_other_branches (hws : MarkFirst ws) (bs : List (Branch String)) :
    MarkFirst (bs.flatMap (fun b => .mark '|' :: b.words) ++ ws) := by
  cases bs with
  | nil => exact hws
  | cons b bs => exact ⟨_, _, rfl⟩

/-- The branches after the first one, up to a mark that is not a bar. -/
theorem other_branches_of_ahead {c : Char} (hc : c ≠ '|') (bs : List (Branch String)) :
    ∀ {named cs}, Ahead tail named
        (bs.flatMap (fun b => .mark '|' :: b.words) ++ .mark c :: ws) cs →
      ∃ named' rest, many (do let _ ← (do filler; mark '|'; filler : Step Unit); branch) cs =
        .ok (bs, rest) ∧ Ahead tail named' (.mark c :: ws) rest := by
  induction bs with
  | nil =>
    intro named cs h
    refine ⟨named, cs, many_of_refuses (.bind ?_), h⟩
    exact .bind_right (p := filler) rfl (refuses_mark_of_ahead h hc).bind
  | cons b bs ih =>
    intro named cs h
    rw [List.flatMap_cons, List.cons_append, List.cons_append, List.append_assoc] at h
    obtain ⟨mid, hmark, hmid⟩ := mark_of_ahead h
    obtain ⟨_, mid', hbranch, hmid'⟩ :=
      branch_of_ahead (markFirst_other_branches ⟨_, _, rfl⟩ bs) hmid
    obtain ⟨named', rest, hmany, hrest⟩ := ih hmid'
    have hbar : (do filler; mark '|'; filler : Step Unit) cs = .ok ((), skipFiller mid) :=
      bind_eq_ok.mpr ⟨(), _, rfl, bind_eq_ok.mpr ⟨(), mid, hmark, rfl⟩⟩
    refine ⟨named', rest, sound_other_branch.many_of_ok ?_ nofun hmany, hrest⟩
    exact bind_eq_ok.mpr ⟨(), _, hbar, hbranch⟩

theorem choice_of_ahead {c : Char} (hc : c ≠ '|') {b : Branch String}
    {bs : List (Branch String)}
    (h : Ahead tail named ((Rhs.choice (b :: bs)).words ++ .mark c :: ws) cs) :
    ∃ named' rest, choice (skipFiller cs) = .ok (.choice (b :: bs), rest) ∧
      Ahead tail named' (.mark c :: ws) rest := by
  rw [Rhs.words, List.append_assoc] at h
  obtain ⟨_, mid, hfirst, hmid⟩ :=
    branch_of_ahead (markFirst_other_branches ⟨_, _, rfl⟩ bs) h
  obtain ⟨named', rest, hothers, hrest⟩ := other_branches_of_ahead hc bs hmid
  refine ⟨named', rest, bind_eq_ok.mpr ⟨b :: bs, rest, ?_, rfl⟩, hrest⟩
  exact bind_eq_ok.mpr ⟨b, mid, hfirst, bind_eq_ok.mpr ⟨bs, rest, hothers, rfl⟩⟩

theorem endsName_of_mem_classes {n : String} {p : Predicate} (h : (n, p) ∈ classes) :
    (Word.predicate p).endsName = true := by
  simp only [classes, List.mem_cons, Prod.mk.injEq, List.not_mem_nil, or_false] at h
  rcases h with ⟨-, rfl⟩ | ⟨-, rfl⟩ | ⟨-, rfl⟩ | ⟨-, rfl⟩ | ⟨-, rfl⟩ | ⟨-, rfl⟩ | ⟨-, rfl⟩ |
    ⟨-, rfl⟩ <;> rfl

/-- A test on a character is read, if what follows does not go on a class or make a range. -/
theorem predicate_eq_ok {p : Predicate} {t rest : List Char} (hw : (Word.predicate p).Spelled t)
    (hrest : Follows (Word.predicate p).endsName rest) :
    orElse className charPredicate (t ++ rest) = .ok (p, rest) := by
  cases hw with
  | className hn =>
    have hapart := hrest.apart (endsName_of_mem_classes hn)
    exact orElse_of_ok (className_eq_ok.mpr ⟨_, hn, rfl, hapart⟩)
  | char hc =>
    have hread := charPredicate_char hc fun hdot => hrest.inner '.' hdot (by simp [Inner])
    cases hc
    exact (orElse_of_refuses (refuses_className (by decide) _)).trans hread
  | range hlo hhi =>
    have hread := charPredicate_range hlo hhi rest
    cases hlo
    exact (orElse_of_refuses (refuses_className (by decide) _)).trans hread

theorem terminal_of_ahead {p : Predicate} (h : Ahead tail named (.predicate p :: w :: ws) cs) :
    ∃ named' rest, terminal (skipFiller cs) = .ok (.terminal p, rest) ∧
      Ahead tail named' (w :: ws) rest := by
  obtain ⟨t, rest, hw, hskip, hrest⟩ := h.next
  refine ⟨_, rest, bind_eq_ok.mpr ⟨p, rest, ?_, rfl⟩, hrest⟩
  rw [hskip]
  exact predicate_eq_ok hw (hrest.follows (.inl nofun))

theorem refuses_terminal {c : Char} (hclass : c ≠ '@') (hquote : c ≠ '\'') (cs : List Char) :
    Refuses terminal (c :: cs) :=
  ((refuses_className hclass cs).orElse (refuses_charPredicate hquote cs)).bind

theorem refuses_series {c : Char} (hc : c ≠ '"') (cs : List Char) : Refuses series (c :: cs) :=
  (refuses_textLiteral hc cs).bind

theorem refuses_record {c : Char} (hc : c ≠ '(') (cs : List Char) : Refuses record (c :: cs) :=
  (refuses_mark hc cs).bind

/-- A right-hand side that begins with a name is a choice or a repetition. -/
theorem rhs_of_beginsName (hw : w.beginsName = true) (h : Ahead tail named (w :: ws) cs) :
    rhs cs = orElse choice repetition (skipFiller cs) := by
  obtain ⟨c, r, hskip, hc⟩ := h.begins
  have hne : ∀ d, ¬ NamePart d → c ≠ d := by
    rintro d hd rfl
    exact hd (hc.namePart hw)
  change orElse terminal _ (skipFiller cs) = _
  rw [hskip, orElse_of_refuses (refuses_terminal _ _ r), orElse_of_refuses (refuses_series _ r),
    orElse_of_refuses (refuses_record _ r)]
  all_goals exact hne _ (by decide)

/-- It is a choice only if it begins with a branch. -/
theorem rhs_of_refuses_branch (hw : w.beginsName = true) (h : Ahead tail named (w :: ws) cs)
    (hbranch : Refuses branch (skipFiller cs)) : rhs cs = repetition (skipFiller cs) := by
  have hchoice : Refuses choice (skipFiller cs) := hbranch.bind.bind
  rw [rhs_of_beginsName hw h, orElse_of_refuses hchoice]

theorem wrap_of_ahead {n : String} {c : Char} (hc : c ≠ ':')
    (h : Ahead tail named (.name n :: .mark c :: ws) cs) :
    ∃ rest, rhs cs = .ok (.wrap n, rest) ∧ Ahead tail true (.mark c :: ws) rest := by
  obtain ⟨rest, hname, hrest⟩ := name_of_ahead h (by simp)
  have hbranch : Refuses branch (skipFiller cs) := .bind_right hname
    (.bind_right (p := filler) rfl (refuses_mark_of_ahead hrest hc).bind)
  have hsuffix : suffix? rest = none := by
    cases hsome : suffix? rest with
    | none => rfl
    | some made =>
      obtain ⟨d, hd, rfl, -⟩ := suffix?_eq_some hsome
      exact absurd (List.mem_cons_of_mem _ hd) ((hrest.follows (.inl nofun)).inner d rfl)
  refine ⟨rest, ?_, hrest⟩
  rw [rhs_of_refuses_branch rfl h hbranch]
  exact bind_eq_ok.mpr ⟨n, rest, hname,
    bind_eq_ok.mpr ⟨none, rest, maybe_of_refuses (refuses_ofOption hsuffix), rfl⟩⟩

/-- A name ends where its suffix stands. -/
theorem name_suffix {n : String} {c : Char} (hn : IsName n.toList) (hc : c ∈ ['?', '*', '+'])
    (rest : List Char) : name (n.toList ++ [c] ++ rest) = .ok (n, c :: rest) := by
  refine name_eq_ok.mpr ⟨hn, by rw [List.append_assoc, List.singleton_append], ?_⟩
  have hsuffixes : ∀ c ∈ ['?', '*', '+'], ¬ NamePart c := by simp [NamePart, NameStart]
  rintro _ ⟨⟩
  exact hsuffixes c hc

theorem suffixed_of_ahead {n : String} {c : Char} {make : String → Rhs String}
    (hmake : ∀ rest, suffix? (c :: rest) = some (make, rest))
    (h : Ahead tail named (.suffixed n c :: ws) cs) :
    ∃ rest, rhs cs = .ok (make n, rest) ∧ Ahead tail false ws rest := by
  obtain ⟨t, rest, hw, hskip, hrest⟩ := h.next
  cases hw with
  | suffixed hn hc =>
    have hname : name (skipFiller cs) = .ok (n, c :: rest) := by
      rw [hskip]
      exact name_suffix hn hc rest
    have hbranch : Refuses branch (skipFiller cs) := by
      simp only [List.mem_cons, List.not_mem_nil, or_false] at hc
      refine .bind_right hname (.bind_right (p := filler) rfl (.bind ?_))
      rw [skipFiller_solid]
      · refine refuses_mark ?_ rest
        rcases hc with rfl | rfl | rfl <;> decide
      · rcases hc with rfl | rfl | rfl <;> simp [Solid, Blank]
    refine ⟨rest, ?_, hrest⟩
    rw [rhs_of_refuses_branch rfl h hbranch]
    exact bind_eq_ok.mpr ⟨n, _, hname, bind_eq_ok.mpr ⟨some make, rest,
      maybe_of_ok (ofOption_eq_ok.mpr (hmake rest)), rfl⟩⟩

/-- A right-hand side before a semicolon is read as what it says. -/
theorem rhs_of_ahead {r : Rhs String} (hr : r ≠ .choice [])
    (h : Ahead tail named (r.words ++ .mark ';' :: ws) cs) :
    ∃ named' rest, rhs cs = .ok (r, rest) ∧ Ahead tail named' (.mark ';' :: ws) rest := by
  cases r with
  | terminal p =>
    obtain ⟨named', rest, hread, hrest⟩ := terminal_of_ahead h
    exact ⟨named', rest, orElse_of_ok hread, hrest⟩
  | series s =>
    obtain ⟨rest, hread, hrest⟩ := textLiteral_of_ahead h
    obtain ⟨_, r, hskip, rfl⟩ := h.begins
    have hseries : series (skipFiller cs) = .ok (.series s, rest) :=
      bind_eq_ok.mpr ⟨s, rest, hread, rfl⟩
    refine ⟨false, rest, ?_, hrest⟩
    change orElse terminal _ (skipFiller cs) = _
    rw [orElse_of_refuses (hskip ▸ refuses_terminal (by decide) (by decide) r)]
    exact orElse_of_ok hseries
  | record ns =>
    obtain ⟨rest, hread, hrest⟩ := record_of_ahead h
    obtain ⟨_, r, hskip, rfl, -⟩ := h.begins
    refine ⟨false, rest, ?_, hrest⟩
    change orElse terminal _ (skipFiller cs) = _
    rw [orElse_of_refuses (hskip ▸ refuses_terminal (by decide) (by decide) r),
      orElse_of_refuses (hskip ▸ refuses_series (by decide) r)]
    exact orElse_of_ok hread
  | choice bs =>
    cases bs with
    | nil => exact absurd rfl hr
    | cons b bs =>
      obtain ⟨named', rest, hread, hrest⟩ := choice_of_ahead (by decide) h
      exact ⟨named', rest, (rhs_of_beginsName rfl h).trans (orElse_of_ok hread), hrest⟩
  | wrap n => exact ⟨true, wrap_of_ahead (by decide) h⟩
  | opt n => exact ⟨false, suffixed_of_ahead (fun _ => rfl) h⟩
  | star n => exact ⟨false, suffixed_of_ahead (fun _ => rfl) h⟩
  | plus n => exact ⟨false, suffixed_of_ahead (fun _ => rfl) h⟩

/-! ## Productions -/

theorem description_of_ahead (description : Option String)
    (h : Ahead tail named ((description.map Word.text).toList ++ .mark '=' :: ws) cs) :
    ∃ named' rest, maybe (do filler; textLiteral) cs = .ok (description, rest) ∧
      Ahead tail named' (.mark '=' :: ws) rest := by
  cases description with
  | none =>
    obtain ⟨_, r, hskip, rfl, -⟩ := Ahead.begins h
    refine ⟨named, cs, maybe_of_refuses (.bind_right (p := filler) rfl ?_), h⟩
    exact hskip ▸ refuses_textLiteral (by decide) r
  | some s =>
    obtain ⟨rest, hread, hrest⟩ := textLiteral_of_ahead h
    exact ⟨false, rest, maybe_of_ok (bind_eq_ok.mpr ⟨(), _, rfl, hread⟩), hrest⟩

/-- A production is read as what it says. -/
theorem production_of_ahead {p : Production String} (hp : p.rhs ≠ .choice [])
    (h : Ahead tail named (p.words ++ ws) cs) :
    ∃ rest, production cs = .ok (p, rest) ∧ Ahead tail false ws rest := by
  simp only [Production.words, List.cons_append, List.append_assoc, List.nil_append] at h
  obtain ⟨cs₁, hname, h₁⟩ := name_of_ahead h (by simp)
  obtain ⟨named₂, cs₂, hdescription, h₂⟩ := description_of_ahead p.description h₁
  obtain ⟨cs₃, hequals, h₃⟩ := mark_of_ahead h₂
  obtain ⟨named₄, cs₄, hrhs, h₄⟩ := rhs_of_ahead hp h₃
  obtain ⟨rest, hend, hrest⟩ := mark_of_ahead h₄
  refine ⟨rest, ?_, hrest⟩
  simp only [production, bind_eq_ok]
  exact ⟨(), _, rfl, p.name, cs₁, hname, p.description, cs₂, hdescription, (), _, rfl, (), cs₃,
    hequals, p.rhs, cs₄, hrhs, (), _, rfl, (), rest, hend, rfl⟩

theorem many_production_of_ahead (htail : EndFiller tail) (ps : List (Production String)) :
    ∀ {named cs}, (∀ p ∈ ps, p.rhs ≠ .choice []) →
      Ahead tail named (ps.flatMap Production.words) cs → many production cs = .ok (ps, tail) := by
  induction ps with
  | nil =>
    rintro named cs - ⟨s, rfl, ⟨⟩⟩
    refine many_of_refuses (.bind_right (p := filler) rfl (.bind ?_))
    exact (skipFiller_end htail).symm ▸ refuses_name_nil
  | cons p ps ih =>
    intro named cs hps h
    obtain ⟨hp, hps⟩ := List.forall_mem_cons.mp hps
    rw [List.flatMap_cons] at h
    obtain ⟨mid, hread, hmid⟩ := production_of_ahead hp h
    exact sound_production.many_of_ok hread nofun (ih hps hmid)

/-- What a text says is read from it. -/
theorem productions_of_isLayout {ps : List (Production String)} (h : IsLayout ps cs) :
    productions cs = .ok (ps, []) := by
  obtain ⟨body, tail, rfl, hbody, htail⟩ := h.words
  exact productions_eq_ok.mpr ⟨rfl, tail,
    many_production_of_ahead htail ps h.choices ⟨body, rfl, hbody⟩, skipFiller_end htail⟩

end ChartGrammar.Reader

namespace ChartGrammar

/-- Reading gives the productions that a text says. -/
theorem Production.parseAll_eq_ok {s : String} {ps : List (Production String)} :
    Production.parseAll s = .ok ps ↔ IsLayout ps s.toList := by
  unfold Production.parseAll Reader.read
  constructor
  · intro h
    split at h
    · next hread =>
      cases h
      exact Reader.isLayout_of_productions hread
    · cases h
  · intro h
    rw [Reader.productions_of_isLayout h]

end ChartGrammar
