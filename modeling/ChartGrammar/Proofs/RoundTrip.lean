/-
  Proofs/RoundTrip.lean --- a text that parses is given back.

  A language is a grammar with a parser and a terminalizer for one of its rules.
  What the parser accepts is a value of the rule with exactly the tokens of the text,
  and such a value gives back its tokens; so the round trip gives back the text.
-/
import Mathlib
import ChartGrammar.Language
import ChartGrammar.Proofs.ChartSoundness
import ChartGrammar.Proofs.Terminalizing

set_option autoImplicit false

namespace ChartGrammar

/-! ## Outcomes of a language -/

namespace Failure

variable {ε α : Type}

theorem causedBy_eq_ok_iff {cause : ε → Cause} {x : Except ε α} {a : α} :
    causedBy cause x = .ok a ↔ x = .ok a := by
  cases x with
  | error e => simp [causedBy]
  | ok b => simp [causedBy]

theorem within_eq_ok_iff {context : String} {x : Except Failure α} {a : α} :
    within context x = .ok a ↔ x = .ok a := by
  cases x with
  | error e => simp [within]
  | ok b => simp [within]

end Failure

namespace Language

variable {text root s : String} {l : Language} {v : Value}

/-- What a language is made of: a grammar that can be built, one of its rules, and the
parser and the terminalizer of that rule. -/
structure Compiled (l : Language) (root : String) : Prop where
  built : l.grammar.Built
  find : l.grammar.find? root = some l.rootId
  parser : Parser.compile l.sig l.grammar l.rootId = .ok l.parser
  terminalizer : Terminalizer.compile l.sig l.grammar l.rootId = .ok l.terminalizer
  analysis : l.analysis = NonEmptiness.analyze l.grammar

/-- Every language that is read from a text is compiled from a grammar. -/
theorem compiled_of_ofText (h : ofText text root = .ok l) : l.Compiled root := by
  unfold ofText ofGrammar at h
  obtain ⟨g, hparse, h⟩ := bind_eq_ok_iff.mp h
  obtain ⟨id, hfind, h⟩ := bind_eq_ok_iff.mp h
  obtain ⟨parser, hparser, h⟩ := bind_eq_ok_iff.mp h
  obtain ⟨terminalizer, hterminalizer, hpure⟩ := bind_eq_ok_iff.mp h
  cases hpure
  rw [Failure.within_eq_ok_iff, Failure.causedBy_eq_ok_iff] at hparse hparser hterminalizer
  refine ⟨Grammar.built_of_parse hparse, ?_, hparser, hterminalizer, rfl⟩
  unfold findRule at hfind
  split at hfind
  · next id' hid =>
    cases hfind
    exact hid
  · cases hfind

theorem Compiled.contains (h : l.Compiled root) : l.grammar.contains l.rootId = true := by
  obtain ⟨i, hi, hid⟩ := Option.map_eq_some_iff.mp h.find
  obtain ⟨hlt, -⟩ := Array.findIdx?_eq_some_iff_getElem.mp hi
  rw [← hid]
  exact decide_eq_true hlt

/-- What a language parses is a value of its root rule that holds the tokens of the
text. -/
theorem Compiled.isValue_root (h : l.Compiled root) (hv : l.parse s = .ok v) :
    l.grammar.IsValue l.rootId v ∧ v.leaves = Token.stream s := by
  have hparse : l.parser.parse (Token.stream s) = .ok v :=
    Failure.causedBy_eq_ok_iff.mp (Failure.within_eq_ok_iff.mp hv)
  obtain ⟨place, hc, hplace, hmem, -⟩ := Parser.compile_spec h.built.wellFormed h.parser
  rw [Parser.parse, hplace] at hparse
  exact hc.parse_rule_sound h.built.wellFormed hmem hparse

/-- A text that a language parses comes back: the value gives back exactly the tokens of
the text, as a nonempty list if and only if the root rule is nonempty, and the round trip
gives back the text itself. -/
theorem terminalize_of_parse (hl : ofText text root = .ok l) (hv : l.parse s = .ok v) :
    ∃ t, l.terminalize v = .ok t ∧ t.toList = Token.stream s ∧
      l.isNonempty root = .ok t.isNonempty ∧ l.roundTrip s = .ok s := by
  have h := compiled_of_ofText hl
  obtain ⟨hvalue, hleaves⟩ := h.isValue_root hv
  obtain ⟨t, ht, htokens, hnonempty⟩ := Terminalizer.exists_terminalize h.built.wellFormed
    h.contains h.terminalizer hvalue.hasShape
  have hterminalize : l.terminalize v = .ok t := Failure.causedBy_eq_ok_iff.mpr ht
  refine ⟨t, hterminalize, htokens.trans hleaves, ?_, ?_⟩
  · refine bind_eq_ok_iff.mpr ⟨l.rootId, ?_, ?_⟩
    · rw [findRule, h.find]
    · rw [hnonempty, ← h.analysis]
      rfl
  · have htext : t.text = s := by
      rw [Yield.text, htokens, hleaves, Token.text_stream]
    have hround : l.roundTrip s = (do return (← l.terminalize (← l.parse s)).text) := rfl
    rw [hround]
    refine bind_eq_ok_iff.mpr ⟨v, hv, bind_eq_ok_iff.mpr ⟨t, hterminalize, ?_⟩⟩
    rw [htext]
    rfl

/-- A grammar in which a rule reaches itself on both sides and over nothing. -/
theorem terminalize_of_parse_pairs :
    ∃ l v t, ofText "s = Both: s s | Word: w | None: ; w = word? ; word = \"ab\" ;" "s" = .ok l ∧
      l.parse "abab" = .ok v ∧ l.terminalize v = .ok t ∧ t.toList = Token.stream "abab" ∧
      l.isNonempty "s" = .ok t.isNonempty ∧ l.roundTrip "abab" = .ok "abab" := by
  obtain ⟨v, hboth⟩ : ∃ v, (do
      let l ← ofText "s = Both: s s | Word: w | None: ; w = word? ; word = \"ab\" ;" "s"
      l.parse "abab") = .ok v :=
    exists_ok_of_isOk (by cbv)
  obtain ⟨l, hl, hv⟩ := bind_eq_ok_iff.mp hboth
  obtain ⟨t, ht⟩ := terminalize_of_parse hl hv
  exact ⟨l, v, t, hl, hv, ht⟩

end Language

end ChartGrammar
