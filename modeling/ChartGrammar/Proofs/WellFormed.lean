/-
  Proofs/WellFormed.lean --- what holds of every grammar that can be built.

  A grammar comes out of a builder, and a builder comes out of a sequence of
  operations.  Each operation keeps the builder well formed: names are distinct,
  and every rule that is defined has its children declared, labels its branches
  apart, and has neither an empty literal nor an empty description.
-/
import Mathlib.Data.List.Nodup
import ChartGrammar.Grammar.Builder
import ChartGrammar.Grammar.Reader
import ChartGrammar.Proofs.Outcome

set_option autoImplicit false

namespace ChartGrammar

/-- Among distinct names, looking one up gives its place. -/
theorem findIdx?_eq_some_iff_of_nodup {α : Type} {f : α → String} {as : Array α}
    (h : (as.toList.map f).Nodup) {n : String} {i : Nat} :
    as.findIdx? (fun a => f a == n) = some i ↔ (as.toList.map f)[i]? = some n := by
  rw [Array.findIdx?_eq_some_iff_getElem]
  constructor
  · rintro ⟨hi, hfound, -⟩
    simpa [Array.getElem?_eq_getElem hi] using hfound
  · intro hget
    obtain ⟨hi, hname⟩ := List.getElem?_eq_some_iff.mp hget
    have hi : i < as.size := by simpa using hi
    refine ⟨hi, by simpa using hname, fun j hj => ?_⟩
    rw [Bool.not_eq_true, beq_eq_false_iff_ne]
    intro hj'
    have hij : j = i := by
      refine (List.getElem?_inj (by simp; omega) h).mp ?_
      rw [hget]
      simp [Array.getElem?_eq_getElem (Nat.lt_trans hj hi), hj']
    omega

/-! ## Well-formed rules -/

/-- A rule of a grammar with `size` rules whose parts are in order. -/
structure Production.WellFormed (size : Nat) (r : Rule) : Prop where
  children_lt : ∀ c ∈ r.rhs.children, c.index < size
  fault?_eq_none : r.rhs.fault? r.name = none
  description_ne : r.description ≠ some ""

theorem Rhs.fault?_choice_eq_none_iff {ρ : Type} {rule : String} {branches : List (Branch ρ)} :
    (Rhs.choice branches).fault? rule = none ↔
      branches ≠ [] ∧ (branches.map Branch.label).Nodup := by
  cases branches with
  | nil => simp [fault?]
  | cons b bs => simp [fault?, Option.map_eq_none_iff, firstRepeat?_eq_none_iff]

theorem Rhs.fault?_series_eq_none_iff {ρ : Type} {rule literal : String} :
    (Rhs.series literal : Rhs ρ).fault? rule = none ↔ literal ≠ "" := by
  simp [fault?]

/-- A right-hand side that is in order by itself: a choice has branches and tells them apart,
and a literal is not empty. -/
structure Rhs.InOrder {ρ : Type} (rhs : Rhs ρ) : Prop where
  choice : ∀ branches, rhs = .choice branches →
    branches ≠ [] ∧ (branches.map Branch.label).Nodup
  series : ∀ literal, rhs = .series literal → literal ≠ ""

/-- The check of a right-hand side finds no fault exactly if it is in order. -/
theorem Rhs.fault?_eq_none_iff {ρ : Type} {rule : String} {rhs : Rhs ρ} :
    rhs.fault? rule = none ↔ rhs.InOrder := by
  cases rhs with
  | choice branches =>
    rw [fault?_choice_eq_none_iff]
    refine ⟨fun h => ⟨?_, ?_⟩, fun h => h.choice branches rfl⟩
    · rintro _ ⟨rfl⟩
      exact h
    · rintro _ ⟨⟩
  | series literal =>
    rw [fault?_series_eq_none_iff]
    refine ⟨fun h => ⟨?_, ?_⟩, fun h => h.series literal rfl⟩
    · rintro _ ⟨⟩
    · rintro _ ⟨rfl⟩
      exact h
  | _ =>
    refine ⟨fun _ => ⟨?_, ?_⟩, fun _ => rfl⟩
    · rintro _ ⟨⟩
    · rintro _ ⟨⟩

/-- A right-hand side that a rule can have, beside a description, if the rule may refer to what
is `known`. -/
structure Rhs.Fits {ρ : Type} (known : ρ → Prop) (description : Option String) (rhs : Rhs ρ) :
    Prop where
  children : ∀ c ∈ rhs.children, known c
  inOrder : rhs.InOrder
  description_ne : description ≠ some ""

theorem Production.wellFormed_iff {size : Nat} {r : Rule} :
    r.WellFormed size ↔ r.rhs.Fits (fun c => c.index < size) r.description :=
  ⟨fun h => ⟨h.children_lt, Rhs.fault?_eq_none_iff.mp h.fault?_eq_none, h.description_ne⟩,
    fun h => ⟨h.children, Rhs.fault?_eq_none_iff.mpr h.inOrder, h.description_ne⟩⟩

namespace Production.WellFormed

variable {size : Nat} {r : Rule}

theorem mono (h : r.WellFormed size) {size' : Nat} (hle : size ≤ size') :
    r.WellFormed size' where
  children_lt c hc := Nat.lt_of_lt_of_le (h.children_lt c hc) hle
  fault?_eq_none := h.fault?_eq_none
  description_ne := h.description_ne

theorem branches_ne_nil (h : r.WellFormed size) {branches : List (Branch RuleId)}
    (hrhs : r.rhs = .choice branches) : branches ≠ [] := by
  have := h.fault?_eq_none
  rw [hrhs, Rhs.fault?_choice_eq_none_iff] at this
  exact this.1

theorem labels_nodup (h : r.WellFormed size) {branches : List (Branch RuleId)}
    (hrhs : r.rhs = .choice branches) : (branches.map Branch.label).Nodup := by
  have := h.fault?_eq_none
  rw [hrhs, Rhs.fault?_choice_eq_none_iff] at this
  exact this.2

theorem literal_ne (h : r.WellFormed size) {literal : String}
    (hrhs : r.rhs = .series literal) : literal ≠ "" := by
  have := h.fault?_eq_none
  rwa [hrhs, Rhs.fault?_series_eq_none_iff] at this

end Production.WellFormed

/-! ## Builders and the operations on them -/

/-- The builders that operations lead to, whether each of them succeeds or fails. -/
inductive Builder.Made : Builder → Prop where
  | empty : Made Builder.empty
  | declare {b b' : Builder} {name : String} {id : RuleId} (hb : b.Made)
      (h : b.declare name = .ok (id, b')) : Made b'
  | define {b b' : Builder} {id : RuleId} {description : Option String} {rhs : Rhs RuleId}
      (hb : b.Made) (h : b.define id description rhs = .ok b') : Made b'
  | add {b : Builder} {name : String} {description : Option String} {rhs : Rhs RuleId}
      (hb : b.Made) : Made (b.add name description rhs).2

/-- A builder with distinct names whose defined rules are well formed. -/
structure Builder.WellFormed (b : Builder) : Prop where
  names_nodup : (b.declarations.toList.map Declaration.name).Nodup
  rules : ∀ d ∈ b.declarations.toList, ∀ description rhs, d.body = some (description, rhs) →
    Production.WellFormed b.declarations.size ⟨d.name, description, rhs⟩

namespace Builder

variable {b b' : Builder}

theorem find?_eq_none_iff {name : String} :
    b.find? name = none ↔ ∀ d ∈ b.declarations.toList, d.name ≠ name := by
  simp [find?, Array.findIdx?_eq_none_iff]

/-- Declaring appends a name that is new. -/
theorem declare_eq_ok {name : String} {id : RuleId} (h : b.declare name = .ok (id, b')) :
    (∀ d ∈ b.declarations.toList, d.name ≠ name) ∧
      b'.declarations.toList = b.declarations.toList ++ [⟨name, none⟩] := by
  unfold declare at h
  cases hfind : b.find? name with
  | some i =>
    rw [hfind] at h
    cases h
  | none =>
    rw [hfind] at h
    cases h
    exact ⟨find?_eq_none_iff.mp hfind, by simp⟩

theorem WellFormed.declare (hb : b.WellFormed) {name : String} {id : RuleId}
    (h : b.declare name = .ok (id, b')) : b'.WellFormed := by
  obtain ⟨hnew, hlist⟩ := declare_eq_ok h
  have hsize : b.declarations.size ≤ b'.declarations.size := by
    rw [← Array.length_toList, ← Array.length_toList, hlist]
    simp
  constructor
  · rw [hlist, List.map_append, List.nodup_append]
    refine ⟨hb.names_nodup, by simp, ?_⟩
    intro n hn m hm
    obtain ⟨d, hd, rfl⟩ := List.mem_map.mp hn
    rw [List.map_singleton, List.mem_singleton] at hm
    rw [hm]
    exact hnew d hd
  · intro d hd description rhs hbody
    rw [hlist, List.mem_append, List.mem_singleton] at hd
    rcases hd with hd | rfl
    · exact (hb.rules d hd description rhs hbody).mono hsize
    · cases hbody

/-- Defining gives a declared name a body that passed all the checks. -/
theorem define_eq_ok {id : RuleId} {description : Option String} {rhs : Rhs RuleId}
    (h : b.define id description rhs = .ok b') :
    ∃ d, b.declarations.toList[id.index]? = some d ∧
      Production.WellFormed b.declarations.size ⟨d.name, description, rhs⟩ ∧
      b'.declarations.toList =
        b.declarations.toList.set id.index ⟨d.name, some (description, rhs)⟩ := by
  unfold define at h
  split at h
  · cases h
  · next d hd =>
    split at h
    · cases h
    · next hchildren =>
      split at h
      · cases h
      · next hfault =>
        split at h
        · cases h
        · next hdescription =>
          split at h
          · cases h
          · cases h
            refine ⟨d, by simpa using hd, ⟨?_, hfault, hdescription⟩, by simp⟩
            intro c hc
            have := List.find?_eq_none.mp hchildren c hc
            simpa using this

theorem WellFormed.define (hb : b.WellFormed) {id : RuleId} {description : Option String}
    {rhs : Rhs RuleId} (h : b.define id description rhs = .ok b') : b'.WellFormed := by
  obtain ⟨d, hd, hrule, hlist⟩ := define_eq_ok h
  have hsize : b'.declarations.size = b.declarations.size := by
    rw [← Array.length_toList, ← Array.length_toList, hlist, List.length_set]
  constructor
  · have hnames : b'.declarations.toList.map Declaration.name =
        b.declarations.toList.map Declaration.name := by
      rw [hlist, List.map_set]
      refine List.ext_getElem? fun i => ?_
      by_cases hi : id.index = i
      · subst hi
        have hlt := (List.getElem?_eq_some_iff.mp hd).1
        rw [List.getElem?_set_self (by simpa using hlt), List.getElem?_map, hd]
        rfl
      · rw [List.getElem?_set_ne hi]
    rw [hnames]
    exact hb.names_nodup
  · intro d' hd' description' rhs' hbody
    rw [hsize]
    rw [hlist] at hd'
    rcases List.mem_or_eq_of_mem_set hd' with hold | rfl
    · exact hb.rules d' hold description' rhs' hbody
    · cases hbody
      exact hrule

theorem WellFormed.add (hb : b.WellFormed) (name : String) (description : Option String)
    (rhs : Rhs RuleId) : (b.add name description rhs).2.WellFormed := by
  unfold Builder.add
  split
  · exact hb
  · next id declared hdeclare =>
    have hdeclared := hb.declare hdeclare
    split
    · exact hdeclared
    · next defined hdefine => exact hdeclared.define hdefine

/-- Every sequence of operations keeps the builder well formed. -/
theorem Made.wellFormed (h : b.Made) : b.WellFormed := by
  induction h with
  | empty =>
    refine ⟨by simp [Builder.empty], ?_⟩
    intro d hd
    simp [Builder.empty] at hd
  | declare _ hdeclare ih => exact ih.declare hdeclare
  | define _ hdefine ih => exact ih.define hdefine
  | add _ ih => exact ih.add _ _ _

end Builder

/-! ## Grammars -/

/-- A grammar that operations on a builder lead to. -/
def Grammar.Built (g : Grammar) : Prop := ∃ b : Builder, b.Made ∧ b.build = .ok g

/-- A grammar with distinct names and well-formed rules. -/
structure Grammar.WellFormed (g : Grammar) : Prop where
  names_nodup : (g.rules.toList.map Production.name).Nodup
  rules : ∀ r ∈ g.rules.toList, r.WellFormed g.size

theorem Builder.finish_eq_ok {d : Declaration} {r : Rule} (h : Builder.finish d = .ok r) :
    r.name = d.name ∧ d.body = some (r.description, r.rhs) := by
  unfold finish at h
  split at h
  · next description rhs hbody =>
    cases h
    exact ⟨rfl, hbody⟩
  · cases h

namespace Grammar

variable {g : Grammar}

/-- Every grammar that can be built is well formed. -/
theorem Built.wellFormed (h : g.Built) : g.WellFormed := by
  obtain ⟨b, hmade, hbuild⟩ := h
  have hb := hmade.wellFormed
  obtain ⟨rs, hrs, hg⟩ := bind_eq_ok_iff.mp hbuild
  cases hg
  have hfinish := mapM_eq_ok_iff.mp hrs
  have hsize : Grammar.size ⟨rs.toArray⟩ = b.declarations.size := by
    rw [Grammar.size, List.size_toArray, ← hfinish.length_eq, Array.length_toList]
  constructor
  · have hnames : b.declarations.toList.map Declaration.name = rs.map Production.name :=
      map_eq_map_of_forall₂ (hfinish.imp fun d r h => (Builder.finish_eq_ok h).1.symm)
    simpa [← hnames] using hb.names_nodup
  · intro r hr
    rw [hsize]
    obtain ⟨d, hd, hdr⟩ := exists_of_mem_right hfinish hr
    obtain ⟨hname, hbody⟩ := Builder.finish_eq_ok hdr
    have := hb.rules d hd _ _ hbody
    rwa [← hname] at this

/-- A list of productions is made into a grammar by operations on a builder. -/
theorem built_of_ofProductions {ps : List (Production String)}
    (h : ofProductions ps = .ok g) : g.Built := by
  unfold ofProductions at h
  obtain ⟨declared, hdeclared, h⟩ := bind_eq_ok_iff.mp h
  obtain ⟨resolved, _, h⟩ := bind_eq_ok_iff.mp h
  obtain ⟨defined, hdefined, hbuild⟩ := bind_eq_ok_iff.mp h
  have hmade : declared.Made := by
    refine foldlM_invariant ?_ ps .empty hdeclared
    intro b p b' hb hstep
    obtain ⟨⟨id, b''⟩, hdeclare, hpure⟩ := bind_eq_ok_iff.mp hstep
    cases hpure
    exact .declare hb hdeclare
  refine ⟨defined, foldlM_invariant ?_ resolved hmade hdefined, hbuild⟩
  intro b step b' hb hstep
  exact .define hb hstep

/-- Every grammar that is read from a text can be built. -/
theorem built_of_parse {text : String} (h : Grammar.parse text = .ok g) : g.Built := by
  unfold Grammar.parse at h
  obtain ⟨ps, _, hps⟩ := bind_eq_ok_iff.mp h
  exact built_of_ofProductions hps

/-! ## Rules of a well-formed grammar -/

theorem mem_of_get? {id : RuleId} {r : Rule} (h : g.get? id = some r) :
    r ∈ g.rules.toList :=
  Array.mem_toList_iff.mpr (Array.mem_of_getElem? h)

theorem contains_iff {id : RuleId} : g.contains id = true ↔ ∃ r, g.get? id = some r := by
  unfold contains get? size
  rw [decide_eq_true_iff]
  constructor
  · intro h
    exact ⟨_, Array.getElem?_eq_getElem h⟩
  · rintro ⟨r, hr⟩
    exact (Array.getElem?_eq_some_iff.mp hr).1

theorem WellFormed.contains_child (hg : g.WellFormed) {id c : RuleId} {r : Rule}
    (hr : g.get? id = some r) (hc : c ∈ r.rhs.children) : g.contains c = true :=
  decide_eq_true ((hg.rules r (mem_of_get? hr)).children_lt c hc)

/-- In a well-formed grammar every rule is found by its name. -/
theorem WellFormed.find?_name (hg : g.WellFormed) {id : RuleId} {r : Rule}
    (hr : g.get? id = some r) : g.find? r.name = some id := by
  have hname : (g.rules.toList.map Production.name)[id.index]? = some r.name := by
    rw [List.getElem?_map, Array.getElem?_toList]
    exact congrArg _ hr
  rw [find?, (findIdx?_eq_some_iff_of_nodup hg.names_nodup).mpr hname]
  rfl

end Grammar

end ChartGrammar
