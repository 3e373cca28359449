/-
  Proofs/Productions.lean --- productions and the grammars that they make up.

  Productions refer to each other by name, so what they need to make up a grammar can be
  read off them: their names are distinct, and each of them is in order and refers to names
  among them.  The grammar then has exactly these productions, and the productions of any
  grammar that was built lead back to it.
-/
import ChartGrammar.Proofs.Lowering

set_option autoImplicit false

namespace ChartGrammar

/-- Other references do not matter to whether a right-hand side is in order by itself. -/
theorem Rhs.inOrder_map_iff {ρ σ : Type} {f : ρ → σ} {rhs : Rhs ρ} :
    (rhs.map f).InOrder ↔ rhs.InOrder := by
  rw [← @fault?_eq_none_iff _ "", ← @fault?_eq_none_iff _ ""]
  cases rhs with
  | choice branches =>
    simp only [map, fault?_choice_eq_none_iff, List.map_map, ne_eq, List.map_eq_nil_iff]
    exact Iff.rfl
  | series literal => simp only [map, fault?_series_eq_none_iff]
  | _ => exact Iff.rfl

namespace Grammar

variable {g : Grammar} {ps : List (Production String)}

theorem nameOf_mem_names {id : RuleId} (h : id.index < g.size) : g.nameOf id ∈ g.names :=
  List.mem_of_getElem? (names_getElem?_eq_some_iff.mpr ⟨h, rfl⟩)

theorem names_productions (g : Grammar) : g.productions.map Production.name = g.names := by
  rw [productions, List.map_map]
  rfl

/-- The productions of a well-formed grammar have distinct names and refer to each other. -/
theorem WellFormed.fits_productions (hg : g.WellFormed) :
    ∀ p ∈ g.productions, p.rhs.Fits (fun n => n ∈ g.names) p.description := by
  intro p hp
  obtain ⟨r, hr, rfl⟩ := List.mem_map.mp hp
  have hfits := Production.wellFormed_iff.mp (hg.rules r hr)
  refine ⟨fun n hn => ?_, Rhs.inOrder_map_iff.mpr hfits.inOrder, hfits.description_ne⟩
  rw [Rhs.children_map] at hn
  obtain ⟨c, hc, rfl⟩ := List.mem_map.mp hn
  exact nameOf_mem_names (hfits.children c hc)

/-- The rules of productions, with the places of names in place of the names. -/
def placed (ps : List (Production String)) : Grammar :=
  ⟨(ps.map fun p =>
    ⟨p.name, p.description, p.rhs.map fun n => ⟨(ps.map Production.name).idxOf n⟩⟩).toArray⟩

theorem names_placed (ps : List (Production String)) :
    (placed ps).names = ps.map Production.name := by
  simp [placed, names, Function.comp_def]

theorem size_placed (ps : List (Production String)) : (placed ps).size = ps.length := by
  simp [placed, size]

theorem nameOf_placed {n : String} (h : n ∈ ps.map Production.name) :
    (placed ps).nameOf ⟨(ps.map Production.name).idxOf n⟩ = n := by
  refine (names_getElem?_eq_some_iff.mp ?_).2
  rw [names_placed]
  exact List.getElem?_idxOf h

/-- Productions that refer to each other are those of the grammar of their rules. -/
theorem productions_placed
    (h : ∀ p ∈ ps, ∀ n ∈ p.rhs.children, n ∈ ps.map Production.name) :
    (placed ps).productions = ps := by
  rw [productions, placed, List.map_map]
  refine (List.map_congr_left fun p hp => ?_).trans (List.map_id ps)
  have hrhs : (p.rhs.map fun n => ⟨(ps.map Production.name).idxOf n⟩).map (placed ps).nameOf =
      p.rhs := by
    rw [Rhs.map_map]
    refine (Rhs.map_congr fun n hn => ?_).trans p.rhs.map_id
    exact nameOf_placed (h p hp n hn)
  simp only [Function.comp_apply, id_eq]
  exact congrArg (Production.mk p.name p.description) hrhs

theorem wellFormed_placed (hnames : (ps.map Production.name).Nodup)
    (hfits : ∀ p ∈ ps, p.rhs.Fits (fun n => n ∈ ps.map Production.name) p.description) :
    (placed ps).WellFormed := by
  rw [← names_placed] at hnames
  refine ⟨hnames, fun r hr => ?_⟩
  obtain ⟨p, hp, rfl⟩ : ∃ p ∈ ps, _ = r := List.mem_map.mp (by simpa only [placed] using hr)
  have hfit := hfits p hp
  refine Production.wellFormed_iff.mpr
    ⟨fun c hc => ?_, Rhs.inOrder_map_iff.mpr hfit.inOrder, hfit.description_ne⟩
  rw [Rhs.children_map] at hc
  obtain ⟨n, hn, rfl⟩ := List.mem_map.mp hc
  rw [size_placed, ← List.length_map Production.name]
  exact List.idxOf_lt_length_of_mem (hfit.children n hn)

/-- Productions make up a grammar exactly if their names are distinct and each of them is in
order and refers to names among them. -/
theorem exists_ofProductions_iff :
    (∃ g, ofProductions ps = .ok g) ↔ (ps.map Production.name).Nodup ∧
      ∀ p ∈ ps, p.rhs.Fits (fun n => n ∈ ps.map Production.name) p.description := by
  constructor
  · rintro ⟨g, h⟩
    obtain ⟨hg, rfl⟩ := ofProductions_eq_ok_iff.mp h
    rw [names_productions]
    exact ⟨hg.names_nodup, hg.fits_productions⟩
  · rintro ⟨hnames, hfits⟩
    refine ⟨placed ps, ofProductions_eq_ok_iff.mpr ⟨wellFormed_placed hnames hfits, ?_⟩⟩
    exact productions_placed fun p hp => (hfits p hp).children

/-- Making a grammar of productions and listing the productions of a grammar are inverse to
each other: on the productions with distinct names that are in order and refer to each other,
and on the grammars that can be built. -/
theorem ofProductions_inverse_productions :
    (∀ ps, (∃ g, ofProductions ps = .ok g) ↔ (ps.map Production.name).Nodup ∧
      ∀ p ∈ ps, p.rhs.Fits (fun n => n ∈ ps.map Production.name) p.description) ∧
    (∀ ps g, ofProductions ps = .ok g → g.productions = ps) ∧
    ∀ g : Grammar, g.Built → ofProductions g.productions = .ok g :=
  ⟨fun _ => exists_ofProductions_iff, fun _ _ h => (ofProductions_eq_ok_iff.mp h).2,
    fun _ hg => ofProductions_productions hg.wellFormed⟩

/-- Productions that refer forward and back, under names that a text could not write. -/
def entwined : List (Production String) :=
  [⟨"", none, .wrap "b c"⟩, ⟨"b c", some "it", .choice [⟨"", []⟩, ⟨"again", ["", "b c"]⟩]⟩]

theorem ofProductions_inverse_productions_entwined :
    (entwined.map Production.name).Nodup ∧
      ∃ g, ofProductions entwined = .ok g ∧ g.productions = entwined ∧ g.Built ∧
        ofProductions g.productions = .ok g := by
  obtain ⟨hmade, hback, hagain⟩ := ofProductions_inverse_productions
  obtain ⟨g, hg⟩ : ∃ g, ofProductions entwined = .ok g := exists_ok_of_isOk (by decide +kernel)
  have hbuilt := built_of_ofProductions hg
  exact ⟨((hmade entwined).mp ⟨g, hg⟩).1, g, hg, hback entwined g hg, hbuilt, hagain g hbuilt⟩

end Grammar

end ChartGrammar
