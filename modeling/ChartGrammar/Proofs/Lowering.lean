/-
  Proofs/Lowering.lean --- which productions make up a grammar.

  Productions refer to rules by name and a grammar refers to them by place.  Where names are
  distinct the two say the same: a list of productions is made into a grammar exactly if it
  is the list of that grammar's productions and the grammar is well formed.
-/
import ChartGrammar.Proofs.WellFormed

set_option autoImplicit false

namespace ChartGrammar

/-! ## References -/

section

variable {ρ σ ε : Type} {f : ρ → Except ε σ} {k : σ → ρ} {V : σ → Prop}

/-- A step that finds what a function came from does so for lists. -/
theorem mapM_eq_ok_iff_map_eq (hf : ∀ a b, f a = .ok b ↔ V b ∧ k b = a) {as : List ρ}
    {bs : List σ} : as.mapM f = .ok bs ↔ (∀ b ∈ bs, V b) ∧ bs.map k = as := by
  rw [mapM_eq_ok_iff]
  induction bs generalizing as with
  | nil => simp [eq_comm]
  | cons b bs ih =>
    rw [List.forall₂_cons_right_iff, List.forall_mem_cons, List.map_cons]
    constructor
    · rintro ⟨a, as, ha, has, rfl⟩
      obtain ⟨hb, rfl⟩ := (hf a b).mp ha
      obtain ⟨hbs, rfl⟩ := ih.mp has
      exact ⟨⟨hb, hbs⟩, rfl⟩
    · rintro ⟨⟨hb, hbs⟩, rfl⟩
      exact ⟨k b, bs.map k, (hf _ _).mpr ⟨hb, rfl⟩, ih.mpr ⟨hbs, rfl⟩, rfl⟩

/-- So it does for branches. -/
theorem Branch.resolve_eq_ok_iff (hf : ∀ a b, f a = .ok b ↔ V b ∧ k b = a) (b : Branch ρ)
    (b' : Branch σ) :
    (do return (⟨b.label, ← b.fields.mapM f⟩ : Branch σ)) = .ok b' ↔
      (∀ c ∈ b'.fields, V c) ∧ (⟨b'.label, b'.fields.map k⟩ : Branch ρ) = b := by
  rw [bind_eq_ok_iff]
  constructor
  · rintro ⟨fields, hfields, hpure⟩
    cases hpure
    obtain ⟨hV, hmap⟩ := (mapM_eq_ok_iff_map_eq hf).mp hfields
    exact ⟨hV, by rw [hmap]⟩
  · rintro ⟨hV, rfl⟩
    exact ⟨b'.fields, (mapM_eq_ok_iff_map_eq hf).mpr ⟨hV, rfl⟩, rfl⟩

/-- So it does for right-hand sides. -/
theorem Rhs.resolve_eq_ok_iff (hf : ∀ a b, f a = .ok b ↔ V b ∧ k b = a) {r : Rhs ρ}
    {r' : Rhs σ} : r.resolve f = .ok r' ↔ (∀ c ∈ r'.children, V c) ∧ r'.map k = r := by
  constructor
  · intro h
    cases r with
    | terminal _ | series _ =>
      cases h
      exact ⟨by simp [children], rfl⟩
    | choice bs =>
      obtain ⟨bs', hbs', hpure⟩ := bind_eq_ok_iff.mp h
      cases hpure
      obtain ⟨hV, rfl⟩ := (mapM_eq_ok_iff_map_eq (Branch.resolve_eq_ok_iff hf)).mp hbs'
      refine ⟨fun c hc => ?_, rfl⟩
      obtain ⟨b, hb, hc⟩ := List.mem_flatMap.mp hc
      exact hV b hb c hc
    | record ns =>
      obtain ⟨ns', hns', hpure⟩ := bind_eq_ok_iff.mp h
      cases hpure
      obtain ⟨hV, rfl⟩ := (mapM_eq_ok_iff_map_eq hf).mp hns'
      exact ⟨hV, rfl⟩
    | wrap a | opt a | star a | plus a =>
      obtain ⟨c, hc, hpure⟩ := bind_eq_ok_iff.mp h
      cases hpure
      obtain ⟨hV, rfl⟩ := (hf _ _).mp hc
      exact ⟨by simpa [children] using hV, rfl⟩
  · rintro ⟨hV, rfl⟩
    cases r' with
    | terminal _ | series _ => rfl
    | choice bs =>
      refine bind_eq_ok_iff.mpr ⟨bs, ?_, rfl⟩
      refine (mapM_eq_ok_iff_map_eq (Branch.resolve_eq_ok_iff hf)).mpr ⟨fun b hb c hc => ?_, rfl⟩
      exact hV c (List.mem_flatMap.mpr ⟨b, hb, hc⟩)
    | record ns => exact bind_eq_ok_iff.mpr ⟨ns, (mapM_eq_ok_iff_map_eq hf).mpr ⟨hV, rfl⟩, rfl⟩
    | wrap c | opt c | star c | plus c =>
      exact bind_eq_ok_iff.mpr ⟨c, (hf _ _).mpr ⟨hV c (by simp [children]), rfl⟩, rfl⟩

end

/-! ## Names and places -/

/-- The names that a builder has declared, in order. -/
def Builder.names (b : Builder) : List String := b.declarations.toList.map Declaration.name

/-- The declaration of a production's name, before the production is defined. -/
def Production.declared {ρ : Type} (p : Production ρ) : Declaration := ⟨p.name, none⟩

/-- The declaration of a rule that is defined. -/
def Production.defined (r : Rule) : Declaration := ⟨r.name, some (r.description, r.rhs)⟩

/-- The names of a grammar's rules, in order. -/
def Grammar.names (g : Grammar) : List String := g.rules.toList.map Production.name

theorem Grammar.names_getElem?_eq_some_iff {g : Grammar} {id : RuleId} {n : String} :
    g.names[id.index]? = some n ↔ id.index < g.size ∧ g.nameOf id = n := by
  unfold names nameOf get? size
  rw [List.getElem?_map, Array.getElem?_toList]
  cases h : g.rules[id.index]? with
  | none =>
    have hle := Array.getElem?_eq_none_iff.mp h
    simp [Nat.not_lt.mpr hle]
  | some r =>
    have hlt := (Array.getElem?_eq_some_iff.mp h).1
    simp [hlt]

/-- A builder's look-up of a name finds the rule of that name in a grammar with the same
names. -/
theorem Builder.find?_eq_some_iff {b : Builder} {g : Grammar} (hb : b.names.Nodup)
    (hnames : b.names = g.names) {n : String} {id : RuleId} :
    b.find? n = some id ↔ id.index < g.size ∧ g.nameOf id = n := by
  rw [← Grammar.names_getElem?_eq_some_iff, ← hnames, find?, Option.map_eq_some_iff]
  constructor
  · rintro ⟨i, hi, rfl⟩
    exact (findIdx?_eq_some_iff_of_nodup hb).mp hi
  · intro h
    exact ⟨id.index, (findIdx?_eq_some_iff_of_nodup hb).mpr h, rfl⟩

/-! ## Declaring -/

theorem Builder.find?_eq_none_iff_names {b : Builder} {name : String} :
    b.find? name = none ↔ name ∉ b.names := by
  rw [find?_eq_none_iff, names, List.mem_map]
  exact ⟨fun h ⟨d, hd, hn⟩ => h d hd hn, fun h d hd hn => h ⟨d, hd, hn⟩⟩

theorem Builder.declare_eq_ok_iff {b b' : Builder} {n : String} :
    (do return (← b.declare n).2) = .ok b' ↔
      n ∉ b.names ∧ b' = ⟨b.declarations.push ⟨n, none⟩⟩ := by
  rw [bind_eq_ok_iff, ← find?_eq_none_iff_names]
  unfold declare
  cases b.find? n with
  | none => simp [pure, Except.pure, eq_comm]
  | some i => simp

@[simp] theorem Builder.names_push (b : Builder) (n : String)
    (body : Option (Option String × Rhs RuleId)) :
    Builder.names ⟨b.declarations.push ⟨n, body⟩⟩ = b.names ++ [n] := by
  simp [names]

/-- Declaring a list of productions succeeds exactly if all the names are distinct. -/
theorem Builder.declareAll_eq_ok_iff (ps : List (Production String)) :
    ∀ {b b' : Builder}, b.names.Nodup →
      (ps.foldlM (fun b p => return (← b.declare p.name).2) b = .ok b' ↔
        (b.names ++ ps.map Production.name).Nodup ∧
          b' = ⟨b.declarations ++ (ps.map Production.declared).toArray⟩) := by
  induction ps with
  | nil =>
    intro b b' hb
    rw [List.foldlM_nil, List.map_nil, List.append_nil, List.map_nil, Array.append_empty]
    exact ⟨fun h => ⟨hb, by cases h; rfl⟩, fun h => by rw [h.2]; rfl⟩
  | cons p ps ih =>
    intro b b' hb
    rw [List.foldlM_cons, bind_eq_ok_iff]
    constructor
    · rintro ⟨b₁, hfirst, hrest⟩
      obtain ⟨hnew, rfl⟩ := declare_eq_ok_iff.mp hfirst
      have hnodup : (b.names ++ [p.name]).Nodup := by
        rw [List.nodup_append_comm]
        simp [hnew, hb]
      obtain ⟨hall, rfl⟩ := (ih (by simpa using hnodup)).mp hrest
      exact ⟨by simpa using hall, by simp [Production.declared]⟩
    · rintro ⟨hall, rfl⟩
      have hsplit : ((b.names ++ [p.name]) ++ ps.map Production.name).Nodup := by simpa using hall
      have hnodup := hsplit.of_append_left
      have hnew : p.name ∉ b.names := by
        intro hmem
        exact (List.nodup_append.mp hnodup).2.2 _ hmem _ (by simp) rfl
      refine ⟨_, declare_eq_ok_iff.mpr ⟨hnew, rfl⟩, (ih ?_).mpr ⟨?_, ?_⟩⟩
      · rwa [names_push]
      · rwa [names_push]
      · simp [Production.declared]

/-! ## Defining -/

/-- A rule that is in order can be defined where its name is declared. -/
theorem Builder.define_of_wellFormed {b : Builder} {id : RuleId} {r : Rule}
    (hd : b.declarations[id.index]? = some r.declared) (hr : r.WellFormed b.declarations.size) :
    b.define id r.description r.rhs =
      .ok ⟨b.declarations.setIfInBounds id.index r.defined⟩ := by
  have hchildren :
      r.rhs.children.find? (fun child => b.declarations.size ≤ child.index) = none := by
    rw [List.find?_eq_none]
    intro c hc
    simpa using hr.children_lt c hc
  simp [define, hd, hchildren, hr.description_ne, Production.declared, Production.defined,
    hr.fault?_eq_none]

/-- What there is to define for rules in a row, the first of them at a given place. -/
def Builder.definitions : Nat → List Rule → List (RuleId × Option String × Rhs RuleId)
  | _, [] => []
  | place, r :: rs => (⟨place⟩, r.description, r.rhs) :: definitions (place + 1) rs

/-- Rules that are in order can be defined one after another, after those that are defined
already. -/
theorem Builder.defineAll (rs : List Rule) :
    ∀ (done : List Declaration), (∀ r ∈ rs, r.WellFormed (done.length + rs.length)) →
      (definitions done.length rs).foldlM
          (fun (b : Builder) (id, description, rhs) => b.define id description rhs)
          ⟨(done ++ rs.map Production.declared).toArray⟩ =
        .ok ⟨(done ++ rs.map Production.defined).toArray⟩ := by
  induction rs with
  | nil => exact fun _ _ => rfl
  | cons r rs ih =>
    intro done hrs
    obtain ⟨hr, hrs⟩ := List.forall_mem_cons.mp hrs
    let b : Builder := ⟨(done ++ (r :: rs).map Production.declared).toArray⟩
    have hfirst : b.define ⟨done.length⟩ r.description r.rhs =
        .ok ⟨(done ++ [r.defined] ++ rs.map Production.declared).toArray⟩ := by
      rw [define_of_wellFormed (by simp [b]) (by simpa [b] using hr)]
      simp [b, List.set_append_right]
    have hrest := ih (done ++ [r.defined]) (by
      simpa [Nat.add_assoc, Nat.add_comm, Nat.add_left_comm] using hrs)
    rw [definitions, List.foldlM_cons]
    refine bind_eq_ok_iff.mpr ⟨_, hfirst, ?_⟩
    simpa using hrest

/-- A builder whose names are all defined gives the grammar of their rules. -/
theorem Builder.build_defined (rs : List Rule) :
    Builder.build ⟨(rs.map Production.defined).toArray⟩ = .ok ⟨rs.toArray⟩ := by
  refine bind_eq_ok_iff.mpr ⟨rs, mapM_eq_ok_iff.mpr ?_, rfl⟩
  rw [List.forall₂_map_left_iff]
  exact List.forall₂_same.mpr fun _ _ => rfl

/-! ## Productions and grammars -/

/-- The place of a name as a step. -/
def Builder.place (b : Builder) (n : String) : Except GrammarError RuleId :=
  match b.find? n with
  | some id => .ok id
  | none => .error (.undefinedRule n)

/-- What a production defines, by the names that a builder has declared. -/
def Builder.lower (b : Builder) (p : Production String) :
    Except GrammarError (RuleId × Option String × Rhs RuleId) := do
  let rhs ← p.rhs.resolve b.place
  let id ← b.place p.name
  return (id, p.description, rhs)

/-- The stages of making up a grammar. -/
theorem Grammar.ofProductions_eq_ok {ps : List (Production String)} {g : Grammar} :
    ofProductions ps = .ok g ↔ ∃ declared,
      ps.foldlM (fun b p => return (← b.declare p.name).2) Builder.empty = .ok declared ∧
      ∃ lowered, ps.mapM declared.lower = .ok lowered ∧
      ∃ defined, lowered.foldlM (fun b (id, description, rhs) => b.define id description rhs)
        declared = .ok defined ∧ defined.build = .ok g := by
  unfold ofProductions
  simp only [bind_eq_ok_iff]
  rfl

section

variable {b : Builder} {g : Grammar} (hb : b.names.Nodup) (hnames : b.names = g.names)
include hb hnames

theorem Builder.place_eq_ok_iff (n : String) (id : RuleId) :
    b.place n = .ok id ↔ id.index < g.size ∧ g.nameOf id = n := by
  rw [← find?_eq_some_iff hb hnames, place]
  cases b.find? n with
  | none => simp
  | some i => simp

/-- Lowering gives the rule that has this production in a grammar with the same names. -/
theorem Builder.lower_eq_ok_iff {p : Production String} {id : RuleId}
    {description : Option String} {rhs : Rhs RuleId} :
    b.lower p = .ok (id, description, rhs) ↔
      (id.index < g.size ∧ g.nameOf id = p.name) ∧ description = p.description ∧
        (∀ c ∈ rhs.children, c.index < g.size) ∧ rhs.map g.nameOf = p.rhs := by
  have hplace := place_eq_ok_iff hb hnames
  rw [lower, bind_eq_ok_iff, ← hplace, ← Rhs.resolve_eq_ok_iff hplace]
  constructor
  · rintro ⟨rhs', hrhs, h⟩
    obtain ⟨id', hid, hpure⟩ := bind_eq_ok_iff.mp h
    cases hpure
    exact ⟨hid, rfl, hrhs⟩
  · rintro ⟨hid, rfl, hrhs⟩
    exact ⟨rhs, hrhs, bind_eq_ok_iff.mpr ⟨id, hid, rfl⟩⟩

end

/-- The productions of rules in a row are lowered to what these rules define. -/
theorem Builder.forall₂_definitions {b : Builder} {g : Grammar} (hb : b.names.Nodup)
    (hnames : b.names = g.names) (hg : g.WellFormed) (rs : List Rule) :
    ∀ (before : List Rule), g.rules.toList = before ++ rs →
      List.Forall₂ (fun p s => b.lower p = .ok s)
        (rs.map fun r => ⟨r.name, r.description, r.rhs.map g.nameOf⟩)
        (definitions before.length rs) := by
  induction rs with
  | nil => exact fun _ _ => .nil
  | cons r rs ih =>
    intro before hrules
    have hget : g.names[(RuleId.mk before.length).index]? = some r.name := by
      simp [Grammar.names, hrules]
    have hr := hg.rules r (by simp [hrules])
    refine .cons ((lower_eq_ok_iff hb hnames).mpr ⟨?_, rfl, hr.children_lt, rfl⟩) ?_
    · exact Grammar.names_getElem?_eq_some_iff.mp hget
    · have hrest := ih (before ++ [r]) (by simp [hrules])
      simpa using hrest

/-- The productions of a well-formed grammar make it up. -/
theorem Grammar.ofProductions_productions {g : Grammar} (hg : g.WellFormed) :
    ofProductions g.productions = .ok g := by
  have hdeclared : g.productions.map Production.declared =
      g.rules.toList.map Production.declared := by
    simp [productions, Function.comp_def, Production.declared]
  have hnames : Builder.names ⟨(g.rules.toList.map Production.declared).toArray⟩ = g.names := by
    simp [Builder.names, names, Function.comp_def, Production.declared]
  have hnodup : g.names.Nodup := hg.names_nodup
  refine ofProductions_eq_ok.mpr ⟨⟨(g.rules.toList.map Production.declared).toArray⟩, ?_,
    Builder.definitions 0 g.rules.toList, ?_, ⟨(g.rules.toList.map Production.defined).toArray⟩,
    ?_, ?_⟩
  · refine (Builder.declareAll_eq_ok_iff _ ?_).mpr ⟨?_, ?_⟩
    · simp [Builder.empty, Builder.names]
    · simpa [Builder.empty, Builder.names, productions, Function.comp_def] using hg.names_nodup
    · simp [Builder.empty, hdeclared]
  · exact mapM_eq_ok_iff.mpr
      (Builder.forall₂_definitions (hnames ▸ hnodup) hnames hg g.rules.toList [] rfl)
  · refine Builder.defineAll g.rules.toList [] ?_
    simpa [size] using hg.rules
  · simpa using Builder.build_defined g.rules.toList

/-- What is wrong with a right-hand side does not depend on the name of its rule. -/
theorem Rhs.fault?_eq_none_congr {ρ : Type} {n m : String} {rhs : Rhs ρ}
    (h : rhs.fault? n = none) : rhs.fault? m = none := by
  cases rhs with
  | choice branches =>
    rw [fault?_choice_eq_none_iff] at h ⊢
    exact h
  | series s =>
    rw [fault?_series_eq_none_iff] at h ⊢
    exact h
  | _ => rfl

/-- Productions that make up a grammar are those of a well-formed grammar. -/
theorem Grammar.exists_of_ofProductions {ps : List (Production String)} {g : Grammar}
    (h : ofProductions ps = .ok g) : ∃ g' : Grammar, g'.WellFormed ∧ g'.productions = ps := by
  obtain ⟨declared, hdeclared, lowered, hlowered, defined, hdefined, -⟩ := ofProductions_eq_ok.mp h
  have hempty : Builder.empty.names = [] := by simp [Builder.empty, Builder.names]
  obtain ⟨hnodup, rfl⟩ := (Builder.declareAll_eq_ok_iff ps (by simp [hempty])).mp hdeclared
  rw [hempty, List.nil_append] at hnodup
  generalize hb : (⟨_⟩ : Builder) = b at *
  have hbnames : b.names = ps.map Production.name := by
    rw [← hb]
    simp [Builder.names, Builder.empty, Function.comp_def, Production.declared]
  have hrule : ∀ p ∈ ps, ∃ r : Rule, r.name = p.name ∧
      (∃ id, b.lower p = .ok (id, r.description, r.rhs)) ∧ r.rhs.fault? r.name = none ∧
        r.description ≠ some "" := by
    intro p hp
    obtain ⟨⟨id, description, rhs⟩, hs, hlower⟩ :=
      exists_of_mem_right (mapM_eq_ok_iff.mp hlowered).flip hp
    obtain ⟨c, c', hdefine⟩ := forall_of_foldlM_eq_ok lowered hdefined _ hs
    obtain ⟨d, -, hwf, -⟩ := Builder.define_eq_ok hdefine
    exact ⟨⟨p.name, description, rhs⟩, rfl, ⟨id, hlower⟩,
      Rhs.fault?_eq_none_congr hwf.fault?_eq_none, hwf.description_ne⟩
  obtain ⟨rs, hrs⟩ := exists_forall₂ hrule
  let g' : Grammar := ⟨rs.toArray⟩
  have hnames : b.names = g'.names := by
    rw [hbnames]
    exact map_eq_map_of_forall₂ (hrs.imp fun p r hr => hr.1.symm)
  have hspec : List.Forall₂ (fun r p => Production.WellFormed g'.size r ∧
      p = ⟨r.name, r.description, r.rhs.map g'.nameOf⟩) rs ps := by
    refine hrs.flip.imp ?_
    rintro r p ⟨hname, ⟨id, hlower⟩, hfault, hdescription⟩
    obtain ⟨-, hd, hchildren, hrhs⟩ :=
      (Builder.lower_eq_ok_iff (hbnames ▸ hnodup) hnames).mp hlower
    exact ⟨⟨hchildren, hfault, hdescription⟩, by rw [hname, hd, hrhs]⟩
  obtain ⟨hwf, hps⟩ := forall_and_eq_map hspec
  refine ⟨g', ⟨?_, hwf⟩, hps.symm⟩
  rwa [← hbnames, hnames] at hnodup

/-- Productions make up a grammar exactly if they are its productions and it is in order. -/
theorem Grammar.ofProductions_eq_ok_iff {ps : List (Production String)} {g : Grammar} :
    ofProductions ps = .ok g ↔ g.WellFormed ∧ g.productions = ps := by
  constructor
  · intro h
    obtain ⟨g', hg', rfl⟩ := exists_of_ofProductions h
    cases (ofProductions_productions hg').symm.trans h
    exact ⟨hg', rfl⟩
  · rintro ⟨hg, rfl⟩
    exact ofProductions_productions hg

end ChartGrammar
