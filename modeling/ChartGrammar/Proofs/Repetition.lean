/-
  Proofs/Repetition.lean --- repetition by searching is repetition by recursion.

  A rule that means "nothing, or an item and then the rule again" is searched, not run as
  written.  Both ways are compared with a third: `paths` follows every chain of items
  depth first and comes to a position as often as chains lead there.  The search skips
  the positions that it has seen, the recursion drops them afterwards, level by level;
  what is left of the paths is the first one for each end, both times.
-/
import Mathlib.Logic.Relation
import Mathlib.Order.Interval.Finset.Nat
import ChartGrammar.Parser.Bindings
import ChartGrammar.Proofs.ChartCompleteness
import ChartGrammar.Proofs.Simulation

set_option autoImplicit false

namespace ChartGrammar

/-! ## The first result for each end -/

section FirstPerEnd

variable {α β : Type} {seen earlier : Std.HashSet Nat}

theorem firstPerEndFrom_map (f : α → β) (rs : List (Nat × α)) :
    firstPerEndFrom seen (rs.map fun r => (r.1, f r.2)) =
      (firstPerEndFrom seen rs).map fun r => (r.1, f r.2) := by
  induction rs generalizing seen with
  | nil => rfl
  | cons r rs ih =>
    rw [List.map_cons, firstPerEndFrom, firstPerEndFrom]
    split
    · exact ih
    · rw [ih, List.map_cons]

/-- Results whose ends have all been seen count for nothing. -/
theorem firstPerEndFrom_append_of_seen {rs : List (Nat × α)}
    (h : ∀ r ∈ rs, seen.contains r.1 = true) (rest : List (Nat × α)) :
    firstPerEndFrom seen (rs ++ rest) = firstPerEndFrom seen rest := by
  induction rs with
  | nil => rfl
  | cons r rs ih =>
    obtain ⟨hr, hrs⟩ := List.forall_mem_cons.mp h
    rw [List.cons_append, firstPerEndFrom, if_pos hr, ih hrs]

theorem firstPerEndFrom_append_congr {rest rest' : List (Nat × α)}
    (h : ∀ seen, firstPerEndFrom seen rest = firstPerEndFrom seen rest') (rs : List (Nat × α)) :
    firstPerEndFrom seen (rs ++ rest) = firstPerEndFrom seen (rs ++ rest') := by
  induction rs generalizing seen with
  | nil => exact h seen
  | cons r rs ih =>
    rw [List.cons_append, List.cons_append, firstPerEndFrom, firstPerEndFrom, ih, ih]

/-- Taking the first result for each end changes nothing if it is done again later, when no
fewer ends have been seen. -/
theorem firstPerEndFrom_firstPerEndFrom_append
    (hle : ∀ e, earlier.contains e = true → seen.contains e = true) (rs rest : List (Nat × α)) :
    firstPerEndFrom seen (firstPerEndFrom earlier rs ++ rest) =
      firstPerEndFrom seen (rs ++ rest) := by
  induction rs generalizing seen earlier with
  | nil => rfl
  | cons r rs ih =>
    obtain ⟨e, a⟩ := r
    rw [firstPerEndFrom, List.cons_append]
    split
    · next hearlier => rw [firstPerEndFrom, if_pos (hle e hearlier), ih hle]
    · next hearlier =>
      rw [List.cons_append, firstPerEndFrom, firstPerEndFrom]
      split
      · next hseen =>
        refine ih fun e' he' => ?_
        rw [Std.HashSet.contains_insert, Bool.or_eq_true, beq_iff_eq] at he'
        rcases he' with rfl | he'
        · exact hseen
        · exact hle e' he'
      · congr 1
        refine ih fun e' he' => ?_
        rw [Std.HashSet.contains_insert, Bool.or_eq_true] at he' ⊢
        exact he'.imp_right (hle e')

theorem firstPerEndFrom_firstPerEnd_append (rs rest : List (Nat × α)) :
    firstPerEndFrom seen (firstPerEnd rs ++ rest) = firstPerEndFrom seen (rs ++ rest) :=
  firstPerEndFrom_firstPerEndFrom_append (fun e he => by simp at he) rs rest

theorem firstPerEndFrom_firstPerEnd (rs : List (Nat × α)) :
    firstPerEndFrom seen (firstPerEnd rs) = firstPerEndFrom seen rs := by
  simpa only [List.append_nil] using firstPerEndFrom_firstPerEnd_append rs []

theorem firstPerEndFrom_flatMap_firstPerEnd {γ : Type} (f : γ → List (Nat × α)) (as : List γ) :
    firstPerEndFrom seen (as.flatMap fun a => firstPerEnd (f a)) =
      firstPerEndFrom seen (as.flatMap f) := by
  induction as generalizing seen with
  | nil => rfl
  | cons a as ih =>
    rw [List.flatMap_cons, List.flatMap_cons, firstPerEndFrom_firstPerEnd_append]
    exact firstPerEndFrom_append_congr (fun seen => ih) (f a)

end FirstPerEnd

theorem gather_eq_pure {α β : Type} {f : α → ChartM (List β)} {k : α → List β} {as : List α}
    (h : ∀ a ∈ as, f a = pure (k a)) : gather f as = pure (as.flatMap k) := by
  induction as with
  | nil => rfl
  | cons a as ih =>
    obtain ⟨ha, has⟩ := List.forall_mem_cons.mp h
    rw [gather, ha, ih has, pure_bind, pure_bind, List.flatMap_cons]

namespace Repeat

variable {length : Nat} {item : Nat → Results}

/-! ## Paths -/

/-- An item leads from a position to another, or to the same.  Only labelled results are
items. -/
def Step (item : Nat → Results) (i j : Nat) : Prop := ∃ n, (j, .node n) ∈ item i

/-- The positions that items lead to one after another. -/
abbrev Reaches (item : Nat → Results) : Nat → Nat → Prop := Relation.ReflTransGen (Step item)

/-- A list of items that lead from a start to a position, each of them consuming something. -/
inductive Leads (item : Nat → Results) (start : Nat) : List Node → Nat → Prop where
  | start : Leads item start [] start
  | item {ns : List Node} {i j : Nat} {n : Node} (hns : Leads item start ns i)
      (hn : (j, .node n) ∈ item i) (hlt : i < j) : Leads item start (ns ++ [n]) j

/-- A stop and the stops behind it, depth first, each as often as chains of items lead
there. -/
def paths (item : Nat → Results) : Nat → Stop → List Stop
  | 0, _ => []
  | depth + 1, stop => stop :: (onward stop (item stop.1)).flatMap (paths item depth)

/-- No item ends before it starts, or behind the input. -/
def Bounded (length : Nat) (item : Nat → Results) : Prop :=
  ∀ i, ∀ r ∈ item i, i ≤ r.1 ∧ r.1 ≤ length

theorem Bounded.onward (h : Bounded length item) {stop next : Stop}
    (hnext : next ∈ onward stop (item stop.1)) : stop.1 < next.1 ∧ next.1 ≤ length := by
  obtain ⟨n, hn, hne, -⟩ := mem_onward.mp hnext
  obtain ⟨hle, hlength⟩ := h stop.1 _ hn
  exact ⟨Nat.lt_of_le_of_ne hle hne.symm, hlength⟩

/-- Paths are no longer than the input, so there are no more of them on a greater depth. -/
theorem paths_eq_of_lt (hitem : Bounded length item) {depth depth' : Nat} {stop : Stop}
    (h : length - stop.1 < depth) (h' : length - stop.1 < depth') :
    paths item depth stop = paths item depth' stop := by
  induction depth generalizing depth' stop with
  | zero => exact absurd h (Nat.not_lt_zero _)
  | succ depth ih =>
    cases depth' with
    | zero => exact absurd h' (Nat.not_lt_zero _)
    | succ depth' =>
      rw [paths, paths, List.flatMap_congr fun next hnext => ?_]
      have := hitem.onward hnext
      exact ih (by omega) (by omega)

/-- The depth that reaches every path. -/
abbrev allPaths (length : Nat) (item : Nat → Results) : Stop → List Stop :=
  paths item (length + 1)

theorem allPaths_eq (hitem : Bounded length item) (stop : Stop) :
    allPaths length item stop =
      stop :: (onward stop (item stop.1)).flatMap (allPaths length item) := by
  rw [allPaths, paths, List.flatMap_congr fun next hnext => ?_]
  have := hitem.onward hnext
  exact paths_eq_of_lt hitem (by omega) (by omega)

/-- A chain of items that leads away begins with one that consumes something. -/
theorem eq_or_exists_onward {i j : Nat} (h : Reaches item i j) (items : Chain Node) :
    i = j ∨ ∃ next ∈ onward (i, items) (item i), Reaches item next.1 j := by
  induction h using Relation.ReflTransGen.head_induction_on with
  | refl => exact .inl rfl
  | @head i m hstep hrest ih =>
    obtain ⟨n, hn⟩ := hstep
    by_cases hne : m = i
    · cases hne
      exact ih
    · exact .inr ⟨(m, items.snoc n), mem_onward.mpr ⟨n, hn, hne, rfl⟩, hrest⟩

theorem reaches_of_mem_paths {depth : Nat} {stop last : Stop}
    (h : last ∈ paths item depth stop) : Reaches item stop.1 last.1 := by
  induction depth generalizing stop with
  | zero => cases h
  | succ depth ih =>
    rcases List.mem_cons.mp h with rfl | h
    · exact .refl
    · obtain ⟨next, hnext, hlast⟩ := List.mem_flatMap.mp h
      obtain ⟨n, hn, -⟩ := mem_onward.mp hnext
      exact .head ⟨n, hn⟩ (ih hlast)

theorem exists_mem_allPaths (hitem : Bounded length item) {i j : Nat} (h : Reaches item i j)
    (items : Chain Node) : ∃ last ∈ allPaths length item (i, items), last.1 = j := by
  induction h using Relation.ReflTransGen.head_induction_on generalizing items with
  | refl =>
    rw [allPaths_eq hitem]
    exact ⟨_, List.mem_cons_self, rfl⟩
  | @head i m hstep _ ih =>
    obtain ⟨n, hn⟩ := hstep
    by_cases hne : m = i
    · cases hne
      exact ih items
    · obtain ⟨last, hlast, heq⟩ := ih (items.snoc n)
      have hnext : (m, items.snoc n) ∈ onward (i, items) (item i) :=
        mem_onward.mpr ⟨n, hn, hne, rfl⟩
      rw [allPaths_eq hitem]
      exact ⟨last, List.mem_cons_of_mem _ (List.mem_flatMap.mpr ⟨_, hnext, hlast⟩), heq⟩

theorem leads_of_mem_paths (hitem : Bounded length item) {depth start : Nat} {stop last : Stop}
    (hstop : Leads item start stop.2.toList stop.1) (h : last ∈ paths item depth stop) :
    Leads item start last.2.toList last.1 := by
  induction depth generalizing stop with
  | zero => cases h
  | succ depth ih =>
    rcases List.mem_cons.mp h with rfl | h
    · exact hstop
    · obtain ⟨next, hnext, hlast⟩ := List.mem_flatMap.mp h
      refine ih ?_ hlast
      obtain ⟨n, hn, -, hitems⟩ := mem_onward.mp hnext
      rw [hitems, Chain.toList_snoc]
      exact .item hstop hn (hitem.onward hnext).1

/-! ## Searching -/

/-- Whatever can be reached from a position that was seen has been seen, or is still to be
reached from the top of the stack, from a stop above all that are not further on. -/
def Pending (item : Nat → Results) (stack : List Stop) (seen : Std.HashSet Nat) : Prop :=
  ∀ p q, seen.contains p = true → Reaches item p q → seen.contains q = false →
    ∃ next ∈ stack.takeWhile fun stop => p < stop.1, Reaches item next.1 q

section Search

variable {stack rest : List Stop} {stop : Stop} {seen : Std.HashSet Nat}

/-- A stop that has been seen comes up again only when all that it leads to has been seen. -/
theorem Pending.seen_of_reaches (h : Pending item (stop :: rest) seen)
    (hseen : seen.contains stop.1 = true) {q : Nat} (hq : Reaches item stop.1 q) :
    seen.contains q = true := by
  by_contra hunseen
  obtain ⟨next, hnext, -⟩ := h stop.1 q hseen hq (Bool.eq_false_iff.mpr hunseen)
  rw [List.takeWhile_cons_of_neg (by simp)] at hnext
  cases hnext

theorem Pending.skip (h : Pending item (stop :: rest) seen)
    (hseen : seen.contains stop.1 = true) : Pending item rest seen := by
  intro p q hp hpq hq
  obtain ⟨next, hnext, hreaches⟩ := h p q hp hpq hq
  rw [List.takeWhile_cons] at hnext
  split at hnext
  · rcases List.mem_cons.mp hnext with rfl | hnext
    · rw [h.seen_of_reaches hseen hreaches] at hq
      cases hq
    · exact ⟨next, hnext, hreaches⟩
  · cases hnext

/-- After a visit, what the stop leads to is pending at the stops right behind it. -/
theorem Pending.visit (hitem : Bounded length item) (h : Pending item (stop :: rest) seen) :
    Pending item (onward stop (item stop.1) ++ rest) (seen.insert stop.1) := by
  intro p q hp hpq hq
  rw [Std.HashSet.contains_insert, Bool.or_eq_false_iff, beq_eq_false_iff_ne] at hq
  obtain ⟨hne, hq⟩ := hq
  have hfrom : p ≤ stop.1 → ∀ next ∈ stop :: rest.takeWhile (fun s => p < s.1),
      Reaches item next.1 q →
      ∃ next ∈ (onward stop (item stop.1) ++ rest).takeWhile (fun s => p < s.1),
        Reaches item next.1 q := by
    intro hle next hnext hreaches
    rw [List.takeWhile_append_of_pos fun s hs => by
      simpa using Nat.lt_of_le_of_lt hle (hitem.onward hs).1]
    rcases List.mem_cons.mp hnext with rfl | hnext
    · rcases eq_or_exists_onward hreaches next.2 with heq | ⟨next', hnext', hreaches'⟩
      · exact absurd heq hne
      · exact ⟨next', List.mem_append_left _ hnext', hreaches'⟩
    · exact ⟨next, List.mem_append_right _ hnext, hreaches⟩
  rw [Std.HashSet.contains_insert, Bool.or_eq_true, beq_iff_eq] at hp
  rcases hp with rfl | hp
  · exact hfrom le_rfl stop List.mem_cons_self hpq
  · obtain ⟨next, hnext, hreaches⟩ := h p q hp hpq hq
    rw [List.takeWhile_cons] at hnext
    split at hnext
    · next hlt => exact hfrom (of_decide_eq_true hlt).le next hnext hreaches
    · cases hnext

/-- The stops that a search is still to visit. -/
abbrev remaining (length : Nat) (item : Nat → Results) (stack : List Stop)
    (seen : Std.HashSet Nat) : List Stop :=
  firstPerEndFrom seen (stack.flatMap (allPaths length item))

/-- Skipping stops that have been seen loses nothing. -/
theorem Pending.dropWhile (length : Nat) (h : Pending item stack seen) :
    Pending item (stack.dropWhile fun stop => seen.contains stop.1) seen ∧
      remaining length item (stack.dropWhile fun stop => seen.contains stop.1) seen =
        remaining length item stack seen := by
  induction stack with
  | nil => exact ⟨h, rfl⟩
  | cons stop rest ih =>
    rw [List.dropWhile_cons]
    split
    · next hseen =>
      obtain ⟨hpending, heq⟩ := ih (h.skip hseen)
      refine ⟨hpending, heq.trans ?_⟩
      rw [remaining, remaining, List.flatMap_cons]
      refine (firstPerEndFrom_append_of_seen (fun last hlast => ?_) _).symm
      exact h.seen_of_reaches hseen (reaches_of_mem_paths hlast)
    · exact ⟨h, rfl⟩

theorem remaining_cons (hitem : Bounded length item) (hseen : seen.contains stop.1 = false) :
    remaining length item (stop :: rest) seen =
      stop :: remaining length item (onward stop (item stop.1) ++ rest) (seen.insert stop.1) := by
  rw [remaining, List.flatMap_cons, allPaths_eq hitem, List.cons_append, firstPerEndFrom,
    if_neg (Bool.eq_false_iff.mp hseen), ← List.flatMap_append]

/-- A search visits the first stop of each position, in the order in which paths come to
them. -/
theorem search_eq (hitem : Bounded length item) {room : Nat} {visited : List Stop}
    (hpending : Pending item stack seen)
    (hroom : (remaining length item stack seen).length ≤ room) :
    search (fun i => pure (item i)) room stack seen visited =
      pure (visited.reverse ++ remaining length item stack seen) := by
  have hdropped := hpending.dropWhile length
  fun_induction search (fun i => (pure (item i) : ChartM Results)) room stack seen visited with
  | case1 room stack seen visited hdrop =>
    rw [hdrop] at hdropped
    rw [← hdropped.2, remaining, List.flatMap_nil, firstPerEndFrom, List.append_nil]
  | case2 stack seen visited stop rest hdrop =>
    rw [hdrop, remaining_cons hitem (dropWhile_eq_cons stack hdrop).1] at hdropped
    rw [← hdropped.2] at hroom
    exact absurd hroom (Nat.not_succ_le_zero _)
  | case3 stack seen visited stop rest hdrop room ih =>
    rw [hdrop, remaining_cons hitem (dropWhile_eq_cons stack hdrop).1] at hdropped
    rw [← hdropped.2] at hroom ⊢
    have hvisit := hdropped.1.visit hitem
    rw [pure_bind, ih _ hvisit (Nat.le_of_succ_le_succ hroom) (hvisit.dropWhile length),
      List.reverse_cons, List.append_assoc, List.singleton_append]

end Search

/-- The stops of a repetition: the first one of each position that items lead to. -/
abbrev stops (length : Nat) (item : Nat → Results) (start : Nat) : List Stop :=
  firstPerEnd (allPaths length item (start, .empty))

theorem mem_stops {start : Nat} {stop : Stop} (hitem : Bounded length item)
    (h : stop ∈ stops length item start) :
    Reaches item start stop.1 ∧ Leads item start stop.2.toList stop.1 := by
  have hpath := mem_of_mem_firstPerEnd h
  exact ⟨reaches_of_mem_paths hpath, leads_of_mem_paths hitem .start hpath⟩

theorem Leads.bounded (hitem : Bounded length item) {start j : Nat} {ns : List Node}
    (h : Leads item start ns j) : j = start ∨ start < j ∧ j ≤ length := by
  induction h with
  | start => exact .inl rfl
  | item _ hn hlt ih =>
    have hlength := (hitem _ _ hn).2
    refine .inr ⟨?_, hlength⟩
    omega

/-- There is room for all the stops of a repetition. -/
theorem length_stops_le (hitem : Bounded length item) (start : Nat) :
    (stops length item start).length ≤ length + 1 := by
  have hnodup : ((stops length item start).map Prod.fst).Nodup :=
    (nodup_firstPerEndFrom _ ∅).1
  have hsub : ((stops length item start).map Prod.fst).toFinset ⊆
      insert start (Finset.Ioc start length) := by
    intro j hj
    obtain ⟨stop, hstop, rfl⟩ := List.mem_map.mp (List.mem_toFinset.mp hj)
    rw [Finset.mem_insert, Finset.mem_Ioc]
    exact (mem_stops hitem hstop).2.bounded hitem
  have hcard := (Finset.card_le_card hsub).trans (Finset.card_insert_le _ _)
  rw [List.toFinset_card_of_nodup hnodup, List.length_map, Nat.card_Ioc] at hcard
  omega

/-- Repeating an item gives the list at the first stop of each position. -/
theorem repeatItem_eq (hitem : Bounded length item) (start : Nat) :
    repeatItem length (fun i => pure (item i)) start =
      pure ((stops length item start).map fun stop => (stop.1, .list stop.2)) := by
  have hpending : Pending item [(start, .empty)] ∅ := by
    intro p q hp
    simp at hp
  have hstart : remaining length item [(start, .empty)] ∅ = stops length item start := by
    rw [remaining, List.flatMap_singleton, stops, firstPerEnd]
  rw [repeatItem, search_eq hitem hpending (by rw [hstart]; exact length_stops_le hitem start),
    pure_bind, hstart, List.reverse_nil, List.nil_append]

/-! ## Running as written -/

/-- The rule of a repetition, run as it is written: a reference to the rule itself runs it
again, at most `depth` levels deep, and any other reference finds the item. -/
def recursively (input : Array Token) (item : Nat → Results) (h list : Handle) :
    Nat → Nat → ChartM Results
  | 0, _ => failure
  | depth + 1, start =>
    eval input
      (fun h' i => if h' = list then recursively input item h list depth i else pure (item i))
      (.listOf h list) start

/-- If every item consumes something, all labelled results are gone on from. -/
theorem onward_eq {stop : Stop} {found : Results} (h : ∀ r ∈ found, r.1 ≠ stop.1) :
    onward stop found = found.nodes.map fun r => (r.1, stop.2.snoc r.2) := by
  induction found with
  | nil => rfl
  | cons r found ih =>
    obtain ⟨hr, hfound⟩ := List.forall_mem_cons.mp h
    obtain ⟨e, d⟩ := r
    have ih := ih hfound
    unfold onward Results.nodes at ih ⊢
    cases d with
    | node n => simp only [List.filterMap_cons, if_neg hr, List.map_cons, ih]
    | _ => simp only [List.filterMap_cons, ih]

theorem onward_cons (i : Nat) (items : Chain Node) (n : Node) (found : Results) :
    onward (i, items.cons n) found =
      (onward (i, items) found).map fun stop => (stop.1, stop.2.cons n) := by
  unfold onward
  rw [List.map_filterMap]
  refine List.filterMap_congr fun r _ => ?_
  obtain ⟨e, d⟩ := r
  cases d with
  | node m =>
    dsimp only
    split <;> rfl
  | _ => rfl

/-- An item in front of a chain stands in front of all that the chain goes on to. -/
theorem paths_cons (depth i : Nat) (items : Chain Node) (n : Node) :
    paths item depth (i, items.cons n) =
      (paths item depth (i, items)).map fun stop => (stop.1, stop.2.cons n) := by
  induction depth generalizing i items with
  | zero => rfl
  | succ depth ih =>
    rw [paths, paths, List.map_cons, onward_cons, List.flatMap_map, List.map_flatMap]
    congr 1
    exact List.flatMap_congr fun stop _ => ih stop.1 stop.2

theorem allPaths_empty (hitem : Bounded length item) (hstrict : ∀ i, ∀ r ∈ item i, r.1 ≠ i)
    (start : Nat) :
    allPaths length item (start, .empty) = (start, .empty) :: (item start).nodes.flatMap fun r =>
      (allPaths length item (r.1, .empty)).map fun stop => (stop.1, stop.2.cons r.2) := by
  rw [allPaths_eq hitem, onward_eq (hstrict start), List.flatMap_map]
  congr 1
  exact List.flatMap_congr fun r _ => paths_cons (length + 1) r.1 .empty r.2

theorem lists_map_list (rs : List (Nat × Chain Node)) :
    Results.lists (rs.map fun r => (r.1, .list r.2)) = rs := by
  rw [Results.lists, List.filterMap_map]
  exact List.filterMap_some

/-- One level of the rule: dropping what comes again at each level drops no more and no less
than dropping it at the end. -/
theorem stops_eq (hitem : Bounded length item) (hstrict : ∀ i, ∀ r ∈ item i, r.1 ≠ i)
    (start : Nat) :
    (stops length item start).map (fun stop => (stop.1, Deriv.list stop.2)) =
      firstPerEnd ([(start, .list .empty)] ++ firstPerEnd ((item start).nodes.flatMap fun r =>
        (stops length item r.1).map fun stop => (stop.1, .list (stop.2.cons r.2)))) := by
  have hstops : ∀ i (f : Chain Node → Deriv),
      (stops length item i).map (fun stop => (stop.1, f stop.2)) =
        firstPerEnd ((allPaths length item (i, .empty)).map fun stop => (stop.1, f stop.2)) :=
    fun i f => (firstPerEndFrom_map f _).symm
  have hlevel : ∀ seen, firstPerEndFrom seen (firstPerEnd ((item start).nodes.flatMap fun r =>
        (stops length item r.1).map fun stop => (stop.1, Deriv.list (stop.2.cons r.2)))) =
      firstPerEndFrom seen ((item start).nodes.flatMap fun r =>
        (allPaths length item (r.1, .empty)).map fun stop =>
          (stop.1, Deriv.list (stop.2.cons r.2))) := by
    intro seen
    rw [firstPerEndFrom_firstPerEnd,
      List.flatMap_congr fun r _ => hstops r.1 fun items => .list (items.cons r.2)]
    exact firstPerEndFrom_flatMap_firstPerEnd _ _
  rw [hstops start .list, firstPerEnd, firstPerEnd, firstPerEndFrom_append_congr hlevel,
    allPaths_empty hitem hstrict, List.map_cons, List.map_flatMap, List.singleton_append]
  simp only [List.map_map, Function.comp_def]

/-- Run as written, the rule finds the list at the first stop of each position too. -/
theorem recursively_eq (input : Array Token) {h list : Handle} (hne : h ≠ list)
    (hitem : Bounded length item) (hstrict : ∀ i, ∀ r ∈ item i, r.1 ≠ i) {depth start : Nat}
    (hdepth : length - start < depth) :
    recursively input item h list depth start =
      pure ((stops length item start).map fun stop => (stop.1, .list stop.2)) := by
  induction depth generalizing start with
  | zero => exact absurd hdepth (Nat.not_lt_zero _)
  | succ depth ih =>
    have hrest : ∀ r ∈ (item start).nodes,
        recursively input item h list depth r.1 =
          pure ((stops length item r.1).map fun stop => (stop.1, .list stop.2)) := by
      intro r hr
      have hmem := mem_nodes.mp hr
      have := hitem start _ hmem
      have := hstrict start _ hmem
      exact ih (by omega)
    rw [stops_eq hitem hstrict]
    simp only [recursively, Expr.listOf, eval, evalPair, pure_bind, if_true, if_neg hne]
    rw [gather_eq_pure (k := fun r => (stops length item r.1).map fun stop =>
      (stop.1, .list (stop.2.cons r.2))) fun r hr => by
        rw [hrest r hr, pure_bind, lists_map_list], pure_bind, pure_bind]

end Repeat

theorem evalBody_listOf (input : Array Token) (call : Handle → Nat → ChartM Results)
    (h list : Handle) (start : Nat) :
    evalBody input call list (.listOf h list) start = repeatItem input.size (call h) start := by
  have hitem : repeatedItem? list (.listOf h list) = some (.ref h) := if_pos rfl
  have heval : eval input call (.ref h) = call h := by
    funext i
    rw [eval]
  rw [evalBody, hitem, ← heval]

/-- Let an item never end before it starts, or behind the input.  Repeating it from any start
finds exactly the positions that items lead to, each of them once and with a list of items
that lead there, each consuming something.  That is how the rule of a repetition is run; and
if every item consumes something, running the rule as it is written finds the same: the same
ends in the same order with the same lists. -/
theorem repeatItem_agrees {input : Array Token} {item : Nat → Results}
    (hitem : ∀ i, ∀ r ∈ item i, i ≤ r.1 ∧ r.1 ≤ input.size) (start : Nat) :
    ∃ found, repeatItem input.size (fun i => pure (item i)) start = pure found ∧
      (found.map Prod.fst).Nodup ∧
      (∀ stop, found.Reach stop ↔ Relation.ReflTransGen (Repeat.Step item) start stop) ∧
      (∀ stop d, (stop, d) ∈ found →
        ∃ items, d = .list items ∧ Repeat.Leads item start items.toList stop) ∧
      ∀ h list, h ≠ list →
        evalBody input (fun _ i => pure (item i)) list (.listOf h list) start = pure found ∧
        ((∀ i, ∀ r ∈ item i, r.1 ≠ i) → ∀ depth, input.size - start < depth →
          Repeat.recursively input item h list depth start = pure found) := by
  refine ⟨_, Repeat.repeatItem_eq hitem start, ?_, ?_, ?_, ?_⟩
  · rw [List.map_map]
    exact (nodup_firstPerEndFrom _ ∅).1
  · intro stop
    constructor
    · rintro ⟨d, hd⟩
      obtain ⟨last, hlast, heq⟩ := List.mem_map.mp hd
      cases heq
      exact (Repeat.mem_stops hitem hlast).1
    · intro hreaches
      obtain ⟨last, hlast, rfl⟩ := Repeat.exists_mem_allPaths hitem hreaches .empty
      obtain ⟨items, hitems⟩ := exists_mem_firstPerEnd hlast
      exact ⟨.list items, List.mem_map.mpr ⟨_, hitems, rfl⟩⟩
  · intro stop d hd
    obtain ⟨last, hlast, heq⟩ := List.mem_map.mp hd
    cases heq
    exact ⟨last.2, rfl, (Repeat.mem_stops hitem hlast).2⟩
  · intro h list hne
    refine ⟨?_, fun hstrict depth hdepth => ?_⟩
    · rw [evalBody_listOf, Repeat.repeatItem_eq hitem]
    · exact Repeat.recursively_eq input hne hitem hstrict hdepth

/-- An item that reaches some of three positions in several ways. -/
def Repeat.branching : Nat → Results
  | 0 => [(2, letter 'a'), (1, letter 'b')]
  | 1 => [(2, letter 'c'), (3, letter 'd')]
  | 2 => [(3, letter 'e')]
  | _ => []
where
  letter (ch : Char) : Deriv := .node (.mk (.terminal "letter") (.token ⟨ch, .start⟩))

theorem Repeat.lt_and_le_of_mem_branching {i : Nat} {r : Nat × Deriv} (h : r ∈ branching i) :
    i < r.1 ∧ r.1 ≤ 3 := by
  unfold branching at h
  split at h
  · rcases List.mem_pair.mp h with rfl | rfl <;> decide
  · rcases List.mem_pair.mp h with rfl | rfl <;> decide
  · rw [List.mem_singleton.mp h]
    decide
  · cases h

/-- Of the two ways to the second position and the three ways to the third, the search keeps
those that begin with the item found first. -/
theorem repeatItem_agrees_branching :
    let input := (Token.stream "xyz").toArray
    (∀ i, ∀ r ∈ Repeat.branching i, i ≤ r.1 ∧ r.1 ≤ input.size) ∧
      (∀ i, ∀ r ∈ Repeat.branching i, r.1 ≠ i) ∧
      ((Repeat.recursively input Repeat.branching ⟨0⟩ ⟨1⟩ 4 0).run {}).map
        (fun found => found.1.map Prod.fst) = some [0, 2, 3, 1] := by
  intro input
  have hsize : input.size = 3 := by cbv
  have hitem : ∀ i, ∀ r ∈ Repeat.branching i, i ≤ r.1 ∧ r.1 ≤ input.size := by
    intro i r hr
    obtain ⟨hlt, hle⟩ := Repeat.lt_and_le_of_mem_branching hr
    exact ⟨hlt.le, hsize ▸ hle⟩
  have hstrict : ∀ i, ∀ r ∈ Repeat.branching i, r.1 ≠ i :=
    fun i r hr => (Repeat.lt_and_le_of_mem_branching hr).1.ne'
  obtain ⟨found, hfound, -, -, -, hagrees⟩ := repeatItem_agrees hitem 0
  have hwritten := (hagrees ⟨0⟩ ⟨1⟩ (by decide)).2 hstrict 4 (by rw [hsize]; decide)
  refine ⟨hitem, hstrict, ?_⟩
  rw [hwritten, ← hfound, hsize]
  cbv

end ChartGrammar
