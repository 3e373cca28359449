/-
  Proofs/Lookahead.lean --- a failure depends on nothing behind the place where it is reported.

  Tokens are looked at only by rules that read them, and such a rule leaves a trace of how far
  it looked: the end that it found, or what it expected.  Its results depend on no other rule,
  so they are never forgotten, and the furthest expectation only grows.  So the chart that a
  run leaves shows the furthest token that was looked at, whatever else was forgotten on the
  way.  Where a failure is reported, no token behind that place was looked at, and a run on any
  other input that agrees up to there takes the same steps.
-/
import Mathlib
import ChartGrammar.Proofs.ParserVerdicts
import ChartGrammar.Proofs.Retracing

set_option autoImplicit false

namespace ChartGrammar

open ChartM Watch

/-! ## Rules that read tokens -/

/-- The body of a rule that reads tokens: one that passes a test, or those of a literal. -/
inductive Expr.Reads : Expr Handle → Prop where
  | terminal (title rule : String) (p : Predicate) :
    Reads (.label title (.map (.terminal rule) (.matchOne p)))
  | series (title rule literal : String) :
    Reads (.label title (.map (.series rule) (.symbol literal)))

/-- A handle whose rule reads tokens. -/
def Registry.Reader (rules : Registry) (h : Handle) : Prop :=
  ∃ body, rules.get? h = some body ∧ body.Reads

theorem Chart.SameEntries.trans {c d e : Chart} (h : c.SameEntries d) (h' : d.SameEntries e) :
    c.SameEntries e :=
  ⟨h'.finished.trans h.finished, h'.growing.trans h.growing, h'.provisional.trans h.provisional,
    h'.deps.trans h.deps⟩

section Reads

variable {input input' : Array Token} {call call' : Handle → Nat → ChartM Results}

/-- A literal is missed at its start or behind it. -/
theorem le_of_spell_eq_error {cs : List Char} {s far : Nat} (h : spell input cs s = .error far) :
    s ≤ far := by
  induction cs generalizing s with
  | nil => cases h
  | cons c cs ih =>
    simp only [spell] at h
    split at h
    · split at h
      · split at h
        · cases h
        · next hrest =>
          cases h
          exact Nat.le_of_succ_le (ih hrest)
      · cases h
        exact Nat.le_refl _
    · cases h
      exact Nat.le_refl _

/-- A literal is found, or missed, by the tokens up to its end, or up to where it is missed. -/
theorem spell_congr {limit : Nat} (hsame : ∀ i ≤ limit, input'[i]? = input[i]?) {cs : List Char}
    {s : Nat} (hok : ∀ ts, spell input cs s = .ok ts → s + ts.length ≤ limit)
    (herror : ∀ far, spell input cs s = .error far → far ≤ limit) :
    spell input' cs s = spell input cs s := by
  induction cs generalizing s with
  | nil => rfl
  | cons c cs ih =>
    have hs : s ≤ limit := by
      cases hspell : spell input (c :: cs) s with
      | ok ts => exact Nat.le_of_add_right_le (hok ts hspell)
      | error far => exact (le_of_spell_eq_error hspell).trans (herror far hspell)
    simp only [spell, hsame s hs] at hok herror ⊢
    split
    · next t ht =>
      simp only [ht] at hok herror
      split
      · next hchar =>
        simp only [hchar, if_true] at hok herror
        rw [ih]
        · intro ts hts
          simp only [hts] at hok
          have := hok _ rfl
          rw [List.length_cons] at this
          omega
        · intro far hfar
          simp only [hfar] at herror
          exact herror _ rfl
      · rfl
    · rfl

variable {title what : String} {ctor : Constructor} {e : Expr Handle} {s pos : Nat}

/-- A constructor that accepts what was read labels it. -/
theorem eval_label_of_found {d : Deriv} (h : eval input call e s = pure [(pos, d)])
    (hfits : ctor.fits d = true) :
    eval input call (.label title (.map ctor e)) s = pure [(pos, .node (.mk ctor d))] := by
  rw [eval, eval, h]
  simp [construct, hfits, Node.make?]

/-- What was missed is noted, and then the rule that missed it. -/
theorem eval_label_of_missing (h : eval input call e s = missing pos what) (c : Chart) :
    (eval input call (.label title (.map ctor e)) s).run c =
      some ([], (c.expect pos what).expect s title) := by
  rw [eval, eval, h]
  rfl

theorem eval_label_congr (h : eval input' call' e s = eval input call e s) :
    eval input' call' (.label title (.map ctor e)) s =
      eval input call (.label title (.map ctor e)) s := by
  rw [eval, eval, eval, eval, h]

/-- Running a body at a start ends, changes nothing but notes, and looks no further than the
notes and the results show. -/
def ShowsHowFar (input : Array Token) (call : Handle → Nat → ChartM Results)
    (body : Expr Handle) (s : Nat) : Prop :=
  ∀ c : Chart, ∃ rs d, (eval input call body s).run c = some (rs, d) ∧ c.SameEntries d ∧
    c.furthest ≤ d.furthest ∧ ∀ limit, d.furthest ≤ limit → Within limit rs →
      ∀ input' call', (∀ i ≤ limit, input'[i]? = input[i]?) →
        eval input' call' body s = eval input call body s

theorem showsHowFar_of_found {d : Deriv} (h : eval input call e s = pure [(pos, d)])
    (hfits : ctor.fits d = true)
    (hsame : ∀ limit, pos ≤ limit → ∀ input' call', (∀ i ≤ limit, input'[i]? = input[i]?) →
      eval input' call' e s = eval input call e s) :
    ShowsHowFar input call (.label title (.map ctor e)) s := by
  intro c
  refine ⟨[(pos, .node (.mk ctor d))], c, ?_, ⟨rfl, rfl, rfl, rfl⟩, Nat.le_refl _, ?_⟩
  · rw [eval_label_of_found h hfits]
    rfl
  · intro limit _ hends input' call' hagree
    exact eval_label_congr (hsame limit (hends _ (List.mem_singleton_self _)) input' call' hagree)

theorem showsHowFar_of_missing (h : eval input call e s = missing pos what)
    (hsame : ∀ limit, pos ≤ limit → ∀ input' call', (∀ i ≤ limit, input'[i]? = input[i]?) →
      eval input' call' e s = eval input call e s) :
    ShowsHowFar input call (.label title (.map ctor e)) s := by
  intro c
  have hfirst := c.furthest_le_expect pos what
  have hsecond := ((c.expect pos what).furthest_le_expect s title).1
  refine ⟨[], _, eval_label_of_missing h c, ?_, hfirst.1.trans hsecond, ?_⟩
  · exact (c.sameEntries_expect pos what).trans ((c.expect pos what).sameEntries_expect s title)
  · intro limit hfar _ input' call' hagree
    exact eval_label_congr (hsame limit (hfirst.2.trans (hsecond.trans hfar)) input' call' hagree)

/-- A rule that tests a token looks at no other one. -/
theorem showsHowFar_terminal (rule : String) (p : Predicate) :
    ShowsHowFar input call (.label title (.map (.terminal rule) (.matchOne p))) s := by
  have hsame : ∀ limit, s ≤ limit → ∀ (input' : Array Token) call',
      (∀ i ≤ limit, input'[i]? = input[i]?) →
      eval input' call' (.matchOne p) s = eval input call (.matchOne p) s := by
    intro limit hs input' call' hagree
    rw [eval, eval, hagree s hs]
  have hmissing : eval input call (.matchOne p) s = missing s p.render →
      ShowsHowFar input call (.label title (.map (.terminal rule) (.matchOne p))) s :=
    fun h => showsHowFar_of_missing h hsame
  cases ht : input[s]? with
  | none => exact hmissing (by rw [eval, ht])
  | some t =>
    by_cases htest : p.test t.char = true
    · have hfound : eval input call (.matchOne p) s = pure [(s + 1, .token t)] := by
        rw [eval, ht]
        exact if_pos htest
      exact showsHowFar_of_found hfound rfl fun limit hs => hsame limit (Nat.le_of_succ_le hs)
    · refine hmissing ?_
      rw [eval, ht]
      exact if_neg htest

/-- A rule for a literal looks at the tokens that it finds, or up to the one that it misses. -/
theorem showsHowFar_series (rule literal : String) :
    ShowsHowFar input call (.label title (.map (.series rule) (.symbol literal))) s := by
  have hsame : ∀ limit,
      (∀ ts, spell input literal.toList s = .ok ts → s + ts.length ≤ limit) →
      (∀ far, spell input literal.toList s = .error far → far ≤ limit) →
      ∀ (input' : Array Token) call', (∀ i ≤ limit, input'[i]? = input[i]?) →
      eval input' call' (.symbol literal) s = eval input call (.symbol literal) s := by
    intro limit hok herror input' call' hagree
    rw [eval, eval, spell_congr hagree hok herror]
  cases hspell : spell input literal.toList s with
  | ok ts =>
    have hfound : eval input call (.symbol literal) s =
        pure [(s + ts.length, .tokens ts)] := by rw [eval, hspell]
    refine showsHowFar_of_found hfound rfl fun limit hend => hsame limit (fun ts' hts' => ?_)
      fun far hfar => ?_
    · cases hspell.symm.trans hts'
      exact hend
    · rw [hspell] at hfar
      cases hfar
  | error far =>
    have hmissed : eval input call (.symbol literal) s = missing far (Text.quote literal) := by
      rw [eval, hspell]
    refine showsHowFar_of_missing hmissed fun limit hend => hsame limit (fun ts hts => ?_)
      fun far' hfar' => ?_
    · rw [hspell] at hts
      cases hts
    · cases hspell.symm.trans hfar'
      exact hend

/-- A rule that reads tokens shows how far it looked. -/
theorem Expr.Reads.showsHowFar {body : Expr Handle} (h : body.Reads) :
    ShowsHowFar input call body s := by
  cases h with
  | terminal title rule p => exact showsHowFar_terminal rule p
  | series title rule literal => exact showsHowFar_series rule literal

end Reads

/-! ## Charts of readers -/

namespace Chart

variable {c d : Chart} {key : Key}

theorem lookup_leave (c : Chart) (key : Key) (outer : List Key) (results : Results)
    (deps : List Key) (k : Key) : (c.leave key outer results deps).finished[k]? =
      if key = k then some ⟨results, deps⟩ else c.finished[k]? := by
  have hleave : (c.leave key outer results deps).finished =
      (c.settle key).finished.insert key ⟨results, deps⟩ := rfl
  rw [hleave, lookup_insert, (sameEntries_settle c key).finished]

theorem furthest_leave (c : Chart) (key : Key) (outer : List Key) (results : Results)
    (deps : List Key) : (c.leave key outer results deps).furthest = c.furthest := by
  have hleave : (c.leave key outer results deps).furthest = (c.settle key).furthest := rfl
  rw [hleave, settle]
  split
  · split <;> rfl
  · rfl

/-- Reading what is remembered changes neither finished results nor notes. -/
theorem finished_of_remembered {results : Results} (h : c.remembered? key = some (results, d)) :
    d.finished = c.finished ∧ d.furthest = c.furthest := by
  unfold remembered? at h
  split at h
  · cases h
    exact ⟨rfl, rfl⟩
  · split at h
    · cases h
      exact ⟨rfl, rfl⟩
    · cases h

end Chart

section Watch

variable {rules : Registry} {limit size : Nat} {c d : Chart}

/-- The results of readers depend on nothing. -/
def Chart.Steady (rules : Registry) (c : Chart) : Prop :=
  ∀ (k : Key) entry, rules.Reader k.handle → c.finished[k]? = some entry → entry.deps = []

/-- The results of readers are kept, and what is expected is expected no earlier. -/
structure Chart.Later (rules : Registry) (c d : Chart) : Prop where
  furthest : c.furthest ≤ d.furthest
  kept : ∀ (k : Key) entry, rules.Reader k.handle → c.finished[k]? = some entry →
    d.finished[k]? = some entry

/-- Nothing shows that a reader looked behind the limit. -/
structure Chart.Near (rules : Registry) (limit : Nat) (c : Chart) : Prop where
  furthest : c.furthest ≤ limit
  ends : ∀ (k : Key) entry, rules.Reader k.handle → c.finished[k]? = some entry →
    Within limit entry.results

theorem Chart.Later.refl (c : Chart) : c.Later rules c :=
  ⟨Nat.le_refl _, fun _ _ _ h => h⟩

theorem Chart.Later.trans {e : Chart} (hcd : c.Later rules d) (hde : d.Later rules e) :
    c.Later rules e :=
  ⟨hcd.furthest.trans hde.furthest,
    fun k entry hk h => hde.kept k entry hk (hcd.kept k entry hk h)⟩

/-- What was shown before is still shown later. -/
theorem Chart.Later.near (h : c.Later rules d) (hd : d.Near rules limit) : c.Near rules limit :=
  ⟨h.furthest.trans hd.furthest, fun k entry hk hc => hd.ends k entry hk (h.kept k entry hk hc)⟩

/-- Charts with the same finished results, the second with later notes. -/
theorem Chart.Steady.of_finished_eq (hc : c.Steady rules) (hfinished : d.finished = c.finished)
    (hfar : c.furthest ≤ d.furthest) : d.Steady rules ∧ c.Later rules d := by
  refine ⟨fun k entry hk hentry => ?_, hfar, fun k entry _ hentry => ?_⟩
  · rw [hfinished] at hentry
    exact hc k entry hk hentry
  · rwa [hfinished]

theorem Chart.Steady.enter (hc : c.Steady rules) (key : Key) :
    (c.enter key).Steady rules ∧ c.Later rules (c.enter key) :=
  hc.of_finished_eq rfl (Nat.le_refl _)

/-- What is watched to compare a run on one input with a run on another one of the given
size. -/
def Registry.watch (rules : Registry) (limit size : Nat) : Watch where
  steady := Chart.Steady rules
  later := Chart.Later rules
  near := Chart.Near rules limit
  held := Chart.Holds (fun _ _ rs => Within size rs) fun _ => True
  refl := Chart.Later.refl
  trans := Chart.Later.trans
  near_of_later := Chart.Later.near
  note hsame hfar hc := by
    obtain ⟨hsteady, hlater⟩ := hc.of_finished_eq hsame.finished hfar
    refine ⟨hsteady, hlater, fun h => ⟨?_, ?_, trivial⟩⟩
    · rw [hsame.finished]
      exact h.finished
    · rw [hsame.growing]
      exact h.growing

/-- Another round forgets no results of readers. -/
theorem Chart.Steady.regrow (hc : c.Steady rules) (key : Key) (results : Results)
    (deps : List Key) :
    (c.regrow key results deps).Steady rules ∧ c.Later rules (c.regrow key results deps) := by
  refine ⟨fun k entry hk hentry => hc k entry hk (Chart.finished_of_forget hentry),
    Nat.le_refl _, fun k entry hk hentry => ?_⟩
  refine ((Chart.lookup_forget _ key k).1 entry).mpr ⟨hentry, fun _ => ?_⟩
  rw [hc k entry hk hentry]
  exact List.not_mem_nil

/-- The same is watched, with another way to tell that a run stayed near. -/
def Registry.watchFor (rules : Registry) (size : Nat) (near : Chart → Prop)
    (hnear : ∀ {c d : Chart}, c.Later rules d → near d → near c) : Watch :=
  { rules.watch 0 size with near := near, near_of_later := hnear }

variable {near : Chart → Prop} {hnear : ∀ {c d : Chart}, c.Later rules d → near d → near c}

theorem retraces_growRound {key : Key} {body body' : ChartM Results}
    (hbody : (rules.watchFor size near hnear).Retraces (key.start ≤ size) body body'
      (Within size)) :
    (rules.watchFor size near hnear).Retraces (key.start ≤ size) (growRound key body)
      (growRound key body') fun answer => ∀ a, answer = some a → Within size a.1 := by
  refine retraces_bind hbody fun results => ?_
  refine retraces_bind (retraces_modifyGet fun c hc => ?_) fun deps => ?_
  · have hread : Chart.Steady rules { c with deps := [] } ∧ c.Later rules { c with deps := [] } :=
      Chart.Steady.of_finished_eq hc rfl (Nat.le_refl _)
    exact ⟨hread.1, hread.2, fun h _ => ⟨h.finished, h.growing, trivial⟩⟩
  · refine retraces_bind retraces_get fun c => ?_
    split
    · refine retraces_bind (retraces_modify fun c hc => ?_) fun _ => retraces_pure ?_
      · obtain ⟨hsteady, hlater⟩ := Chart.Steady.regrow hc key results deps
        exact ⟨hsteady, hlater, fun h hpre => h.regrow deps hpre.1.1.2⟩
      · intro _ a ha
        cases ha
    · refine retraces_pure fun hpre a ha => ?_
      cases ha
      exact hpre.1.1.2

end Watch

/-! ## Calls -/

section Call

variable {rules : Registry} {input input' : Array Token} {limit fuel : Nat} {h : Handle} {s : Nat}
  {c : Chart} {body : Expr Handle}

/-- A rule that reads tokens settles in its first round and depends on nothing. -/
theorem run_call_of_reads (hfresh : c.remembered? ⟨h, s⟩ = none) (hbody : rules.get? h = some body)
    (hreads : body.Reads) {rs : Results} {d : Chart}
    (hrun : (eval input (call rules input fuel) body s).run (c.enter ⟨h, s⟩) = some (rs, d))
    (hsame : (c.enter ⟨h, s⟩).SameEntries d) :
    (call rules input (fuel + 1) h s).run c = some (rs, d.leave ⟨h, s⟩ c.deps rs []) := by
  have hplain : evalBody input (call rules input fuel) h body s =
      eval input (call rules input fuel) body s := by
    cases hreads <;> rfl
  refine run_call_of_unread hfresh hbody (hplain ▸ hrun) hsame.deps fun growth hgrow => ?_
  rw [hsame.growing, Chart.enter, lookup_insert, if_pos rfl] at hgrow
  cases hgrow
  rfl

/-- A chart of which nothing is remembered of a key has no finished results of it. -/
theorem Chart.finished_of_fresh {key : Key} (hfresh : c.remembered? key = none) :
    c.finished[key]? = none := by
  unfold remembered? at hfresh
  split at hfresh
  · cases hfresh
  · assumption

/-- Finishing a rule keeps the results of readers, if the rule is no reader, or if it depends
on nothing and nothing was known of it. -/
theorem Chart.Steady.leave {d : Chart} (key : Key) {outer deps : List Key} {results : Results}
    (hd : d.Steady rules) (hlater : c.Later rules d)
    (hkey : rules.Reader key.handle → deps = [] ∧ c.finished[key]? = none) :
    (d.leave key outer results deps).Steady rules ∧
      c.Later rules (d.leave key outer results deps) := by
  refine ⟨fun k entry hk hentry => ?_, ?_, fun k entry hk hentry => ?_⟩
  · rw [lookup_leave] at hentry
    split at hentry
    · next heq =>
      cases hentry
      exact (hkey (heq ▸ hk)).1
    · exact hd k entry hk hentry
  · rw [furthest_leave]
    exact hlater.furthest
  · rw [lookup_leave, if_neg]
    · exact hlater.kept k entry hk hentry
    · rintro rfl
      rw [(hkey hk).2] at hentry
      cases hentry

/-- A chart that is near once a rule has left it was near before, and the results of the rule
are near if it is a reader. -/
theorem Chart.Near.of_leave {d : Chart} {key : Key} {outer deps : List Key} {results : Results}
    (h : (d.leave key outer results deps).Near rules limit) :
    d.furthest ≤ limit ∧ (rules.Reader key.handle → Within limit results) := by
  refine ⟨furthest_leave d key outer results deps ▸ h.furthest, fun hkey => ?_⟩
  exact h.ends key ⟨results, deps⟩ hkey finished_leave

/-- The first round of a rule that reads tokens is its last one, and its chart shows how far it
looked. -/
theorem call_retraces_of_reads (hsame : ∀ i ≤ limit, input'[i]? = input[i]?)
    (hlimit : limit ≤ input'.size) (hfresh : c.remembered? ⟨h, s⟩ = none)
    (hbody : rules.get? h = some body) (hreads : body.Reads) (hc : c.Steady rules)
    {results : Results} {d : Chart}
    (hrun : (call rules input (fuel + 1) h s).run c = some (results, d)) :
    d.Steady rules ∧ c.Later rules d ∧
      (d.Near rules limit → (rules.watch limit input'.size).held c →
        (call rules input' (fuel + 1) h s).run c = some (results, d) ∧
          (rules.watch limit input'.size).held d ∧ Within input'.size results) := by
  obtain ⟨hentered, hlater⟩ := hc.enter ⟨h, s⟩
  have hshows : ShowsHowFar input (call rules input fuel) body s := hreads.showsHowFar
  obtain ⟨rs, e, heval, hentries, hfar, hlook⟩ := hshows (c.enter ⟨h, s⟩)
  cases hrun.symm.trans (run_call_of_reads hfresh hbody hreads heval hentries)
  obtain ⟨he, hlate, hkept⟩ := (rules.watch limit input'.size).note hentries hfar hentered
  obtain ⟨hsteady, hlater⟩ := Chart.Steady.leave ⟨h, s⟩ he (hlater.trans hlate) fun _ =>
    ⟨rfl, Chart.finished_of_fresh hfresh⟩
  refine ⟨hsteady, hlater, fun hnear hheld => ?_⟩
  obtain ⟨hnote, hends⟩ := Chart.Near.of_leave hnear
  have hends := hends ⟨body, hbody, hreads⟩
  have heval' := hlook limit hnote hends input' (call rules input' fuel) hsame
  have hwithin : Within input'.size results := fun r hr => (hends r hr).trans hlimit
  refine ⟨run_call_of_reads hfresh hbody hreads (heval' ▸ heval) hentries, ?_, hwithin⟩
  exact (hkept (Chart.Holds.enter hheld within_nil)).leave _ _ hwithin

/-- A run on one input retraces a run on another, if every rule reads tokens or only refers to
other rules, and if the calls of rules that read tokens do. -/
theorem retraces_call_of_readers (near : Chart → Prop)
    (hnear : ∀ {c d : Chart}, c.Later rules d → near d → near c)
    (hrules : ∀ h body, rules.get? h = some body → body.Reads ∨ body.Blind)
    (hreads : ∀ {fuel h s body c results d}, c.remembered? ⟨h, s⟩ = none →
      rules.get? h = some body → body.Reads → c.Steady rules →
      (call rules input (fuel + 1) h s).run c = some (results, d) →
      d.Steady rules ∧ c.Later rules d ∧
        (near d → (rules.watchFor input'.size near hnear).held c →
          (call rules input' (fuel + 1) h s).run c = some (results, d) ∧
            (rules.watchFor input'.size near hnear).held d ∧ Within input'.size results))
    (fuel : Nat) :
    ∀ h s, (rules.watchFor input'.size near hnear).Retraces (s ≤ input'.size)
      (call rules input fuel h s) (call rules input' fuel h s) (Within input'.size) := by
  induction fuel with
  | zero => exact fun h s => retraces_failure
  | succ fuel ih =>
    intro h s c results d hc hrun
    rcases call_cases hrun with hfound | ⟨hfresh, ⟨hbody, rfl, rfl⟩ |
      ⟨body, deps, settled, hbody, hrounds, hd⟩⟩
    · obtain ⟨hfinished, hfar⟩ := Chart.finished_of_remembered hfound
      obtain ⟨hsteady, hlater⟩ := Chart.Steady.of_finished_eq hc hfinished hfar.ge
      refine ⟨hsteady, hlater, fun _ hheld _ => ?_⟩
      exact ⟨run_call_of_remembered hfound, Chart.Holds.remembered hheld hfound⟩
    · exact ⟨hc, Chart.Later.refl _,
        fun _ hheld _ => ⟨run_call_of_undefined hfresh hbody, hheld, within_nil⟩⟩
    · by_cases hreader : body.Reads
      · obtain ⟨hsteady, hlater, hnear⟩ := hreads hfresh hbody hreader hc hrun
        exact ⟨hsteady, hlater, fun hn hheld _ => hnear hn hheld⟩
      · -- the rounds of any other rule look at tokens through calls on less fuel only
        have hblind := (hrules h body hbody).resolve_left hreader
        have hkey : ¬ rules.Reader h := by
          rintro ⟨body', hbody', hreads'⟩
          cases hbody.symm.trans hbody'
          exact hreader hreads'
        have hround : (rules.watchFor input'.size near hnear).Retraces (s ≤ input'.size)
            (growRound ⟨h, s⟩ (evalBody input (call rules input fuel) h body s))
            (growRound ⟨h, s⟩ (evalBody input' (call rules input' fuel) h body s))
            fun answer => ∀ a, answer = some a → Within input'.size a.1 :=
          retraces_growRound (retraces_evalBody ih h hblind s)
        obtain ⟨hentered, hlater⟩ := Chart.Steady.enter hc ⟨h, s⟩
        obtain ⟨hsettled, hlate, hretrace⟩ :=
          retraces_untilAnswer hround (fuel + 1) _ _ _ hentered hrounds
        subst hd
        obtain ⟨hsteady, hleft⟩ := Chart.Steady.leave ⟨h, s⟩ hsettled (Chart.Later.refl settled)
          fun hkey' => absurd hkey' hkey
        refine ⟨hsteady, (hlater.trans hlate).trans hleft, fun hn hheld hs => ?_⟩
        obtain ⟨hrun', hheld', hends⟩ :=
          hretrace (hnear hleft hn) (Chart.Holds.enter hheld within_nil) hs
        exact ⟨run_call_of_body hfresh hbody hrun', Chart.Holds.leave hheld' _ _ hends, hends⟩

/-- A run on one input retraces a run on another that agrees with it up to the limit, if every
rule reads tokens or only refers to other rules. -/
theorem retraces_call (hrules : ∀ h body, rules.get? h = some body → body.Reads ∨ body.Blind)
    (hsame : ∀ i ≤ limit, input'[i]? = input[i]?) (hlimit : limit ≤ input'.size) (fuel : Nat) :
    ∀ h s, (rules.watch limit input'.size).Retraces (s ≤ input'.size) (call rules input fuel h s)
      (call rules input' fuel h s) (Within input'.size) :=
  retraces_call_of_readers (Chart.Near rules limit) (fun hlater => hlater.near) hrules
    (fun hfresh hbody hreads hc => call_retraces_of_reads hsame hlimit hfresh hbody hreads hc) fuel

end Call

/-! ## Compiled rules -/

section Compiled

variable {g : Grammar} {ids : List RuleId} {rules : Registry} {place : RuleId → Handle}

theorem Expr.blind_ofFields (refs : List Handle) : (Expr.ofFields refs).Blind := by
  cases refs with
  | nil => exact .unit
  | cons r refs =>
    refine .seq fun e he => ?_
    obtain ⟨r', -, rfl⟩ := List.mem_map.mp he
    exact .ref r'

theorem Expr.blind_oneOf {others : List (Expr Handle)} (h : ∀ e ∈ others, e.Blind) :
    ∀ {first : Expr Handle}, first.Blind → (Expr.oneOf first others).Blind := by
  induction others with
  | nil => exact fun hfirst => hfirst
  | cons e others ih =>
    obtain ⟨he, hothers⟩ := List.forall_mem_cons.mp h
    exact fun hfirst => ih hothers (.alt hfirst he)

theorem Expr.blind_listOf (item rest : Handle) : (Expr.listOf item rest).Blind :=
  .alt .nil (.cons (.ref item) (.ref rest))

/-- Only terminals and literals read tokens. -/
theorem Rhs.reads_or_blind (title rule : String) (list : Handle) (rhs : Rhs Handle) :
    (Expr.label title (rhs.expr rule list)).Reads ∨
      (Expr.label title (rhs.expr rule list)).Blind := by
  cases rhs with
  | terminal p => exact .inl (.terminal title rule p)
  | series literal => exact .inl (.series title rule literal)
  | choice branches =>
    have hbranch : ∀ b : Branch Handle, (branchExpr rule b).Blind := fun b =>
      .map _ (Expr.blind_ofFields b.fields)
    refine .inr (.label title ?_)
    cases branches with
    | nil => exact .nothing
    | cons b bs =>
      refine Expr.blind_oneOf (fun e he => ?_) (hbranch b)
      obtain ⟨b', -, rfl⟩ := List.mem_map.mp he
      exact hbranch b'
  | wrap r => exact .inr (.label title (.map _ (.ref r)))
  | record fields => exact .inr (.label title (.map _ (Expr.blind_ofFields fields)))
  | opt r => exact .inr (.label title (.map _ (.alt .nothing (.just (.ref r)))))
  | star r => exact .inr (.label title (.map _ (.ref list)))
  | plus r => exact .inr (.label title (.map _ (.pair (.ref r) (.ref list))))

theorem CompiledRules.reads_or_blind (hc : CompiledRules g ids rules place) (h : Handle)
    (body : Expr Handle) (hbody : rules.get? h = some body) : body.Reads ∨ body.Blind := by
  rcases hc.covered h body hbody with ⟨id, hid, rfl⟩ | ⟨inner, -, rfl⟩
  · obtain ⟨r, list, -, hbody', -⟩ := hc.body id hid
    cases hbody.symm.trans hbody'
    exact Rhs.reads_or_blind _ _ _ _
  · exact .inr (Expr.blind_listOf _ _)

end Compiled

/-! ## Failures -/

/-- A chart reports at a place that it got no further than, and looks at no other token for
it. -/
theorem Chart.report_position {c : Chart} {input : Array Token} {pos : Position}
    {found : Option Char} {expected : List String}
    (h : c.report input = .unexpected (some pos) found expected) :
    ∃ far t, input[far]? = some t ∧ t.position = pos ∧ c.furthest ≤ far ∧ c.reached ≤ far ∧
      ∀ input' : Array Token, input'[far]? = input[far]? → c.report input' = c.report input := by
  unfold report at h ⊢
  dsimp only at h ⊢
  split at h
  · next hlt =>
    obtain ⟨t, ht, hpos⟩ := Option.map_eq_some_iff.mp (ParseError.unexpected.inj h).1
    refine ⟨c.reached, t, ht, hpos, Nat.le_of_lt hlt, Nat.le_refl _, fun input' hsame => ?_⟩
    rw [if_pos hlt, if_pos hlt, hsame]
  · next hge =>
    obtain ⟨t, ht, hpos⟩ := Option.map_eq_some_iff.mp (ParseError.unexpected.inj h).1
    refine ⟨c.furthest, t, ht, hpos, Nat.le_refl _, Nat.not_lt.mp hge, fun input' hsame => ?_⟩
    rw [if_neg hge, if_neg hge, hsame]

/-- A chart that reports a place concludes so because no result reaches the end. -/
theorem Chart.report_of_conclude {c : Chart} {input : Array Token} {results : Results}
    {pos : Position} {found : Option Char} {expected : List String}
    (h : c.conclude input results = .error (.unexpected (some pos) found expected)) :
    c.report input = .unexpected (some pos) found expected ∧
      ∀ input' : Array Token, (∀ r ∈ results, r.1 ≠ input'.size) →
        c.conclude input' results = .error (c.report input') := by
  unfold conclude at h ⊢
  split at h
  · cases h
  · split at h
    · split at h <;> cases h
    · cases h
    · refine ⟨Except.error.inj h, fun input' hends => ?_⟩
      have hnone : (results.find? fun r => r.1 == input'.size) = none :=
        List.find?_eq_none.mpr fun r hr heq => hends r hr (beq_iff_eq.mp heq)
      rw [hnone]

/-- A failure at a place is the same on all tokens that agree up to that place. -/
theorem Registry.parse_eq_of_agree {rules : Registry}
    (hrules : ∀ h body, rules.get? h = some body → body.Reads ∨ body.Blind)
    (hdefined : rules.firstUndefined? = none) {root : Handle} {body : Expr Handle}
    (hbody : rules.get? root = some body) {tokens : List Token} {pos : Position}
    {found : Option Char} {expected : List String}
    (h : rules.parse root tokens = .error (.unexpected (some pos) found expected)) :
    ∃ (far : Nat) (t : Token), tokens[far]? = some t ∧ t.position = pos ∧ ∀ tokens' : List Token,
      (∀ i ≤ far, tokens'[i]? = tokens[i]?) →
        rules.parse root tokens' = rules.parse root tokens := by
  have hends : rules.Ends root tokens := by
    by_contra hends
    rw [parse_of_not_ends hends] at h
    cases h
  have hroot := index_lt_of_get? hbody
  obtain ⟨results, c, hruns, hparse⟩ := hends.exists_runs hroot hdefined
  obtain ⟨hreport, hconclude⟩ := Chart.report_of_conclude (hparse ▸ h)
  obtain ⟨far, t, ht, hpos, hfurthest, hreached, hlook⟩ := Chart.report_position hreport
  refine ⟨far, t, by simpa using ht, hpos, fun tokens' hsame => ?_⟩
  have hagree : ∀ i ≤ far, tokens'.toArray[i]? = tokens.toArray[i]? := by
    simpa using hsame
  have hsize : far < tokens'.toArray.size := by
    obtain ⟨hlt, -⟩ := Array.getElem?_eq_some_iff.mp ((hagree far le_rfl).trans ht)
    exact hlt
  have hentries := (Chart.reached_le_iff c far).mp hreached
  have hsteady : ({} : Chart).Steady rules := by
    intro k entry _ hentry
    simp at hentry
  obtain ⟨-, -, hretrace⟩ := retraces_call hrules hagree hsize.le _ root 0 _ _ _ hsteady hruns
  obtain ⟨hrun', -, -⟩ := hretrace ⟨hfurthest, fun k entry _ hentry => hentries k entry hentry⟩
    (Chart.holds_empty trivial) (Nat.zero_le _)
  have hrun? : rules.run? (rules.fuelFor tokens.length) root tokens' =
      some ⟨c.conclude tokens'.toArray results, c.settled.reverse⟩ := by
    rw [run?, if_pos hroot, hdefined]
    dsimp only
    rw [hrun']
  obtain ⟨deps, hentry⟩ := hruns.exists_entry hbody
  rw [parse_of_run? hrun?, h]
  dsimp only
  rw [hconclude tokens'.toArray, hlook _ (hagree far le_rfl), hreport]
  intro r hr
  exact ((hentries _ _ hentry r hr).trans_lt hsize).ne

namespace Token

/-- Every token of a run knows how far it stands behind the first one. -/
theorem offset_of_getElem?_streamFrom {cs : List Char} {p : Position} {i : Nat} {t : Token}
    (h : (streamFrom p cs)[i]? = some t) : t.position.offset = p.offset + i := by
  induction cs generalizing p i with
  | nil => simp [streamFrom] at h
  | cons c cs ih =>
    cases i with
    | zero =>
      cases h
      rfl
    | succ i =>
      have hadvance : (p.advance c).offset = p.offset + 1 := by
        unfold Position.advance
        split <;> rfl
      rw [ih h, hadvance]
      omega

/-- The first tokens are those of the first characters. -/
theorem take_streamFrom (cs : List Char) (p : Position) (n : Nat) :
    (streamFrom p cs).take n = streamFrom p (cs.take n) := by
  induction cs generalizing p n with
  | nil => simp [streamFrom]
  | cons c cs ih =>
    cases n with
    | zero => rfl
    | succ n => simp [streamFrom, ih]

/-- Texts with the same first characters have the same first tokens. -/
theorem getElem?_stream_congr {s s' : String} {n : Nat}
    (h : s'.toList.take n = s.toList.take n) {i : Nat} (hi : i < n) :
    (stream s')[i]? = (stream s)[i]? := by
  have htake : (stream s').take n = (stream s).take n := by
    rw [stream, stream, take_streamFrom, take_streamFrom, h]
  rw [← List.getElem?_take_of_lt hi, htake, List.getElem?_take_of_lt hi]

end Token

/-- A failure that a compiled parser reports at a place is the same on all texts that agree up
to that place, the character there included. -/
theorem Parser.fails_alike_up_to_place {g : Grammar} (hg : g.Built) {sig : Signature}
    {root : RuleId} {p : Parser} (hp : Parser.compile sig g root = .ok p) {s s' : String}
    {pos : Position} {found : Option Char} {expected : List String}
    (hfails : p.parse (Token.stream s) = .error (.unexpected (some pos) found expected))
    (hsame : s'.toList.take (pos.offset + 1) = s.toList.take (pos.offset + 1)) :
    p.parse (Token.stream s') = .error (.unexpected (some pos) found expected) := by
  obtain ⟨place, hc, hroot, hmem, -⟩ := compile_spec hg.wellFormed hp
  obtain ⟨r, list, -, hbody, -⟩ := hc.body root hmem
  rw [← hroot] at hbody
  obtain ⟨far, t, ht, rfl, hparse⟩ :=
    Registry.parse_eq_of_agree hc.reads_or_blind hc.defined hbody hfails
  have hfar : t.position.offset = far := by
    rw [Token.offset_of_getElem?_streamFrom ht, Position.start, Nat.zero_add]
  rw [← hfails]
  refine hparse _ fun i hi => Token.getElem?_stream_congr hsame ?_
  omega

/-- A sum goes wrong behind its sign, and what is written behind that place does not matter. -/
theorem Parser.fails_alike_up_to_place_sums :
    ∃ p, Parser.compile (Signature.ofGrammar Grammar.sums) Grammar.sums ⟨0⟩ = .ok p ∧
      p.parse (Token.stream "1+x") = .error (.unexpected (some ⟨2, 1, 3⟩) (some 'x')
        ["' '", "@digit", "blank", "digit", "number"]) ∧
      p.parse (Token.stream "1+x2+3") = .error (.unexpected (some ⟨2, 1, 3⟩) (some 'x')
        ["' '", "@digit", "blank", "digit", "number"]) := by
  have hrun : (do
      let p ← Parser.compile (Signature.ofGrammar Grammar.sums) Grammar.sums ⟨0⟩
      return (p.rules.run? 8 p.root (Token.stream "1+x")).map Report.outcome) =
        .ok (some (.error (.unexpected (some ⟨2, 1, 3⟩) (some 'x')
          ["' '", "@digit", "blank", "digit", "number"]))) := by
    cbv
  obtain ⟨p, hp, hrun⟩ := bind_eq_ok_iff.mp hrun
  obtain ⟨report, hrun, houtcome⟩ := Option.map_eq_some_iff.mp (Except.ok.inj hrun)
  have hfails := (Registry.parse_of_run? hrun).trans houtcome
  have hg := Grammar.built_of_parse Grammar.parse_sums
  exact ⟨p, hp, hfails, Parser.fails_alike_up_to_place hg hp hfails (by decide)⟩

end ChartGrammar
