/-
  Leaks that other paths mask.

  A point holds the join of what paths bring to it, and the baseline of one path covers for the
  others. Whether it comes in time depends on the order of visits, and so may the verdict. What
  is at stake can be told from single paths. Along a path states are passed on whole
  (`Setup.Conveys`); a baseline can also come to a point along rollbacks (`Setup.Bears`). A leak
  is certain if no baseline for it can come to its point. Where some path leaks only if one
  leaks for certain, no leak is masked (`Setup.Unmasked`).

  If rollbacks invent nothing, whatever a stored state shows, some path shows
  (`Accrues.backed`), and baselines of a stored state have come to its point (`Accrues.bears`).
  So a violation is the leak of some path (`hasLeak_of_violation`), and a secure analysis leaves
  no certain leak (`not_hasCertainLeak_of_secure`). If no leak is masked, the verdict is the same
  in whatever order points are visited (`SpecGraph.verdict_eq_of_unmasked`).
-/
import Mispredict.Proofs.Climb
import Mispredict.Proofs.Definite
import Mispredict.Proofs.Rollback

namespace Mispredict

open Machine

/-! ## Paths -/

namespace Setup

/-- The states in which paths that start at `r` in the state `R` arrive at points, as long as they
    are not rolled back. -/
inductive Conveys (s : Setup) (r : Key) (R : State) : Key → State → Prop where
  | start : Conveys s r R r R
  | move {k target : Key} {st : State} (before : Conveys s r R k st)
      (move : (target, .full) ∈ s.moves k) : Conveys s r R target (s.advance k st)

/-- Committed execution has shown a secret at the site on the way to a point, be it rolled back on
    the way or not. -/
inductive Bears (s : Setup) (entry : Key) (site : Site) : Key → Prop where
  | shown {k target : Key} {st : State} (arrives : s.Conveys entry s.initial k st)
      (committed : k.mode = .committed) (records : s.site? k = some site)
      (secret : (s.shown k st).isSecret = true) (follows : s.Follows k target) :
      Bears s entry site target
  | passed {k target : Key} (before : Bears s entry site k) (follows : s.Follows k target) :
      Bears s entry site target

/-- Some path leaks. -/
def HasLeak (s : Setup) (entry : Key) : Prop :=
  ∃ k σ, s.Conveys entry s.initial k σ ∧ s.leaks k σ = true

/-- Some path leaks at a point to which no baseline for the leak can come. -/
def HasCertainLeak (s : Setup) (entry : Key) : Prop :=
  ∃ k σ site, s.Conveys entry s.initial k σ ∧ s.leaks k σ = true ∧ s.site? k = some site ∧
    ¬ s.Bears entry site k

/-- If some path leaks, one leaks for certain. -/
def Unmasked (s : Setup) : Prop :=
  ∀ entry, s.checkedEntry = .ok (some entry) → s.HasLeak entry → s.HasCertainLeak entry

variable {s : Setup} {entry r k target : Key} {payload : Payload} {R st σ out : State} {site : Site}

/-- A point from which a move leads on can be visited. -/
theorem after_of_move (h : (target, payload) ∈ s.moves k) (st : State) :
    s.after k st = .ok (s.advance k st) := by
  obtain ⟨n, i, hn, hi, -⟩ := moves_cases h
  have hafter : ∃ out, s.after k st = .ok out := by
    cases i with
    | none => exact ⟨st, after_eq_ok_iff.2 ⟨n, hn, bind_eq_ok_iff.2 ⟨none, hi, rfl⟩⟩⟩
    | some i => exact ⟨_, after_eq_ok_iff.2 ⟨n, hn, bind_eq_ok_iff.2 ⟨some i, hi, rfl⟩⟩⟩
  obtain ⟨out, hafter⟩ := hafter
  exact after_eq_advance hafter st

theorem Conveys.trans {r' : Key} {R' : State} (h : s.Conveys r R r' R')
    (h' : s.Conveys r' R' k st) : s.Conveys r R k st := by
  induction h' with
  | start => exact h
  | move _ move ih => exact ih.move move

theorem Climbs.conveys {layer : Key → Option Nat} (h : s.Climbs layer r R k σ) :
    s.Conveys r R k σ := by
  induction h with
  | start => exact .start
  | move _ move _ ih => exact ih.move move

theorem Conveys.definite (hR : R.Definite) (h : s.Conveys r R k σ) : σ.Definite := by
  induction h with
  | start => exact hR
  | move _ _ ih => exact definite_advance ih

/-- Committed execution has made no observation but harmless ones. -/
theorem Conveys.harmless (hR : R.Harmless) (h : s.Conveys r R k σ) (hmode : k.mode = .committed) :
    σ.Harmless := by
  induction h with
  | start => exact hR
  | @move k target st _ move ih =>
    have hk := mode_of_full_move move hmode
    refine harmless_after (ih hk) (after_of_move move st) ?_
    rw [leaks, Key.isSpeculative, hk]
    rfl

/-- What a path brings to a point is below what a fixpoint holds for it. -/
theorem IsFixpoint.exists_storeLe_of_conveys {t : Table} (ht : s.IsFixpoint entry t)
    (h : s.Conveys entry s.initial k σ) : ∃ st, t[k]? = some st ∧ σ.StoreLe st := by
  induction h with
  | start =>
    obtain ⟨st, hst⟩ := ht.mem_entry
    exact ⟨st, hst, ht.entry.storeLe hst⟩
  | @move k target σ _ move ih =>
    obtain ⟨st, hst, hle⟩ := ih
    obtain ⟨out, hafter, -, hmoves⟩ := ht.settled k st hst
    obtain ⟨st', hst'⟩ := ht.mem_of_move hst move
    refine ⟨st', hst', (hle.advance s k).trans ?_⟩
    rw [← eq_advance hafter]
    exact (hmoves target .full move).storeLe hst'

end Setup

/-! ## What is stored if nothing is invented -/

namespace Setup

/-- The states that an analysis from `entry` can store at a point if a rollback never is the first
    to reach its target. -/
inductive Accrues (s : Setup) (entry : Key) : Key → State → Prop where
  | start : Accrues s entry entry s.initial
  | pass {k target : Key} {st out : State} {payload : Payload} {old : Option State}
      (visited : Accrues s entry k st) (after : s.after k st = .ok out)
      (violation : out.hasViolation = false) (move : (target, payload) ∈ s.moves k)
      (held : ∀ st' ∈ old, Accrues s entry target st')
      (known : payload = .observations → old ≠ none) :
      Accrues s entry target (received s.initial old out payload)

variable {s : Setup} {entry k : Key} {st : State} {site : Site}

theorem Accrues.stores (h : s.Accrues entry k st) : s.Stores entry k st := by
  induction h with
  | start => exact .start
  | pass _ after violation move _ _ ih ihheld => exact .pass ih after violation move ihheld

end Setup

namespace Machine

variable {s : Setup} {cap : Option Nat} {entry k : Key} {m : Machine} {out : State}
  {rest : List (Key × Payload)}

/-- The table holds what has accrued, and what is being passed on is the result of a visit of
    such a state. -/
structure Accrued (s : Setup) (entry : Key) (m : Machine) (k : Key) (out : State)
    (rest : List (Key × Payload)) : Prop where
  held : ∀ q st, m.table[q]? = some st → s.Accrues entry q st
  carried : rest ≠ [] → ∃ st, s.Accrues entry k st ∧ s.after k st = .ok out

theorem Moment.accrued (hno : ∀ q, ¬ Invents s cap entry q)
    (h : Moment s cap entry m k out rest) : Accrued s entry m k out rest := by
  induction h with
  | start =>
    refine ⟨fun q st hst => ?_, fun hne => absurd rfl hne⟩
    rw [getElem?_table_start] at hst
    split at hst
    · next hq =>
      cases hst
      exact hq ▸ .start
    · cases hst
  | visit before visiting ih =>
    exact ⟨fun q st hst => ih.held q st (by rwa [table_visited] at hst),
      fun _ => ⟨_, ih.held _ _ visiting.held, visiting.after⟩⟩
  | @pass m m' k target out payload rest before running ih =>
    refine ⟨fun q st hst => ?_, fun _ => ih.carried (List.cons_ne_nil _ _)⟩
    rcases (propagate_eq_running_iff rfl).1 running with ⟨-, rfl⟩ | ⟨-, -, rfl⟩
    · exact ih.held q st hst
    · rw [table_enqueue, update, getElem?_insert_table] at hst
      split at hst
      · next hq =>
        subst hq
        cases hst
        obtain ⟨-, -, hquiet, hmoves⟩ := before.accounted
        obtain ⟨st, hst, hafter⟩ := ih.carried (List.cons_ne_nil _ _)
        refine .pass hst hafter (hquiet (List.cons_ne_nil _ _)) (hmoves _ List.mem_cons_self)
          (fun st' hst' => ih.held _ st' hst') ?_
        rintro rfl hnone
        exact hno _ ⟨m, k, out, rest, before, not_reached_iff.2 hnone⟩
      · exact ih.held q st hst

end Machine

namespace Setup

variable {s : Setup} {entry k : Key} {st out : State} {site : Site} {v : Verdict}

/-- The table of an analysis without error holds what has accrued. -/
theorem accrues_of_mem_table (hentry : s.checkedEntry = .ok (some entry))
    (hno : ∀ q, ¬ Machine.Invents s (some s.options.iterationCap) entry q)
    (hok : s.run.outcome = .ok v) (hst : s.run.machine.table[k]? = some st) :
    s.Accrues entry k st := by
  rw [run_of_entry hentry] at hok hst
  obtain ⟨m, k', out, hmoment, hends⟩ := Moment.start.exists_ends hok
  refine (hmoment.accrued hno).held k st ?_
  generalize Machine.run _ _ _ _ _ = final at hst hends
  obtain ⟨m', outcome⟩ := final
  cases hends with
  | secure => exact hst
  | violation _ _ _ _ table => rwa [← table]

/-- Whatever is read off `st` is read off what a path brings to the point, which is below `st` and
    has no baselines but those of `st`. -/
def Backed (s : Setup) (entry k : Key) (st : State) : Prop :=
  ∀ ρ : Reading, ∃ σ, s.Conveys entry s.initial k σ ∧ σ.StoreLe st ∧ ρ.level σ = ρ.level st ∧
    ∀ site, σ.HasBaseline site → st.HasBaseline site

/-- A visit passes on states that are backed. -/
theorem Backed.advance {target : Key} (hi : s.initial.Harmless) (hd : s.initial.Definite)
    (hst : st.Harmless) (h : s.Backed entry k st) (hmove : (target, .full) ∈ s.moves k) :
    s.Backed entry target (s.advance k st) := by
  intro ρ
  obtain ⟨σ, hσ, hle, hlevel, hbaseline⟩ := h (ρ.before s k)
  refine ⟨s.advance k σ, hσ.move hmove, hle.advance s k, hlevel, fun site => ?_⟩
  cases hmode : k.mode with
  | speculative =>
    rw [hasBaseline_advance hmode, hasBaseline_advance hmode]
    exact hbaseline site
  | committed =>
    rw [hasBaseline_advance_of_committed hmode (hσ.harmless hi hmode),
      hasBaseline_advance_of_committed hmode hst]
    rintro (h | ⟨hsite, hsecret⟩)
    · exact .inl (hbaseline site h)
    · exact .inr ⟨hsite,
        isSecret_shown_of_storeLe hle (shown_ne_bot (hσ.definite hd)) hsecret⟩

theorem Backed.join {x : State} (hx : x.Harmless) (hst : st.Harmless) (h : s.Backed entry k x)
    (h' : s.Backed entry k st) : s.Backed entry k (x.join st) := by
  intro ρ
  have hjoin : ∀ site, (x.join st).HasBaseline site ↔ x.HasBaseline site ∨ st.HasBaseline site :=
    fun _ => State.hasBaseline_join hx hst
  rcases ρ.join_eq_or x st with hlevel | hlevel
  · obtain ⟨σ, hσ, hle, heq, hbaseline⟩ := h ρ
    exact ⟨σ, hσ, hle.trans (.join_left ..), heq.trans hlevel.symm,
      fun site hsite => (hjoin site).2 (.inl (hbaseline site hsite))⟩
  · obtain ⟨σ, hσ, hle, heq, hbaseline⟩ := h' ρ
    exact ⟨σ, hσ, hle.trans (.join_right ..), heq.trans hlevel.symm,
      fun site hsite => (hjoin site).2 (.inr (hbaseline site hsite))⟩

theorem hasBaseline_joinObservations {x : State} (hx : x.Harmless) (hst : st.Harmless) :
    (x.joinObservations st).HasBaseline site ↔ x.HasBaseline site ∨ st.HasBaseline site := by
  rw [← State.hasBaseline_join hx hst, State.HasBaseline, State.HasBaseline, State.seen,
    State.observations_joinObservations, State.seen]

theorem Backed.joinObservations {x : State} (hx : x.Harmless) (hst : st.Harmless)
    (h : s.Backed entry k x) : s.Backed entry k (x.joinObservations st) := by
  intro ρ
  obtain ⟨σ, hσ, hle, hlevel, hbaseline⟩ := h ρ
  have hsame := State.joinObservations_sameStore x st
  exact ⟨σ, hσ, hle.trans hsame.symm.storeLe, hlevel.trans (ρ.congr hsame.symm),
    fun site hsite => (hasBaseline_joinObservations hx hst).2 (.inl (hbaseline site hsite))⟩

theorem Accrues.harmless_after (hi : s.initial.Harmless) (h : s.Accrues entry k st)
    (hafter : s.after k st = .ok out) (hquiet : out.hasViolation = false) : out.Harmless := by
  have hst := h.stores.harmless hi
  refine Setup.harmless_after hst hafter ?_
  rw [← hasViolation_after hst hafter, hquiet]

/-- What has accrued is backed by paths. -/
theorem Accrues.backed (hi : s.initial.Harmless) (hd : s.initial.Definite)
    (h : s.Accrues entry k st) : s.Backed entry k st := by
  induction h with
  | start => exact fun ρ => ⟨s.initial, .start, .refl _, rfl, fun _ h => h⟩
  | @pass k target st out payload old visited after violation move held known ih ihheld =>
    have hout : out.Harmless := visited.harmless_after hi after violation
    cases payload with
    | full =>
      have hbacked : s.Backed entry target out := by
        rw [eq_advance after]
        exact ih.advance hi hd (visited.stores.harmless hi) move
      cases old with
      | none => exact hbacked
      | some x => exact (ihheld x rfl).join ((held x rfl).stores.harmless hi) hout hbacked
    | observations =>
      cases old with
      | none => exact absurd rfl (known rfl)
      | some x => exact (ihheld x rfl).joinObservations ((held x rfl).stores.harmless hi) hout

/-- The baselines of what has accrued have come to the point. -/
theorem Accrues.bears (hi : s.initial.Harmless) (hd : s.initial.Definite)
    (hnone : ∀ site, ¬ s.initial.HasBaseline site) (h : s.Accrues entry k st)
    (hsite : st.HasBaseline site) : s.Bears entry site k := by
  induction h with
  | start => exact absurd hsite (hnone site)
  | @pass k target st out payload old visited after violation move held known ih ihheld =>
    have hst : st.Harmless := visited.stores.harmless hi
    have hout : out.Harmless := visited.harmless_after hi after violation
    have hfollows := follows_of_move move
    have hbears : out.HasBaseline site → s.Bears entry site target := by
      rw [eq_advance after]
      cases hmode : k.mode with
      | speculative =>
        rw [hasBaseline_advance hmode]
        exact fun h => (ih h).passed hfollows
      | committed =>
        rw [hasBaseline_advance_of_committed hmode hst]
        rintro (h | ⟨hrecords, hsecret⟩)
        · exact (ih h).passed hfollows
        · -- some path shows the same
          obtain ⟨σ, hσ, -, hlevel, -⟩ := visited.backed hi hd (s.shows k)
          refine .shown hσ hmode hrecords ?_ hfollows
          rw [← hsecret]
          exact congrArg Level.isSecret hlevel
    cases old with
    | none =>
      cases payload with
      | full => exact hbears hsite
      | observations => exact absurd rfl (known rfl)
    | some x =>
      have hx : x.Harmless := (held x rfl).stores.harmless hi
      have hcases : x.HasBaseline site ∨ out.HasBaseline site := by
        cases payload with
        | full => exact (State.hasBaseline_join hx hout).1 hsite
        | observations => exact (hasBaseline_joinObservations hx hout).1 hsite
      exact hcases.elim (ihheld x rfl) hbears

/-! ## Verdicts -/

section Verdicts

variable (hentry : s.checkedEntry = .ok (some entry))
  (hno : ∀ q, ¬ Machine.Invents s (some s.options.iterationCap) entry q)
  (hi : s.initial.Harmless) (hd : s.initial.Definite)

include hentry hno hi hd

/-- A violation is the leak of some path. -/
theorem hasLeak_of_violation (h : s.run.outcome = .ok .violation) : s.HasLeak entry := by
  obtain ⟨k, st, out, hst, hafter, hv⟩ := exists_violation_of_outcome hentry h
  have haccrues := accrues_of_mem_table hentry hno h hst
  rw [hasViolation_after (haccrues.stores.harmless hi) hafter] at hv
  obtain ⟨hmode, hsecret, site, hsite, hne⟩ := leaks_iff.1 hv
  obtain ⟨σ, hσ, -, hlevel, hbaseline⟩ := haccrues.backed hi hd (s.shows k)
  have hshown : s.shown k σ = s.shown k st := hlevel
  exact ⟨k, σ, hσ, leaks_iff.2 ⟨hmode, hshown ▸ hsecret, site, hsite, mt (hbaseline site) hne⟩⟩

/-- A secure analysis leaves no certain leak: where a path shows a secret, the state that is stored
    shows one too, and it does not leak only for a baseline. -/
theorem not_hasCertainLeak_of_secure (hnone : ∀ site, ¬ s.initial.HasBaseline site)
    (h : s.run.outcome = .ok .secure) : ¬ s.HasCertainLeak entry := by
  rintro ⟨k, σ, site, hσ, hleak, hsite, hbears⟩
  obtain ⟨hmode, hsecret, -⟩ := leaks_iff.1 hleak
  have ht := isFixpoint_run hentry h
  obtain ⟨st, hst, hle⟩ := ht.exists_storeLe_of_conveys hσ
  have haccrues := accrues_of_mem_table hentry hno h hst
  have hshown := isSecret_shown_of_storeLe hle (shown_ne_bot (hσ.definite hd)) hsecret
  obtain ⟨out, hafter, hv, -⟩ := ht.settled k st hst
  refine hbears (haccrues.bears hi hd hnone ?_)
  by_contra hne
  rw [hasViolation_of_leaks hafter (leaks_iff.2 ⟨hmode, hshown, site, hsite, hne⟩)] at hv
  cases hv

/-- If some path leaks only if one leaks for certain, the verdict says whether some path leaks. -/
theorem eq_violation_iff_hasLeak (hnone : ∀ site, ¬ s.initial.HasBaseline site)
    (hclear : s.HasLeak entry → s.HasCertainLeak entry) (hok : s.run.outcome = .ok v) :
    v = .violation ↔ s.HasLeak entry := by
  constructor
  · rintro rfl
    exact hasLeak_of_violation hentry hno hi hd hok
  · intro hleak
    cases v with
    | violation => rfl
    | secure =>
      exact absurd (hclear hleak) (not_hasCertainLeak_of_secure hentry hno hi hd hnone hok)

end Verdicts

/-- If no leak is masked, an analysis without error says whether some path leaks. -/
theorem verdict_eq_violation_iff_hasLeak
    (hno : ∀ entry, s.checkedEntry = .ok (some entry) →
      ∀ q, ¬ Machine.Invents s (some s.options.iterationCap) entry q)
    (hi : s.initial.Harmless) (hd : s.initial.Definite)
    (hnone : ∀ site, ¬ s.initial.HasBaseline site) (hclear : s.Unmasked)
    (hok : s.run.outcome = .ok v) :
    v = .violation ↔ ∃ entry, s.checkedEntry = .ok (some entry) ∧ s.HasLeak entry := by
  constructor
  · rintro rfl
    rcases s.run_cases with ⟨-, hnot⟩ | ⟨entry, hentry⟩
    · exact absurd hok hnot
    · exact ⟨entry, hentry, hasLeak_of_violation hentry (hno entry hentry) hi hd hok⟩
  · rintro ⟨entry, hentry, hleak⟩
    exact (eq_violation_iff_hasLeak hentry (hno entry hentry) hi hd hnone
      (hclear entry hentry) hok).2 hleak

end Setup

theorem State.not_hasBaseline_seeded (policy : Policy) (registers : List String) (site : Site) :
    ¬ (State.seeded policy registers).HasBaseline site := by
  obtain ⟨channel, key⟩ := site
  cases channel <;> exact nofun

/-- Without rollbacks nothing is invented. -/
theorem Machine.not_invents_of_noRollback {s : Setup} {cap : Option Nat} {entry q : Key}
    (hg : s.graph.NoRollback) : ¬ Invents s cap entry q := by
  rintro ⟨m, k, out, rest, hm, -⟩
  cases (Setup.move_of_noRollback hg (hm.accounted.2.moves _ List.mem_cons_self)).1

/-! ## Two orders -/

namespace Setup

variable {g : SpecGraph} {o : Options} {m m' : TraceMode} {entry r k : Key} {R st : State}
  {site : Site}

theorem Conveys.reorder (m' : TraceMode)
    (h : (Setup.of g { o with traceMode := m }).Conveys r R k st) :
    (Setup.of g { o with traceMode := m' }).Conveys r R k st := by
  induction h with
  | start => exact .start
  | move before move ih => exact ih.move move

theorem Bears.reorder (m' : TraceMode)
    (h : (Setup.of g { o with traceMode := m }).Bears entry site k) :
    (Setup.of g { o with traceMode := m' }).Bears entry site k := by
  induction h with
  | shown arrives committed records secret follows =>
    exact .shown (arrives.reorder m') committed records secret follows
  | passed before follows ih => exact ih.passed follows

theorem HasLeak.reorder (m' : TraceMode)
    (h : (Setup.of g { o with traceMode := m }).HasLeak entry) :
    (Setup.of g { o with traceMode := m' }).HasLeak entry := by
  obtain ⟨k, σ, hσ, hleak⟩ := h
  exact ⟨k, σ, hσ.reorder m', hleak⟩

/-- Whether leaks are masked does not depend on the order. -/
theorem Unmasked.reorder (m' : TraceMode)
    (h : (Setup.of g { o with traceMode := m }).Unmasked) :
    (Setup.of g { o with traceMode := m' }).Unmasked := by
  intro entry hentry hleak
  obtain ⟨k, σ, site, hσ, hleak, hsite, hbears⟩ := h entry hentry (hleak.reorder m)
  exact ⟨k, σ, site, hσ.reorder m', hleak, hsite, fun h => hbears (h.reorder m)⟩

end Setup

/-- If nothing is invented and no leak is masked, the order of visits is all the same. -/
theorem SpecGraph.verdict_eq_of_unmasked {g : SpecGraph} {o : Options} {m m' : TraceMode}
    (hno : ∀ m entry, (Setup.of g o).checkedEntry = .ok (some entry) →
      ∀ cap q, ¬ Invents (Setup.of g { o with traceMode := m }) cap entry q)
    (hpolicy : o.policy.Definite) (hclear : (Setup.of g o).Unmasked)
    (h : (g.analyze { o with traceMode := m }).result.error = none)
    (h' : (g.analyze { o with traceMode := m' }).result.error = none) :
    (g.analyze { o with traceMode := m }).result.verdict =
      (g.analyze { o with traceMode := m' }).result.verdict := by
  have hleak : ∀ m, (g.analyze { o with traceMode := m }).result.error = none →
      ((g.analyze { o with traceMode := m }).result.verdict = .violation ↔
        ∃ entry, (Setup.of g o).checkedEntry = .ok (some entry) ∧
          (Setup.of g o).HasLeak entry) := by
    intro m hok
    have hiff := Setup.verdict_eq_violation_iff_hasLeak
      (s := Setup.of g { o with traceMode := m }) (fun entry hentry => hno m entry hentry _)
      (State.harmless_seeded _ _) (State.definite_seeded hpolicy _)
      (State.not_hasBaseline_seeded _ _) (Setup.Unmasked.reorder (m := o.traceMode) m hclear)
      (outcome_of_error_eq_none hok)
    refine hiff.trans (exists_congr fun entry => and_congr_right fun _ => ?_)
    exact ⟨fun hleak => hleak.reorder o.traceMode,
      fun hleak => Setup.HasLeak.reorder (m := o.traceMode) m hleak⟩
  exact Verdict.eq_of_violation_iff ((hleak m h).trans (hleak m' h').symm)

end Mispredict
