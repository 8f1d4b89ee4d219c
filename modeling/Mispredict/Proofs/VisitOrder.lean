/-
  What the order of visits can change.

  Analyses of one graph in different orders work by the same rules (`Stores.reorder`).
  Their verdicts can still differ, since a baseline may reach a point before or after the
  point is visited. They differ exactly if one of them overlooks a leak of the other
  (`SpecGraph.verdict_eq_iff`): some point leaks in the state that the one holds for it, while
  the state that the other holds for it shows no secret or has the baseline, and nothing else
  leaks there either.
-/
import Mispredict.Proofs.Path

namespace Mispredict

open Machine

namespace Setup

/-- Some point leaks in a table. -/
def Leaky (s : Setup) (t : Table) : Prop := ∃ k st, t[k]? = some st ∧ s.leaks k st = true

/-- Nothing leaks in the table `t'`, though it has a state for a point that leaks in `t`: there its
    state shows no secret, or has a baseline for it. -/
def Overlooks (s : Setup) (t' t : Table) : Prop :=
  ¬ s.Leaky t' ∧ ∃ k site st st', s.site? k = some site ∧ t[k]? = some st ∧
    s.leaks k st = true ∧ t'[k]? = some st' ∧
    ((s.shown k st').isSecret = false ∨ st'.seen site = .eqHigh)

variable {s : Setup} {entry : Key} {v : Verdict}

/-- An analysis without error finds a violation exactly if its table leaks. -/
theorem verdict_eq_violation_iff (hi : s.initial.Harmless) (h : s.run.outcome = .ok v) :
    v = .violation ↔ s.Leaky s.run.machine.table := by
  rcases s.run_cases with ⟨hmachine, houtcome⟩ | ⟨entry, hentry⟩
  · rw [hmachine]
    constructor
    · rintro rfl
      exact absurd h houtcome
    · rintro ⟨k, st, hst, -⟩
      rw [empty, Std.TreeMap.getElem?_emptyc] at hst
      cases hst
  · constructor
    · rintro rfl
      obtain ⟨k, st, out, hst, hafter, hv⟩ := exists_violation_of_outcome hentry h
      have hstores := stores_of_mem_table hentry hst
      rw [hasViolation_after (hstores.harmless hi) hafter] at hv
      exact ⟨k, st, hst, hv⟩
    · rintro ⟨k, st, hst, hleak⟩
      cases v with
      | violation => rfl
      | secure =>
        obtain ⟨out, hafter, hv, -⟩ := (isFixpoint_run hentry h).settled k st hst
        rw [hasViolation_of_leaks hafter hleak] at hv
        cases hv

/-! ## Two orders -/

variable {g : SpecGraph} {o : Options} {m m' : TraceMode} {k : Key} {st : State}

/-- What can be stored does not depend on the order. -/
theorem Stores.reorder (m' : TraceMode)
    (h : (Setup.of g { o with traceMode := m }).Stores entry k st) :
    (Setup.of g { o with traceMode := m' }).Stores entry k st := by
  induction h with
  | start => exact .start
  | pass visited after violation move held ih ihheld => exact .pass ih after violation move ihheld

/-- A secure analysis has a state for every point that an analysis in another order reaches. -/
theorem mem_of_secure
    (hsecure : (Setup.of g { o with traceMode := m' }).run.outcome = .ok .secure)
    (hst : (Setup.of g { o with traceMode := m }).run.machine.table[k]? = some st) :
    ∃ st', (Setup.of g { o with traceMode := m' }).run.machine.table[k]? = some st' := by
  rcases (Setup.of g { o with traceMode := m }).run_cases with ⟨hmachine, -⟩ | ⟨entry, hentry⟩
  · rw [hmachine, empty, Std.TreeMap.getElem?_emptyc] at hst
    cases hst
  · have hentry' : (Setup.of g { o with traceMode := m' }).checkedEntry = .ok (some entry) := hentry
    have hstores := (stores_of_mem_table hentry hst).reorder m'
    exact (isFixpoint_run hentry' hsecure).mem_of_stores hstores

end Setup

/-- The states that an analysis has for its points when it stops. -/
def SpecGraph.finalTable (g : SpecGraph) (o : Options) : Table := (Setup.of g o).run.machine.table

namespace SpecGraph

open Setup

variable {g : SpecGraph} {o : Options} {m m' : TraceMode}

theorem verdict_eq_violation_iff_leaky
    (h : (g.analyze { o with traceMode := m }).result.error = none) :
    (g.analyze { o with traceMode := m }).result.verdict = .violation ↔
      (Setup.of g o).Leaky (g.finalTable { o with traceMode := m }) :=
  Setup.verdict_eq_violation_iff (State.harmless_seeded _ _) (outcome_of_error_eq_none h)

/-- If only one of two analyses finds a violation, the other overlooks it. -/
theorem overlooks_of_verdicts (h : (g.analyze { o with traceMode := m }).result.error = none)
    (h' : (g.analyze { o with traceMode := m' }).result.error = none)
    (hviolation : (g.analyze { o with traceMode := m }).result.verdict = .violation)
    (hsecure : (g.analyze { o with traceMode := m' }).result.verdict ≠ .violation) :
    (Setup.of g o).Overlooks (g.finalTable { o with traceMode := m' })
      (g.finalTable { o with traceMode := m }) := by
  obtain ⟨k, st, hst, hleak⟩ := (verdict_eq_violation_iff_leaky h).1 hviolation
  have houtcome := outcome_of_error_eq_none h'
  cases hv : (g.analyze { o with traceMode := m' }).result.verdict with
  | violation => exact absurd hv hsecure
  | secure =>
    rw [hv] at houtcome
    obtain ⟨st', hst'⟩ := mem_of_secure houtcome hst
    have hquiet := mt (verdict_eq_violation_iff_leaky h').2 hsecure
    obtain ⟨hmode, -, site, hsite, -⟩ := leaks_iff.1 hleak
    refine ⟨hquiet, k, site, st, st', hsite, hst, hleak, hst', ?_⟩
    by_contra hno
    obtain ⟨hpublic, hne⟩ := not_or.1 hno
    have hsecret : ((Setup.of g o).shown k st').isSecret = true := by simpa using hpublic
    exact hquiet ⟨k, st', hst', leaks_iff.2 ⟨hmode, hsecret, site, hsite, hne⟩⟩

/-- An analysis that overlooks what another finds has another verdict. -/
theorem verdict_ne_of_overlooks (h : (g.analyze { o with traceMode := m }).result.error = none)
    (h' : (g.analyze { o with traceMode := m' }).result.error = none)
    (hoverlooks : (Setup.of g o).Overlooks (g.finalTable { o with traceMode := m' })
      (g.finalTable { o with traceMode := m })) :
    (g.analyze { o with traceMode := m }).result.verdict ≠
      (g.analyze { o with traceMode := m' }).result.verdict := by
  obtain ⟨hquiet, k, -, st, -, -, hst, hleak, -⟩ := hoverlooks
  have hviolation := (verdict_eq_violation_iff_leaky h).2 ⟨k, st, hst, hleak⟩
  intro heq
  exact hquiet ((verdict_eq_violation_iff_leaky h').1 (heq ▸ hviolation))

/-- Two orders of visits give the same verdict exactly if neither analysis overlooks a leak of the
    other. -/
theorem verdict_eq_iff (h : (g.analyze { o with traceMode := m }).result.error = none)
    (h' : (g.analyze { o with traceMode := m' }).result.error = none) :
    (g.analyze { o with traceMode := m }).result.verdict =
        (g.analyze { o with traceMode := m' }).result.verdict ↔
      ¬ (Setup.of g o).Overlooks (g.finalTable { o with traceMode := m' })
          (g.finalTable { o with traceMode := m }) ∧
        ¬ (Setup.of g o).Overlooks (g.finalTable { o with traceMode := m })
          (g.finalTable { o with traceMode := m' }) := by
  constructor
  · intro heq
    exact ⟨fun ho => verdict_ne_of_overlooks h h' ho heq,
      fun ho => verdict_ne_of_overlooks h' h ho heq.symm⟩
  · rintro ⟨hno, hno'⟩
    refine Verdict.eq_of_violation_iff ⟨fun hv => ?_, fun hv' => ?_⟩
    · by_contra hv'
      exact hno (overlooks_of_verdicts h h' hv hv')
    · by_contra hv
      exact hno' (overlooks_of_verdicts h' h hv' hv)

end SpecGraph

theorem analyzeSource_of_build {source : String} {b : BuildOptions} {g : SpecGraph}
    (hg : (SpecGraph.buildSource source b).result = .ok g) (o : Options) :
    (analyzeSource source b o).result = (g.analyze o).result := by
  rw [analyzeSource]
  dsimp only
  rw [hg]

theorem exists_graph_of_error_eq_none {source : String} {b : BuildOptions} {o : Options}
    (h : (analyzeSource source b o).result.error = none) :
    ∃ g, (SpecGraph.buildSource source b).result = .ok g := by
  cases hg : (SpecGraph.buildSource source b).result with
  | ok g => exact ⟨g, rfl⟩
  | error e =>
    rw [analyzeSource] at h
    dsimp only at h
    rw [hg] at h
    cases h

end Mispredict
