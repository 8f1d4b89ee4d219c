/-
  The shape of a report.

  Steps are numbered in order and only the last one can show a violation, which is
  the case exactly when the verdict says so. A step that shows a violation is
  speculative and shows a single one, a leak at the program counter of its node; all
  other observations, in all steps, are `eqLow` or `eqHigh` (`Report.WellShaped`).
-/
import Mispredict.Analysis.Report
import Mispredict.Proofs.Stored

namespace Mispredict

open Machine

/-- A step that shows a violation: it is speculative, and its one violation is a leak whose key
    starts with the program counter of its node. -/
def Step.ShowsLeak (g : SpecGraph) (step : Step) : Prop :=
  step.mode = .speculative ∧ ∃ index n channel key, g.node? index = some n ∧
    step.nodeId = n.id ∧ step.pc = n.pc ∧ step.state.violations = [⟨channel, key, .leak⟩] ∧
    (key = toString n.pc.toInt ∨ ∃ rest, key = toString n.pc.toInt ++ ":" ++ rest)

/-- The shape of the report of an analysis of `g`. -/
structure Report.WellShaped (g : SpecGraph) (r : Report) : Prop where
  numbered : r.trace.map (·.id) = List.range r.trace.length
  earlier : ∀ step ∈ r.trace.dropLast, step.isViolation = false
  verdict : r.verdict = .violation ↔ ∃ last, r.trace.getLast? = some last ∧ last.isViolation = true
  error : r.verdict = .violation → r.error = none
  leak : ∀ step ∈ r.trace, step.isViolation = true → step.ShowsLeak g
  harmless : ∀ step ∈ r.trace, ∀ key relation,
    (key, relation) ∈ step.state.obsMem.entries ∨ (key, relation) ∈ step.state.obsCtrl.entries →
      relation = .eqLow ∨ relation = .eqHigh ∨ step.isViolation = true ∧ relation = .leak
  committed : ∀ step ∈ r.trace, step.mode = .committed → step.isViolation = false

/-! ## One step -/

namespace Setup

variable {s : Setup} {entry : Key} {step : Step}

theorem Visits.showsLeak (hi : s.initial.Harmless) (h : s.Visits entry step)
    (hv : step.isViolation = true) : step.ShowsLeak s.graph := by
  obtain ⟨k, n, st, out, hst, hn, hafter, hstep⟩ := h
  have hleak : s.leaks k st = true := by
    rw [← hasViolation_after (hst.harmless hi) hafter]
    rw [hstep] at hv
    exact hv
  obtain ⟨hmode, site, hsite, -, hviolations⟩ := violations_after (hst.harmless hi) hafter hleak
  obtain ⟨n', hn', hkey⟩ := key_of_site? hsite
  cases hn.symm.trans hn'
  refine ⟨?_, k.node, n, site.channel.name, site.key, hn, ?_, ?_, ?_, hkey⟩
  · rw [hstep]; exact hmode
  · rw [hstep]; rfl
  · rw [hstep]; rfl
  · rw [hstep]; exact hviolations

theorem Visits.harmless (hi : s.initial.Harmless) (h : s.Visits entry step) {c : Channel}
    {key : String} {relation : Relation}
    (hr : (step.state.observations c).get? key = some relation) :
    relation = .eqLow ∨ relation = .eqHigh ∨ step.isViolation = true ∧ relation = .leak := by
  obtain ⟨k, n, st, out, hst, -, hafter, hstep⟩ := h
  have hout : (out.observations c).get? key = some relation := by
    rw [hstep] at hr
    exact hr
  have hv : step.isViolation = s.leaks k st := by
    rw [hstep]
    exact hasViolation_after (hst.harmless hi) hafter
  cases hleak : s.leaks k st with
  | false =>
    rcases harmless_after (hst.harmless hi) hafter hleak c key relation hout with h | h
    · exact .inl h
    · exact .inr (.inl h)
  | true =>
    -- only what is recorded at the site of the visit is new, and that is a leak
    obtain ⟨hmode, hsecret, site, hsite, hne⟩ := leaks_iff.1 hleak
    rw [get?_observations_after hafter hsite] at hout
    split at hout
    · rw [hmode, Observations.update_eq_leak hsecret hne] at hout
      cases hout
      exact .inr (.inr ⟨hv.trans hleak, rfl⟩)
    · rcases hst.harmless hi c key relation hout with h | h
      · exact .inl h
      · exact .inr (.inl h)

end Setup

/-! ## A run -/

namespace Machine

variable {s : Setup} {cap : Option Nat} {m m' : Machine}

/-- Between two steps: steps are numbered, and none has shown a violation. -/
structure Orderly (m : Machine) : Prop where
  numbered : m.trace.toList.map (·.id) = List.range m.trace.size
  calm : ∀ step ∈ m.trace.toList, step.isViolation = false

theorem orderly_of_trace_empty (h : m.trace = #[]) : Orderly m := by
  refine ⟨?_, fun step hs => ?_⟩
  · rw [h]
    rfl
  · rw [h] at hs
    cases hs

theorem numbered_push {trace : Array Step} (h : trace.toList.map (·.id) = List.range trace.size)
    (n : Node) (mode : Mode) (out : State) :
    (trace.push (visit trace.size n mode out)).toList.map (·.id) =
      List.range (trace.push (visit trace.size n mode out)).size := by
  rw [Array.toList_push, Array.size_push, List.map_append, h, List.range_succ]
  rfl

theorem Orderly.push (h : Orderly m) (n : Node) (mode : Mode) {out : State}
    (hv : out.hasViolation = false)
    (htrace : m'.trace = m.trace.push (visit m.trace.size n mode out)) : Orderly m' := by
  refine ⟨?_, fun step hs => ?_⟩
  · rw [htrace]
    exact numbered_push h.numbered n mode out
  · rw [htrace, Array.toList_push, List.mem_append, List.mem_singleton] at hs
    rcases hs with hs | rfl
    · exact h.calm step hs
    · exact hv

theorem Orderly.step (h : Orderly m) (hstep : Progress.OfStep s cap m (.running m')) :
    Orderly m' := by
  cases hstep with
  | @passes m₁ k n st out _ node held after violation queue table trace result =>
    have htrace := trace_propagateAll s cap out m₁ (s.moves k)
    rw [result] at htrace
    exact h.push n k.mode violation (htrace.trans trace)

/-- The trace with which a run ends in `outcome`. -/
structure EndsOrderly (trace : List Step) (outcome : Except Error Verdict) : Prop where
  numbered : trace.map (·.id) = List.range trace.length
  earlier : ∀ step ∈ trace.dropLast, step.isViolation = false
  violation : outcome = .ok .violation ↔
    ∃ last, trace.getLast? = some last ∧ last.isViolation = true

theorem Orderly.ends (h : Orderly m) {outcome : Except Error Verdict}
    (houtcome : outcome ≠ .ok .violation) : EndsOrderly m.trace.toList outcome := by
  refine ⟨?_, fun step hs => h.calm step (List.dropLast_subset _ hs),
    fun h' => absurd h' houtcome, ?_⟩
  · rw [h.numbered, Array.length_toList]
  · rintro ⟨last, hlast, hv⟩
    rw [h.calm last (List.mem_of_getLast? hlast)] at hv
    cases hv

theorem Orderly.endsInViolation (h : Orderly m) (n : Node) (mode : Mode) {out : State}
    (hv : out.hasViolation = true) :
    EndsOrderly (m.trace.push (visit m.trace.size n mode out)).toList (.ok .violation) := by
  refine ⟨?_, fun step hs => ?_, fun _ => ⟨visit m.trace.size n mode out, ?_, hv⟩, fun _ => rfl⟩
  · rw [Array.length_toList]
    exact numbered_push h.numbered n mode out
  · rw [Array.toList_push, List.dropLast_concat] at hs
    exact h.calm step hs
  · rw [Array.toList_push, List.getLast?_concat]

theorem endsOrderly_run (s : Setup) (cap : Option Nat) (entry : Key) (late : Error) (fuel : Nat) :
    EndsOrderly ((start s entry).run s cap late fuel).machine.trace.toList
      ((start s entry).run s cap late fuel).outcome := by
  refine run_spec (P := Orderly) (Q := fun m outcome => EndsOrderly m.trace.toList outcome)
    (fun _ _ h hstep => h.step hstep) ?_ (fun _ h => h.ends nofun) fuel _
    (orderly_of_trace_empty rfl)
  intro m m' outcome h hstep
  cases hstep with
  | done => exact h.ends nofun
  | fails queue table trace =>
    rw [trace]
    exact h.ends nofun
  | @violates _ k n st out node held after violation table trace =>
    rw [trace]
    exact h.endsInViolation n k.mode violation
  | @passes m₁ k n st out _ node held after violation queue table trace result =>
    obtain ⟨limit, hlimit⟩ := outcome_propagateAll result
    have htrace := trace_propagateAll s cap out m₁ (s.moves k)
    rw [result] at htrace
    have horderly : Orderly m' := h.push n k.mode violation (htrace.trans trace)
    exact horderly.ends (by rw [hlimit]; nofun)

end Machine

namespace Setup

theorem endsOrderly_run (s : Setup) : EndsOrderly s.run.machine.trace.toList s.run.outcome := by
  rcases s.run_cases with ⟨hmachine, houtcome⟩ | ⟨entry, hentry⟩
  · rw [hmachine]
    exact (orderly_of_trace_empty rfl).ends houtcome
  · rw [s.run_of_entry hentry]
    exact Machine.endsOrderly_run ..

theorem visits_of_mem_trace {s : Setup} {step : Step} (h : step ∈ s.run.machine.trace.toList) :
    ∃ entry, s.Visits entry step := by
  rcases s.run_cases with ⟨hmachine, -⟩ | ⟨entry, hentry⟩
  · rw [hmachine] at h
    cases h
  · rw [s.run_of_entry hentry] at h
    exact ⟨entry, (accounted_run ..).visited step (Array.mem_def.2 h)⟩

end Setup

/-- Every report of an analysis has the shape above, whatever the graph, the policy and the
    limits. -/
theorem analyze_wellShaped (g : SpecGraph) (o : Options) : (g.analyze o).result.WellShaped g := by
  have hi : (Setup.of g o).initial.Harmless := State.harmless_seeded _ _
  have hends := (Setup.of g o).endsOrderly_run
  have hvisits : ∀ step ∈ (g.analyze o).result.trace, ∃ entry, (Setup.of g o).Visits entry step :=
    fun step hs => Setup.visits_of_mem_trace hs
  have hleak : ∀ step ∈ (g.analyze o).result.trace, step.isViolation = true → step.ShowsLeak g :=
    fun step hs hv => (hvisits step hs).elim fun entry h => h.showsLeak hi hv
  refine ⟨hends.numbered, hends.earlier,
    SpecGraph.verdict_eq_violation_iff.trans hends.violation,
    SpecGraph.error_eq_none_of_violation, hleak, fun step hs key relation hr => ?_,
    fun step hs hmode => ?_⟩
  · obtain ⟨entry, h⟩ := hvisits step hs
    rcases hr with hr | hr
    · exact h.harmless hi (c := .mem) ((SortedMap.mem_entries_iff _).1 hr)
    · exact h.harmless hi (c := .ctrl) ((SortedMap.mem_entries_iff _).1 hr)
  · rw [Bool.eq_false_iff]
    intro hv
    rw [(hleak step hs hv).1] at hmode
    cases hmode

end Mispredict
