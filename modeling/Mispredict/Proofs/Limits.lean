/-
  Limits only cut an analysis short.

  A run is guarded twice: by its fuel, which is looked at before a step, and by the limit
  on changes, which is looked at while the result of a visit is passed on. Two runs that
  differ in their limits go in lockstep until the tighter one stops at a limit
  (`run_of_capLe`). A change that is one too many stops the run after its step has got
  into the trace, and so the trace is still a beginning of the longer one.

  `analyze_withLimits` says this of reports: with higher limits the trace goes on where it
  was cut, and an analysis that does not stop at a limit gives the same report under all
  higher limits. An analysis that stops for want of steps has taken all that it may take,
  none of which shows a violation.
-/
import Mispredict.Proofs.Moment
import Mispredict.Proofs.TraceShape

namespace Mispredict

open Machine

/-! ## Errors that come of limits -/

/-- Whether an error says that a limit of the analysis was exceeded. -/
def Error.isLimit : Error → Bool
  | .iterationCapExceeded _ => true
  | .maxStepsExceeded _ => true
  | _ => false

/-- The analysis has come to an end that is not for want of steps or changes. -/
def Finished.WithinLimits (f : Finished) : Prop :=
  ∀ e, f.outcome = .error e → e.isLimit = false

theorem Node.isLimit_of_transfer {n : Node} {st : State} {mode : Mode} {e : Error}
    (h : n.transfer st mode = .error e) : e.isLimit = false := by
  unfold transfer executes at h
  split at h
  · cases h
  · split at h
    · cases h
    · split at h
      · cases h
      · cases h
        rfl

theorem SpecGraph.isLimit_of_nodeAt {g : SpecGraph} {index : Nat} {e : Error}
    (h : g.nodeAt index = .error e) : e.isLimit = false := by
  unfold nodeAt at h
  split at h
  · cases h
  · cases h
    rfl

/-- An analysis that cannot start has not met a limit. -/
theorem Setup.isLimit_of_checkedEntry {s : Setup} {e : Error} (h : s.checkedEntry = .error e) :
    e.isLimit = false := by
  unfold checkedEntry SpecGraph.validate at h
  split at h
  · cases h
    rfl
  · by_cases hwindow : s.options.specWindow ≤ 0
    · simp only [hwindow, if_true] at h
      cases h
      rfl
    · simp only [hwindow, if_false] at h
      have hentry : s.entryKey = .error e := h
      unfold entryKey at hentry
      split at hentry
      · split at hentry
        · cases hentry
        · cases hentry
          rfl
      · cases hentry

namespace Machine

variable {s : Setup} {cap cap' : Option Nat} {m m' : Machine} {out : State}

/-- A step that stops at a limit does so in passing on the result of a visit. -/
theorem passes_of_isLimit {e : Error} (h : Progress.OfStep s cap m (.stopped m' (.error e)))
    (he : e.isLimit = true) :
    ∃ m₁ out moves, propagateAll s cap out m₁ moves = .stopped m' (.error e) := by
  cases h with
  | fails queue table trace cause =>
    rcases cause with hnode | ⟨n, -, ⟨-, rfl⟩ | ⟨st, -, htransfer⟩⟩
    · rw [SpecGraph.isLimit_of_nodeAt hnode] at he
      cases he
    · cases he
    · rw [Node.isLimit_of_transfer htransfer] at he
      cases he
  | passes node held after violation queue table trace result => exact ⟨_, _, _, result⟩

/-- A run that finds no violation has no step that shows one. -/
theorem EndsOrderly.calm {trace : List Step} {outcome : Except Error Verdict}
    (h : EndsOrderly trace outcome) (houtcome : outcome ≠ .ok .violation) :
    ∀ step ∈ trace, step.isViolation = false := by
  intro step hstep
  rcases List.eq_nil_or_concat trace with rfl | ⟨earlier, last, rfl⟩
  · cases hstep
  · rw [List.concat_eq_append] at h hstep
    rcases List.mem_append.1 hstep with hmem | hmem
    · exact h.earlier step (by rwa [List.dropLast_concat])
    · cases List.mem_singleton.1 hmem
      rw [Bool.eq_false_iff]
      intro hv
      exact houtcome (h.violation.2 ⟨step, List.getLast?_concat, hv⟩)

/-! ## Two limits on changes -/

/-- The second limit allows all the changes that the first one allows. -/
def CapLe (cap cap' : Option Nat) : Prop := ∀ limit' ∈ cap', ∃ limit ∈ cap, limit ≤ limit'

theorem capLe_some {limit limit' : Nat} (h : limit ≤ limit') :
    CapLe (some limit) (some limit') := by
  intro l hl
  cases hl
  exact ⟨limit, rfl, h⟩

theorem propagate_of_capLe (hcap : CapLe cap cap') {target : Key} {payload : Payload}
    (h : m.propagate s cap out target payload = .running m') :
    m.propagate s cap' out target payload = .running m' := by
  rw [propagate_eq_running_iff rfl] at h ⊢
  rcases h with h | ⟨hne, hlt, rfl⟩
  · exact .inl h
  · refine .inr ⟨hne, fun limit' hlimit' => ?_, rfl⟩
    obtain ⟨limit, hlimit, hle⟩ := hcap limit' hlimit'
    exact (hlt limit hlimit).trans_le hle

theorem propagateAll_of_capLe (hcap : CapLe cap cap') {moves : List (Key × Payload)}
    (h : m.propagateAll s cap out moves = .running m') :
    m.propagateAll s cap' out moves = .running m' := by
  induction moves generalizing m with
  | nil => exact h
  | cons move moves ih =>
    obtain ⟨target, payload⟩ := move
    rw [propagateAll] at h ⊢
    split at h
    · next m₁ heq =>
      rw [propagate_of_capLe hcap heq]
      exact ih h
    · cases h

/-- A step passes on the result of a visit, or else the limit on changes is not looked at. -/
theorem visiting_or_step_eq (s : Setup) (m : Machine) :
    (∃ k queue n st out, Visiting s m k queue n st out) ∨
      ∀ cap cap', m.step s cap = m.step s cap' := by
  cases hpop : m.queue.pop? with
  | none =>
    right
    intro cap cap'
    rw [step, step, hpop]
  | some popped =>
    obtain ⟨k, queue⟩ := popped
    cases hnode : s.graph.node? k.node with
    | none =>
      right
      intro cap cap'
      simp only [step, hpop, SpecGraph.nodeAt, hnode]
    | some n =>
      cases hheld : m.table[k]? with
      | none =>
        right
        intro cap cap'
        simp only [step, hpop, SpecGraph.nodeAt, hnode, hheld]
      | some st =>
        cases htransfer : n.transfer st k.mode with
        | error e =>
          right
          intro cap cap'
          simp only [step, hpop, SpecGraph.nodeAt, hnode, hheld, htransfer]
        | ok out =>
          cases hv : out.hasViolation with
          | false =>
            have hafter : s.after k st = .ok out := (Setup.after_of_node hnode st).trans htransfer
            exact .inl ⟨k, queue, n, st, out, hpop, hnode, hheld, hafter, hv⟩
          | true =>
            right
            intro cap cap'
            simp only [step, hpop, SpecGraph.nodeAt, hnode, hheld, htransfer, complete, hv,
              if_true]

theorem step_of_capLe (hcap : CapLe cap cap') (h : m.step s cap = .running m') :
    m.step s cap' = .running m' := by
  obtain ⟨k, queue, n, st, out, hvisiting⟩ := exists_visiting_of_step h
  rw [hvisiting.step_eq] at h ⊢
  exact propagateAll_of_capLe hcap h

/-- A step that stops does so under every limit, unless it stops at its limit; and then it has
    traced what it would trace under any other. -/
theorem step_of_stopped {outcome : Except Error Verdict} (h : m.step s cap = .stopped m' outcome)
    (cap' : Option Nat) :
    m.step s cap' = .stopped m' outcome ∨
      (∃ limit, outcome = .error (.iterationCapExceeded limit)) ∧
        (m.step s cap').machine.trace = m'.trace := by
  rcases visiting_or_step_eq s m with ⟨k, queue, n, st, out, hvisiting⟩ | heq
  · rw [hvisiting.step_eq] at h ⊢
    have htrace := trace_propagateAll s cap out (m.visited s k queue n out) (s.moves k)
    rw [h] at htrace
    refine .inr ⟨outcome_propagateAll h, ?_⟩
    rw [trace_propagateAll]
    exact htrace.symm
  · exact .inl ((heq cap' cap).trans h)

/-! ## Two runs -/

/-- The trace of a run goes on as the next step has it. -/
theorem trace_step_prefix_run (s : Setup) (cap : Option Nat) (late : Error) (fuel : Nat)
    (m : Machine) :
    (m.step s cap).machine.trace.toList <+:
      (m.run s cap late (fuel + 1)).machine.trace.toList := by
  rw [run]
  cases m.step s cap with
  | running m₁ => exact trace_prefix_run fuel m₁
  | stopped m₁ outcome => exact List.prefix_rfl

/-- Of two runs in lockstep, the one with less fuel and the lower limit on changes stops first. -/
theorem run_of_capLe (hcap : CapLe cap cap') {late : Error} (late' : Error) {fuel fuel' : Nat}
    (hfuel : fuel ≤ fuel') (m : Machine) :
    (m.run s cap late fuel).machine.trace.toList <+:
        (m.run s cap' late' fuel').machine.trace.toList ∧
      ((m.run s cap late fuel).outcome ≠ .error late →
        (∀ limit, (m.run s cap late fuel).outcome ≠ .error (.iterationCapExceeded limit)) →
        m.run s cap' late' fuel' = m.run s cap late fuel) := by
  induction fuel generalizing m fuel' with
  | zero =>
    refine ⟨trace_prefix_run fuel' m, fun hlate _ => ?_⟩
    rw [run] at hlate ⊢
    by_cases hempty : m.queue.isEmpty
    · rw [if_pos hempty]
      exact run_of_queue_eq_nil ((Worklist.isEmpty_iff _).1 hempty)
    · rw [if_neg hempty] at hlate
      exact absurd rfl hlate
  | succ fuel ih =>
    obtain ⟨fuel', rfl⟩ : ∃ n, fuel' = n + 1 := ⟨fuel' - 1, by omega⟩
    cases hstep : m.step s cap with
    | running m₁ =>
      rw [run, run, hstep, step_of_capLe hcap hstep]
      exact ih (by omega) m₁
    | stopped m₁ outcome =>
      have htight : m.run s cap late (fuel + 1) = ⟨m₁, outcome⟩ := by rw [run, hstep]
      rcases step_of_stopped hstep cap' with hsame | ⟨⟨limit, rfl⟩, htrace⟩
      · have hloose : m.run s cap' late' (fuel' + 1) = ⟨m₁, outcome⟩ := by rw [run, hsame]
        rw [htight, hloose]
        exact ⟨List.prefix_rfl, fun _ _ => rfl⟩
      · rw [htight]
        refine ⟨?_, fun _ hcapped => absurd rfl (hcapped limit)⟩
        rw [← htrace]
        exact trace_step_prefix_run s cap' late' fuel' m

/-- A run that stops for want of steps has taken all that it may take. -/
theorem size_trace_of_late {n fuel : Nat} {late : Error} (m : Machine)
    (h : (m.run s cap late fuel).outcome = .error (.maxStepsExceeded n)) :
    (m.run s cap late fuel).machine.trace.size = m.trace.size + fuel ∧
      late = .maxStepsExceeded n := by
  induction fuel generalizing m with
  | zero =>
    rw [run] at h ⊢
    dsimp only at h ⊢
    split at h
    · cases h
    · exact ⟨rfl, Except.error.inj h⟩
  | succ fuel ih =>
    have hof := step_ofStep s cap m
    rw [run] at h ⊢
    split at h
    · next m₁ hstep =>
      rw [hstep] at hof
      obtain ⟨hsize, hlate⟩ := ih m₁ h
      refine ⟨?_, hlate⟩
      cases hof with
      | @passes m₂ k _ _ out _ node held after violation queue table trace result =>
        have htrace := trace_propagateAll s cap out m₂ (s.moves k)
        rw [result] at htrace
        have hgrown : m₁.trace.size = m.trace.size + 1 := by
          rw [show m₁.trace = m₂.trace from htrace, trace, Array.size_push]
        omega
    · next m₁ outcome hstep =>
      rw [hstep] at hof
      rw [show outcome = .error (.maxStepsExceeded n) from h] at hof
      obtain ⟨m₂, out, moves, hstopped⟩ := passes_of_isLimit hof rfl
      obtain ⟨limit, hlimit⟩ := outcome_propagateAll hstopped
      cases hlimit

end Machine

/-! ## Two analyses -/

/-- The options with other limits. -/
def Options.withLimits (o : Options) (maxSteps iterationCap : Nat) : Options :=
  { o with maxSteps := maxSteps, iterationCap := iterationCap }

namespace Setup

variable {g : SpecGraph} {o : Options} {maxSteps iterationCap : Nat}

theorem propagateAll_withLimits (cap : Option Nat) (out : State) (m : Machine)
    (moves : List (Key × Payload)) :
    m.propagateAll (Setup.of g (o.withLimits maxSteps iterationCap)) cap out moves =
      m.propagateAll (Setup.of g o) cap out moves := by
  induction moves generalizing m with
  | nil => rfl
  | cons move moves ih =>
    obtain ⟨target, payload⟩ := move
    have hpass : m.propagate (Setup.of g (o.withLimits maxSteps iterationCap)) cap out target
        payload = m.propagate (Setup.of g o) cap out target payload := rfl
    rw [propagateAll, propagateAll, hpass]
    cases m.propagate (Setup.of g o) cap out target payload with
    | running m₁ => exact ih m₁
    | stopped m₁ outcome => rfl

/-- The machine meets the limits in its fuel and its limit on changes only. -/
theorem run_withLimits (cap : Option Nat) (late : Error) (fuel : Nat) (m : Machine) :
    m.run (Setup.of g (o.withLimits maxSteps iterationCap)) cap late fuel =
      m.run (Setup.of g o) cap late fuel := by
  induction fuel generalizing m with
  | zero => rfl
  | succ fuel ih =>
    have hstep : m.step (Setup.of g (o.withLimits maxSteps iterationCap)) cap =
        m.step (Setup.of g o) cap := by
      unfold step complete
      simp only [propagateAll_withLimits]
      rfl
    rw [Machine.run, Machine.run, hstep]
    cases m.step (Setup.of g o) cap with
    | running m₁ => exact ih m₁
    | stopped m₁ outcome => rfl

/-- An analysis that stops for want of steps has taken all that it may take, none of which shows a
    violation. -/
theorem trace_of_maxStepsExceeded {s : Setup} {n : Nat}
    (h : s.run.outcome = .error (.maxStepsExceeded n)) :
    s.run.machine.trace.size = s.options.maxSteps ∧ n = s.options.maxSteps ∧
      ∀ step ∈ s.run.machine.trace.toList, step.isViolation = false := by
  cases hentry : s.checkedEntry with
  | error e =>
    have hlimit := isLimit_of_checkedEntry hentry
    rw [run, hentry] at h
    cases h
    cases hlimit
  | ok found =>
    cases found with
    | none =>
      rw [run, hentry] at h
      cases h
    | some entry =>
      have hends := s.endsOrderly_run
      rw [s.run_of_entry hentry] at h hends ⊢
      obtain ⟨hsize, hlate⟩ := size_trace_of_late _ h
      cases hlate
      refine ⟨hsize.trans (Nat.zero_add _), rfl, hends.calm ?_⟩
      intro hviolation
      rw [h] at hviolation
      cases hviolation

/-- Two analyses that differ in their limits only: what the one that is more limited comes to is the
    beginning of what the other comes to, and all of it unless it stops at a limit. -/
theorem run_of_limits_le (g : SpecGraph) (o : Options) {maxSteps iterationCap : Nat}
    (hsteps : o.maxSteps ≤ maxSteps) (hcap : o.iterationCap ≤ iterationCap) :
    (Setup.of g o).run.machine.trace.toList <+:
        (Setup.of g (o.withLimits maxSteps iterationCap)).run.machine.trace.toList ∧
      ((Setup.of g o).run.WithinLimits →
        (Setup.of g (o.withLimits maxSteps iterationCap)).run = (Setup.of g o).run) := by
  have hchecked : (Setup.of g (o.withLimits maxSteps iterationCap)).checkedEntry =
      (Setup.of g o).checkedEntry := rfl
  cases hentry : (Setup.of g o).checkedEntry with
  | error e =>
    rw [run, run, hchecked, hentry]
    exact ⟨List.prefix_rfl, fun _ => rfl⟩
  | ok found =>
    cases found with
    | none =>
      rw [run, run, hchecked, hentry]
      exact ⟨List.prefix_rfl, fun _ => rfl⟩
    | some entry =>
      rw [run_of_entry hentry, run_of_entry (hchecked.trans hentry), run_withLimits]
      obtain ⟨htrace, hrun⟩ := run_of_capLe (s := Setup.of g o) (capLe_some hcap)
        (.maxStepsExceeded maxSteps) hsteps (start (Setup.of g o) entry)
      refine ⟨htrace, fun hwithin => hrun (fun hlate => ?_) fun limit hlimit => ?_⟩
      · cases hwithin _ hlate
      · cases hwithin _ hlimit

end Setup

/-- The analysis of a graph with the options `o` is the beginning of that with `o'`. -/
structure SpecGraph.BeginsAnalysis (g : SpecGraph) (o o' : Options) : Prop where
  trace : (g.analyze o).result.trace <+: (g.analyze o').result.trace
  /-- It is all of it, log included, if it stops at no limit. -/
  same : (Setup.of g o).run.WithinLimits → g.analyze o' = g.analyze o
  /-- For want of steps it stops when it has taken all that it may take. -/
  steps : ∀ n, (Setup.of g o).run.outcome = .error (.maxStepsExceeded n) →
    (g.analyze o).result.trace.length = o.maxSteps
  calm : ∀ n, (Setup.of g o).run.outcome = .error (.maxStepsExceeded n) →
    ∀ step ∈ (g.analyze o).result.trace, step.isViolation = false

/-- With higher limits a trace goes on where it was cut, and an analysis that stops at no limit
    gives the same report and the same log. One that stops for want of steps has taken as many as
    it may, none of which shows a violation. -/
theorem analyze_withLimits (g : SpecGraph) (o : Options) (maxSteps iterationCap : Nat)
    (hsteps : o.maxSteps ≤ maxSteps) (hcap : o.iterationCap ≤ iterationCap) :
    g.BeginsAnalysis o (o.withLimits maxSteps iterationCap) := by
  obtain ⟨htrace, hrun⟩ := Setup.run_of_limits_le g o hsteps hcap
  refine ⟨htrace, fun hwithin => ?_, fun n hlate => ?_, fun n hlate => ?_⟩
  · rw [SpecGraph.analyze, SpecGraph.analyze, hrun hwithin]
    rfl
  · exact (Array.length_toList ..).trans (Setup.trace_of_maxStepsExceeded hlate).1
  · exact (Setup.trace_of_maxStepsExceeded hlate).2.2

/-- A branch to itself whose analysis is cut off after four steps, and what it is the beginning of:
    the analysis with more steps, which ends within its limits. -/
theorem analyze_retryLoop_withLimits :
    let g := Setup.retryLoop
    let o := Setup.retryOptions.withLimits 4 30
    (Setup.of g o).run.outcome = .error (.maxStepsExceeded 4) ∧
      (g.analyze o).result.trace <+: (g.analyze (o.withLimits 40 30)).result.trace ∧
      (g.analyze o).result.trace.length = 4 ∧
      (∀ step ∈ (g.analyze o).result.trace, step.isViolation = false) ∧
      (Setup.of g (o.withLimits 40 30)).run.WithinLimits ∧
      g.analyze ((o.withLimits 40 30).withLimits 50 60) = g.analyze (o.withLimits 40 30) := by
  intro g o
  have hlate : (Setup.of g o).run.outcome = .error (.maxStepsExceeded 4) := by decide +kernel
  have hsecure : (Setup.of g (o.withLimits 40 30)).run.outcome = .ok .secure := by decide +kernel
  have hwithin : (Setup.of g (o.withLimits 40 30)).run.WithinLimits := by
    intro e he
    rw [hsecure] at he
    cases he
  have hcut := analyze_withLimits g o 40 30 (by decide) (by decide)
  have hwhole := analyze_withLimits g (o.withLimits 40 30) 50 60 (by decide) (by decide)
  exact ⟨hlate, hcut.trace, hcut.steps 4 hlate, hcut.calm 4 hlate, hwithin, hwhole.same hwithin⟩

end Mispredict
