/-
  Discarded speculation is invisible to committed analysis.

  In a graph that is built to discard mispredicted paths nothing leads back from speculation.
  So the analysis of the whole graph and that of its committed part agree, all the time, on
  the states of committed points, on which of them are queued and in which order, and on the
  committed steps of the trace (`Mirrors`): a speculative visit of the one analysis is
  nothing to the other (`Mirrors.visit_speculative`), and a committed visit is the same visit
  in both (`Mirrors.visit_committed`).

  The whole graph uses up its limits sooner. Hence its committed steps begin the trace of the
  committed part, and are all of it if the analysis comes to its end
  (`isPrefix_committedSteps`).
-/
import Mispredict.Proofs.Moment
import Mispredict.Proofs.Restriction

namespace Mispredict

/-- The step without its number. -/
def Step.unnumbered (step : Step) : Step := { step with id := 0 }

/-- The committed steps of a trace, without their numbers. -/
def committedSteps (trace : List Step) : List Step :=
  (trace.filter (·.mode == .committed)).map Step.unnumbered

namespace Machine

theorem filter_extend (order : TraceMode) (p : Key → Bool) (l : List Key) (k : Key) :
    (extend order l k).filter p = if p k then extend order (l.filter p) k else l.filter p := by
  cases order with
  | breadthFirst => cases hp : p k <;> simp [extend, hp]
  | singlePath => cases hp : p k <;> simp [extend, hp]

/-- The machine `m'`, which analyses the committed part `c`, is where `m` is in the analysis of the
    whole graph, as far as that is committed. -/
structure Mirrors (c : SpecGraph) (m m' : Machine) : Prop where
  table : ∀ k : Key, k.mode = .committed → m'.table[k]? = m.table[k]?
  queue : m'.queue.toList = m.queue.toList.filter (·.mode == .committed)
  trace : m'.trace.toList.map Step.unnumbered = committedSteps m.trace.toList
  relaxations : m'.relaxations ≤ m.relaxations
  nodes : ∀ k ∈ m.queue.toList, k.mode = .committed → ∃ n, c.node? k.node = some n

variable {c : SpecGraph} {s t : Setup} {cap : Option Nat} {m m' m₁ : Machine} {k target : Key}
  {payload : Payload} {n : Node} {st out : State}

/-! ## Passing on -/

theorem Mirrors.pass_speculative (h : Mirrors c m m') (htarget : target.mode = .speculative)
    (hp : m.propagate s cap out target payload = .running m₁) : Mirrors c m₁ m' := by
  rcases (propagate_eq_running_iff rfl).1 hp with ⟨-, rfl⟩ | ⟨-, -, rfl⟩
  · exact h
  · refine ⟨fun k hk => ?_, ?_, ?_, ?_, fun k hk hmode => ?_⟩
    · have hne : k ≠ target := by
        rintro rfl
        rw [hk] at htarget
        cases htarget
      rw [table_enqueue, update, getElem?_insert_table, if_neg hne]
      exact h.table k hk
    · rw [toList_enqueue, h.queue, apply_ite (List.filter _), filter_extend, htarget]
      simp [update]
    · rw [trace_enqueue]
      exact h.trace
    · rw [relaxations_enqueue]
      exact h.relaxations.trans (Nat.le_succ _)
    · rcases (mem_queue_enqueue ..).1 hk with rfl | hk
      · rw [hmode] at htarget
        cases htarget
      · exact h.nodes k hk hmode

theorem Mirrors.pass_committed (h : Mirrors c m m') (hinitial : t.initial = s.initial)
    (horder : t.options.traceMode = s.options.traceMode) (htarget : target.mode = .committed)
    (hnode : ∃ n, c.node? target.node = some n)
    (hp : m.propagate s cap out target payload = .running m₁) :
    ∃ m₁', m'.propagate t cap out target payload = .running m₁' ∧ Mirrors c m₁ m₁' := by
  have hheld := h.table target htarget
  have hnew : received t.initial m'.table[target]? out payload =
      received s.initial m.table[target]? out payload := by
    rw [hheld, hinitial]
  rcases (propagate_eq_running_iff rfl).1 hp with ⟨hsettled, rfl⟩ | ⟨hfresh, hlimit, rfl⟩
  · exact ⟨m', (propagate_eq_running_iff hnew).2 (.inl ⟨hheld.trans hsettled, rfl⟩), h⟩
  · refine ⟨_, (propagate_eq_running_iff hnew).2 (.inr ⟨by rwa [hheld], fun limit hcap =>
      h.relaxations.trans_lt (hlimit limit hcap), rfl⟩), fun k hk => ?_, ?_, ?_, ?_,
      fun k hk hmode => ?_⟩
    · rw [table_enqueue, table_enqueue, update, update, getElem?_insert_table,
        getElem?_insert_table, h.table k hk]
    · have hmem : target ∈ m.queue.toList.filter (·.mode == .committed) ↔
          target ∈ m.queue.toList := by
        simp [htarget]
      rw [toList_enqueue, toList_enqueue, apply_ite (List.filter _), filter_extend, htarget,
        horder]
      simp only [update, h.queue, hmem, beq_self_eq_true, if_true]
    · rw [trace_enqueue, trace_enqueue]
      exact h.trace
    · rw [relaxations_enqueue, relaxations_enqueue]
      exact Nat.succ_le_succ h.relaxations
    · rcases (mem_queue_enqueue ..).1 hk with rfl | hk
      · exact hnode
      · exact h.nodes k hk hmode

theorem Mirrors.passAll (h : Mirrors c m m') (hinitial : t.initial = s.initial)
    (horder : t.options.traceMode = s.options.traceMode) {moves : List (Key × Payload)}
    (hnodes : ∀ move ∈ moves, move.1.mode = .committed → ∃ n, c.node? move.1.node = some n)
    (hp : m.propagateAll s cap out moves = .running m₁) :
    ∃ m₁', m'.propagateAll t cap out (moves.filter (·.1.mode == .committed)) = .running m₁' ∧
      Mirrors c m₁ m₁' := by
  induction moves generalizing m m' with
  | nil =>
    cases hp
    exact ⟨m', rfl, h⟩
  | cons move moves ih =>
    obtain ⟨target, payload⟩ := move
    have hrest := fun move hmove => hnodes move (List.mem_cons_of_mem _ hmove)
    rw [propagateAll] at hp
    split at hp
    · next m₂ heq =>
      cases hmode : target.mode with
      | committed =>
        obtain ⟨m₂', heq', h₂⟩ := h.pass_committed hinitial horder hmode
          (hnodes _ List.mem_cons_self hmode) heq
        obtain ⟨m₁', hp', h₁⟩ := ih h₂ hrest hp
        refine ⟨m₁', ?_, h₁⟩
        rw [List.filter_cons_of_pos (by simp [hmode]), propagateAll, heq']
        exact hp'
      | speculative =>
        rw [List.filter_cons_of_neg (by simp [hmode])]
        exact ih (h.pass_speculative hmode heq) hrest hp
    · cases hp

/-! ## Visits -/

theorem committedSteps_push (trace : Array Step) (id : Nat) (n : Node) (mode : Mode)
    (out : State) : committedSteps (trace.push (visit id n mode out)).toList =
      committedSteps trace.toList ++ if mode = .committed then [visit 0 n mode out] else [] := by
  rw [committedSteps, Array.toList_push, List.filter_append, List.map_append]
  cases mode <;> rfl

theorem Mirrors.visit_speculative (h : Mirrors c m m') {queue : Worklist}
    (hmode : k.mode = .speculative) (hv : Visiting s m k queue n st out) :
    Mirrors c (m.visited s k queue n out) m' := by
  have hqueue := Worklist.toList_of_pop?_eq_some hv.next
  refine ⟨fun k' hk' => ?_, ?_, ?_, ?_, fun k' hk' hmode' => ?_⟩
  · rw [table_visited]
    exact h.table k' hk'
  · rw [queue_visited, h.queue, hqueue, List.filter_cons_of_neg (by simp [hmode])]
  · rw [trace_visited, committedSteps_push, hmode, if_neg nofun, List.append_nil]
    exact h.trace
  · rw [relaxations_visited]
    exact h.relaxations
  · rw [queue_visited] at hk'
    exact h.nodes k' (hqueue ▸ List.mem_cons_of_mem _ hk') hmode'

variable {g : SpecGraph} {o : Options}

theorem Mirrors.visit_committed (h : Mirrors c m m') (hcore : c.IsCore g) {queue : Worklist}
    (hmode : k.mode = .committed) (hv : Visiting (Setup.of g o) m k queue n st out) :
    ∃ queue', Visiting (Setup.of c o) m' k queue' n st out ∧
      Mirrors c (m.visited (Setup.of g o) k queue n out)
        (m'.visited (Setup.of c o) k queue' n out) := by
  have hqueue := Worklist.toList_of_pop?_eq_some hv.next
  have hqueue' : m'.queue.toList = k :: queue.toList.filter (·.mode == .committed) := by
    rw [h.queue, hqueue, List.filter_cons_of_pos (by simp [hmode])]
  obtain ⟨queue', hpop, hrest⟩ := Worklist.exists_pop? hqueue'
  have hnode : (Setup.of c o).graph.node? k.node = some n := by
    obtain ⟨n', hn'⟩ := h.nodes k (hqueue ▸ List.mem_cons_self) hmode
    cases hv.node.symm.trans (hcore.node.1 hn').1
    exact hn'
  have hafter : (Setup.of c o).after k st = .ok out := by
    rw [Setup.after_of_node hnode, ← Setup.after_of_node hv.node, hv.after]
  refine ⟨queue', ⟨hpop, hnode, (h.table k hmode).trans hv.held, hafter, hv.quiet⟩,
    fun k' hk' => ?_, ?_, ?_, ?_, fun k' hk' hmode' => ?_⟩
  · rw [table_visited, table_visited]
    exact h.table k' hk'
  · rw [queue_visited, queue_visited]
    exact hrest
  · rw [trace_visited, trace_visited, committedSteps_push, if_pos hmode, Array.toList_push,
      List.map_append, h.trace]
    rfl
  · rw [relaxations_visited, relaxations_visited]
    exact h.relaxations
  · rw [queue_visited] at hk'
    exact h.nodes k' (hqueue ▸ List.mem_cons_of_mem _ hk') hmode'

/-! ## Runs -/

/-- Where the analysis of the whole graph visits a point, and then perhaps stops, that of the
    committed part has made the same committed steps, and goes on. -/
theorem Mirrors.isPrefix_steps (h : Mirrors c m m') (hcore : c.IsCore g) {rest : List Key}
    (hqueue : m.queue.toList = k :: rest) (hnode : (Setup.of g o).graph.node? k.node = some n)
    (hheld : m.table[k]? = some st) (hafter : (Setup.of g o).after k st = .ok out)
    {late : Error} (id fuel : Nat) :
    committedSteps (m.trace.push (visit id n k.mode out)).toList <+:
      (m'.run (Setup.of c o) cap late (fuel + 1)).machine.trace.toList.map Step.unnumbered := by
  rw [committedSteps_push, ← h.trace]
  cases hmode : k.mode with
  | speculative =>
    rw [if_neg nofun, List.append_nil]
    exact (trace_prefix_run _ m').map _
  | committed =>
    have hqueue' : m'.queue.toList = k :: rest.filter (·.mode == .committed) := by
      rw [h.queue, hqueue, List.filter_cons_of_pos (by simp [hmode])]
    obtain ⟨n', hn'⟩ := h.nodes k (hqueue ▸ List.mem_cons_self) hmode
    cases hnode.symm.trans (hcore.node.1 hn').1
    have hafter' : (Setup.of c o).after k st = .ok out := by
      rw [Setup.after_of_node hn', ← Setup.after_of_node hnode, hafter]
    have hstep := trace_step cap hqueue' hn' ((h.table k hmode).trans hheld) hafter'
    have hbegins : (m'.step (Setup.of c o) cap).machine.trace.toList <+:
        (m'.run (Setup.of c o) cap late (fuel + 1)).machine.trace.toList := by
      rw [run]
      split
      · next m₁ heq =>
        rw [heq]
        exact trace_prefix_run fuel m₁
      · next heq =>
        rw [heq]
        exact List.prefix_rfl
    rw [hstep, Array.toList_push, hmode] at hbegins
    have hmapped := hbegins.map Step.unnumbered
    rw [List.map_append] at hmapped
    exact hmapped

theorem mode_of_move_of_speculative {s : Setup} (hs : s.graph.NoRollback)
    (hmode : k.mode = .speculative) (hmove : (target, payload) ∈ s.moves k) :
    target.mode = .speculative := by
  obtain ⟨n, i, -, -, ⟨-, -, -, index, e, -, rfl⟩ | ⟨l, hl, hlink, -⟩⟩ := Setup.moves_cases hmove
  · rfl
  · cases hlink with
    | committed => exact hmode
    | speculative => rfl
    | rollback kind => exact absurd kind (hs.linksFrom hl)

theorem exists_node_of_move {s : Setup} (hmode : k.mode = .committed)
    (hmove : (target, payload) ∈ s.moves k) : ∃ n, s.graph.node? target.node = some n := by
  obtain ⟨n, i, -, -, ⟨hspec, -⟩ | ⟨l, hl, hlink, -⟩⟩ := Setup.moves_cases hmove
  · rw [hmode] at hspec
    cases hspec
  · have htarget := (SpecGraph.mem_linksFrom_iff.1 hl).2.2.2
    cases hlink <;> exact ⟨l.target, htarget⟩

/-- A step of the analysis of the whole graph is nothing to that of the committed part, or is a step
    there. -/
theorem Mirrors.step (h : Mirrors c m m') (hcore : c.IsCore g) (hg : g.NoRollback)
    (hstep : m.step (Setup.of g o) cap = .running m₁) :
    Mirrors c m₁ m' ∨ ∃ m₁', m'.step (Setup.of c o) cap = .running m₁' ∧ Mirrors c m₁ m₁' := by
  obtain ⟨k, queue, n, st, out, hv⟩ := exists_visiting_of_step hstep
  rw [hv.step_eq] at hstep
  have hinitial : (Setup.of c o).initial = (Setup.of g o).initial := hcore.initial_eq o
  cases hmode : k.mode with
  | speculative =>
    left
    have hnone : ((Setup.of g o).moves k).filter (·.1.mode == .committed) = [] := by
      refine List.filter_eq_nil_iff.2 fun move hmove => ?_
      rw [mode_of_move_of_speculative hg hmode hmove]
      nofun
    obtain ⟨m₁', hpass, h₁⟩ := (h.visit_speculative hmode hv).passAll hinitial rfl
      (fun move hmove hcommitted => by
        rw [mode_of_move_of_speculative hg hmode hmove] at hcommitted
        cases hcommitted) hstep
    rw [hnone] at hpass
    cases hpass
    exact h₁
  | committed =>
    right
    obtain ⟨queue', hv', h'⟩ := h.visit_committed hcore hmode hv
    have hmoves : (Setup.of c o).moves k =
        ((Setup.of g o).moves k).filter (·.1.mode == .committed) :=
      hcore.moves_eq hmode hv'.node fun l hl => hg.linksFrom hl
    obtain ⟨m₁', hpass, h₁⟩ := h'.passAll hinitial rfl
      (fun move hmove hcommitted => by
        have hmem : (move.1, move.2) ∈ (Setup.of c o).moves k := by
          rw [hmoves, List.mem_filter, hcommitted]
          exact ⟨hmove, rfl⟩
        exact exists_node_of_move hmode hmem) hstep
    refine ⟨m₁', ?_, h₁⟩
    rw [hv'.step_eq, hmoves]
    exact hpass

theorem Mirrors.run (h : Mirrors c m m') (hcore : c.IsCore g) (hg : g.NoRollback) {late : Error}
    {fuel fuel' : Nat} (hfuel : fuel ≤ fuel') :
    committedSteps (m.run (Setup.of g o) cap late fuel).machine.trace.toList <+:
        (m'.run (Setup.of c o) cap late fuel').machine.trace.toList.map Step.unnumbered ∧
      ((m.run (Setup.of g o) cap late fuel).outcome = .ok .secure →
        committedSteps (m.run (Setup.of g o) cap late fuel).machine.trace.toList =
          (m'.run (Setup.of c o) cap late fuel').machine.trace.toList.map Step.unnumbered) := by
  -- nothing is left to do for the committed part when nothing is left for the whole graph
  have finished {m m' : Machine} (h : Mirrors c m m') (hqueue : m.queue.toList = []) (fuel' : Nat) :
      (m'.run (Setup.of c o) cap late fuel').machine.trace.toList.map Step.unnumbered =
        committedSteps m.trace.toList := by
    have hqueue' : m'.queue.toList = [] := by
      rw [h.queue, hqueue]
      rfl
    rw [run_of_queue_eq_nil hqueue']
    exact h.trace
  induction fuel generalizing m m' fuel' with
  | zero =>
    rw [Machine.run]
    refine ⟨?_, fun hsecure => ?_⟩
    · rw [← h.trace]
      exact (trace_prefix_run _ m').map _
    · by_cases hempty : m.queue.isEmpty
      · exact (finished h ((Worklist.isEmpty_iff _).1 hempty) _).symm
      · rw [if_neg hempty] at hsecure
        cases hsecure
  | succ fuel ih =>
    obtain ⟨fuel', rfl⟩ : ∃ f, fuel' = f + 1 := ⟨fuel' - 1, by omega⟩
    rw [Machine.run]
    split
    · next m₁ hstep =>
      rcases h.step hcore hg hstep with h₁ | ⟨m₁', hstep', h₁⟩
      · exact ih h₁ (by omega)
      · have hrun : m'.run (Setup.of c o) cap late (fuel' + 1) =
            m₁'.run (Setup.of c o) cap late fuel' := by
          rw [Machine.run, hstep']
        rw [hrun]
        exact ih h₁ (by omega)
    · next m₁ outcome hstep =>
      have hof := step_ofStep (Setup.of g o) cap m
      rw [hstep] at hof
      cases hof with
      | done hqueue =>
        have heq := finished h hqueue (fuel' + 1)
        exact ⟨heq ▸ List.prefix_rfl, fun _ => heq.symm⟩
      | fails queue table trace =>
        refine ⟨?_, fun hsecure => by cases hsecure⟩
        rw [trace, ← h.trace]
        exact (trace_prefix_run _ m').map _
      | violates node held after violation table trace queue =>
        refine ⟨?_, fun hsecure => by cases hsecure⟩
        rw [trace]
        exact h.isPrefix_steps hcore queue node held after _ fuel'
      | @passes m₂ k n st out _ node held after violation queue table trace result =>
        have htrace := trace_propagateAll (Setup.of g o) cap out m₂ ((Setup.of g o).moves k)
        rw [result, trace] at htrace
        obtain ⟨limit, rfl⟩ := outcome_propagateAll result
        refine ⟨?_, fun hsecure => by cases hsecure⟩
        rw [show m₁.trace = _ from htrace]
        exact h.isPrefix_steps hcore queue node held after _ fuel'

theorem mirrors_start (hcore : c.IsCore g) {entry : Key}
    (hentry : (Setup.of c o).entryKey = .ok (some entry)) :
    Mirrors c (start (Setup.of g o) entry) (start (Setup.of c o) entry) := by
  obtain ⟨hmode, -, hnode⟩ := hcore.exists_node_of_entryKey hentry
  have hqueue : ∀ s : Setup, (start s entry).queue.toList = [entry] := fun _ => rfl
  refine ⟨fun k _ => ?_, ?_, rfl, Nat.le_refl 0, fun k hk _ => ?_⟩
  · rw [start, start, hcore.initial_eq]
  · rw [hqueue, hqueue, List.filter_cons_of_pos (by simp [hmode])]
    rfl
  · rw [hqueue, List.mem_singleton] at hk
    exact hk ▸ hnode

end Machine

namespace SpecGraph

theorem IsCore.committedSteps_run {c g : SpecGraph} (hcore : c.IsCore g) (hg : g.NoRollback)
    {o : Options} (ho : o.EntersCommitted g) :
    committedSteps (Setup.of g o).run.machine.trace.toList <+:
        (Setup.of c o).run.machine.trace.toList.map Step.unnumbered ∧
      ((Setup.of g o).run.outcome = .ok .secure →
        committedSteps (Setup.of g o).run.machine.trace.toList =
          (Setup.of c o).run.machine.trace.toList.map Step.unnumbered) := by
  have hentry := hcore.checkedEntry_eq hg ho
  cases h : (Setup.of g o).checkedEntry with
  | error e =>
    rw [Setup.run, Setup.run, hentry, h]
    exact ⟨List.prefix_rfl, fun hsecure => by cases hsecure⟩
  | ok found =>
    cases found with
    | none =>
      rw [Setup.run, Setup.run, hentry, h]
      exact ⟨List.prefix_rfl, fun _ => rfl⟩
    | some entry =>
      rw [h] at hentry
      rw [Setup.run_of_entry h, Setup.run_of_entry hentry]
      have hmirrors := Machine.mirrors_start hcore (Setup.entryKey_of_checkedEntry hentry)
      exact hmirrors.run hcore hg le_rfl

end SpecGraph

/-- In the graph of a source that is built to discard mispredicted paths, the committed steps of an
    analysis are, but for their numbers, the first steps of the analysis of the committed part; and
    all of them if the analysis ends secure. -/
theorem isPrefix_committedSteps (source : String) (b : BuildOptions) (o : Options) (g : SpecGraph)
    (hb : b.speculation = .discard) (hg : (SpecGraph.buildSource source b).result = .ok g)
    (ho : o.EntersCommitted g) :
    ∃ c, g.committedPart = .ok c ∧
      committedSteps (g.analyze o).result.trace <+:
        (c.analyze o).result.trace.map Step.unnumbered ∧
      ((g.analyze o).result.isSecure = true →
        committedSteps (g.analyze o).result.trace =
          (c.analyze o).result.trace.map Step.unnumbered) := by
  obtain ⟨c, hc, hcore⟩ := SpecGraph.exists_isCore hg
  have hnone := SpecGraph.noRollback_of_buildSource hb hg
  obtain ⟨hbegins, hwhole⟩ := hcore.committedSteps_run hnone ho
  refine ⟨c, hc, hbegins, fun hsecure => hwhole ?_⟩
  obtain ⟨herror, hverdict⟩ := Report.isSecure_iff.1 hsecure
  rw [SpecGraph.outcome_of_error_eq_none herror, hverdict]

/-- A loop that is entered in the middle and gathers the secret `h` in `x`. -/
def gathering : String := "beqz c, B\nA: x <- x + h\nbeqz c, A\nB: store x, p"

def gatheringGraph : SpecGraph := (SpecGraph.buildSource gathering {}).result.toOption.getD .empty

def gatheringOptions : Options :=
  { policy := Policy.empty.setReg "h" .high, entryNode := some "n1", traceMode := .singlePath,
    specWindow := 3 }

theorem committedSteps_gathering :
    (SpecGraph.buildSource gathering {}).result = .ok gatheringGraph ∧
      gatheringOptions.EntersCommitted gatheringGraph ∧
      (gatheringGraph.analyze gatheringOptions).result.isSecure = true ∧
      ∃ c, gatheringGraph.committedPart = .ok c ∧
        committedSteps (gatheringGraph.analyze gatheringOptions).result.trace =
          (c.analyze gatheringOptions).result.trace.map Step.unnumbered := by
  have hg : (SpecGraph.buildSource gathering {}).result = .ok gatheringGraph :=
    SpecGraph.buildSource_eq_ok (by decide +kernel)
  have hentry : (gatheringGraph.find? "n1").any (·.2.kind == .committed) = true := by
    decide +kernel
  have ho : gatheringOptions.EntersCommitted gatheringGraph := by
    rintro id ⟨⟩
    obtain ⟨⟨i, n⟩, hfind, hkind⟩ := (Option.any_eq_true _ _).1 hentry
    exact ⟨i, n, hfind, by simpa using hkind⟩
  have hsecure : (gatheringGraph.analyze gatheringOptions).result.isSecure = true := by
    decide +kernel
  obtain ⟨c, hc, -, hwhole⟩ :=
    isPrefix_committedSteps gathering {} gatheringOptions gatheringGraph rfl hg ho
  exact ⟨hg, ho, hsecure, c, hc, hwhole hsecure⟩

end Mispredict
