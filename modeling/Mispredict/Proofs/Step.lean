/-
  What one step of the machine does, and what a run keeps.

  `Progress.OfStep` lists the four things that a step can do, and `Progress.OfPass` the three
  that passing a state on to a point can do; proofs about runs take the machine
  apart through them and do not open its definition. `run_spec` is the induction over a
  run: what every step keeps holds where the run stops.
-/
import Mispredict.Analysis.Report
import Mispredict.Proofs.Join

namespace Mispredict

namespace Setup

/-- The state after the node of a point, when the point is visited in the state `st`. -/
def after (s : Setup) (k : Key) (st : State) : Except Error State := do
  (← s.graph.nodeAt k.node).transfer st k.mode

theorem after_of_node {s : Setup} {k : Key} {n : Node} (h : s.graph.node? k.node = some n)
    (st : State) : s.after k st = n.transfer st k.mode := by
  rw [after, SpecGraph.nodeAt, h]
  rfl

theorem after_eq_ok_iff {s : Setup} {k : Key} {st out : State} :
    s.after k st = .ok out ↔
      ∃ n, s.graph.node? k.node = some n ∧ n.transfer st k.mode = .ok out := by
  cases h : s.graph.node? k.node with
  | none =>
    rw [after, SpecGraph.nodeAt, h]
    constructor
    · intro h'; cases h'
    · rintro ⟨n, hn, -⟩; cases hn
  | some n =>
    rw [after_of_node h]
    constructor
    · intro h'; exact ⟨n, rfl, h'⟩
    · rintro ⟨n', hn, h'⟩; cases hn; exact h'

end Setup

/-- The machine of a progress, whether it goes on or not. -/
def Progress.machine : Progress → Machine
  | .running m => m
  | .stopped m _ => m

namespace Machine

variable {s : Setup} {cap : Option Nat} {m m' : Machine}

/-! ## The log is apart from the rest -/

@[simp] theorem table_sayAll (m : Machine) (ls : List LogLine) : (m.sayAll ls).table = m.table := by
  induction ls generalizing m with
  | nil => rfl
  | cons l ls ih => exact ih (m.say l)

@[simp] theorem queue_sayAll (m : Machine) (ls : List LogLine) : (m.sayAll ls).queue = m.queue := by
  induction ls generalizing m with
  | nil => rfl
  | cons l ls ih => exact ih (m.say l)

@[simp] theorem trace_sayAll (m : Machine) (ls : List LogLine) : (m.sayAll ls).trace = m.trace := by
  induction ls generalizing m with
  | nil => rfl
  | cons l ls ih => exact ih (m.say l)

@[simp] theorem relaxations_sayAll (m : Machine) (ls : List LogLine) :
    (m.sayAll ls).relaxations = m.relaxations := by
  induction ls generalizing m with
  | nil => rfl
  | cons l ls ih => exact ih (m.say l)

/-! ## Passing a state on -/

theorem getElem?_insert_table (t : Table) (k q : Key) (st : State) :
    (t.insert k st)[q]? = if q = k then some st else t[q]? := by
  rw [Std.TreeMap.getElem?_insert]
  simp only [Std.LawfulEqOrd.compare_eq_iff_eq]
  by_cases h : q = k
  · rw [if_pos h, if_pos h.symm]
  · rw [if_neg h, if_neg (Ne.symm h)]

/-- A list of points with one more of them, at the end of it that the order says. -/
def extend (order : TraceMode) (l : List Key) (k : Key) : List Key :=
  match order with
  | .breadthFirst => l ++ [k]
  | .singlePath => k :: l

theorem mem_extend {order : TraceMode} {l : List Key} {k q : Key} :
    q ∈ extend order l k ↔ q = k ∨ q ∈ l := by
  cases order with
  | breadthFirst => rw [extend, List.mem_append, List.mem_singleton, or_comm]
  | singlePath => rw [extend, List.mem_cons]

theorem toList_enqueue (order : TraceMode) (m : Machine) (k : Key) :
    (m.enqueue order k).queue.toList =
      if k ∈ m.queue.toList then m.queue.toList else extend order m.queue.toList k := by
  cases order with
  | breadthFirst => exact Worklist.toList_pushBack ..
  | singlePath => exact Worklist.toList_pushFront ..

theorem mem_queue_enqueue (order : TraceMode) (m : Machine) (k q : Key) :
    q ∈ (m.enqueue order k).queue.toList ↔ q = k ∨ q ∈ m.queue.toList := by
  rw [toList_enqueue]
  by_cases h : k ∈ m.queue.toList
  · rw [if_pos h]
    exact ⟨.inr, fun h' => h'.elim (fun e => e ▸ h) id⟩
  · rw [if_neg h, mem_extend]

@[simp] theorem table_enqueue (order : TraceMode) (m : Machine) (k : Key) :
    (m.enqueue order k).table = m.table := by
  cases order <;> rfl

@[simp] theorem trace_enqueue (order : TraceMode) (m : Machine) (k : Key) :
    (m.enqueue order k).trace = m.trace := by
  cases order <;> rfl

@[simp] theorem relaxations_enqueue (order : TraceMode) (m : Machine) (k : Key) :
    (m.enqueue order k).relaxations = m.relaxations := by
  cases order <;> rfl

end Machine

open Machine

/-- What can come of passing `out` on to a point, where `new` is what the point then holds. -/
inductive Progress.OfPass (m : Machine) (target : Key) (new : State) : Progress → Prop where
  /-- The point holds that already. -/
  | settled (held : m.table[target]? = some new) : OfPass m target new (.running m)
  /-- The point gets a new state and is queued. -/
  | stored {m' : Machine} (fresh : m.table[target]? ≠ some new)
      (table : m'.table = m.table.insert target new) (trace : m'.trace = m.trace)
      (queue : ∀ q, q ∈ m'.queue.toList ↔ q = target ∨ q ∈ m.queue.toList) :
      OfPass m target new (.running m')
  /-- The point gets a new state, which is one change too many. -/
  | capped {m' : Machine} {limit : Nat} (fresh : m.table[target]? ≠ some new)
      (table : m'.table = m.table.insert target new) (trace : m'.trace = m.trace)
      (queue : m'.queue = m.queue) :
      OfPass m target new (.stopped m' (.error (.iterationCapExceeded limit)))

/-- What can come of a step of `m`. -/
inductive Progress.OfStep (s : Setup) (cap : Option Nat) (m : Machine) : Progress → Prop where
  /-- No point is left to be visited. -/
  | done (queue : m.queue.toList = []) : OfStep s cap m (.stopped m (.ok .secure))
  /-- The next point has no node or no state, or its node cannot be executed. -/
  | fails {m' : Machine} {k : Key} {e : Error} (queue : m.queue.toList = k :: m'.queue.toList)
      (table : m'.table = m.table) (trace : m'.trace = m.trace)
      (cause : s.graph.nodeAt k.node = .error e ∨
        ∃ n, s.graph.node? k.node = some n ∧
          (m.table[k]? = none ∧ e = .internal (.noState n.id) ∨
            ∃ st, m.table[k]? = some st ∧ n.transfer st k.mode = .error e)) :
      OfStep s cap m (.stopped m' (.error e))
  /-- The state after the next point shows a violation. -/
  | violates {m' : Machine} {k : Key} {n : Node} {st out : State}
      (node : s.graph.node? k.node = some n) (held : m.table[k]? = some st)
      (after : s.after k st = .ok out) (violation : out.hasViolation = true)
      (table : m'.table = m.table)
      (trace : m'.trace = m.trace.push (visit m.trace.size n k.mode out))
      (queue : m.queue.toList = k :: m'.queue.toList) :
      OfStep s cap m (.stopped m' (.ok .violation))
  /-- The state after the next point is passed on. -/
  | passes {m' : Machine} {k : Key} {n : Node} {st out : State} {p : Progress}
      (node : s.graph.node? k.node = some n) (held : m.table[k]? = some st)
      (after : s.after k st = .ok out) (violation : out.hasViolation = false)
      (queue : m.queue.toList = k :: m'.queue.toList) (table : m'.table = m.table)
      (trace : m'.trace = m.trace.push (visit m.trace.size n k.mode out))
      (result : m'.propagateAll s cap out (s.moves k) = p) : OfStep s cap m p

namespace Machine

variable {s : Setup} {cap : Option Nat} {m m' : Machine}

theorem propagate_ofPass (s : Setup) (cap : Option Nat) (out : State) (m : Machine) (target : Key)
    (payload : Payload) :
    Progress.OfPass m target (received s.initial m.table[target]? out payload)
      (m.propagate s cap out target payload) := by
  unfold propagate
  dsimp only
  by_cases h : m.table[target]? = some (received s.initial m.table[target]? out payload)
  · rw [if_pos h]
    exact .settled h
  · rw [if_neg h]
    cases cap with
    | none => exact .stored h (table_enqueue ..) (trace_enqueue ..) (mem_queue_enqueue _ _ target)
    | some limit =>
      dsimp only
      split
      · exact .capped h rfl rfl rfl
      · exact .stored h (table_enqueue ..) (trace_enqueue ..) (mem_queue_enqueue _ _ target)

/-- The machine with a new state for a point, which is one more change. -/
def update (m : Machine) (k : Key) (new : State) : Machine :=
  { m with table := m.table.insert k new, relaxations := m.relaxations + 1 }

/-- When the machine goes on after a pass, and with what. -/
theorem propagate_eq_running_iff {out new : State} {target : Key} {payload : Payload}
    (hnew : received s.initial m.table[target]? out payload = new) :
    m.propagate s cap out target payload = .running m' ↔
      (m.table[target]? = some new ∧ m' = m) ∨
        (m.table[target]? ≠ some new ∧ (∀ limit, cap = some limit → m.relaxations < limit) ∧
          m' = (m.update target new).enqueue s.options.traceMode target) := by
  subst hnew
  unfold propagate
  dsimp only
  by_cases h : m.table[target]? = some (received s.initial m.table[target]? out payload)
  · rw [if_pos h]
    constructor
    · intro heq
      exact .inl ⟨h, (Progress.running.inj heq).symm⟩
    · rintro (⟨-, rfl⟩ | ⟨hne, -⟩)
      · rfl
      · exact absurd h hne
  · rw [if_neg h]
    cases cap with
    | none => simp [h, update, eq_comm]
    | some limit =>
      dsimp only
      by_cases hlimit : limit < m.relaxations + 1
      · rw [if_pos hlimit]
        simp only [reduceCtorEq, h, false_and, false_or, false_iff, not_and]
        intro _ hlt
        have := hlt limit rfl
        omega
      · rw [if_neg hlimit]
        have hlt : m.relaxations < limit := by omega
        simp [h, update, hlt, eq_comm]

/-- What each pass keeps is kept by all of them, whether or not the machine stops among them. -/
theorem propagateAll_keeps {P : Machine → Prop} {out : State} {moves : List (Key × Payload)}
    (hP : ∀ target payload, (target, payload) ∈ moves → ∀ m p, P m →
      Progress.OfPass m target (received s.initial m.table[target]? out payload) p → P p.machine)
    (h : P m) : P (m.propagateAll s cap out moves).machine := by
  induction moves generalizing m with
  | nil => exact h
  | cons move moves ih =>
    obtain ⟨target, payload⟩ := move
    have hm := hP target payload List.mem_cons_self m _ h
      (propagate_ofPass s cap out m target payload)
    rw [propagateAll]
    split
    · next m' heq =>
      rw [heq] at hm
      exact ih (fun t p ht => hP t p (List.mem_cons_of_mem _ ht)) hm
    · next m' outcome heq =>
      rw [heq] at hm
      exact hm

theorem trace_propagateAll (s : Setup) (cap : Option Nat) (out : State) (m : Machine)
    (moves : List (Key × Payload)) :
    (m.propagateAll s cap out moves).machine.trace = m.trace := by
  refine propagateAll_keeps (P := fun m' => m'.trace = m.trace) ?_ rfl
  intro target payload _ m' p h hp
  cases hp with
  | settled => exact h
  | stored _ _ trace => exact trace.trans h
  | capped _ _ trace => exact trace.trans h

/-- Passing on ends in no verdict. -/
theorem outcome_propagateAll {out : State} {moves : List (Key × Payload)}
    {outcome : Except Error Verdict}
    (h : m.propagateAll s cap out moves = .stopped m' outcome) :
    ∃ limit, outcome = .error (.iterationCapExceeded limit) := by
  induction moves generalizing m with
  | nil => cases h
  | cons move moves ih =>
    obtain ⟨target, payload⟩ := move
    have hp := propagate_ofPass s cap out m target payload
    rw [propagateAll] at h
    split at h
    · exact ih h
    · next heq =>
      cases h
      rw [heq] at hp
      cases hp with
      | capped => exact ⟨_, rfl⟩

theorem step_ofStep (s : Setup) (cap : Option Nat) (m : Machine) :
    Progress.OfStep s cap m (m.step s cap) := by
  unfold step
  cases hpop : m.queue.pop? with
  | none => exact .done ((Worklist.pop?_eq_none_iff _).1 hpop)
  | some popped =>
    obtain ⟨k, queue⟩ := popped
    have hqueue := Worklist.toList_of_pop?_eq_some hpop
    dsimp only
    cases hnode : s.graph.node? k.node with
    | none =>
      have hat : s.graph.nodeAt k.node = .error (.vertexNotFound k.node) := by
        rw [SpecGraph.nodeAt, hnode]
      rw [hat]
      exact .fails hqueue rfl rfl (.inl hat)
    | some n =>
      have hat : s.graph.nodeAt k.node = .ok n := by
        rw [SpecGraph.nodeAt, hnode]
      rw [hat]
      dsimp only
      cases hheld : m.table[k]? with
      | none => exact .fails hqueue rfl rfl (.inr ⟨n, hnode, .inl ⟨hheld, rfl⟩⟩)
      | some st =>
        dsimp only
        cases htransfer : n.transfer st k.mode with
        | error e => exact .fails hqueue rfl rfl (.inr ⟨n, hnode, .inr ⟨st, hheld, htransfer⟩⟩)
        | ok out =>
          have hafter : s.after k st = .ok out := (Setup.after_of_node hnode st).trans htransfer
          dsimp only [complete]
          by_cases hv : out.hasViolation
          · rw [if_pos hv]
            refine .violates hnode hheld hafter hv (table_sayAll ..) (trace_sayAll ..) ?_
            rw [queue_sayAll]
            exact hqueue
          · rw [if_neg hv]
            refine .passes hnode hheld hafter (by simpa using hv) ?_ ?_ ?_ rfl
            · rw [queue_sayAll]
              exact hqueue
            · rw [table_sayAll]
              rfl
            · rw [trace_sayAll]
              rfl

/-- A visit of the next point adds a step to the trace, whatever comes of it. -/
theorem trace_step (cap : Option Nat) {k : Key} {rest : List Key} {n : Node} {st out : State}
    (hnext : m.queue.toList = k :: rest) (hnode : s.graph.node? k.node = some n)
    (hheld : m.table[k]? = some st) (hafter : s.after k st = .ok out) :
    (m.step s cap).machine.trace = m.trace.push (visit m.trace.size n k.mode out) := by
  have hstep := step_ofStep s cap m
  generalize m.step s cap = p at hstep
  cases hstep with
  | done queue =>
    rw [queue] at hnext
    cases hnext
  | fails queue table trace cause =>
    obtain ⟨rfl, -⟩ := List.cons.inj (queue.symm.trans hnext)
    rcases cause with h | ⟨n', hn', ⟨h, -⟩ | ⟨st', hst', h⟩⟩
    · rw [SpecGraph.nodeAt, hnode] at h
      cases h
    · rw [hheld] at h
      cases h
    · cases hheld.symm.trans hst'
      rw [Setup.after_of_node hn', h] at hafter
      cases hafter
  | violates node held after violation table trace queue =>
    obtain ⟨rfl, -⟩ := List.cons.inj (queue.symm.trans hnext)
    cases hnode.symm.trans node
    cases hheld.symm.trans held
    cases hafter.symm.trans after
    exact trace
  | @passes m₁ k' n' st' out' _ node held after violation queue table trace result =>
    obtain ⟨rfl, -⟩ := List.cons.inj (queue.symm.trans hnext)
    cases hnode.symm.trans node
    cases hheld.symm.trans held
    cases hafter.symm.trans after
    rw [← result, trace_propagateAll, trace]

theorem trace_prefix_of_step {p : Progress} (h : Progress.OfStep s cap m p) :
    m.trace.toList <+: p.machine.trace.toList := by
  have hpush : ∀ {m' : Machine} {step : Step}, m'.trace = m.trace.push step →
      m.trace.toList <+: m'.trace.toList := by
    intro m' step h
    rw [h, Array.toList_push]
    exact List.prefix_append _ _
  cases h with
  | done => exact List.prefix_rfl
  | fails queue table trace => exact trace ▸ List.prefix_rfl
  | violates node held after violation table trace => exact hpush trace
  | passes node held after violation queue table trace result =>
    rw [← result, trace_propagateAll]
    exact hpush trace

/-! ## Runs -/

/-- The induction over a run: what holds at the start and is kept by every step holds, as `Q`, of
    the machine and the outcome with which the run ends. -/
theorem run_spec {P : Machine → Prop} {Q : Machine → Except Error Verdict → Prop} {late : Error}
    (running : ∀ m m', P m → Progress.OfStep s cap m (.running m') → P m')
    (stopped : ∀ m m' outcome, P m → Progress.OfStep s cap m (.stopped m' outcome) →
      Q m' outcome)
    (exhausted : ∀ m, P m → Q m (.error late)) (fuel : Nat) (m : Machine) (h : P m) :
    Q (m.run s cap late fuel).machine (m.run s cap late fuel).outcome := by
  induction fuel generalizing m with
  | zero =>
    rw [run]
    by_cases hq : m.queue.isEmpty
    · rw [if_pos hq]
      exact stopped m m _ h (.done ((Worklist.isEmpty_iff _).1 hq))
    · rw [if_neg hq]
      exact exhausted m h
  | succ fuel ih =>
    have hstep := step_ofStep s cap m
    rw [run]
    split
    · next m' heq =>
      rw [heq] at hstep
      exact ih m' (running m m' h hstep)
    · next m' outcome heq =>
      rw [heq] at hstep
      exact stopped m m' outcome h hstep

theorem run_of_queue_eq_nil {late : Error} {fuel : Nat} (h : m.queue.toList = []) :
    m.run s cap late fuel = ⟨m, .ok .secure⟩ := by
  cases fuel with
  | zero => rw [run, if_pos ((Worklist.isEmpty_iff _).2 h)]
  | succ fuel => rw [run, step, (Worklist.pop?_eq_none_iff _).2 h]

/-- Traces only grow. -/
theorem trace_prefix_run {late : Error} (fuel : Nat) (m : Machine) :
    m.trace.toList <+: (m.run s cap late fuel).machine.trace.toList := by
  refine run_spec (P := fun m' => m.trace.toList <+: m'.trace.toList)
    (Q := fun m' _ => m.trace.toList <+: m'.trace.toList) ?_ ?_ (fun _ h => h) fuel m
    List.prefix_rfl
  · intro m₁ m₂ h hstep
    exact h.trans (trace_prefix_of_step hstep)
  · intro m₁ m₂ outcome h hstep
    exact h.trans (trace_prefix_of_step hstep)

end Machine

theorem Setup.run_of_entry {s : Setup} {entry : Key} (h : s.checkedEntry = .ok (some entry)) :
    s.run = (start s entry).run s (some s.options.iterationCap)
      (.maxStepsExceeded s.options.maxSteps) s.options.maxSteps := by
  rw [run, h]

/-- An analysis does not start, or is a run from its entry. -/
theorem Setup.run_cases (s : Setup) :
    (s.run.machine = .empty ∧ s.run.outcome ≠ .ok .violation) ∨
      ∃ entry, s.checkedEntry = .ok (some entry) := by
  cases h : s.checkedEntry with
  | error e =>
    left
    rw [run, h]
    exact ⟨rfl, nofun⟩
  | ok found =>
    cases found with
    | none =>
      left
      rw [run, h]
      exact ⟨rfl, nofun⟩
    | some entry => exact .inr ⟨entry, rfl⟩

namespace SpecGraph

variable {g : SpecGraph} {i : Nat} {n : Node}

theorem node?_of_mem_indexedNodes (h : (i, n) ∈ g.indexedNodes) : g.node? i = some n := by
  obtain ⟨⟨i', slot⟩, hslot, heq⟩ := List.mem_map.1 h
  cases heq
  rw [node?, Digraph.vertex?, Std.ExtTreeMap.mem_toList_iff_getElem?_eq_some.1 hslot]
  rfl

theorem node?_of_find? {id : String} (h : g.find? id = some (i, n)) : g.node? i = some n := by
  obtain ⟨index, -, h⟩ := Option.bind_eq_some_iff.1 h
  obtain ⟨n', hn', h⟩ := Option.bind_eq_some_iff.1 h
  cases h
  exact hn'

theorem node?_of_entry (h : g.entry? = some (i, n)) : g.node? i = some n := by
  unfold entry? at h
  split at h
  · next found hfind =>
    cases h
    exact node?_of_find? hfind
  · exact node?_of_mem_indexedNodes (List.mem_of_mem_head? h)

end SpecGraph

/-- Analysis starts at a node, in the context of that node and no other. -/
theorem Setup.entryKey_cases {s : Setup} {entry : Key} (h : s.entryKey = .ok (some entry)) :
    ∃ i n, s.graph.node? i = some n ∧
      (n.isSpeculative = true ∧ entry = ⟨i, .speculative, [⟨n.context?, s.window⟩]⟩ ∨
        n.isSpeculative = false ∧ entry = ⟨i, .committed, []⟩) := by
  have hfound : ∃ i n, s.graph.node? i = some n ∧
      (if n.isSpeculative then ⟨i, .speculative, [⟨n.context?, s.window⟩]⟩
        else ⟨i, .committed, []⟩) = entry := by
    unfold entryKey at h
    dsimp only at h
    split at h
    · split at h
      · next found hfind =>
        obtain ⟨i, n⟩ := found
        exact ⟨i, n, SpecGraph.node?_of_find? hfind, Option.some.inj (Except.ok.inj h)⟩
      · cases h
    · obtain ⟨⟨i, n⟩, hentry, heq⟩ := Option.map_eq_some_iff.1 (Except.ok.inj h)
      exact ⟨i, n, SpecGraph.node?_of_entry hentry, heq⟩
  obtain ⟨i, n, hn, heq⟩ := hfound
  refine ⟨i, n, hn, ?_⟩
  split at heq
  · next hspec => exact .inl ⟨hspec, heq.symm⟩
  · next hspec => exact .inr ⟨eq_false_of_ne_true hspec, heq.symm⟩

theorem Setup.entryKey_of_checkedEntry {s : Setup} {found : Option Key}
    (h : s.checkedEntry = .ok found) : s.entryKey = .ok found := by
  obtain ⟨_, -, h⟩ := bind_eq_ok_iff.1 h
  split at h
  · cases h
  · exact h

/-- An analysis that ends without error has started at the entry. -/
theorem Setup.checkedEntry_of_outcome {s : Setup} {entry : Key} {v : Verdict}
    (hentry : s.entryKey = .ok (some entry)) (h : s.run.outcome = .ok v) :
    s.checkedEntry = .ok (some entry) := by
  cases hc : s.checkedEntry with
  | error e =>
    rw [run, hc] at h
    cases h
  | ok found => rw [← hentry, entryKey_of_checkedEntry hc]

theorem Report.isSecure_iff {r : Report} :
    r.isSecure = true ↔ r.error = none ∧ r.verdict = .secure := by
  rw [isSecure, Bool.and_eq_true, Option.isNone_iff_eq_none, beq_iff_eq]

/-- The verdict of a report without error is the outcome of the analysis. -/
theorem SpecGraph.outcome_of_error_eq_none {g : SpecGraph} {o : Options}
    (h : (g.analyze o).result.error = none) :
    (Setup.of g o).run.outcome = .ok (g.analyze o).result.verdict := by
  simp only [analyze, Report.ofFinished] at h ⊢
  cases hrun : (Setup.of g o).run.outcome with
  | error e =>
    rw [hrun] at h
    cases h
  | ok v => rfl

theorem SpecGraph.verdict_eq_violation_iff {g : SpecGraph} {o : Options} :
    (g.analyze o).result.verdict = .violation ↔
      (Setup.of g o).run.outcome = .ok .violation := by
  simp only [analyze, Report.ofFinished]
  cases (Setup.of g o).run.outcome <;> simp

/-- A violation is found only without error. -/
theorem SpecGraph.error_eq_none_of_violation {g : SpecGraph} {o : Options}
    (h : (g.analyze o).result.verdict = .violation) : (g.analyze o).result.error = none := by
  simp only [analyze, Report.ofFinished, verdict_eq_violation_iff.1 h]

end Mispredict
