/-
  Two analyses of one graph whose states are related.

  Two analyses that start with different states may still do the same: visit the same points in
  the same order, and stop alike. This is so if their states stay related in some way that
  visits and joins keep, and if of related states either both change by a join or neither
  does, since a change is what queues a point. `Setup.Related` says what is asked of the
  relation. All that is then done by the one machine is done by the other
  one (`Related.step`), up to the end of the run (`Setup.Related.run`).
-/
import Mathlib.Data.List.Forall2
import Mathlib.Data.Option.Defs
import Mispredict.Proofs.Step

namespace Mispredict

open Machine

/-- The steps are visits of the same node with related results. -/
structure Step.Related (R : State → State → Prop) (step step' : Step) : Prop where
  id : step'.id = step.id
  nodeId : step'.nodeId = step.nodeId
  pc : step'.pc = step.pc
  mode : step'.mode = step.mode
  description : step'.description = step.description
  isViolation : step'.isViolation = step.isViolation
  state : R step.state step'.state

/-- The machines have the same points to visit, and related states. -/
structure Machine.Related (R : State → State → Prop) (m m' : Machine) : Prop where
  table : ∀ k : Key, Option.Rel R m.table[k]? m'.table[k]?
  queue : m'.queue = m.queue
  trace : List.Forall₂ (Step.Related R) m.trace.toList m'.trace.toList
  relaxations : m'.relaxations = m.relaxations

/-- Both machines go on, or both stop with the same outcome. -/
inductive Progress.Related (R : State → State → Prop) : Progress → Progress → Prop where
  | running {m m' : Machine} (related : m.Related R m') : Related R (.running m) (.running m')
  | stopped {m m' : Machine} {outcome : Except Error Verdict} (related : m.Related R m') :
      Related R (.stopped m outcome) (.stopped m' outcome)

/-- Both visits fail alike, or their results are related. -/
inductive Setup.RelatedResults (R : State → State → Prop) :
    Except Error State → Except Error State → Prop where
  | error (e : Error) : RelatedResults R (.error e) (.error e)
  | ok {out out' : State} (related : R out out') : RelatedResults R (.ok out) (.ok out')

/-- The setups differ in their initial states only, as far as an analysis can tell, and a relation
    of states is kept by all that is done with them. -/
structure Setup.Related (R : State → State → Prop) (s s' : Setup) : Prop where
  graph : s'.graph = s.graph
  routes : ∀ k, s'.routes k = s.routes k
  order : s'.options.traceMode = s.options.traceMode
  initial : R s.initial s'.initial
  transfer : ∀ i n, s.graph.node? i = some n → ∀ mode st st', R st st' →
    RelatedResults R (n.transfer st mode) (n.transfer st' mode)
  join : ∀ st st' t t', R st st' → R t t' → R (st.join t) (st'.join t')
  joinObservations : ∀ st st' t t', R st st' → R t t' →
    R (st.joinObservations t) (st'.joinObservations t')
  /-- States that are related tell the same changes. -/
  eq_iff : ∀ st st' t t', R st st' → R t t' → (st = t ↔ st' = t')
  hasViolation : ∀ st st', R st st' → st'.hasViolation = st.hasViolation

namespace Machine

variable {R : State → State → Prop} {s s' : Setup} {m m' : Machine} {out out' : State}

theorem Related.sayAll (h : m.Related R m') (ls ls' : List LogLine) :
    (m.sayAll ls).Related R (m'.sayAll ls') := by
  constructor
  · rw [table_sayAll, table_sayAll]
    exact h.table
  · rw [queue_sayAll, queue_sayAll, h.queue]
  · rw [trace_sayAll, trace_sayAll]
    exact h.trace
  · rw [relaxations_sayAll, relaxations_sayAll, h.relaxations]

theorem Related.enqueue (h : m.Related R m') (order : TraceMode) (k : Key) :
    (m.enqueue order k).Related R (m'.enqueue order k) := by
  constructor
  · rw [table_enqueue, table_enqueue]
    exact h.table
  · cases order <;> simp only [Machine.enqueue, h.queue]
  · rw [trace_enqueue, trace_enqueue]
    exact h.trace
  · rw [relaxations_enqueue, relaxations_enqueue, h.relaxations]

theorem Related.update (h : m.Related R m') (k : Key) (hout : R out out') :
    (m.update k out).Related R (m'.update k out') := by
  refine ⟨fun q => ?_, h.queue, h.trace, congrArg (· + 1) h.relaxations⟩
  dsimp only [Machine.update]
  rw [getElem?_insert_table, getElem?_insert_table]
  by_cases hq : q = k
  · rw [if_pos hq, if_pos hq]
    exact .some hout
  · rw [if_neg hq, if_neg hq]
    exact h.table q

theorem related_received (hs : s.Related R s') {old old' : Option State}
    (hold : Option.Rel R old old') (hout : R out out') (payload : Payload) :
    R (received s.initial old out payload) (received s'.initial old' out' payload) := by
  cases hold with
  | none =>
    cases payload with
    | full => exact hout
    | observations => exact hs.joinObservations _ _ _ _ hs.initial hout
  | some hst =>
    cases payload with
    | full => exact hs.join _ _ _ _ hst hout
    | observations => exact hs.joinObservations _ _ _ _ hst hout

/-- Either both points hold already what they receive, or neither does. -/
theorem held_iff_of_related (hs : s.Related R s') {old old' : Option State} {new new' : State}
    (hold : Option.Rel R old old') (hnew : R new new') : old = some new ↔ old' = some new' := by
  cases hold with
  | none => exact ⟨nofun, nofun⟩
  | some hst =>
    rw [Option.some_inj, Option.some_inj]
    exact hs.eq_iff _ _ _ _ hst hnew

theorem Related.propagate (h : m.Related R m') (hs : s.Related R s') (hout : R out out')
    (cap : Option Nat) (target : Key) (payload : Payload) :
    (m.propagate s cap out target payload).Related R
      (m'.propagate s' cap out' target payload) := by
  have hnew := related_received hs (h.table target) hout payload
  have hheld := held_iff_of_related hs (h.table target) hnew
  have hupdate := h.update target hnew
  unfold Machine.propagate
  dsimp only
  by_cases hsame : m.table[target]? = some (received s.initial m.table[target]? out payload)
  · rw [if_pos hsame, if_pos (hheld.1 hsame)]
    exact .running h
  · rw [if_neg hsame, if_neg (mt hheld.2 hsame), h.relaxations, hs.order]
    have hnext := hupdate.enqueue s.options.traceMode target
    rw [Machine.update, Machine.update, h.relaxations] at hupdate hnext
    cases cap with
    | none => exact .running hnext
    | some limit =>
      dsimp only
      split
      · exact .stopped hupdate
      · exact .running hnext

theorem Related.propagateAll (h : m.Related R m') (hs : s.Related R s') (hout : R out out')
    (cap : Option Nat) (moves : List (Key × Payload)) :
    (m.propagateAll s cap out moves).Related R (m'.propagateAll s' cap out' moves) := by
  induction moves generalizing m m' with
  | nil => exact .running h
  | cons move moves ih =>
    obtain ⟨target, payload⟩ := move
    have hpass := h.propagate hs hout cap target payload
    rw [Machine.propagateAll, Machine.propagateAll]
    generalize m.propagate s cap out target payload = p at hpass ⊢
    generalize m'.propagate s' cap out' target payload = p' at hpass ⊢
    cases hpass with
    | running related => exact ih related
    | stopped related => exact .stopped related

theorem related_visit (hs : s.Related R s') (hout : R out out') (id : Nat) (n : Node)
    (mode : Mode) : (visit id n mode out).Related R (visit id n mode out') :=
  ⟨rfl, rfl, rfl, rfl, rfl, hs.hasViolation _ _ hout, hout⟩

theorem Related.complete (h : m.Related R m') (hs : s.Related R s') (hout : R out out')
    (cap : Option Nat) (k : Key) (n : Node) :
    (m.complete s cap k n out).Related R (m'.complete s' cap k n out') := by
  have hsize : m'.trace.size = m.trace.size := by
    rw [← Array.length_toList, ← Array.length_toList, h.trace.length_eq]
  have hpushed : Machine.Related R
      { m with trace := m.trace.push (visit m.trace.size n k.mode out) }
      { m' with trace := m'.trace.push (visit m'.trace.size n k.mode out') } := by
    refine ⟨h.table, h.queue, ?_, h.relaxations⟩
    rw [Array.toList_push, Array.toList_push, hsize]
    exact List.rel_append h.trace (.cons (related_visit hs hout _ n k.mode) .nil)
  unfold Machine.complete
  dsimp only
  rw [hs.hasViolation _ _ hout, hs.routes]
  split
  · exact .stopped (hpushed.sayAll _ _)
  · exact (hpushed.sayAll _ _).propagateAll hs hout cap _

/-- What the one machine does in a step is done by the other one. -/
theorem Related.step (h : m.Related R m') (hs : s.Related R s') (cap : Option Nat) :
    (m.step s cap).Related R (m'.step s' cap) := by
  unfold Machine.step
  rw [h.queue, hs.graph]
  cases hpop : m.queue.pop? with
  | none => exact .stopped h
  | some popped =>
    obtain ⟨k, queue⟩ := popped
    have hrest : Machine.Related R { m with queue := queue } { m' with queue := queue } :=
      ⟨h.table, rfl, h.trace, h.relaxations⟩
    dsimp only
    cases hn : s.graph.node? k.node with
    | none =>
      rw [SpecGraph.nodeAt, hn]
      exact .stopped hrest
    | some n =>
      rw [SpecGraph.nodeAt, hn]
      dsimp only
      have hheld := h.table k
      generalize m.table[k]? = old at hheld ⊢
      generalize m'.table[k]? = old' at hheld ⊢
      cases hheld with
      | none => exact .stopped hrest
      | some hst =>
        have hsaid : ∀ line line', Machine.Related R ({ m with queue := queue }.say line)
            ({ m' with queue := queue }.say line') :=
          fun _ _ => ⟨h.table, rfl, h.trace, h.relaxations⟩
        dsimp only
        have hresults := hs.transfer _ n hn k.mode _ _ hst
        revert hresults
        generalize n.transfer _ k.mode = result
        generalize n.transfer _ k.mode = result'
        intro hresults
        cases hresults with
        | error e => exact .stopped (hsaid _ _)
        | ok hout => exact (hsaid _ _).complete hs hout cap k n

theorem Related.run (h : m.Related R m') (hs : s.Related R s') (cap : Option Nat) (late : Error)
    (fuel : Nat) :
    (m.run s cap late fuel).machine.Related R (m'.run s' cap late fuel).machine ∧
      (m'.run s' cap late fuel).outcome = (m.run s cap late fuel).outcome := by
  induction fuel generalizing m m' with
  | zero =>
    rw [Machine.run, Machine.run, h.queue]
    exact ⟨h, rfl⟩
  | succ fuel ih =>
    have hstep := h.step hs cap
    rw [Machine.run, Machine.run]
    generalize m.step s cap = p at hstep ⊢
    generalize m'.step s' cap = p' at hstep ⊢
    cases hstep with
    | running related => exact ih related
    | stopped related => exact ⟨related, rfl⟩

theorem related_start (hs : s.Related R s') (entry : Key) :
    (start s entry).Related R (start s' entry) := by
  refine ⟨fun q => ?_, rfl, .nil, rfl⟩
  rw [start, start, getElem?_insert_table, getElem?_insert_table]
  by_cases hq : q = entry
  · rw [if_pos hq, if_pos hq]
    exact .some hs.initial
  · rw [if_neg hq, if_neg hq]
    exact .none

end Machine

/-- Two analyses that start at the same point come to the same end. -/
theorem Setup.Related.run {R : State → State → Prop} {s s' : Setup} (hs : s.Related R s')
    (hentry : s'.checkedEntry = s.checkedEntry)
    (hcap : s'.options.iterationCap = s.options.iterationCap)
    (hsteps : s'.options.maxSteps = s.options.maxSteps) :
    s.run.machine.Related R s'.run.machine ∧ s'.run.outcome = s.run.outcome := by
  have hempty : Machine.empty.Related R Machine.empty := by
    refine ⟨fun k => ?_, rfl, .nil, rfl⟩
    rw [Machine.empty, Std.TreeMap.getElem?_emptyc]
    exact .none
  rw [Setup.run, Setup.run, hentry, hcap, hsteps]
  cases s.checkedEntry with
  | error e => exact ⟨hempty, rfl⟩
  | ok found =>
    cases found with
    | none => exact ⟨hempty, rfl⟩
    | some entry => exact (related_start hs entry).run hs _ _ _

end Mispredict
