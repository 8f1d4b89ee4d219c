/-
  The last visit of a point.

  A point that is not queued was last visited in the state that the table has for it now:
  a new state would have queued it. So if points are told apart by their nodes, as committed
  points are, a secure analysis ends with a trace whose last step at a node shows the result
  of a visit in the final state (`Setup.exists_last`).
-/
import Mispredict.Proofs.Indexed
import Mispredict.Proofs.Moment
import Mispredict.Proofs.Reading

namespace Mispredict

/-- The last step of a trace at the node with this id. -/
def lastAt? (trace : List Step) (id : String) : Option Step :=
  (trace.filter (·.nodeId == id)).getLast?

theorem lastAt?_concat (trace : List Step) (step : Step) (id : String) :
    lastAt? (trace ++ [step]) id = if step.nodeId = id then some step else lastAt? trace id := by
  rw [lastAt?, List.filter_append]
  by_cases h : step.nodeId = id
  · rw [if_pos h, List.filter_cons_of_pos (by simp [h]), List.filter_nil, List.getLast?_concat]
  · rw [if_neg h, List.filter_cons_of_neg (by simp [h]), List.filter_nil, List.append_nil]
    rfl

theorem mem_of_lastAt? {trace : List Step} {id : String} {step : Step}
    (h : lastAt? trace id = some step) : step ∈ trace ∧ step.nodeId = id := by
  obtain ⟨hmem, hid⟩ := List.mem_filter.1 (List.mem_of_getLast? h)
  exact ⟨hmem, by simpa using hid⟩

namespace Setup

/-- The points that an analysis can reach are committed and outside of all contexts, so that a point
    is its node. -/
def OnlyCommitted (s : Setup) (entry : Key) : Prop :=
  ∀ k st, s.Stores entry k st → k = ⟨k.node, .committed, []⟩

theorem OnlyCommitted.eq_of_node {s : Setup} {entry k k' : Key} {st st' : State}
    (hs : s.OnlyCommitted entry) (h : s.Stores entry k st) (h' : s.Stores entry k' st')
    (hnode : k.node = k'.node) : k = k' := by
  rw [hs k st h, hs k' st' h', hnode]

end Setup

namespace Machine

open Setup

variable {s : Setup} {cap : Option Nat} {entry k : Key} {m : Machine} {st out : State}
  {rest : List (Key × Payload)}

/-- The last step of the machine's trace at the node of `k` is a visit of `k` in the state `st`. -/
def LastVisited (s : Setup) (m : Machine) (k : Key) (st : State) : Prop :=
  ∃ n last, s.graph.node? k.node = some n ∧ lastAt? m.trace.toList n.id = some last ∧
    s.after k st = .ok last.state

theorem LastVisited.of_trace_eq {m' : Machine} (h : LastVisited s m k st)
    (htrace : m'.trace = m.trace) : LastVisited s m' k st := by
  rw [LastVisited, htrace]
  exact h

/-- A visit is the last one of its point, and leaves those of other points as they are. -/
theorem lastVisited_visited (hg : s.graph.Indexed) {queue : Worklist} {n : Node}
    (hv : Visiting s m k queue n st out) {q : Key} {st' : State} (hq : m.table[q]? = some st')
    (hnode : q.node = k.node → q = k) (hold : q ≠ k → LastVisited s m q st') :
    LastVisited s (m.visited s k queue n out) q st' := by
  by_cases hqk : q = k
  · subst hqk
    cases hv.held.symm.trans hq
    refine ⟨n, visit m.trace.size n q.mode out, hv.node, ?_, hv.after⟩
    rw [trace_visited, Array.toList_push, lastAt?_concat]
    exact if_pos rfl
  · obtain ⟨n', last, hn', hlast, hafter⟩ := hold hqk
    refine ⟨n', last, hn', ?_, hafter⟩
    rw [trace_visited, Array.toList_push, lastAt?_concat, if_neg, hlast]
    exact fun hid => hqk (hnode (hg.eq_of_id hn' hv.node hid.symm))

/-- At every moment, a point that is not queued was last visited in the state it holds. -/
theorem Moment.lastVisited (hg : s.graph.Indexed) (hs : s.OnlyCommitted entry)
    (h : Moment s cap entry m k out rest) {q : Key} {st' : State}
    (hq : m.table[q]? = some st') : q ∈ m.queue.toList ∨ LastVisited s m q st' := by
  induction h generalizing q st' with
  | start =>
    left
    rw [getElem?_table_start] at hq
    split at hq
    · next heq => exact heq ▸ List.mem_singleton_self _
    · cases hq
  | @visit m k₀ k out₀ st out queue n before visiting ih =>
    rw [table_visited] at hq
    rw [queue_visited]
    have hstored := before.accounted.1.stored
    have hqueue := Worklist.toList_of_pop?_eq_some visiting.next
    by_cases hmem : q ∈ queue.toList
    · exact .inl hmem
    · refine .inr (lastVisited_visited hg visiting hq
        (hs.eq_of_node (hstored q st' hq) (hstored k st visiting.held)) fun hqk => ?_)
      refine (ih hq).resolve_left fun hmem' => ?_
      rw [hqueue] at hmem'
      exact hmem ((List.mem_cons.1 hmem').resolve_left hqk)
  | @pass m m' k target out payload rest before running ih =>
    rcases (propagate_eq_running_iff rfl).1 running with ⟨-, rfl⟩ | ⟨-, -, rfl⟩
    · exact ih hq
    · rw [mem_queue_enqueue]
      rw [table_enqueue, update, getElem?_insert_table] at hq
      split at hq
      · next heq => exact .inl (.inl heq)
      · exact (ih hq).imp .inr fun hlast => hlast.of_trace_eq (trace_enqueue ..)

end Machine

namespace Setup

variable {s : Setup} {entry k : Key} {st : State}

/-- Where a secure analysis ends, the last step at a node is a visit in the final state. -/
theorem exists_last (hg : s.graph.Indexed) (hs : s.OnlyCommitted entry)
    (hentry : s.checkedEntry = .ok (some entry)) (hsecure : s.run.outcome = .ok .secure)
    (hst : s.run.machine.table[k]? = some st) :
    ∃ n last, s.graph.node? k.node = some n ∧
      lastAt? s.run.machine.trace.toList n.id = some last ∧ last.state = s.advance k st := by
  rw [run_of_entry hentry] at hsecure hst ⊢
  obtain ⟨m, k', out, hmoment, hends⟩ := Machine.Moment.start.exists_ends hsecure
  generalize Machine.run _ _ _ _ _ = final at hst hends ⊢
  obtain ⟨m', outcome⟩ := final
  cases hends with
  | secure hqueue =>
    rcases hmoment.lastVisited hg hs hst with hmem | ⟨n, last, hn, hlast, hafter⟩
    · rw [hqueue] at hmem
      cases hmem
    · exact ⟨n, last, hn, hlast, eq_advance hafter⟩

/-- A node that has a step in the trace of a secure analysis has a state in its table. -/
theorem exists_state_of_step (hg : s.graph.Indexed) (hs : s.OnlyCommitted entry)
    (hentry : s.checkedEntry = .ok (some entry)) (hsecure : s.run.outcome = .ok .secure)
    {step : Step} (hstep : step ∈ s.run.machine.trace.toList) {i : Nat} {n : Node}
    (hn : s.graph.node? i = some n) (hid : step.nodeId = n.id) :
    ∃ st, s.run.machine.table[(⟨i, .committed, []⟩ : Key)]? = some st := by
  have hfix := isFixpoint_run hentry hsecure
  have haccounted := Machine.accounted_run s (some s.options.iterationCap) entry
    (.maxStepsExceeded s.options.maxSteps) s.options.maxSteps
  rw [← run_of_entry hentry] at haccounted
  obtain ⟨k, n', st, out, hst, hn', -, hvisit⟩ := haccounted.visited step (Array.mem_def.2 hstep)
  have hid' : n'.id = n.id := by
    rw [hvisit] at hid
    exact hid
  have hk : k = ⟨i, .committed, []⟩ := by
    rw [hs k st hst, hg.eq_of_id hn' hn hid']
  exact hk ▸ hfix.mem_of_stores hst

end Setup

end Mispredict
