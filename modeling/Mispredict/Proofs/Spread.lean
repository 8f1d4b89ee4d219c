/-
  What a visit passes on.

  In a graph without rollbacks a step visits the next point and passes the whole state after it
  on to the points that follow. `Spreads` says all that becomes of table and queue: every
  follower has received the state, nothing else has changed, and the points that have changed
  are queued, behind or before those that were queued already. So states only grow
  (`Spreads.grows`).
-/
import Mispredict.Proofs.Lockstep

namespace Mispredict

open Machine

namespace Machine

variable {s : Setup} {cap : Option Nat} {m m' : Machine} {out : State}
  {moves : List (Key × Payload)}

/-! ## Passing on whole states -/

/-- The points in `new` are queued, each of them in its turn. -/
def enqueued (order : TraceMode) (queue new : List Key) : List Key :=
  match order with
  | .breadthFirst => queue ++ new
  | .singlePath => new.reverse ++ queue

theorem mem_enqueued {order : TraceMode} {queue new : List Key} {q : Key} :
    q ∈ enqueued order queue new ↔ q ∈ queue ∨ q ∈ new := by
  cases order with
  | breadthFirst => exact List.mem_append
  | singlePath => rw [enqueued, List.mem_append, List.mem_reverse, or_comm]

theorem enqueued_extend (order : TraceMode) (queue : List Key) (k : Key) (new : List Key) :
    enqueued order (extend order queue k) new = enqueued order queue (k :: new) := by
  cases order <;> simp [enqueued, extend]

theorem table_propagateAll (hfull : ∀ move ∈ moves, move.2 = .full)
    (h : m.propagateAll s cap out moves = .running m') (q : Key) :
    m'.table[q]? =
      if q ∈ moves.map (·.1) then some (received s.initial m.table[q]? out .full)
      else m.table[q]? := by
  induction moves generalizing m with
  | nil =>
    cases h
    rfl
  | cons move moves ih =>
    obtain ⟨target, payload⟩ := move
    obtain rfl : payload = .full := hfull _ List.mem_cons_self
    rw [propagateAll] at h
    split at h
    · next m₁ heq =>
      have hpass : m₁.table[q]? =
          if q = target then some (received s.initial m.table[q]? out .full)
          else m.table[q]? := by
        rcases (propagate_eq_running_iff rfl).1 heq with ⟨hheld, rfl⟩ | ⟨-, -, rfl⟩
        · split
          · next hq => rw [hq, ← hheld]
          · rfl
        · rw [table_enqueue, update, getElem?_insert_table]
          split
          · next hq => rw [hq]
          · rfl
      rw [ih (fun move hmove => hfull move (List.mem_cons_of_mem _ hmove)) h, hpass, List.map_cons]
      by_cases hq : q = target
      · -- what has been received once is not received again
        rw [if_pos hq, if_pos (List.mem_cons.2 (.inl hq))]
        split
        · exact congrArg some (receive_receive_self ..)
        · rfl
      · rw [if_neg hq]
        simp only [List.mem_cons, hq, false_or]
    · cases h

theorem queue_propagateAll (hfull : ∀ move ∈ moves, move.2 = .full)
    (h : m.propagateAll s cap out moves = .running m') :
    ∃ new, new.Sublist (moves.map (·.1)) ∧
      m'.queue.toList = enqueued s.options.traceMode m.queue.toList new ∧
      (∀ q ∈ new, m'.table[q]? ≠ m.table[q]?) ∧
      ∀ q, m'.table[q]? ≠ m.table[q]? → q ∈ m'.queue.toList := by
  induction moves generalizing m with
  | nil =>
    cases h
    refine ⟨[], .slnil, ?_, nofun, fun q hq => absurd rfl hq⟩
    cases s.options.traceMode <;> simp [enqueued]
  | cons move moves ih =>
    have htable := table_propagateAll hfull h
    obtain ⟨target, payload⟩ := move
    obtain rfl : payload = .full := hfull _ List.mem_cons_self
    have hrest : ∀ move ∈ moves, move.2 = .full :=
      fun move hmove => hfull move (List.mem_cons_of_mem _ hmove)
    rw [propagateAll] at h
    split at h
    · next m₁ heq =>
      obtain ⟨new, hsub, hqueue, hnew, hchanged⟩ := ih hrest h
      rcases (propagate_eq_running_iff rfl).1 heq with ⟨-, rfl⟩ | ⟨hfresh, -, rfl⟩
      · exact ⟨new, hsub.cons _, hqueue, hnew, hchanged⟩
      · have hself : m'.table[target]? ≠ m.table[target]? := by
          rw [htable, if_pos (List.mem_map.2 ⟨_, List.mem_cons_self, rfl⟩)]
          exact hfresh.symm
        have hother : ∀ q, q ≠ target →
            ((m.update target (received s.initial m.table[target]? out .full)).enqueue
              s.options.traceMode target).table[q]? = m.table[q]? := by
          intro q hq
          rw [table_enqueue, update, getElem?_insert_table, if_neg hq]
        have hmem : target ∈ m'.queue.toList := by
          rw [hqueue, mem_enqueued]
          exact .inl ((mem_queue_enqueue ..).2 (.inl rfl))
        have hnew' : ∀ q ∈ new, m'.table[q]? ≠ m.table[q]? := by
          intro q hq
          by_cases hqt : q = target
          · exact hqt ▸ hself
          · rw [← hother q hqt]
            exact hnew q hq
        have hchanged' : ∀ q, m'.table[q]? ≠ m.table[q]? → q ∈ m'.queue.toList := by
          intro q hq
          by_cases hqt : q = target
          · exact hqt ▸ hmem
          · rw [← hother q hqt] at hq
            exact hchanged q hq
        rw [toList_enqueue] at hqueue
        split at hqueue
        · exact ⟨new, hsub.cons _, hqueue, hnew', hchanged'⟩
        · refine ⟨target :: new, hsub.cons_cons _, ?_, ?_, hchanged'⟩
          · rw [hqueue, enqueued_extend]
            rfl
          · intro q hq
            rcases List.mem_cons.1 hq with rfl | hq
            · exact hself
            · exact hnew' q hq
    · cases h

end Machine

/-! ## Steps -/

/-- A step from `m` to `m'` visits the point `k` in the state `st`: behind it `rest` was queued, and
    `new` is queued because of it. -/
structure Machine.Spreads (s : Setup) (m : Machine) (k : Key) (st : State) (rest new : List Key)
    (m' : Machine) : Prop where
  next : m.queue.toList = k :: rest
  held : m.table[k]? = some st
  after : s.after k st = .ok (s.advance k st)
  quiet : (s.advance k st).hasViolation = false
  table : ∀ q, m'.table[q]? =
    if s.Follows k q then some (received s.initial m.table[q]? (s.advance k st) .full)
    else m.table[q]?
  queue : m'.queue.toList = enqueued s.options.traceMode rest new
  order : new.Sublist ((s.moves k).map (·.1))
  fresh : ∀ q ∈ new, m'.table[q]? ≠ m.table[q]?
  changed : ∀ q, m'.table[q]? ≠ m.table[q]? → q ∈ m'.queue.toList

theorem Machine.exists_spreads {s : Setup} {cap : Option Nat} {m m' : Machine}
    (hg : s.graph.NoRollback) (h : m.step s cap = .running m') :
    ∃ k st rest new, Spreads s m k st rest new m' := by
  obtain ⟨k, queue, n, st, out, hv⟩ := exists_visiting_of_step h
  rw [hv.step_eq] at h
  have hfull : ∀ move ∈ s.moves k, move.2 = .full :=
    fun move hmove => (Setup.move_of_noRollback hg hmove).1
  have hout : out = s.advance k st := Setup.eq_advance hv.after
  obtain ⟨new, horder, hqueue, hfresh, hchanged⟩ := queue_propagateAll hfull h
  have htable := table_propagateAll hfull h
  simp only [table_visited, queue_visited, hout] at htable hqueue hfresh hchanged
  exact ⟨k, st, queue.toList, new, Worklist.toList_of_pop?_eq_some hv.next, hv.held,
    hout ▸ hv.after, hout ▸ hv.quiet, htable, hqueue, horder, hfresh, hchanged⟩

namespace Machine.Spreads

variable {s : Setup} {m m' : Machine} {k q : Key} {st x y : State} {rest new : List Key}
  (h : Spreads s m k st rest new m')

include h

theorem follows_of_mem (hq : q ∈ new) : s.Follows k q := h.order.subset hq

theorem keeps (hq : ¬ s.Follows k q) : m'.table[q]? = m.table[q]? := by
  rw [h.table, if_neg hq]

theorem follows_of_changed (hq : m'.table[q]? ≠ m.table[q]?) : s.Follows k q :=
  not_imp_comm.1 h.keeps hq

/-- States only grow. -/
theorem grows (hx : m.table[q]? = some x) : ∃ y, m'.table[q]? = some y ∧ x ≤ y := by
  rw [h.table, hx]
  split
  · exact ⟨_, rfl, le_sup_left⟩
  · exact ⟨x, rfl, le_rfl⟩

/-- Every follower has received the state after the visit. -/
theorem receives (hq : s.Follows k q) : ∃ y, m'.table[q]? = some y ∧ s.advance k st ≤ y := by
  rw [h.table, if_pos hq]
  cases m.table[q]? with
  | none => exact ⟨_, rfl, le_rfl⟩
  | some x => exact ⟨_, rfl, le_sup_right⟩

/-- A state that was absorbed already changes nothing. -/
theorem keeps_of_le (hx : m.table[q]? = some x) (hle : s.advance k st ≤ x) :
    m'.table[q]? = m.table[q]? := by
  rw [h.table, hx]
  split
  · exact congrArg some (sup_eq_left.2 hle)
  · rfl

end Machine.Spreads

/-! ## Baselines -/

/-- The state has the baseline for a site. -/
def State.HasBaseline (site : Site) (st : State) : Prop := st.seen site = .eqHigh

/-- A baseline in a join is one of its sides. -/
theorem State.hasBaseline_join {site : Site} {x y : State} (hx : x.Harmless) (hy : y.Harmless) :
    (x.join y).HasBaseline site ↔ x.HasBaseline site ∨ y.HasBaseline site := by
  unfold HasBaseline
  rw [seen_join]
  constructor
  · exact Relation.eq_eqHigh_of_join (hx.seen site) (hy.seen site)
  · have hx := hx.seen site
    have hy := hy.seen site
    rintro (h | h)
    · rw [h]
      rcases hy with hy | hy | hy <;> rw [hy] <;> rfl
    · rw [h]
      rcases hx with hx | hx | hx <;> rw [hx] <;> rfl

theorem Observations.update_eq_eqHigh_iff {r : Relation} {l : Level} :
    update r l .speculative = .eqHigh ↔ r = .eqHigh := by
  cases hl : l.isSecret <;> cases r <;> simp [update, hl, Relation.join]

namespace Setup

variable {s : Setup} {k : Key} {st : State} {site : Site}

/-- A visit changes what is known of its own site only. -/
theorem seen_advance (s : Setup) (k : Key) (st : State) (site : Site) :
    (s.advance k st).seen site =
      if s.site? k = some site then Observations.update (st.seen site) (s.shown k st) k.mode
      else st.seen site := by
  cases he : s.executed? k with
  | none =>
    rw [advance, site?, he]
    exact (if_neg (Option.some_ne_none site).symm).symm
  | some executed =>
    obtain ⟨pc, i⟩ := executed
    refine seen_after ?_
    rw [advance, he]
    obtain ⟨n, hn, hi, rfl⟩ := executed?_eq_some_iff.1 he
    exact after_eq_ok_iff.2 ⟨n, hn, bind_eq_ok_iff.2 ⟨_, hi, rfl⟩⟩

/-- Speculation keeps baselines and makes none. -/
theorem hasBaseline_advance (hmode : k.mode = .speculative) (st : State) (site : Site) :
    (s.advance k st).HasBaseline site ↔ st.HasBaseline site := by
  rw [State.HasBaseline, State.HasBaseline, seen_advance, hmode]
  split
  · exact Observations.update_eq_eqHigh_iff
  · rfl

/-- Committed execution keeps baselines, and makes one where it shows a secret. -/
theorem hasBaseline_advance_of_committed (hmode : k.mode = .committed) (hst : st.Harmless) :
    (s.advance k st).HasBaseline site ↔
      st.HasBaseline site ∨ s.site? k = some site ∧ (s.shown k st).isSecret = true := by
  have hseen := hst.seen site
  rw [State.HasBaseline, State.HasBaseline, seen_advance, hmode]
  split
  · next hsite =>
    constructor
    · intro h
      rcases Observations.eq_eqHigh_of_update hseen h with h | ⟨-, hsecret⟩
      · exact .inl h
      · exact .inr ⟨hsite, hsecret⟩
    · rintro (h | ⟨-, hsecret⟩)
      · rw [h, Observations.update_eqHigh]
      · exact Observations.update_committed_of_isSecret hseen hsecret
  · next hsite => simp [hsite]

end Setup

end Mispredict
