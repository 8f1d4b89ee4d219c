/-
  Which points have been reached.

  A point is reached once the machine holds a state for it, and it stays reached. Within a
  visit, points are reached in the order of the moves (`Moment.progress`). A point that has
  left the queue has been visited, so that what follows it has been reached (`Spread`), or it
  is the one whose result is being passed on (`Moment.pending`).

  First in, first out, the queue keeps an order among points: if one is reached before
  another, it is also visited before it (`Ahead`).
-/
import Mispredict.Proofs.Moment

namespace Mispredict

namespace Machine

variable {s : Setup} {cap : Option Nat} {entry k k₀ target q : Key} {m m' : Machine}
  {out out₀ st : State} {payload : Payload} {rest : List (Key × Payload)} {queue : Worklist}
  {n : Node}

/-- The machine holds a state for the point. -/
def Reached (m : Machine) (q : Key) : Prop := ∃ st, m.table[q]? = some st

theorem not_reached_iff : ¬ m.Reached q ↔ m.table[q]? = none := by
  rw [Reached, ← Option.isSome_iff_exists, Option.not_isSome_iff_eq_none]

theorem reached_start : (start s entry).Reached q ↔ q = entry := by
  rw [Reached, getElem?_table_start]
  by_cases hq : q = entry
  · rw [if_pos hq]
    exact ⟨fun _ => hq, fun _ => ⟨_, rfl⟩⟩
  · rw [if_neg hq]
    exact ⟨nofun, fun h => absurd h hq⟩

theorem reached_visited : (m.visited s k queue n out).Reached q ↔ m.Reached q := by
  rw [Reached, table_visited]
  rfl

theorem reached_iff_of_running (h : m.propagate s cap out target payload = .running m') :
    m'.Reached q ↔ q = target ∨ m.Reached q := by
  rcases (propagate_eq_running_iff rfl).1 h with ⟨hheld, rfl⟩ | ⟨-, -, rfl⟩
  · exact ⟨.inr, fun h' => h'.elim (fun heq => heq ▸ ⟨_, hheld⟩) id⟩
  · rw [Reached, table_enqueue, update, getElem?_insert_table]
    by_cases hq : q = target
    · rw [if_pos hq]
      exact ⟨fun _ => .inl hq, fun _ => ⟨_, rfl⟩⟩
    · rw [if_neg hq]
      exact ⟨.inr, fun h' => h'.resolve_left hq⟩

/-- A pass changes nothing, or it queues the point. -/
theorem queue_of_running (h : m.propagate s cap out target payload = .running m') :
    m.Reached target ∧ m'.queue = m.queue ∨
      m'.queue.toList = if target ∈ m.queue.toList then m.queue.toList
        else extend s.options.traceMode m.queue.toList target := by
  rcases (propagate_eq_running_iff rfl).1 h with ⟨hheld, rfl⟩ | ⟨-, -, rfl⟩
  · exact .inl ⟨⟨_, hheld⟩, rfl⟩
  · exact .inr (toList_enqueue ..)

/-- All points that follow this one have been reached. -/
def Spread (s : Setup) (m : Machine) (k : Key) : Prop := ∀ move ∈ s.moves k, m.Reached move.1

theorem Spread.mono (h : Spread s m k) (hm : ∀ q, m.Reached q → m'.Reached q) : Spread s m' k :=
  fun move hmove => hm _ (h move hmove)

theorem Spread.of_running (h : Spread s m k)
    (hrun : m.propagate s cap out target payload = .running m') : Spread s m' k :=
  h.mono fun _ hq => (reached_iff_of_running hrun).2 (.inr hq)

/-! ## At every moment -/

theorem Moment.reached_self (h : Moment s cap entry m k out rest) : m.Reached k := by
  induction h with
  | start => exact reached_start.2 rfl
  | visit _ visiting _ => exact reached_visited.2 ⟨_, visiting.held⟩
  | pass _ running ih => exact (reached_iff_of_running running).2 (.inr ih)

/-- The moves up to those that remain have reached their points. -/
theorem Moment.progress (h : Moment s cap entry m k out rest) :
    (m = Machine.start s entry ∧ k = entry ∧ rest = []) ∨
      ∃ done, s.moves k = done ++ rest ∧ ∀ move ∈ done, m.Reached move.1 := by
  induction h with
  | start => exact .inl ⟨rfl, rfl, rfl⟩
  | visit _ _ _ => exact .inr ⟨[], rfl, fun _ hmove => absurd hmove List.not_mem_nil⟩
  | @pass m m' k target out payload rest before running ih =>
    rcases ih with ⟨-, -, hnil⟩ | ⟨done, hmoves, hdone⟩
    · cases hnil
    · refine .inr ⟨done ++ [(target, payload)], ?_, fun move hmove => ?_⟩
      · rw [hmoves, List.append_assoc]
        rfl
      · rw [reached_iff_of_running running]
        rcases List.mem_append.1 hmove with hmove | hmove
        · exact .inr (hdone move hmove)
        · rw [List.mem_singleton.1 hmove]
          exact .inl rfl

theorem Moment.spread_self (h : Moment s cap entry m k out []) :
    (m = Machine.start s entry ∧ k = entry) ∨ Spread s m k := by
  rcases h.progress with ⟨hm, hk, -⟩ | ⟨done, hmoves, hdone⟩
  · exact .inl ⟨hm, hk⟩
  · rw [List.append_nil] at hmoves
    exact .inr fun move hmove => hdone move (hmoves ▸ hmove)

/-- A point that has been reached is queued, or it was visited. -/
theorem Moment.pending (h : Moment s cap entry m k out rest) (hq : m.Reached q) :
    q ∈ m.queue.toList ∨ q = k ∨ Spread s m q := by
  induction h generalizing q with
  | start => exact .inr (.inl (reached_start.1 hq))
  | @visit m k₀ k out₀ st out queue n before visiting ih =>
    have hqueue := Worklist.toList_of_pop?_eq_some visiting.next
    have hspread : ∀ {q}, Spread s m q → Spread s (m.visited s k queue n out) q :=
      fun h => h.mono fun _ => reached_visited.2
    rw [queue_visited]
    rcases ih (reached_visited.1 hq) with hmem | rfl | hq
    · rw [hqueue] at hmem
      rcases List.mem_cons.1 hmem with heq | hmem
      · exact .inr (.inl heq)
      · exact .inl hmem
    · rcases before.spread_self with ⟨rfl, rfl⟩ | hq
      · -- the first point to be visited is the entry
        exact .inr (.inl (List.cons.inj (hqueue : [q] = k :: queue.toList)).1)
      · exact .inr (.inr (hspread hq))
    · exact .inr (.inr (hspread hq))
  | @pass m m' k target out payload rest before running ih =>
    have hold : m.Reached q → q ∈ m'.queue.toList ∨ q = k ∨ Spread s m' q := by
      intro hq
      rcases ih hq with hmem | heq | hspread
      · left
        rcases queue_of_running running with ⟨-, hqueue⟩ | hqueue
        · rwa [hqueue]
        · rw [hqueue]
          split
          · exact hmem
          · exact mem_extend.2 (.inr hmem)
      · exact .inr (.inl heq)
      · exact .inr (.inr (hspread.of_running running))
    rcases (reached_iff_of_running running).1 hq with rfl | hq
    · rcases queue_of_running running with ⟨hreached, -⟩ | hqueue
      · exact hold hreached
      · left
        rw [hqueue]
        split
        · next hmem => exact hmem
        · exact mem_extend.2 (.inl rfl)
    · exact hold hq

/-! ## First in, first out -/

/-- Whatever `R` relates to a queued point stands before it in the queue, or it was visited. -/
def Ahead (s : Setup) (R : Key → Key → Prop) (m : Machine) (k : Key) : Prop :=
  ∀ l₁ q l₂, m.queue.toList = l₁ ++ q :: l₂ → ∀ c, R q c → c ∈ l₁ ∨ c = k ∨ Spread s m c

section Ahead

variable {R : Key → Key → Prop} {c : Key}

theorem Ahead.visit (h : Ahead s R m k₀) (before : Moment s cap entry m k₀ out₀ [])
    (visiting : Visiting s m k queue n st out) :
    Ahead s R (m.visited s k queue n out) k := by
  intro l₁ q l₂ hl c hc
  have hqueue := Worklist.toList_of_pop?_eq_some visiting.next
  rw [queue_visited] at hl
  rw [hl] at hqueue
  have hspread : Spread s m c → Spread s (m.visited s k queue n out) c :=
    fun h => h.mono fun _ => reached_visited.2
  rcases h (k :: l₁) q l₂ hqueue c hc with hmem | rfl | hc
  · rcases List.mem_cons.1 hmem with heq | hmem
    · exact .inr (.inl heq)
    · exact .inl hmem
  · rcases before.spread_self with ⟨rfl, -⟩ | hspread'
    · -- at the start one point is queued
      have hlen := congrArg List.length hqueue
      simp [Machine.start, Worklist.toList_pushBack] at hlen
    · exact .inr (.inr (hspread hspread'))
  · exact .inr (.inr (hspread hc))

/-- What is related to the next point has been visited. -/
theorem Ahead.spread_of_next (h : Ahead s R m k₀) (before : Moment s cap entry m k₀ out₀ [])
    (visiting : Visiting s m k queue n st out) (hc : R k c) (hentry : k ≠ entry) :
    Spread s m c := by
  have hqueue := Worklist.toList_of_pop?_eq_some visiting.next
  rcases h [] k _ hqueue c hc with hmem | rfl | hc
  · cases hmem
  · rcases before.spread_self with ⟨rfl, rfl⟩ | hspread
    · exact absurd (List.cons.inj (hqueue : [c] = k :: queue.toList)).1.symm hentry
    · exact hspread
  · exact hc

/-- The order is kept if what is related to a point is reached before it. -/
theorem Ahead.pass (h : Ahead s R m k) (horder : s.options.traceMode = .breadthFirst)
    (before : Moment s cap entry m k out ((target, payload) :: rest))
    (running : m.propagate s cap out target payload = .running m')
    (htarget : ∀ c, R target c → m.Reached c) : Ahead s R m' k := by
  have hold : ∀ l₁ q l₂, m.queue.toList = l₁ ++ q :: l₂ → ∀ c, R q c →
      c ∈ l₁ ∨ c = k ∨ Spread s m' c := fun l₁ q l₂ hl c hc =>
    (h l₁ q l₂ hl c hc).imp_right (.imp_right (·.of_running running))
  intro l₁ q l₂ hl c hc
  rcases queue_of_running running with ⟨-, hqueue⟩ | hqueue
  · exact hold l₁ q l₂ (hqueue ▸ hl) c hc
  · split at hqueue
    · exact hold l₁ q l₂ (hqueue ▸ hl) c hc
    · rw [hqueue, horder, extend] at hl
      rcases List.eq_nil_or_concat l₂ with rfl | ⟨l₂, last, rfl⟩
      · -- the point at the end is the new one
        obtain ⟨rfl, hlast⟩ := List.append_inj' hl rfl
        cases hlast
        exact (before.pending (htarget c hc)).imp_right (.imp_right (·.of_running running))
      · rw [List.concat_eq_append, ← List.cons_append, ← List.append_assoc] at hl
        exact hold l₁ q l₂ (List.append_inj' hl rfl).1 c hc

end Ahead

end Machine

end Mispredict
