/-
  Joins of states, and what a merge reports.

  States with `join` are a semilattice in which each register, each cell and each observation
  is joined by itself; what a state does not list counts with its default. These are equations
  between states as they are stored, not only between what is read off them: a merge compares
  stored states to tell whether it has changed one (`merge_eq`). A merge of observations is a
  merge with registers and memory of the state itself, which leaves them unchanged since joins are
  idempotent (`mergeObservations_eq`).

  A point of the analysis that holds a state receives a payload by a merge, and is visited again
  if the merge reports a change (`Machine.received_eq_merge`).
-/
import Mispredict.Proofs.Leak

namespace Mispredict

namespace State

theorem merge_eq (s t : State) : s.merge t = (s.join t, decide (s.join t ≠ s)) := by
  unfold merge
  by_cases h : s.join t = s
  · simp [h]
  · simp [h]

theorem merge_snd_iff {s t : State} : (s.merge t).2 = true ↔ s.join t ≠ s := by
  rw [merge_eq, decide_eq_true_iff]

/-- Registers and memory joined with themselves are left as they were. -/
theorem join_own_store (s t : State) :
    s.join { t with regs := s.regs, mem := s.mem } = s.joinObservations t := by
  simp only [join, joinObservations, SortedMap.unionWith_self Value.join_self]

theorem mergeObservations_eq (s t : State) :
    s.mergeObservations t = (s.joinObservations t, decide (s.joinObservations t ≠ s)) := by
  rw [mergeObservations, merge_eq, join_own_store]

/-- Observations joined in make a difference if they do to one of the two kinds. -/
theorem joinObservations_ne_iff {s t : State} :
    s.joinObservations t ≠ s ↔
      s.obsMem.join t.obsMem ≠ s.obsMem ∨ s.obsCtrl.join t.obsCtrl ≠ s.obsCtrl := by
  obtain ⟨regs, mem, obsMem, obsCtrl⟩ := s
  simp only [joinObservations, ne_eq, mk.injEq, true_and, not_and_or]

/-- Joins of states, and the merges by which they are made. -/
structure JoinLaws (a b c : State) : Prop where
  comm : a.join b = b.join a
  assoc : (a.join b).join c = a.join (b.join c)
  idem : a.join a = a
  /-- Registers that are not listed are public. -/
  regs : ∀ name, (a.join b).regs.getD name ⟨.low, .low⟩ =
    (a.regs.getD name ⟨.low, .low⟩).join (b.regs.getD name ⟨.low, .low⟩)
  /-- Cells that are not listed are secret. -/
  mem : ∀ key, (a.join b).mem.getD key ⟨.high, .high⟩ =
    (a.mem.getD key ⟨.high, .high⟩).join (b.mem.getD key ⟨.high, .high⟩)
  /-- Observations that are not listed have not been made. -/
  obsMem : ∀ key, (a.join b).obsMem.getD key .bot =
    (a.obsMem.getD key .bot).join (b.obsMem.getD key .bot)
  obsCtrl : ∀ key, (a.join b).obsCtrl.getD key .bot =
    (a.obsCtrl.getD key .bot).join (b.obsCtrl.getD key .bot)
  merged : (a.merge b).1 = a.join b
  reported : (a.merge b).2 = true ↔ a.join b ≠ a
  /-- Registers and memory are kept when observations are merged. -/
  observed : (a.mergeObservations b).1 =
    { a with obsMem := a.obsMem.join b.obsMem, obsCtrl := a.obsCtrl.join b.obsCtrl }
  reportedObserved : (a.mergeObservations b).2 = true ↔
    a.obsMem.join b.obsMem ≠ a.obsMem ∨ a.obsCtrl.join b.obsCtrl ≠ a.obsCtrl

theorem joinLaws (a b c : State) : JoinLaws a b c where
  comm := join_comm a b
  assoc := join_assoc a b c
  idem := join_self a
  regs := reg_join a b
  mem := cell_join a b
  obsMem key := seen_join a b ⟨.mem, key⟩
  obsCtrl key := seen_join a b ⟨.ctrl, key⟩
  merged := by rw [merge_eq]
  reported := merge_snd_iff
  observed := by
    rw [mergeObservations_eq]
    rfl
  reportedObserved := by rw [mergeObservations_eq, decide_eq_true_iff, joinObservations_ne_iff]

end State

/-! ## Passing a state on -/

namespace Machine

/-- Merges what is passed on into the state of a point. -/
def mergePayload (st out : State) : Payload → State × Bool
  | .full => st.merge out
  | .observations => st.mergeObservations out

/-- What a point receives is merged into what it holds, and the point is left alone if the merge
    reports no change. -/
theorem received_eq_merge (initial st out : State) (payload : Payload) :
    received initial (some st) out payload = (mergePayload st out payload).1 ∧
      (some st = some (received initial (some st) out payload) ↔
        (mergePayload st out payload).2 = false) := by
  cases payload with
  | full =>
    rw [mergePayload, State.merge_eq, decide_eq_false_iff_not, not_not, Option.some.injEq, eq_comm]
    exact ⟨rfl, eq_comm⟩
  | observations =>
    rw [mergePayload, State.mergeObservations_eq, decide_eq_false_iff_not, not_not,
      Option.some.injEq]
    exact ⟨rfl, eq_comm⟩

end Machine

end Mispredict
