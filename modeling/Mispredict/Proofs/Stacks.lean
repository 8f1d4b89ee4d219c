/-
  The stack of open contexts at a point.

  Frames are made in several ways: for the entry, by a committed link, by a speculative link
  from committed execution, into a context that is open already or into a new one, where a
  speculation must end, and by a rollback. Whichever way a point is come to, its stack is of one
  shape (`Key.WellStacked`). That no context is in it twice is `Setup.Stacked`, and that it is
  empty in committed execution is `Setup.Stands`. What is added here is that each frame lies
  within the frames around it (`Frame.Within`): a context that is opened inside of another one
  gets no more than what is left to that one, and only the outermost frame can be without a
  context, since inside of a speculation a frame is pushed for a context only.

  The points that wait to be visited are among those that have a state, so that all of this
  holds of them too (`analysis_points_wellStacked`).
-/
import Mispredict.Proofs.Failures
import Mispredict.Proofs.Innermost

namespace Mispredict

open Machine

/-- A frame inside of another one belongs to a context and has no more of the window left. -/
def Frame.Within (inner outer : Frame) : Prop :=
  inner.context ≠ none ∧ inner.remaining ≤ outer.remaining

/-- What is true of the stack at every point of an analysis with the given window. The innermost
    frame is the first. -/
structure Key.WellStacked (window : Int) (k : Key) : Prop where
  /-- Committed execution has no open context, and speculation has one. -/
  mode : k.mode = .committed ↔ k.frames = []
  distinct : k.contexts.Nodup
  /-- Only the outermost frame may be without a context. -/
  named : ∀ f ∈ k.frames.dropLast, f.context ≠ none
  /-- No frame has more left than one around it. -/
  shrinking : k.frames.Pairwise fun inner outer => inner.remaining ≤ outer.remaining
  windowed : ∀ f ∈ k.frames, (f.remaining : Int) ≤ window

namespace Setup

variable {s : Setup} {entry k target : Key} {payload : Payload} {n : Node} {st : State}
  {frames inner : List Frame}

/-! ## Frames within frames -/

theorem pairwise_within_framesAfter (h : k.frames.Pairwise Frame.Within) (n : Node) :
    (framesAfter k n).Pairwise Frame.Within := by
  unfold framesAfter
  split
  · unfold spend
    split
    · exact .nil
    · next top rest hframes =>
      rw [hframes, List.pairwise_cons] at h
      refine List.pairwise_cons.2 ⟨fun outer houter => ?_, h.2⟩
      obtain ⟨hcontext, hle⟩ := h.1 outer houter
      exact ⟨hcontext, (Nat.sub_le _ _).trans hle⟩
  · exact h

theorem pairwise_within_enter {mode : Mode} (h : frames.Pairwise Frame.Within)
    (hframes : mode = .speculative → frames ≠ []) (henter : s.enter? mode frames n = some inner) :
    inner.Pairwise Frame.Within := by
  cases mode with
  | committed =>
    cases henter
    exact List.pairwise_singleton _ _
  | speculative =>
    obtain ⟨top, rest, rfl⟩ := List.exists_cons_of_ne_nil (hframes rfl)
    rcases enter?_cases henter with ⟨rfl, -⟩ | ⟨context, -, rfl⟩
    · exact h
    · refine List.pairwise_cons.2 ⟨fun outer houter => ⟨Option.some_ne_none _, ?_⟩, h⟩
      rcases List.mem_cons.1 houter with rfl | houter
      · exact Nat.le_refl _
      · exact ((List.pairwise_cons.1 h).1 outer houter).2

theorem pairwise_within_move (hstands : Stands k) (h : k.frames.Pairwise Frame.Within)
    (hmove : (target, payload) ∈ s.moves k) : target.frames.Pairwise Frame.Within := by
  obtain ⟨n, i, -, -, ⟨-, -, -, index, e, -, rfl⟩ | ⟨l, -, hlink, -⟩⟩ := moves_cases hmove
  · exact pairwise_within_framesAfter h n
  · cases hlink with
    | committed => exact pairwise_within_framesAfter h n
    | speculative kind enters =>
      refine pairwise_within_enter (pairwise_within_framesAfter h n) (fun hmode => ?_) enters
      exact framesAfter_ne_nil_iff.2 (hstands.1 hmode)
    | rollback => exact .nil

theorem pairwise_within_entry (h : s.entryKey = .ok (some entry)) :
    entry.frames.Pairwise Frame.Within := by
  obtain ⟨i, n, -, ⟨-, rfl⟩ | ⟨-, rfl⟩⟩ := entryKey_cases h
  · exact List.pairwise_singleton _ _
  · exact .nil

theorem Stores.pairwise_within (hentry : s.entryKey = .ok (some entry))
    (h : s.Stores entry k st) : k.frames.Pairwise Frame.Within := by
  induction h with
  | start => exact pairwise_within_entry hentry
  | pass visited _ _ move _ ih _ => exact pairwise_within_move (visited.stands hentry) ih move

/-! ## Points -/

theorem context_ne_none_of_mem_dropLast {f : Frame} (h : frames.Pairwise Frame.Within)
    (hf : f ∈ frames.dropLast) : f.context ≠ none := by
  have hne : frames ≠ [] := by
    rintro rfl
    cases hf
  rw [← List.dropLast_append_getLast hne, List.pairwise_append] at h
  exact (h.2.2 f hf _ (List.mem_singleton.2 rfl)).1

/-- An analysis starts only with a window. -/
theorem window_of_checkedEntry (h : s.checkedEntry = .ok (some entry)) :
    (s.window : Int) = s.options.specWindow := by
  obtain ⟨_, -, h⟩ := bind_eq_ok_iff.1 h
  split at h
  · cases h
  · next hwindow =>
    rw [window]
    omega

/-- A point that has a state has a stack of that shape. -/
theorem Stores.wellStacked (hentry : s.checkedEntry = .ok (some entry))
    (h : s.Stores entry k st) : k.WellStacked s.options.specWindow := by
  have hkey := entryKey_of_checkedEntry hentry
  have hstands : k.mode = .speculative ↔ k.frames ≠ [] := h.stands hkey
  have hstacked := (h.bounded (inBounds_entry hkey)).1.frames
  have hwithin := h.pairwise_within hkey
  refine ⟨?_, hstacked.distinct, fun f hf => context_ne_none_of_mem_dropLast hwithin hf,
    hwithin.imp And.right, fun f hf => ?_⟩
  · rw [← not_iff_not, ← ne_eq k.frames, ← hstands]
    cases k.mode <;> simp
  · rw [← window_of_checkedEntry hentry]
    exact Int.ofNat_le.2 (hstacked.windowed f hf)

end Setup

/-! ## The table and the queue -/

namespace Machine

variable {s : Setup} {cap : Option Nat} {entry k : Key} {m : Machine} {out : State}
  {rest : List (Key × Payload)}

theorem Moment.supplied (h : Moment s cap entry m k out rest) : m.Supplied := by
  induction h with
  | start => exact supplied_start s entry
  | visit before visiting ih =>
    refine ih.mono table_visited fun q hq => ?_
    rw [queue_visited] at hq
    rw [Worklist.toList_of_pop?_eq_some visiting.next]
    exact List.mem_cons_of_mem _ hq
  | @pass m m' k target out payload rest before running ih =>
    have hpass := propagate_ofPass s cap out m target payload
    rw [running] at hpass
    exact ih.pass hpass

theorem supplied_run (s : Setup) (cap : Option Nat) (entry : Key) (late : Error) (fuel : Nat) :
    ((start s entry).run s cap late fuel).machine.Supplied :=
  run_spec (P := Supplied) (Q := fun m _ => m.Supplied) (fun _ _ h hstep => h.step hstep)
    (fun _ _ _ h hstep => h.step hstep) (fun _ h => h) fuel _ (supplied_start s entry)

/-- What is true of the points that a machine holds. -/
structure PointsWellStacked (window : Int) (m : Machine) : Prop where
  table : ∀ (k : Key) (st : State), m.table[k]? = some st → k.WellStacked window
  queue : ∀ k ∈ m.queue.toList, k.WellStacked window
  /-- No point waits twice. -/
  once : m.queue.toList.Nodup
  /-- The set tells which points wait. -/
  queued : ∀ k, k ∈ m.queue.queued ↔ k ∈ m.queue.toList
  /-- What waits has a state. -/
  stored : ∀ k ∈ m.queue.toList, ∃ st : State, m.table[k]? = some st

theorem Accounted.pointsWellStacked (hentry : s.checkedEntry = .ok (some entry))
    (h : Accounted s entry m) (hsupplied : m.Supplied) :
    m.PointsWellStacked s.options.specWindow := by
  have htable : ∀ (k : Key) (st : State), m.table[k]? = some st →
      k.WellStacked s.options.specWindow :=
    fun k st hst => (h.stored k st hst).wellStacked hentry
  refine ⟨htable, fun k hk => ?_, m.queue.nodup_toList, m.queue.mem_queued_iff, hsupplied⟩
  obtain ⟨st, hst⟩ := hsupplied k hk
  exact htable k st hst

theorem pointsWellStacked_empty (window : Int) : Machine.empty.PointsWellStacked window where
  table := by
    intro k st h
    rw [empty, Std.TreeMap.getElem?_emptyc] at h
    cases h
  queue := nofun
  once := List.nodup_nil
  queued := Worklist.empty.mem_queued_iff
  stored := nofun

end Machine

/-- At every moment of an analysis, and where it stops, the points in the table and in the queue
    have a stack of the shape that is given by `Key.WellStacked`; the queue has no point twice, has
    what its set has, and has only points with a state. -/
theorem analysis_points_wellStacked (g : SpecGraph) (o : Options) :
    (∀ cap entry m k out rest, (Setup.of g o).checkedEntry = .ok (some entry) →
        Moment (Setup.of g o) cap entry m k out rest → m.PointsWellStacked o.specWindow) ∧
      (Setup.of g o).run.machine.PointsWellStacked o.specWindow := by
  refine ⟨fun cap entry m k out rest hentry h => ?_, ?_⟩
  · exact h.accounted.1.pointsWellStacked hentry h.supplied
  · rcases (Setup.of g o).run_cases with ⟨hmachine, -⟩ | ⟨entry, hentry⟩
    · rw [hmachine]
      exact pointsWellStacked_empty _
    · rw [Setup.run_of_entry hentry]
      exact (accounted_run ..).pointsWellStacked hentry (supplied_run _ _ _ _ _)

/-- The inner one of two contexts has used up its window, and the outer one has not. -/
theorem analysis_points_wellStacked_nested :
    (Setup.of nestedGraph nestedOptions).checkedEntry = .ok (some ⟨0, .committed, []⟩) ∧
      (start (Setup.of nestedGraph nestedOptions) ⟨0, .committed, []⟩).PointsWellStacked 2 ∧
      (∃ st, (Setup.of nestedGraph nestedOptions).run.machine.table[nestedEnd]? = some st) ∧
      nestedEnd.WellStacked 2 := by
  have hentry : (Setup.of nestedGraph nestedOptions).checkedEntry =
      .ok (some ⟨0, .committed, []⟩) := by decide +kernel
  obtain ⟨st, hst⟩ : ∃ st,
      (Setup.of nestedGraph nestedOptions).run.machine.table[nestedEnd]? = some st :=
    Option.isSome_iff_exists.1 (by decide +kernel)
  obtain ⟨hmoment, hrun⟩ := analysis_points_wellStacked nestedGraph nestedOptions
  exact ⟨hentry, hmoment none _ _ _ _ _ hentry .start, ⟨st, hst⟩, hrun.table _ _ hst⟩

end Mispredict
