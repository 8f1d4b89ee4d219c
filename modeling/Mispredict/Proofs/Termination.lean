/-
  An analysis comes to an end without its limits.

  Without limits the machine takes step after step until one of them stops it
  (`Machine.Finishes`). Every step takes a point from the queue. It puts a point there only
  when the state of the point changes, and a state changes only to a greater one. Points
  and states are finitely many, so each point has room for so many changes and no more.
  The length of the queue and the room that is left, taken together, get less with
  every step (`Moment.measure_step`): a change that adds a point to the queue uses up
  room. How states come about does not matter here, and so the transfer of states need
  not be monotone.
-/
import Mathlib.Algebra.Order.BigOperators.Group.Finset
import Mispredict.Proofs.Finite
import Mispredict.Proofs.Limits

namespace Mispredict

/-! ## States only grow -/

namespace State

theorem le_joinObservations (s t : State) : s ≤ s.joinObservations t := by
  rw [← sup_eq_right]
  show s.join (s.joinObservations t) = s.joinObservations t
  simp only [join, joinObservations, SortedMap.unionWith_self Value.join_self,
    ← Observations.join_assoc, Observations.join_self]

end State

namespace Machine

variable {s : Setup} {cap : Option Nat} {entry k target : Key} {m m' : Machine} {out : State}
  {payload : Payload} {rest : List (Key × Payload)}

theorem le_received (initial st out : State) (payload : Payload) :
    st ≤ received initial (some st) out payload := by
  cases payload with
  | full => exact le_sup_left
  | observations => exact st.le_joinObservations out

/-! ## Room for changes -/

open scoped Classical in
/-- How often a point may still change, when it can hold these states. -/
noncomputable def room (states : Finset State) : (held : Option State) → Nat
  | none => states.card
  | some st => {st' ∈ states | st < st'}.card

theorem room_lt {states : Finset State} {held : Option State} {new : State}
    (hnew : new ∈ states) (hlt : ∀ st ∈ held, st < new) :
    room states (some new) < room states held := by
  classical
  cases held with
  | none =>
    refine Finset.card_lt_card (Finset.filter_ssubset.2 ⟨new, hnew, lt_irrefl new⟩)
  | some st =>
    have hst : st < new := hlt st rfl
    refine Finset.card_lt_card (Finset.ssubset_iff_of_subset ?_ |>.2 ⟨new, ?_, ?_⟩)
    · intro st' h
      obtain ⟨hmem, hlt'⟩ := Finset.mem_filter.1 h
      exact Finset.mem_filter.2 ⟨hmem, hst.trans hlt'⟩
    · exact Finset.mem_filter.2 ⟨hnew, hst⟩
    · intro h
      exact lt_irrefl new (Finset.mem_filter.1 h).2

/-- How often the points may still change, all in all. -/
noncomputable def roomIn (points : Finset Key) (states : Finset State) (t : Table) : Nat :=
  ∑ k ∈ points, room states t[k]?

theorem roomIn_insert_lt {points : Finset Key} {states : Finset State} {t : Table} {new : State}
    (hk : k ∈ points) (hnew : new ∈ states) (hlt : ∀ st ∈ t[k]?, st < new) :
    roomIn points states (t.insert k new) < roomIn points states t := by
  have hroom : ∀ q, (t.insert k new)[q]? = if q = k then some new else t[q]? :=
    fun q => getElem?_insert_table t k q new
  refine Finset.sum_lt_sum (fun q _ => ?_) ⟨k, hk, ?_⟩
  · rw [hroom]
    split
    · next heq => exact heq ▸ (room_lt hnew hlt).le
    · exact Nat.le_refl _
  · rw [hroom, if_pos rfl]
    exact room_lt hnew hlt

/-! ## Every step uses up something -/

/-- The length of the queue and the room for changes, which together bound the steps to come. -/
noncomputable def measure (s : Setup) (m : Machine) : Nat :=
  m.queue.toList.length +
    roomIn s.finite_inBounds.toFinset (State.finite_of_names s.finite_names).toFinset m.table

theorem length_enqueue_le (order : TraceMode) (m : Machine) (k : Key) :
    (m.enqueue order k).queue.toList.length ≤ m.queue.toList.length + 1 := by
  rw [toList_enqueue]
  split
  · omega
  · cases order with
    | breadthFirst => rw [extend, List.length_append, List.length_singleton]
    | singlePath => rw [extend, List.length_cons]

theorem Moment.measure_pass (hentry : s.InBounds entry)
    (h : Moment s cap entry m k out ((target, payload) :: rest))
    (hp : m.propagate s cap out target payload = .running m') : measure s m' ≤ measure s m := by
  obtain ⟨haccounted, hcarried⟩ := h.accounted
  obtain ⟨st, hst, hafter⟩ := hcarried.result nofun
  have hnew : s.Stores entry target (received s.initial m.table[target]? out payload) :=
    .pass hst hafter (hcarried.quiet nofun) (hcarried.moves _ List.mem_cons_self)
      (fun st' hst' => haccounted.stored target st' hst')
  obtain ⟨hpoint, hstate⟩ := hnew.bounded hentry
  rcases (propagate_eq_running_iff rfl).1 hp with ⟨-, rfl⟩ | ⟨hfresh, -, rfl⟩
  · exact Nat.le_refl _
  · have hlt : ∀ st' ∈ m.table[target]?, st' < received s.initial m.table[target]? out payload := by
      intro st' hst'
      rw [show m.table[target]? = some st' from hst'] at hfresh ⊢
      exact lt_of_le_of_ne (le_received s.initial st' out payload) fun heq =>
        hfresh (congrArg some heq)
    have hroom := roomIn_insert_lt (s.finite_inBounds.mem_toFinset.2 hpoint)
      ((State.finite_of_names s.finite_names).mem_toFinset.2 hstate) hlt
    have hqueue := length_enqueue_le s.options.traceMode
      (m.update target (received s.initial m.table[target]? out payload)) target
    rw [measure, measure, table_enqueue]
    have htable : (m.update target (received s.initial m.table[target]? out payload)).table =
        m.table.insert target (received s.initial m.table[target]? out payload) := rfl
    have hlength : (m.update target
        (received s.initial m.table[target]? out payload)).queue = m.queue := rfl
    rw [hlength] at hqueue
    rw [htable]
    omega

theorem Moment.measure_passAll (hentry : s.InBounds entry) (h : Moment s cap entry m k out rest)
    (hp : m.propagateAll s cap out rest = .running m') : measure s m' ≤ measure s m := by
  induction rest generalizing m with
  | nil =>
    cases hp
    exact Nat.le_refl _
  | cons move rest ih =>
    obtain ⟨target, payload⟩ := move
    rw [propagateAll] at hp
    split at hp
    · next m₁ heq => exact (ih (h.pass heq) hp).trans (h.measure_pass hentry heq)
    · cases hp

/-- A step leaves less to do. -/
theorem Moment.measure_step (hentry : s.InBounds entry) (h : Moment s cap entry m k out [])
    (hstep : m.step s cap = .running m') : measure s m' < measure s m := by
  obtain ⟨k', queue, n, st, out', hvisiting⟩ := exists_visiting_of_step hstep
  rw [hvisiting.step_eq] at hstep
  have hpasses := (h.visit hvisiting).measure_passAll hentry hstep
  have hpopped := congrArg List.length (Worklist.toList_of_pop?_eq_some hvisiting.next)
  rw [List.length_cons] at hpopped
  have hvisit : measure s (m.visited s k' queue n out') + 1 = measure s m := by
    rw [measure, measure, table_visited, queue_visited]
    omega
  omega

/-! ## Runs without limits -/

/-- The machine takes `n` steps without limits, and stops as `f` in the next one. -/
inductive Finishes (s : Setup) : Machine → (n : Nat) → (f : Finished) → Prop where
  | stop {m m' : Machine} {outcome : Except Error Verdict}
      (stops : m.step s none = .stopped m' outcome) : Finishes s m 0 ⟨m', outcome⟩
  | step {m m' : Machine} {n : Nat} {f : Finished} (goesOn : m.step s none = .running m')
      (rest : Finishes s m' n f) : Finishes s m (n + 1) f

/-- Without a limit on changes, everything can be passed on. -/
theorem exists_propagateAll_none (s : Setup) (out : State) (m : Machine)
    (moves : List (Key × Payload)) : ∃ m', m.propagateAll s none out moves = .running m' := by
  induction moves generalizing m with
  | nil => exact ⟨m, rfl⟩
  | cons move moves ih =>
    obtain ⟨target, payload⟩ := move
    rw [propagateAll]
    cases heq : m.propagate s none out target payload with
    | running m₁ => exact ih m₁
    | stopped m₁ outcome =>
      exfalso
      unfold propagate at heq
      dsimp only at heq
      split at heq <;> cases heq

/-- A step without limits stops at none. -/
theorem withinLimits_of_stopped {outcome : Except Error Verdict}
    (h : m.step s none = .stopped m' outcome) : (Finished.mk m' outcome).WithinLimits := by
  intro e he
  cases he
  have hof := step_ofStep s none m
  rw [h] at hof
  rw [Bool.eq_false_iff]
  intro hlimit
  obtain ⟨m₁, out, moves, hstopped⟩ := passes_of_isLimit hof hlimit
  obtain ⟨m₂, hpassed⟩ := exists_propagateAll_none s out m₁ moves
  rw [hpassed] at hstopped
  cases hstopped

/-- A machine within bounds finishes without limits. -/
theorem Moment.exists_finishes (hentry : s.InBounds entry) (h : Moment s none entry m k out []) :
    ∃ n f, Finishes s m n f := by
  induction hμ : measure s m using Nat.strong_induction_on generalizing m k out with
  | _ μ ih =>
    subst hμ
    cases hstep : m.step s none with
    | running m₁ =>
      obtain ⟨k₁, out₁, h₁⟩ := h.step hstep
      obtain ⟨n, f, hfinishes⟩ := ih _ (h.measure_step hentry hstep) h₁ rfl
      exact ⟨n + 1, f, .step hstep hfinishes⟩
    | stopped m₁ outcome => exact ⟨0, _, .stop hstep⟩

theorem Finishes.withinLimits {n : Nat} {f : Finished} (h : Finishes s m n f) : f.WithinLimits := by
  induction h with
  | stop stops => exact withinLimits_of_stopped stops
  | step _ _ ih => exact ih

/-! ## Limits that are high enough -/

theorem relaxations_le_of_propagate
    (h : m.propagate s cap out target payload = .running m') : m.relaxations ≤ m'.relaxations := by
  rcases (propagate_eq_running_iff rfl).1 h with ⟨-, rfl⟩ | ⟨-, -, rfl⟩
  · exact Nat.le_refl _
  · rw [relaxations_enqueue]
    exact Nat.le_succ _

theorem relaxations_le_of_propagateAll {moves : List (Key × Payload)}
    (h : m.propagateAll s cap out moves = .running m') : m.relaxations ≤ m'.relaxations := by
  induction moves generalizing m with
  | nil =>
    cases h
    exact Nat.le_refl _
  | cons move moves ih =>
    obtain ⟨target, payload⟩ := move
    rw [propagateAll] at h
    split at h
    · next m₁ heq => exact (relaxations_le_of_propagate heq).trans (ih h)
    · cases h

/-- A limit on changes that is not exceeded makes no difference. -/
theorem propagateAll_some_of_none {limit : Nat} {moves : List (Key × Payload)}
    (h : m.propagateAll s none out moves = .running m') (hlimit : m'.relaxations ≤ limit) :
    m.propagateAll s (some limit) out moves = .running m' := by
  induction moves generalizing m with
  | nil => exact h
  | cons move moves ih =>
    obtain ⟨target, payload⟩ := move
    rw [propagateAll] at h ⊢
    split at h
    · next m₁ heq =>
      have hle := relaxations_le_of_propagateAll h
      have hpass : m.propagate s (some limit) out target payload = .running m₁ := by
        rw [propagate_eq_running_iff rfl] at heq ⊢
        rcases heq with heq | ⟨hfresh, -, rfl⟩
        · exact .inl heq
        · refine .inr ⟨hfresh, fun limit' hlimit' => ?_, rfl⟩
          cases hlimit'
          rw [relaxations_enqueue] at hle
          exact Nat.lt_of_lt_of_le (Nat.lt_succ_self _) (hle.trans hlimit)
      rw [hpass]
      exact ih h
    · cases h

/-- With limits that are high enough a machine runs as it does without. -/
theorem Finishes.exists_limit {n : Nat} {f : Finished} (h : Finishes s m n f) :
    ∃ enough, ∀ limit fuel late, enough ≤ limit → enough ≤ fuel →
      m.run s (some limit) late fuel = f := by
  induction h with
  | @stop m m' outcome stops =>
    refine ⟨1, fun limit fuel late _ hfuel => ?_⟩
    obtain ⟨fuel, rfl⟩ : ∃ fuel', fuel = fuel' + 1 := ⟨fuel - 1, by omega⟩
    rcases step_of_stopped stops (some limit) with hsame | ⟨⟨limit', rfl⟩, -⟩
    · rw [run, hsame]
    · cases withinLimits_of_stopped stops _ rfl
  | @step m m' n f goesOn rest ih =>
    obtain ⟨enough, hrun⟩ := ih
    refine ⟨max (enough + 1) m'.relaxations, fun limit fuel late hlimit hfuel => ?_⟩
    obtain ⟨fuel, rfl⟩ : ∃ fuel', fuel = fuel' + 1 := ⟨fuel - 1, by omega⟩
    obtain ⟨k, queue, n, st, out, hvisiting⟩ := exists_visiting_of_step goesOn
    have hstep : m.step s (some limit) = .running m' := by
      rw [hvisiting.step_eq] at goesOn ⊢
      exact propagateAll_some_of_none goesOn (by omega)
    rw [run, hstep]
    exact hrun limit fuel late (by omega) (by omega)

end Machine

open Machine

namespace Setup

/-- The analysis without limits ends as `f`, after `n` steps if it starts at all. -/
inductive EndsFreely (s : Setup) : (n : Nat) → (f : Finished) → Prop where
  | refused {e : Error} (refused : s.checkedEntry = .error e) : EndsFreely s 0 ⟨.empty, .error e⟩
  | vacant (vacant : s.checkedEntry = .ok none) : EndsFreely s 0 ⟨.empty, .ok .secure⟩
  | runs {entry : Key} {n : Nat} {f : Finished} (starts : s.checkedEntry = .ok (some entry))
      (finishes : Finishes s (start s entry) n f) : EndsFreely s n f

/-- Every analysis ends without limits. -/
theorem exists_endsFreely (s : Setup) : ∃ n f, s.EndsFreely n f := by
  cases hentry : s.checkedEntry with
  | error e => exact ⟨0, _, .refused hentry⟩
  | ok found =>
    cases found with
    | none => exact ⟨0, _, .vacant hentry⟩
    | some entry =>
      have hbounds := inBounds_entry (entryKey_of_checkedEntry hentry)
      obtain ⟨n, f, hfinishes⟩ := Moment.start.exists_finishes hbounds
      exact ⟨n, f, .runs hentry hfinishes⟩

theorem EndsFreely.withinLimits {s : Setup} {n : Nat} {f : Finished} (h : s.EndsFreely n f) :
    f.WithinLimits := by
  cases h with
  | refused hentry =>
    intro e he
    cases he
    exact isLimit_of_checkedEntry hentry
  | vacant => exact nofun
  | runs _ finishes => exact finishes.withinLimits

theorem EndsFreely.exists_limit {g : SpecGraph} {o : Options} {n : Nat} {f : Finished}
    (h : (Setup.of g o).EndsFreely n f) :
    ∃ enough, ∀ maxSteps iterationCap, enough ≤ maxSteps → enough ≤ iterationCap →
      (Setup.of g (o.withLimits maxSteps iterationCap)).run = f := by
  have hchecked : ∀ maxSteps iterationCap,
      (Setup.of g (o.withLimits maxSteps iterationCap)).checkedEntry =
        (Setup.of g o).checkedEntry := fun _ _ => rfl
  cases h with
  | refused hentry =>
    refine ⟨0, fun maxSteps iterationCap _ _ => ?_⟩
    rw [run, hchecked, hentry]
  | vacant hentry =>
    refine ⟨0, fun maxSteps iterationCap _ _ => ?_⟩
    rw [run, hchecked, hentry]
  | @runs entry n f hentry finishes =>
    obtain ⟨enough, hrun⟩ := finishes.exists_limit
    refine ⟨enough, fun maxSteps iterationCap hsteps hcap => ?_⟩
    rw [run_of_entry ((hchecked _ _).trans hentry), run_withLimits]
    exact hrun _ _ _ hcap hsteps

end Setup

/-- The analysis of any graph, whatever its cycles, comes to an end without limits, with a verdict
    or with an error that no limit has caused; and that is also its end under all limits that are
    high enough. -/
theorem analysis_terminates (g : SpecGraph) (o : Options) :
    ∃ n f, (Setup.of g o).EndsFreely n f ∧ f.WithinLimits ∧
      ∃ enough, ∀ maxSteps iterationCap, enough ≤ maxSteps → enough ≤ iterationCap →
        (Setup.of g (o.withLimits maxSteps iterationCap)).run = f := by
  obtain ⟨n, f, hends⟩ := (Setup.of g o).exists_endsFreely
  exact ⟨n, f, hends, hends.withinLimits, hends.exists_limit⟩

end Mispredict
