/-
  A secure analysis ends in a fixpoint.

  When the machine stops with nothing left to visit, its table is closed under
  visits: every point in it can be visited in the state it holds, the visit shows no
  violation, and every point that follows is in the table and has absorbed the state
  after the visit (`Setup.IsFixpoint`).

  The invariant of the machine is that every point which is not queued is settled in
  this sense. A point that gets a new state is queued, and is then owed nothing; for
  the points that lead to it, what it had absorbed it still absorbs, since a state
  only ever receives more.
-/
import Mispredict.Proofs.Step
import Mispredict.SpecGraph.Build

namespace Mispredict

open Machine

namespace Setup

/-- A point is in the table, and to pass `x` on to it would change nothing. -/
def Absorbs (s : Setup) (t : Table) (k : Key) (x : State) (p : Payload) : Prop :=
  ∃ st, t[k]? = some st ∧ receive s.initial st x p = st

/-- A point can be visited in the state `st`, without a violation, and what follows from the visit
    is already in the table. -/
def Settled (s : Setup) (t : Table) (k : Key) (st : State) : Prop :=
  ∃ out, s.after k st = .ok out ∧ out.hasViolation = false ∧
    ∀ target payload, (target, payload) ∈ s.moves k → s.Absorbs t target out payload

/-- A table that holds the state at the start and is closed under visits, none of which shows a
    violation. -/
structure IsFixpoint (s : Setup) (entry : Key) (t : Table) : Prop where
  entry : s.Absorbs t entry s.initial .full
  settled : ∀ k st, t[k]? = some st → s.Settled t k st

variable {s : Setup} {t : Table} {k target : Key} {x out : State} {p payload : Payload}

/-- What has been absorbed stays absorbed when some point receives more. -/
theorem Absorbs.insert (h : s.Absorbs t k x p) (target : Key) (out : State) (payload : Payload) :
    s.Absorbs (t.insert target (received s.initial t[target]? out payload)) k x p := by
  obtain ⟨st, hk, hst⟩ := h
  by_cases heq : k = target
  · subst heq
    refine ⟨receive s.initial st out payload, ?_, ?_⟩
    · rw [getElem?_insert_table, if_pos rfl, hk]
    · rw [receive_right_comm, hst]
  · refine ⟨st, ?_, hst⟩
    rw [getElem?_insert_table, if_neg heq, hk]

theorem absorbs_insert_self (s : Setup) (t : Table) (target : Key) (out : State)
    (payload : Payload) :
    s.Absorbs (t.insert target (received s.initial t[target]? out payload)) target out payload := by
  refine ⟨received s.initial t[target]? out payload, ?_, receive_receive_self ..⟩
  rw [getElem?_insert_table, if_pos rfl]

theorem Settled.insert {st : State} (h : s.Settled t k st) (target : Key) (out : State)
    (payload : Payload) :
    s.Settled (t.insert target (received s.initial t[target]? out payload)) k st := by
  obtain ⟨after, hafter, hv, hmoves⟩ := h
  exact ⟨after, hafter, hv, fun q p hq => (hmoves q p hq).insert target out payload⟩

variable {entry : Key} {st : State}

theorem IsFixpoint.mem_entry (ht : s.IsFixpoint entry t) : ∃ st, t[entry]? = some st := by
  obtain ⟨st, hst, -⟩ := ht.entry
  exact ⟨st, hst⟩

/-- What follows a point of a fixpoint is in the fixpoint. -/
theorem IsFixpoint.mem_of_move (ht : s.IsFixpoint entry t) (hst : t[k]? = some st)
    (hmove : (target, payload) ∈ s.moves k) : ∃ st', t[target]? = some st' := by
  obtain ⟨out, -, -, hmoves⟩ := ht.settled k st hst
  obtain ⟨st', hst', -⟩ := hmoves target payload hmove
  exact ⟨st', hst'⟩

end Setup

namespace Machine

open Setup

variable {s : Setup} {cap : Option Nat} {entry : Key} {m m' : Machine}

/-- Between two steps: every point that is not queued is settled. -/
structure Closed (s : Setup) (entry : Key) (m : Machine) : Prop where
  entry : s.Absorbs m.table entry s.initial .full
  settled : ∀ k st, k ∉ m.queue.toList → m.table[k]? = some st → s.Settled m.table k st

/-- Within a step: the point `k` was visited in the state `st` with the result `out`, which has
    still to be passed on to `rest`. -/
structure Passing (s : Setup) (entry k : Key) (st out : State) (rest : List (Key × Payload))
    (m : Machine) : Prop where
  entry : s.Absorbs m.table entry s.initial .full
  others : ∀ q st', q ≠ k → q ∉ m.queue.toList → m.table[q]? = some st' → s.Settled m.table q st'
  self : k ∈ m.queue.toList ∨ m.table[k]? = some st
  absorbed : ∀ target payload, (target, payload) ∈ s.moves k →
    (target, payload) ∈ rest ∨ s.Absorbs m.table target out payload

variable {k target : Key} {st out : State} {payload : Payload} {rest : List (Key × Payload)}

theorem Passing.pass (h : Passing s entry k st out ((target, payload) :: rest) m)
    (hp : Progress.OfPass m target (received s.initial m.table[target]? out payload)
      (.running m')) :
    Passing s entry k st out rest m' := by
  cases hp with
  | settled held =>
    refine ⟨h.entry, h.others, h.self, fun t p ht => ?_⟩
    rcases h.absorbed t p ht with h' | h'
    · rcases List.mem_cons.1 h' with heq | h'
      · cases heq
        refine .inr ⟨_, held, ?_⟩
        exact receive_receive_self ..
      · exact .inl h'
    · exact .inr h'
  | stored fresh table trace queue =>
    refine ⟨?_, fun q st' hk hq hst' => ?_, ?_, fun t p ht => ?_⟩
    · rw [table]
      exact h.entry.insert target out payload
    · have hq' : q ≠ target ∧ q ∉ m.queue.toList := not_or.1 fun h' => hq ((queue q).2 h')
      rw [table, getElem?_insert_table, if_neg hq'.1] at hst'
      rw [table]
      exact (h.others q st' hk hq'.2 hst').insert target out payload
    · by_cases hk : k = target
      · exact .inl ((queue k).2 (.inl hk))
      · refine h.self.imp (fun h' => (queue k).2 (.inr h')) fun h' => ?_
        rw [table, getElem?_insert_table, if_neg hk]
        exact h'
    · rw [table]
      rcases h.absorbed t p ht with h' | h'
      · rcases List.mem_cons.1 h' with heq | h'
        · cases heq
          exact .inr (absorbs_insert_self ..)
        · exact .inl h'
      · exact .inr (h'.insert target out payload)

theorem Passing.passAll (h : Passing s entry k st out rest m)
    (hp : m.propagateAll s cap out rest = .running m') : Passing s entry k st out [] m' := by
  induction rest generalizing m with
  | nil =>
    cases hp
    exact h
  | cons move rest ih =>
    obtain ⟨target, payload⟩ := move
    have hpass := propagate_ofPass s cap out m target payload
    rw [propagateAll] at hp
    split at hp
    · next m₁ heq =>
      rw [heq] at hpass
      exact ih (h.pass hpass) hp
    · cases hp

/-- After a visit without violation, once everything has been passed on, the point is settled
    unless the visit has changed its own state, and then it is queued. -/
theorem Passing.closed (h : Passing s entry k st out [] m) (hafter : s.after k st = .ok out)
    (hv : out.hasViolation = false) : Closed s entry m := by
  refine ⟨h.entry, fun q st' hq hst' => ?_⟩
  by_cases hk : q = k
  · subst hk
    have hst : m.table[q]? = some st := h.self.resolve_left hq
    cases hst'.symm.trans hst
    exact ⟨out, hafter, hv, fun t p ht => (h.absorbed t p ht).resolve_left List.not_mem_nil⟩
  · exact h.others q st' hk hq hst'

theorem Closed.step (h : Closed s entry m) (hstep : Progress.OfStep s cap m (.running m')) :
    Closed s entry m' := by
  cases hstep with
  | @passes m₁ k n st out _ node held after violation queue table trace result =>
    have hpassing : Passing s entry k st out (s.moves k) m₁ := by
      refine ⟨?_, fun q st' hk hq hst' => ?_, .inr ?_, fun t p ht => .inl ht⟩
      · rw [table]
        exact h.entry
      · rw [table] at hst' ⊢
        refine h.settled q st' ?_ hst'
        rw [queue]
        exact List.not_mem_cons_of_ne_of_not_mem hk hq
      · rw [table]
        exact held
    exact (hpassing.passAll result).closed after violation

theorem closed_start (s : Setup) (entry : Key) : Closed s entry (start s entry) := by
  have htable : (start s entry).table[entry]? = some s.initial := by
    rw [start, getElem?_insert_table, if_pos rfl]
  refine ⟨⟨s.initial, htable, sup_idem _⟩, fun k st hk hst => ?_⟩
  rw [start, Worklist.toList_pushBack, Worklist.toList_empty, if_neg List.not_mem_nil] at hk
  rw [start, getElem?_insert_table, if_neg (by simpa using hk)] at hst
  cases hst

theorem Closed.run (h : Closed s entry m) {late : Error} {fuel : Nat}
    (hsecure : (m.run s cap late fuel).outcome = .ok .secure) :
    s.IsFixpoint entry (m.run s cap late fuel).machine.table := by
  refine run_spec (P := Closed s entry)
    (Q := fun m outcome => outcome = .ok .secure → s.IsFixpoint entry m.table)
    (fun _ _ => Closed.step) ?_ (fun _ _ h' => by cases h') fuel m h hsecure
  intro m m' outcome h hstep hsecure
  cases hstep with
  | done queue => exact ⟨h.entry, fun k st => h.settled k st (queue ▸ List.not_mem_nil)⟩
  | fails => cases hsecure
  | violates => cases hsecure
  | passes node held after violation queue table trace result =>
    obtain ⟨limit, hlimit⟩ := outcome_propagateAll result
    rw [hlimit] at hsecure
    cases hsecure

end Machine

namespace Setup

theorem isFixpoint_run {s : Setup} {entry : Key} (hentry : s.checkedEntry = .ok (some entry))
    (hsecure : s.run.outcome = .ok .secure) : s.IsFixpoint entry s.run.machine.table := by
  rw [run_of_entry hentry] at hsecure ⊢
  exact (closed_start s entry).run hsecure

/-- An analysis that starts at `entry` and ends secure leaves a fixpoint in its table, whatever the
    graph, the order of visits and the limits. -/
theorem isFixpoint_of_secure (g : SpecGraph) (o : Options) {entry : Key}
    (hentry : (Setup.of g o).checkedEntry = .ok (some entry))
    (hsecure : (Setup.of g o).run.outcome = .ok .secure) :
    (Setup.of g o).IsFixpoint entry (Setup.of g o).run.machine.table :=
  isFixpoint_run hentry hsecure

/-- A branch to itself, with rollbacks from the speculation on it. -/
def retryLoop : SpecGraph :=
  (SpecGraph.buildSource "L: beqz c, L\nx <- x + c" { speculation := .stackGuard }).result.toOption
    |>.getD .empty

def retryOptions : Options := { speculation := .stackGuard, specWindow := 2 }

theorem isFixpoint_retryLoop :
    (Setup.of retryLoop retryOptions).checkedEntry = .ok (some ⟨0, .committed, []⟩) ∧
      (Setup.of retryLoop retryOptions).run.outcome = .ok .secure ∧
      (Setup.of retryLoop retryOptions).IsFixpoint ⟨0, .committed, []⟩
        (Setup.of retryLoop retryOptions).run.machine.table := by
  have hentry : (Setup.of retryLoop retryOptions).checkedEntry =
      .ok (some ⟨0, .committed, []⟩) := by decide +kernel
  have hsecure : (Setup.of retryLoop retryOptions).run.outcome = .ok .secure := by decide +kernel
  exact ⟨hentry, hsecure, isFixpoint_of_secure retryLoop retryOptions hentry hsecure⟩

end Setup

end Mispredict
