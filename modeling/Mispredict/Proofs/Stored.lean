/-
  The states that an analysis can store at its points.

  `Setup.Stores` gives the states by rules, without queue, limits and order: the state
  at the start, and what a point receives from a visit of a stored state. Whatever the
  order of a run and wherever it stops, its table holds such states only, and its trace
  consists of visits of such states (`accounted_run`). An invariant of all tables and
  traces is then an induction over these rules.
-/
import Mispredict.Proofs.Leak
import Mispredict.Proofs.Fixpoint

namespace Mispredict

open Machine

namespace Setup

/-- The states that an analysis from `entry` can store at a point, in whatever order it visits
    points. -/
inductive Stores (s : Setup) (entry : Key) : Key → State → Prop where
  | start : Stores s entry entry s.initial
  /-- A visit without violation is passed on to a point, which may hold a state already. -/
  | pass {k target : Key} {st out : State} {payload : Payload} {old : Option State}
      (visited : Stores s entry k st) (after : s.after k st = .ok out)
      (violation : out.hasViolation = false) (move : (target, payload) ∈ s.moves k)
      (held : ∀ st' ∈ old, Stores s entry target st') :
      Stores s entry target (received s.initial old out payload)

/-- A step of a trace is the visit of a state that can be stored. -/
def Visits (s : Setup) (entry : Key) (step : Step) : Prop :=
  ∃ k n st out, s.Stores entry k st ∧ s.graph.node? k.node = some n ∧ s.after k st = .ok out ∧
    step = visit step.id n k.mode out

variable {s : Setup} {entry k : Key} {st : State}

theorem Stores.harmless (hi : s.initial.Harmless) (h : s.Stores entry k st) : st.Harmless := by
  induction h with
  | start => exact hi
  | pass visited after violation move held ih ihheld =>
    have hleak := hasViolation_after ih after
    rw [violation] at hleak
    exact hi.received ihheld (harmless_after ih after hleak.symm) _

/-- A fixpoint has a state for every point that an analysis can reach. -/
theorem IsFixpoint.mem_of_stores {t : Table} (ht : s.IsFixpoint entry t)
    (h : s.Stores entry k st) : ∃ st', t[k]? = some st' := by
  induction h with
  | start => exact ht.mem_entry
  | pass visited after violation move held ih ihheld =>
    obtain ⟨st', hst'⟩ := ih
    exact ht.mem_of_move hst' move

end Setup

namespace Machine

open Setup

variable {s : Setup} {cap : Option Nat} {entry : Key} {m : Machine}

/-- Table and trace hold only what the rules give. -/
structure Accounted (s : Setup) (entry : Key) (m : Machine) : Prop where
  stored : ∀ k st, m.table[k]? = some st → s.Stores entry k st
  visited : ∀ step ∈ m.trace, s.Visits entry step

theorem accounted_start (s : Setup) (entry : Key) : Accounted s entry (start s entry) := by
  refine ⟨fun k st h => ?_, fun step h => ?_⟩
  · rw [start, getElem?_insert_table] at h
    split at h
    · next hk => cases h; exact hk ▸ .start
    · cases h
  · cases h with | mk h => cases h

theorem Accounted.pass {k target : Key} {st out : State} {payload : Payload} {p : Progress}
    (h : Accounted s entry m) (hst : s.Stores entry k st) (hafter : s.after k st = .ok out)
    (hv : out.hasViolation = false) (hmove : (target, payload) ∈ s.moves k)
    (hp : Progress.OfPass m target (received s.initial m.table[target]? out payload) p) :
    Accounted s entry p.machine := by
  have hnew : s.Stores entry target (received s.initial m.table[target]? out payload) :=
    .pass hst hafter hv hmove fun st' hst' => h.stored target st' hst'
  have hinsert : ∀ (t : Table), t = m.table.insert target
      (received s.initial m.table[target]? out payload) → ∀ q st', t[q]? = some st' →
      s.Stores entry q st' := by
    rintro t rfl q st' hst'
    rw [getElem?_insert_table] at hst'
    split at hst'
    · next hq => cases hst'; exact hq ▸ hnew
    · exact h.stored q st' hst'
  cases hp with
  | settled => exact h
  | stored fresh table trace => exact ⟨hinsert _ table, fun step hs => h.visited step (trace ▸ hs)⟩
  | capped fresh table trace => exact ⟨hinsert _ table, fun step hs => h.visited step (trace ▸ hs)⟩

theorem Accounted.push {k : Key} {n : Node} {st out : State} {m' : Machine}
    (h : Accounted s entry m) (hnode : s.graph.node? k.node = some n)
    (hheld : m.table[k]? = some st) (hafter : s.after k st = .ok out) (htable : m'.table = m.table)
    (htrace : m'.trace = m.trace.push (visit m.trace.size n k.mode out)) :
    Accounted s entry m' := by
  refine ⟨fun q st' hq => h.stored q st' (htable ▸ hq), fun step hs => ?_⟩
  rw [htrace, Array.mem_push] at hs
  rcases hs with hs | rfl
  · exact h.visited step hs
  · exact ⟨k, n, st, out, h.stored k st hheld, hnode, hafter, rfl⟩

theorem Accounted.step {p : Progress} (h : Accounted s entry m)
    (hstep : Progress.OfStep s cap m p) : Accounted s entry p.machine := by
  cases hstep with
  | done => exact h
  | fails queue table trace =>
    exact ⟨fun q st hq => h.stored q st (table ▸ hq), fun step hs => h.visited step (trace ▸ hs)⟩
  | violates node held after violation table trace => exact h.push node held after table trace
  | passes node held after violation queue table trace result =>
    rw [← result]
    exact propagateAll_keeps
      (fun target payload hmove m₁ p h₁ hp =>
        h₁.pass (h.stored _ _ held) after violation hmove hp)
      (h.push node held after table trace)

theorem accounted_run (s : Setup) (cap : Option Nat) (entry : Key) (late : Error) (fuel : Nat) :
    Accounted s entry ((start s entry).run s cap late fuel).machine :=
  run_spec (P := Accounted s entry) (Q := fun m _ => Accounted s entry m)
    (fun _ _ h hstep => h.step hstep) (fun _ _ _ h hstep => h.step hstep) (fun _ h => h) fuel _
    (accounted_start s entry)

/-- A run that finds a violation leaves the state that led to it in its table. -/
theorem exists_violation_of_run {late : Error} {fuel : Nat} (m : Machine)
    (h : (m.run s cap late fuel).outcome = .ok .violation) :
    ∃ k st out, (m.run s cap late fuel).machine.table[k]? = some st ∧ s.after k st = .ok out ∧
      out.hasViolation = true := by
  refine run_spec (P := fun _ => True)
    (Q := fun m outcome => outcome = .ok .violation → ∃ k st out, m.table[k]? = some st ∧
      s.after k st = .ok out ∧ out.hasViolation = true)
    (fun _ _ _ _ => trivial) ?_ (fun _ _ h' => by cases h') fuel m trivial h
  intro m m' outcome _ hstep h
  cases hstep with
  | done => cases h
  | fails => cases h
  | violates node held after violation table trace =>
    exact ⟨_, _, _, table ▸ held, after, violation⟩
  | passes node held after violation queue table trace result =>
    obtain ⟨limit, hlimit⟩ := outcome_propagateAll result
    rw [hlimit] at h
    cases h

end Machine

/-- An analysis that finds a violation has the state that led to it in its table. -/
theorem Setup.exists_violation_of_outcome {s : Setup} {entry : Key}
    (hentry : s.checkedEntry = .ok (some entry)) (h : s.run.outcome = .ok .violation) :
    ∃ k st out, s.run.machine.table[k]? = some st ∧ s.after k st = .ok out ∧
      out.hasViolation = true := by
  rw [run_of_entry hentry] at h ⊢
  exact exists_violation_of_run _ h

/-- The table of an analysis holds states that can be stored. -/
theorem Setup.stores_of_mem_table {s : Setup} {entry k : Key} {st : State}
    (hentry : s.checkedEntry = .ok (some entry)) (h : s.run.machine.table[k]? = some st) :
    s.Stores entry k st := by
  rw [run_of_entry hentry] at h
  exact (accounted_run ..).stored k st h

end Mispredict
