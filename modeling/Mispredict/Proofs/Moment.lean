/-
  The machine at every moment of a run.

  Between two steps, and within a step after each state that is passed on, the machine is
  in some condition. `Moment` gives these conditions by three rules: the start, a visit of
  the next point, and the passing on of its result to one point. Every step of a run goes
  through such moments only (`Moment.step`), and a run that ends without error can be
  taken up again at each of them (`Moment.resume_eq`).

  At every moment table and trace hold what the rules of `Setup.Stores` give, and what is
  being passed on is the result of the last visit (`Moment.accounted`).
-/
import Mispredict.Proofs.Stored

namespace Mispredict

theorem Worklist.exists_pop? {w : Worklist} {k : Key} {rest : List Key} (h : w.toList = k :: rest) :
    ∃ w', w.pop? = some (k, w') ∧ w'.toList = rest := by
  cases hpop : w.pop? with
  | none =>
    rw [(pop?_eq_none_iff _).1 hpop] at h
    cases h
  | some popped =>
    obtain ⟨k', w'⟩ := popped
    obtain ⟨rfl, hrest⟩ := List.cons.inj ((toList_of_pop?_eq_some hpop).symm.trans h)
    exact ⟨w', rfl, hrest⟩

namespace Machine

/-- The machine after the visit of `k`, whose node is `n`, with the result `out`, before any of it
    is passed on; `queue` are the points that remain to be visited. -/
def visited (s : Setup) (m : Machine) (k : Key) (queue : Worklist) (n : Node) (out : State) :
    Machine :=
  let m := { m with queue := queue }.say (stepLine m.trace.size n k.mode)
  { m with trace := m.trace.push (visit m.trace.size n k.mode out) }.sayAll
    ((s.routes k).filterMap (Route.logLine? n.id))

/-- A visit of the next point `k`, in the state that is held for it, without violation. -/
structure Visiting (s : Setup) (m : Machine) (k : Key) (queue : Worklist) (n : Node)
    (st out : State) : Prop where
  next : m.queue.pop? = some (k, queue)
  node : s.graph.node? k.node = some n
  held : m.table[k]? = some st
  after : s.after k st = .ok out
  quiet : out.hasViolation = false

/-- The moments of a run from `entry`: the machine is `m`, and `out`, the result of the last visit,
    which was one of `k`, is still to be passed on to `rest`. -/
inductive Moment (s : Setup) (cap : Option Nat) (entry : Key) :
    (m : Machine) → (k : Key) → (out : State) → (rest : List (Key × Payload)) → Prop where
  | start : Moment s cap entry (start s entry) entry s.initial []
  | visit {m : Machine} {k₀ k : Key} {out₀ st out : State} {queue : Worklist} {n : Node}
      (before : Moment s cap entry m k₀ out₀ []) (visiting : Visiting s m k queue n st out) :
      Moment s cap entry (m.visited s k queue n out) k out (s.moves k)
  | pass {m m' : Machine} {k target : Key} {out : State} {payload : Payload}
      {rest : List (Key × Payload)}
      (before : Moment s cap entry m k out ((target, payload) :: rest))
      (running : m.propagate s cap out target payload = .running m') :
      Moment s cap entry m' k out rest

variable {s : Setup} {cap : Option Nat} {entry k : Key} {m m' : Machine} {out : State}
  {rest : List (Key × Payload)} {queue : Worklist} {n : Node} {st : State}

theorem getElem?_table_start (s : Setup) (entry q : Key) :
    (start s entry).table[q]? = if q = entry then some s.initial else none := by
  rw [start, getElem?_insert_table]
  rfl

@[simp] theorem table_visited : (m.visited s k queue n out).table = m.table := by
  rw [visited, table_sayAll]
  rfl

@[simp] theorem queue_visited : (m.visited s k queue n out).queue = queue := by
  rw [visited, queue_sayAll]
  rfl

@[simp] theorem trace_visited :
    (m.visited s k queue n out).trace = m.trace.push (visit m.trace.size n k.mode out) := by
  rw [visited, trace_sayAll]
  rfl

@[simp] theorem relaxations_visited :
    (m.visited s k queue n out).relaxations = m.relaxations := by
  rw [visited, relaxations_sayAll]
  rfl

theorem Visiting.step_eq (h : Visiting s m k queue n st out) (cap : Option Nat) :
    m.step s cap = (m.visited s k queue n out).propagateAll s cap out (s.moves k) := by
  have hat : s.graph.nodeAt k.node = .ok n := by
    rw [SpecGraph.nodeAt, h.node]
  have htransfer : n.transfer st k.mode = .ok out := by
    rw [← Setup.after_of_node h.node, h.after]
  rw [step, h.next]
  dsimp only
  rw [hat]
  dsimp only
  rw [h.held]
  dsimp only
  rw [htransfer]
  dsimp only [complete]
  rw [if_neg (by simp [h.quiet])]
  rfl

/-- A step that leaves the machine running is a visit whose result is passed on. -/
theorem exists_visiting_of_step (h : m.step s cap = .running m') :
    ∃ k queue n st out, Visiting s m k queue n st out := by
  have hstep := step_ofStep s cap m
  rw [h] at hstep
  cases hstep with
  | @passes m₁ k n st out _ node held after violation queue table trace result =>
    obtain ⟨queue', hpop, -⟩ := Worklist.exists_pop? queue
    exact ⟨k, queue', n, st, out, hpop, node, held, after, violation⟩

theorem Moment.passAll (h : Moment s cap entry m k out rest)
    (hp : m.propagateAll s cap out rest = .running m') : Moment s cap entry m' k out [] := by
  induction rest generalizing m with
  | nil =>
    cases hp
    exact h
  | cons move rest ih =>
    obtain ⟨target, payload⟩ := move
    rw [propagateAll] at hp
    split at hp
    · next m₁ heq => exact ih (h.pass heq) hp
    · cases hp

/-- A step leads from a moment between two steps to another one. -/
theorem Moment.step (h : Moment s cap entry m k out []) (hstep : m.step s cap = .running m') :
    ∃ k' out', Moment s cap entry m' k' out' [] := by
  obtain ⟨k', queue, n, st, out', hvisiting⟩ := exists_visiting_of_step hstep
  rw [hvisiting.step_eq] at hstep
  exact ⟨k', out', (h.visit hvisiting).passAll hstep⟩

/-! ## Taking up a run -/

/-- Passes `out` on to `rest`, and then runs the machine for at most `fuel` steps. -/
def resume (s : Setup) (cap : Option Nat) (late : Error) (out : State)
    (rest : List (Key × Payload)) (fuel : Nat) (m : Machine) : Finished :=
  match m.propagateAll s cap out rest with
  | .running m => m.run s cap late fuel
  | .stopped m outcome => ⟨m, outcome⟩

/-- A run that ends without error passes through all moments: it is what remains to be done at any
    of them. -/
theorem Moment.resume_eq {late : Error} {fuel : Nat} {v : Verdict}
    (hok : ((Machine.start s entry).run s cap late fuel).outcome = .ok v)
    (h : Moment s cap entry m k out rest) :
    ∃ fuel', m.resume s cap late out rest fuel' =
      (Machine.start s entry).run s cap late fuel := by
  induction h with
  | start => exact ⟨fuel, rfl⟩
  | @visit m k₀ k out₀ st out queue n before visiting ih =>
    obtain ⟨fuel', hresume⟩ := ih
    rw [← hresume] at hok ⊢
    have hrun : m.resume s cap late out₀ [] fuel' = m.run s cap late fuel' := rfl
    rw [hrun] at hok ⊢
    cases fuel' with
    | zero =>
      -- no fuel would be left although there is a point to visit
      have hqueue : m.queue.isEmpty = false := by
        rw [Bool.eq_false_iff, ne_eq, Worklist.isEmpty_iff,
          Worklist.toList_of_pop?_eq_some visiting.next]
        nofun
      rw [run, hqueue] at hok
      cases hok
    | succ fuel' =>
      refine ⟨fuel', ?_⟩
      rw [run, visiting.step_eq]
      rfl
  | @pass m m' k target out payload rest before running ih =>
    obtain ⟨fuel', hresume⟩ := ih
    refine ⟨fuel', ?_⟩
    rw [← hresume, resume, resume, propagateAll, running]

/-- The end of a run from the machine `m` between two steps: nothing is left to be visited, or the
    visit of the next point shows a violation. -/
inductive Ends (s : Setup) (m : Machine) : (m' : Machine) → (v : Verdict) → Prop where
  | secure (queue : m.queue.toList = []) : Ends s m m .secure
  | violation {m' : Machine} {k : Key} {n : Node} {st out : State}
      (node : s.graph.node? k.node = some n) (held : m.table[k]? = some st)
      (after : s.after k st = .ok out) (violation : out.hasViolation = true)
      (table : m'.table = m.table)
      (trace : m'.trace = m.trace.push (Machine.visit m.trace.size n k.mode out)) :
      Ends s m m' .violation

/-- A run that ends without error ends at a moment. -/
theorem Moment.exists_ends {late : Error} {fuel : Nat} {v : Verdict}
    (h : Moment s cap entry m k out []) (hok : (m.run s cap late fuel).outcome = .ok v) :
    ∃ m' k' out', Moment s cap entry m' k' out' [] ∧
      Ends s m' (m.run s cap late fuel).machine v := by
  induction fuel generalizing m k out with
  | zero =>
    rw [run] at hok ⊢
    by_cases hempty : m.queue.isEmpty
    · rw [if_pos hempty] at hok
      cases hok
      exact ⟨m, k, out, h, .secure ((Worklist.isEmpty_iff _).1 hempty)⟩
    · rw [if_neg hempty] at hok
      cases hok
  | succ fuel ih =>
    rw [run] at hok ⊢
    split at hok
    · next m₁ hstep =>
      obtain ⟨k₁, out₁, h₁⟩ := h.step hstep
      exact ih h₁ hok
    · next m₁ outcome hstep =>
      have hof := step_ofStep s cap m
      rw [hstep] at hof
      cases hok
      cases hof with
      | done queue => exact ⟨m, k, out, h, .secure queue⟩
      | violates node held after violation table trace =>
        exact ⟨m, k, out, h, .violation node held after violation table trace⟩
      | passes node held after violation queue table trace result =>
        obtain ⟨limit, hlimit⟩ := outcome_propagateAll result
        cases hlimit

/-- What a run without error has in its trace at some moment it has there at its end. -/
theorem Moment.trace_prefix_of_ok {late : Error} {fuel : Nat} {v : Verdict}
    (hok : ((Machine.start s entry).run s cap late fuel).outcome = .ok v)
    (h : Moment s cap entry m k out rest) :
    m.trace.toList <+: ((Machine.start s entry).run s cap late fuel).machine.trace.toList := by
  obtain ⟨fuel', hresume⟩ := h.resume_eq hok
  rw [← hresume, resume]
  have htrace := trace_propagateAll s cap out m rest
  split
  · next m₁ heq =>
    rw [heq] at htrace
    rw [← show m₁.trace = m.trace from htrace]
    exact trace_prefix_run fuel' m₁
  · next m₁ outcome heq =>
    rw [heq] at htrace
    have hsame : m₁.trace = m.trace := htrace
    exact hsame ▸ List.prefix_rfl

/-! ## The order of moments -/

/-- What comes next after a moment: a visit, if all has been passed on, or else a pass. -/
inductive Next (s : Setup) (cap : Option Nat) :
    (now next : Machine × Key × State × List (Key × Payload)) → Prop where
  | visit {m : Machine} {k₀ k : Key} {out₀ st out : State} {queue : Worklist} {n : Node}
      (visiting : Visiting s m k queue n st out) :
      Next s cap (m, k₀, out₀, []) (m.visited s k queue n out, k, out, s.moves k)
  | pass {m m' : Machine} {k target : Key} {out : State} {payload : Payload}
      {rest : List (Key × Payload)}
      (running : m.propagate s cap out target payload = .running m') :
      Next s cap (m, k, out, (target, payload) :: rest) (m', k, out, rest)

theorem next_rightUnique (s : Setup) (cap : Option Nat) : Relator.RightUnique (Next s cap) := by
  intro now next next' h h'
  cases h with
  | visit visiting =>
    cases h' with
    | visit visiting' =>
      cases visiting.next.symm.trans visiting'.next
      cases visiting.node.symm.trans visiting'.node
      cases visiting.held.symm.trans visiting'.held
      cases visiting.after.symm.trans visiting'.after
      rfl
  | pass running =>
    cases h' with
    | pass running' =>
      cases running.symm.trans running'
      rfl

theorem Moment.reaches (h : Moment s cap entry m k out rest) :
    Relation.ReflTransGen (Next s cap) (Machine.start s entry, entry, s.initial, [])
      (m, k, out, rest) := by
  induction h with
  | start => exact .refl
  | visit _ visiting ih => exact ih.tail (.visit visiting)
  | pass _ running ih => exact ih.tail (.pass running)

/-- Of two moments one comes after the other. -/
theorem Moment.total {k' : Key} {out' : State} {rest' : List (Key × Payload)}
    (h : Moment s cap entry m k out rest) (h' : Moment s cap entry m' k' out' rest') :
    Relation.ReflTransGen (Next s cap) (m, k, out, rest) (m', k', out', rest') ∨
      Relation.ReflTransGen (Next s cap) (m', k', out', rest') (m, k, out, rest) :=
  h.reaches.total_of_right_unique (next_rightUnique s cap) h'.reaches

/-! ## What holds at every moment -/

/-- What is being passed on is the result of a visit. -/
structure Carried (s : Setup) (entry k : Key) (out : State) (rest : List (Key × Payload)) :
    Prop where
  result : rest ≠ [] → ∃ st, s.Stores entry k st ∧ s.after k st = .ok out
  quiet : rest ≠ [] → out.hasViolation = false
  moves : ∀ move ∈ rest, move ∈ s.moves k

theorem Moment.accounted (h : Moment s cap entry m k out rest) :
    Accounted s entry m ∧ Carried s entry k out rest := by
  induction h with
  | start => exact ⟨accounted_start s entry, nofun, nofun, nofun⟩
  | visit before visiting ih =>
    obtain ⟨haccounted, -⟩ := ih
    have hstored := haccounted.stored _ _ visiting.held
    exact ⟨haccounted.push visiting.node visiting.held visiting.after table_visited trace_visited,
      fun _ => ⟨_, hstored, visiting.after⟩, fun _ => visiting.quiet, fun _ h => h⟩
  | @pass m m' k target out payload rest before running ih =>
    obtain ⟨haccounted, hresult, hquiet, hmoves⟩ := ih
    obtain ⟨st, hst, hafter⟩ := hresult nofun
    have hpass := propagate_ofPass s cap out m target payload
    rw [running] at hpass
    refine ⟨haccounted.pass hst hafter (hquiet nofun) (hmoves _ List.mem_cons_self) hpass,
      fun _ => ⟨st, hst, hafter⟩, fun _ => hquiet nofun, fun move hmove => ?_⟩
    exact hmoves move (List.mem_cons_of_mem _ hmove)

end Machine

end Mispredict
