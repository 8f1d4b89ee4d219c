/-
  Two analyses in step.

  Some points of one analysis stand for some points of another one. If what follows such a
  point among its kind is the same on both sides, in the same order, and no point of another
  kind leads to them (`Twins`), then the two machines hold the same states for these points
  and queue them in the same order, all the time (`Matches`). Either machine may visit points
  of other kinds in between (`Agrees`). So a point that comes up for a visit in the one
  analysis comes up in the same state in the other one, if that has a long enough course
  (`Twins.comesUp`).
-/
import Mathlib.Logic.Relation
import Mispredict.Proofs.CommittedRun

namespace Mispredict

namespace Machine

variable {s t : Setup} {cap : Option Nat} {entry : Key} {m m₁ m' m₁' : Machine} {k target : Key}
  {st out : State} {payload : Payload} {moves moves' : List (Key × Payload)}

/-! ## The course of a run -/

/-- A run of the machine `m` comes to the machine `m'`. -/
def Becomes (s : Setup) (cap : Option Nat) : (m m' : Machine) → Prop :=
  Relation.ReflTransGen fun m m' => m.step s cap = .running m'

/-- In the course of a run the point `k` is next to be visited, in the state `st`. -/
def ComesUp (s : Setup) (cap : Option Nat) (m : Machine) (k : Key) (st : State) : Prop :=
  ∃ m' rest, Becomes s cap m m' ∧ m'.queue.toList = k :: rest ∧ m'.table[k]? = some st

/-- A run that ends without error: nothing is left to be visited, the next visit shows a violation,
    or the run goes on. -/
theorem run_ok_cases {late : Error} {fuel : Nat} {v : Verdict}
    (h : (m.run s cap late fuel).outcome = .ok v) :
    (m.queue.toList = [] ∧ v = .secure) ∨
      (∃ k rest st out, m.queue.toList = k :: rest ∧ m.table[k]? = some st ∧
        s.after k st = .ok out ∧ out.hasViolation = true ∧ v = .violation) ∨
      ∃ m₁ fuel₁, fuel = fuel₁ + 1 ∧ m.step s cap = .running m₁ ∧
        (m₁.run s cap late fuel₁).outcome = .ok v := by
  cases fuel with
  | zero =>
    rw [run] at h
    by_cases hempty : m.queue.isEmpty
    · rw [if_pos hempty] at h
      cases h
      exact .inl ⟨(Worklist.isEmpty_iff _).1 hempty, rfl⟩
    · rw [if_neg hempty] at h
      cases h
  | succ fuel =>
    rw [run] at h
    split at h
    · next m₁ hstep => exact .inr (.inr ⟨m₁, fuel, rfl, hstep, h⟩)
    · next m₁ outcome hstep =>
      have hof := step_ofStep s cap m
      rw [hstep] at hof
      cases h
      cases hof with
      | done queue => exact .inl ⟨queue, rfl⟩
      | violates node held after violation table trace queue =>
        exact .inr (.inl ⟨_, _, _, _, queue, held, after, violation, rfl⟩)
      | passes node held after violation queue table trace result =>
        obtain ⟨limit, hlimit⟩ := outcome_propagateAll result
        cases hlimit

/-- A run that ends secure goes on as long as there is a point to visit. -/
theorem exists_step_of_secure {late : Error} {fuel : Nat} {rest : List Key}
    (h : (m.run s cap late fuel).outcome = .ok .secure) (hnext : m.queue.toList = k :: rest) :
    ∃ m₁ fuel₁, fuel = fuel₁ + 1 ∧ m.step s cap = .running m₁ ∧
      (m₁.run s cap late fuel₁).outcome = .ok .secure := by
  rcases run_ok_cases h with ⟨hempty, -⟩ | ⟨-, -, -, -, -, -, -, -, hv⟩ | hstep
  · cases hempty.symm.trans hnext
  · cases hv
  · exact hstep

theorem Becomes.moment (h : Becomes s cap m m')
    (hm : ∃ k out, Moment s cap entry m k out []) : ∃ k out, Moment s cap entry m' k out [] := by
  induction h with
  | refl => exact hm
  | tail _ hstep ih =>
    obtain ⟨k, out, hm⟩ := ih
    exact hm.step hstep

theorem Becomes.exists_run {late : Error} {fuel : Nat} {v : Verdict} (h : Becomes s cap m m')
    (hok : (m.run s cap late fuel).outcome = .ok v) :
    ∃ fuel', (m'.run s cap late fuel').outcome = .ok v := by
  induction h with
  | refl => exact ⟨fuel, hok⟩
  | @tail m₁ m₂ _ hstep ih =>
    obtain ⟨fuel₁, hok₁⟩ := ih
    rcases run_ok_cases hok₁ with ⟨hempty, -⟩ | ⟨k, rest, st, out, hnext, hheld, hafter, hv, -⟩ |
      ⟨m₃, fuel₃, -, hstep₃, hok₃⟩
    · obtain ⟨k, queue, n, st, out, hvisit⟩ := exists_visiting_of_step hstep
      cases hempty.symm.trans (Worklist.toList_of_pop?_eq_some hvisit.next)
    · obtain ⟨k', queue, n, st', out', hvisit⟩ := exists_visiting_of_step hstep
      obtain ⟨rfl, -⟩ :=
        List.cons.inj ((Worklist.toList_of_pop?_eq_some hvisit.next).symm.trans hnext)
      cases hheld.symm.trans hvisit.held
      cases hafter.symm.trans hvisit.after
      cases hv.symm.trans hvisit.quiet
    · cases hstep.symm.trans hstep₃
      exact ⟨fuel₃, hok₃⟩

theorem ComesUp.stores {k₀ : Key} {out₀ : State} (h : ComesUp s cap m k st)
    (hm : Moment s cap entry m k₀ out₀ []) : s.Stores entry k st := by
  obtain ⟨m', rest, hbecomes, -, hheld⟩ := h
  obtain ⟨k', out', hm'⟩ := hbecomes.moment ⟨_, _, hm⟩
  exact hm'.accounted.1.stored k st hheld

/-- In a run that ends secure no visit shows a violation. -/
theorem ComesUp.quiet {late : Error} {fuel : Nat} (h : ComesUp s cap m k st)
    (hsecure : (m.run s cap late fuel).outcome = .ok .secure) :
    ∃ out, s.after k st = .ok out ∧ out.hasViolation = false := by
  obtain ⟨m', rest, hbecomes, hnext, hheld⟩ := h
  obtain ⟨fuel', hsecure'⟩ := hbecomes.exists_run hsecure
  obtain ⟨m₁, -, -, hstep, -⟩ := exists_step_of_secure hsecure' hnext
  obtain ⟨k', queue, n, st', out, hvisit⟩ := exists_visiting_of_step hstep
  obtain ⟨rfl, -⟩ :=
    List.cons.inj ((Worklist.toList_of_pop?_eq_some hvisit.next).symm.trans hnext)
  cases hheld.symm.trans hvisit.held
  exact ⟨out, hvisit.after, hvisit.quiet⟩

/-- A violation is found where some point comes up for a visit. -/
theorem exists_comesUp_of_violation {late : Error} {fuel : Nat}
    (h : (m.run s cap late fuel).outcome = .ok .violation) :
    ∃ k st out, ComesUp s cap m k st ∧ s.after k st = .ok out ∧ out.hasViolation = true := by
  induction fuel generalizing m with
  | zero =>
    rcases run_ok_cases h with ⟨-, hv⟩ | ⟨k, rest, st, out, hnext, hheld, hafter, hv, -⟩ |
      ⟨m₁, fuel₁, hfuel, -⟩
    · cases hv
    · exact ⟨k, st, out, ⟨m, rest, .refl, hnext, hheld⟩, hafter, hv⟩
    · cases hfuel
  | succ fuel ih =>
    rcases run_ok_cases h with ⟨-, hv⟩ | ⟨k, rest, st, out, hnext, hheld, hafter, hv, -⟩ |
      ⟨m₁, fuel₁, hfuel, hstep, hv₁⟩
    · cases hv
    · exact ⟨k, st, out, ⟨m, rest, .refl, hnext, hheld⟩, hafter, hv⟩
    · cases hfuel
      obtain ⟨k, st, out, ⟨m', rest, hbecomes, hnext, hheld⟩, hafter, hv⟩ := ih hv₁
      exact ⟨k, st, out, ⟨m', rest, .head hstep hbecomes, hnext, hheld⟩, hafter, hv⟩

/-! ## Points of other kinds -/

/-- The two machines hold the same states for the points in `P`, and queue the same ones of them, in
    the same order. -/
structure Agrees (P : Key → Bool) (m m₁ : Machine) : Prop where
  table : ∀ k, P k = true → m₁.table[k]? = m.table[k]?
  queue : m₁.queue.toList.filter P = m.queue.toList.filter P

variable {P Q : Key → Bool}

theorem Agrees.trans (h : Agrees P m m₁) (h' : Agrees P m₁ m') : Agrees P m m' :=
  ⟨fun k hk => (h'.table k hk).trans (h.table k hk), h'.queue.trans h.queue⟩

/-- Passing on to a point outside of `P` is nothing to the points in `P`. -/
theorem agrees_of_propagate (htarget : P target = false)
    (h : m.propagate s cap out target payload = .running m₁) : Agrees P m m₁ := by
  rcases (propagate_eq_running_iff rfl).1 h with ⟨-, rfl⟩ | ⟨-, -, rfl⟩
  · exact ⟨fun _ _ => rfl, rfl⟩
  · refine ⟨fun k hk => ?_, ?_⟩
    · have hne : k ≠ target := by
        rintro rfl
        rw [hk] at htarget
        cases htarget
      rw [table_enqueue, update, getElem?_insert_table, if_neg hne]
    · rw [toList_enqueue, apply_ite (List.filter P), filter_extend, htarget]
      simp [update]

theorem agrees_of_propagateAll
    (hmoves : ∀ target payload, (target, payload) ∈ moves → P target = false)
    (h : m.propagateAll s cap out moves = .running m₁) : Agrees P m m₁ := by
  induction moves generalizing m with
  | nil =>
    cases h
    exact ⟨fun _ _ => rfl, rfl⟩
  | cons move moves ih =>
    obtain ⟨target, payload⟩ := move
    rw [propagateAll] at h
    split at h
    · next m₂ heq =>
      exact (agrees_of_propagate (hmoves _ _ List.mem_cons_self) heq).trans
        (ih (fun target payload hmove => hmoves _ _ (List.mem_cons_of_mem _ hmove)) h)
    · cases h

/-- A visit of a point outside of `P`, from where no move leads into `P`. -/
theorem agrees_of_step {rest : List Key} (hnext : m.queue.toList = k :: rest)
    (hk : P k = false)
    (hmoves : ∀ target payload, (target, payload) ∈ s.moves k → P target = false)
    (h : m.step s cap = .running m₁) : Agrees P m m₁ := by
  obtain ⟨k', queue, n, st, out, hv⟩ := exists_visiting_of_step h
  have hqueue := Worklist.toList_of_pop?_eq_some hv.next
  obtain ⟨rfl, rfl⟩ := List.cons.inj (hqueue.symm.trans hnext)
  rw [hv.step_eq] at h
  have hvisited : Agrees P m (m.visited s k' queue n out) := by
    refine ⟨fun q _ => by rw [table_visited], ?_⟩
    rw [queue_visited, hqueue, List.filter_cons_of_neg (by simp [hk])]
  exact hvisited.trans (agrees_of_propagateAll hmoves h)

theorem propagateAll_append {late : List (Key × Payload)}
    (h : m.propagateAll s cap out (late ++ moves) = .running m₁) :
    ∃ m₂, m.propagateAll s cap out late = .running m₂ ∧
      m₂.propagateAll s cap out moves = .running m₁ := by
  induction late generalizing m with
  | nil => exact ⟨m, rfl, h⟩
  | cons move late ih =>
    obtain ⟨target, payload⟩ := move
    rw [List.cons_append, propagateAll] at h
    rw [propagateAll]
    split at h
    · exact ih h
    · cases h

end Machine

open Machine

/-- The points in `P` of the analysis `s` stand for points in `Q` of the analysis `t`: their moves
    among their kind are the same, and no other point that is reached leads to them. -/
structure Setup.Twins (s t : Setup) (entry : Key) (P Q : Key → Bool) (f : Key → Key) : Prop where
  initial : t.initial = s.initial
  order : t.options.traceMode = s.options.traceMode
  starts : P entry = true
  maps : ∀ k, P k = true → Q (f k) = true
  inj : ∀ k k', P k = true → P k' = true → f k = f k' → k = k'
  moves : ∀ k, P k = true → (t.moves (f k)).filter (fun move => Q move.1) =
    ((s.moves k).filter (fun move => P move.1)).map (Prod.map f id)
  /-- A visit has the same result, unless that is of no use to points of this kind. -/
  after : ∀ k, P k = true → (s.moves k).filter (fun move => P move.1) ≠ [] →
    ∀ st, t.after (f k) st = s.after k st
  closed : ∀ k st target payload, s.Stores entry k st → P k = false →
    (target, payload) ∈ s.moves k → P target = false
  closed' : ∀ k st target payload, t.Stores (f entry) k st → Q k = false →
    (target, payload) ∈ t.moves k → Q target = false

namespace Machine

variable {s t : Setup} {cap cap' : Option Nat} {entry : Key} {m m₁ m' m₁' : Machine}
  {k target : Key} {st out : State} {payload : Payload} {moves moves' : List (Key × Payload)}
  {P Q : Key → Bool} {f : Key → Key}

/-- The machine `m'` holds the states that `m` holds, and queues the points that `m` queues, as far
    as points in `P` stand for points in `Q`. -/
structure Matches (P Q : Key → Bool) (f : Key → Key) (m m' : Machine) : Prop where
  table : ∀ k, P k = true → m'.table[f k]? = m.table[k]?
  queue : m'.queue.toList.filter Q = (m.queue.toList.filter P).map f

theorem Matches.left (h : Matches P Q f m m') (hm : Agrees P m m₁) : Matches P Q f m₁ m' :=
  ⟨fun k hk => (h.table k hk).trans (hm.table k hk).symm, by rw [hm.queue, h.queue]⟩

theorem Matches.right (h : Matches P Q f m m') (hs : s.Twins t entry P Q f)
    (hm : Agrees Q m' m₁') : Matches P Q f m m₁' := by
  refine ⟨fun k hk => ?_, by rw [hm.queue, h.queue]⟩
  rw [hm.table _ (hs.maps k hk), h.table k hk]

theorem matches_start (hs : s.Twins t entry P Q f) :
    Matches P Q f (start s entry) (start t (f entry)) := by
  have hqueue : ∀ (s : Setup) (k : Key), (start s k).queue.toList = [k] := fun _ _ => rfl
  refine ⟨fun k hk => ?_, ?_⟩
  · rw [getElem?_table_start, getElem?_table_start, hs.initial]
    refine ite_congr (propext ⟨hs.inj k entry hk hs.starts, congrArg f⟩) (fun _ => rfl) fun _ => rfl
  · rw [hqueue, hqueue, List.filter_cons_of_pos hs.starts,
      List.filter_cons_of_pos (hs.maps entry hs.starts)]
    rfl

theorem Matches.mem_queue_iff (h : Matches P Q f m m') (hs : s.Twins t entry P Q f)
    (hk : P k = true) : f k ∈ m'.queue.toList ↔ k ∈ m.queue.toList := by
  have hfilter : f k ∈ m'.queue.toList.filter Q ↔ k ∈ m.queue.toList.filter P := by
    rw [h.queue, List.mem_map]
    constructor
    · rintro ⟨k', hk', heq⟩
      rwa [← hs.inj k' k (List.mem_filter.1 hk').2 hk heq]
    · intro hmem
      exact ⟨k, hmem, rfl⟩
  simpa [List.mem_filter, hk, hs.maps k hk] using hfilter

theorem Matches.pass (h : Matches P Q f m m') (hs : s.Twins t entry P Q f)
    (htarget : P target = true) (hp : m.propagate s cap out target payload = .running m₁)
    (hp' : m'.propagate t cap' out (f target) payload = .running m₁') :
    Matches P Q f m₁ m₁' := by
  have hheld := h.table target htarget
  have hnew : received t.initial m'.table[f target]? out payload =
      received s.initial m.table[target]? out payload := by
    rw [hheld, hs.initial]
  rcases (propagate_eq_running_iff rfl).1 hp with ⟨hsettled, rfl⟩ | ⟨hfresh, -, rfl⟩
  · rcases (propagate_eq_running_iff hnew).1 hp' with ⟨-, rfl⟩ | ⟨hfresh, -⟩
    · exact h
    · exact absurd (hheld.trans hsettled) hfresh
  · rcases (propagate_eq_running_iff hnew).1 hp' with ⟨hsettled, -⟩ | ⟨-, -, rfl⟩
    · exact absurd (hheld.symm.trans hsettled) hfresh
    · refine ⟨fun k hk => ?_, ?_⟩
      · rw [table_enqueue, table_enqueue, update, update, getElem?_insert_table,
          getElem?_insert_table, h.table k hk]
        exact ite_congr (propext ⟨hs.inj k target hk htarget, congrArg f⟩) (fun _ => rfl)
          fun _ => rfl
      · rw [toList_enqueue, toList_enqueue, apply_ite (List.filter _), apply_ite (List.filter _),
          filter_extend, filter_extend, htarget, hs.maps target htarget, hs.order]
        simp only [update, h.mem_queue_iff hs htarget, h.queue, if_true, apply_ite (List.map f)]
        refine ite_congr rfl (fun _ => rfl) fun _ => ?_
        cases s.options.traceMode <;> simp [extend]

theorem Matches.passAll (h : Matches P Q f m m') (hs : s.Twins t entry P Q f)
    (hmoves : moves'.filter (fun move => Q move.1) =
      (moves.filter (fun move => P move.1)).map (Prod.map f id))
    (hp : m.propagateAll s cap out moves = .running m₁)
    (hp' : m'.propagateAll t cap' out moves' = .running m₁') : Matches P Q f m₁ m₁' := by
  induction moves generalizing m m' moves' with
  | nil =>
    cases hp
    refine h.right hs (agrees_of_propagateAll (fun target payload hmove => ?_) hp')
    simpa using List.filter_eq_nil_iff.1 hmoves _ hmove
  | cons move moves ih =>
    obtain ⟨target, payload⟩ := move
    rw [propagateAll] at hp
    split at hp
    · next m₂ heq =>
      cases htarget : P target with
      | false =>
        rw [List.filter_cons_of_neg (by simp [htarget])] at hmoves
        exact ih (h.left (agrees_of_propagate htarget heq)) hmoves hp hp'
      | true =>
        rw [List.filter_cons_of_pos (by simp [htarget]), List.map_cons,
          List.filter_eq_cons_iff] at hmoves
        obtain ⟨late, rest, rfl, hlate, -, hrest⟩ := hmoves
        obtain ⟨m₂', hp₂, hp'⟩ := propagateAll_append hp'
        have h₂ : Matches P Q f m m₂' := h.right hs (agrees_of_propagateAll
          (fun target payload hmove => by simpa using hlate _ hmove) hp₂)
        dsimp only [Prod.map] at hp'
        rw [propagateAll] at hp'
        split at hp'
        · next m₃' heq' => exact ih (h₂.pass hs htarget heq heq') hrest hp hp'
        · cases hp'
    · cases hp

theorem Matches.step (h : Matches P Q f m m') (hs : s.Twins t entry P Q f) {rest rest' : List Key}
    (hnext : m.queue.toList = k :: rest) (hnext' : m'.queue.toList = f k :: rest')
    (hk : P k = true) (hstep : m.step s cap = .running m₁)
    (hstep' : m'.step t cap' = .running m₁') : Matches P Q f m₁ m₁' := by
  have hqueue := h.queue
  rw [hnext, hnext', List.filter_cons_of_pos hk, List.filter_cons_of_pos (hs.maps k hk)] at hqueue
  have hrest := (List.cons.inj hqueue).2
  obtain ⟨q, queue, n, st, out, hv⟩ := exists_visiting_of_step hstep
  obtain ⟨q', queue', n', st', out', hv'⟩ := exists_visiting_of_step hstep'
  obtain ⟨rfl, rfl⟩ :=
    List.cons.inj ((Worklist.toList_of_pop?_eq_some hv.next).symm.trans hnext)
  obtain ⟨rfl, rfl⟩ :=
    List.cons.inj ((Worklist.toList_of_pop?_eq_some hv'.next).symm.trans hnext')
  have hheld := h.table q hk
  cases hv.held.symm.trans (hheld.symm.trans hv'.held)
  rw [hv.step_eq] at hstep
  rw [hv'.step_eq] at hstep'
  have hmoves := hs.moves q hk
  by_cases hnone : (s.moves q).filter (fun move => P move.1) = []
  · -- nothing of this kind follows, so that the two results are of no account
    rw [hnone, List.map_nil] at hmoves
    have hvisited : Matches P Q f (m.visited s q queue n out)
        (m'.visited t (f q) queue' n' out') := by
      refine ⟨fun q' hq' => ?_, ?_⟩
      · rw [table_visited, table_visited, h.table q' hq']
      · rw [queue_visited, queue_visited, hrest]
    refine (hvisited.left (agrees_of_propagateAll (fun target payload hmove => ?_) hstep)).right hs
      (agrees_of_propagateAll (fun target payload hmove => ?_) hstep')
    · simpa using List.filter_eq_nil_iff.1 hnone _ hmove
    · simpa using List.filter_eq_nil_iff.1 hmoves _ hmove
  · have hsame := hs.after q hk hnone st
    rw [hv.after, hv'.after] at hsame
    cases hsame
    have hvisited : Matches P Q f (m.visited s q queue n out)
        (m'.visited t (f q) queue' n' out) := by
      refine ⟨fun q' hq' => ?_, ?_⟩
      · rw [table_visited, table_visited, h.table q' hq']
      · rw [queue_visited, queue_visited, hrest]
    exact hvisited.passAll hs hmoves hstep hstep'

/-- If the next point of the one analysis is in `P`, then a secure run of the other one comes to the
    point that it stands for. -/
theorem Matches.exists_next (h : Matches P Q f m m') (hs : s.Twins t entry P Q f)
    {late : Error} {fuel : Nat} {rest : List Key} (hnext : m.queue.toList = k :: rest)
    (hk : P k = true) (hm' : ∃ k out, Moment t cap' (f entry) m' k out [])
    (hsecure : (m'.run t cap' late fuel).outcome = .ok .secure) :
    ∃ m₁' rest', Becomes t cap' m' m₁' ∧ Matches P Q f m m₁' ∧
      m₁'.queue.toList = f k :: rest' := by
  have hqueue := h.queue
  rw [hnext, List.filter_cons_of_pos hk, List.map_cons] at hqueue
  induction fuel generalizing m' with
  | zero =>
    rcases run_ok_cases hsecure with ⟨hempty, -⟩ | ⟨-, -, -, -, -, -, -, -, hv⟩ |
      ⟨m₁', fuel₁, hfuel, -⟩
    · rw [hempty] at hqueue
      cases hqueue
    · cases hv
    · cases hfuel
  | succ fuel ih =>
    cases hnext' : m'.queue.toList with
    | nil =>
      rw [hnext'] at hqueue
      cases hqueue
    | cons k' rest' =>
      cases hk' : Q k' with
      | true =>
        rw [hnext', List.filter_cons_of_pos hk'] at hqueue
        exact ⟨m', rest', .refl, h, by rw [hnext', (List.cons.inj hqueue).1]⟩
      | false =>
        obtain ⟨m₁', fuel₁, hfuel, hstep, hsecure₁⟩ := exists_step_of_secure hsecure hnext'
        cases hfuel
        obtain ⟨k₀, out₀, hmoment⟩ := hm'
        obtain ⟨q, queue, n, st, out, hv⟩ := exists_visiting_of_step hstep
        obtain ⟨rfl, -⟩ :=
          List.cons.inj ((Worklist.toList_of_pop?_eq_some hv.next).symm.trans hnext')
        have hstored := hmoment.accounted.1.stored _ _ hv.held
        have hagrees : Agrees Q m' m₁' := agrees_of_step hnext' hk'
          (fun target payload => hs.closed' _ _ target payload hstored hk') hstep
        obtain ⟨m₂', rest₂, hbecomes, hmatches, hnext₂⟩ :=
          ih (h.right hs hagrees) (hmoment.step hstep) hsecure₁ (hagrees.queue.trans hqueue)
        exact ⟨m₂', rest₂, .head hstep hbecomes, hmatches, hnext₂⟩

theorem Matches.comesUp (h : Matches P Q f m m') (hs : s.Twins t entry P Q f)
    {late : Error} {fuel : Nat} (hm : ∃ k out, Moment s cap entry m k out [])
    (hm' : ∃ k out, Moment t cap' (f entry) m' k out [])
    (hsecure : (m'.run t cap' late fuel).outcome = .ok .secure) (hk : P k = true)
    (hcomes : ComesUp s cap m k st) : ComesUp t cap' m' (f k) st := by
  obtain ⟨m₂, rest, hbecomes, hnext, hheld⟩ := hcomes
  induction hbecomes using Relation.ReflTransGen.head_induction_on generalizing m' fuel with
  | refl =>
    obtain ⟨m₁', rest', hbecomes', hmatches, hnext'⟩ := h.exists_next hs hnext hk hm' hsecure
    exact ⟨m₁', rest', hbecomes', hnext', (hmatches.table k hk).trans hheld⟩
  | @head m m₁ hstep _ ih =>
    obtain ⟨k₀, out₀, hmoment⟩ := hm
    obtain ⟨q, queue, n, st', out, hv⟩ := exists_visiting_of_step hstep
    have hnext₁ := Worklist.toList_of_pop?_eq_some hv.next
    cases hq : P q with
    | false =>
      have hstored := hmoment.accounted.1.stored _ _ hv.held
      have hagrees : Agrees P m m₁ := agrees_of_step hnext₁ hq
        (fun target payload => hs.closed _ _ target payload hstored hq) hstep
      exact ih (h.left hagrees) (hmoment.step hstep) hm' hsecure
    | true =>
      obtain ⟨m₁', rest', hbecomes', hmatches, hnext'⟩ := h.exists_next hs hnext₁ hq hm' hsecure
      obtain ⟨fuel₁, hsecure₁⟩ := hbecomes'.exists_run hsecure
      obtain ⟨m₂', fuel₂, -, hstep', hsecure₂⟩ := exists_step_of_secure hsecure₁ hnext'
      obtain ⟨k₁, out₁, hmoment₁⟩ := hbecomes'.moment hm'
      obtain ⟨m₃', rest₃, hbecomes₃, hnext₃, hheld₃⟩ :=
        ih (hmatches.step hs hnext₁ hnext' hq hstep hstep') (hmoment.step hstep)
          (hmoment₁.step hstep') hsecure₂
      exact ⟨m₃', rest₃, (hbecomes'.tail hstep').trans hbecomes₃, hnext₃, hheld₃⟩

end Machine

/-- A point that comes up in one of two analyses that are in step comes up in the other one, if that
    ends secure. -/
theorem Setup.Twins.comesUp {s t : Setup} {cap cap' : Option Nat} {entry k : Key} {st : State}
    {P Q : Key → Bool} {f : Key → Key} (hs : s.Twins t entry P Q f) {late : Error} {fuel : Nat}
    (hsecure : ((start t (f entry)).run t cap' late fuel).outcome = .ok .secure) (hk : P k = true)
    (hcomes : ComesUp s cap (start s entry) k st) :
    ComesUp t cap' (start t (f entry)) (f k) st :=
  (matches_start hs).comesUp hs ⟨_, _, .start⟩ ⟨_, _, .start⟩ hsecure hk hcomes

end Mispredict
