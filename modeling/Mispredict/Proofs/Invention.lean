/-
  States that rollbacks invent.

  A rollback passes on observations only, so the registers and the memory of a committed
  point come from committed points, with one exception. If a rollback is the first to reach a
  point, there is no state yet that could take the observations; the point gets the state at
  the start, which is invented there (`Machine.Invents`). Committed execution alone may not
  arrive at the point with such values.

  Apart from this, the committed points of an analysis stay within any table that is closed
  under committed moves (`Moment.within`), such as that of an analysis of the committed part
  (`IsCore.covers`). So the committed steps of an analysis hold no more than committed
  execution alone exactly if the states that are invented add nothing
  (`IsCore.holdsNoMore_iff`).
-/
import Mispredict.Proofs.LastVisit
import Mispredict.Proofs.PathJoin
import Mispredict.Proofs.Reached
import Mispredict.Proofs.Restriction

namespace Mispredict

/-- Every committed step of a trace has registers and memory below those of the last step at its
    node in the other trace. -/
def HoldsNoMore (trace last : List Step) : Prop :=
  ∀ step ∈ trace, step.mode = .committed →
    ∃ step', lastAt? last step.nodeId = some step' ∧ step.state.StoreLe step'.state

theorem State.joinObservations_sameStore (s t : State) : (s.joinObservations t).SameStore s :=
  ⟨rfl, rfl⟩

theorem State.SameStore.symm {s t : State} (h : s.SameStore t) : t.SameStore s :=
  ⟨h.1.symm, h.2.symm⟩

theorem State.SameStore.storeLe {s t : State} (h : s.SameStore t) : s.StoreLe t :=
  (StoreLe.refl t).congr h.symm ⟨rfl, rfl⟩

/-- A visit in the join of two states gives no more than the two visits do. -/
theorem State.StoreLe.advance_join {s t u : State} {setup : Setup} {k : Key}
    (hs : (setup.advance k s).StoreLe u) (ht : (setup.advance k t).StoreLe u) :
    (setup.advance k (s.join t)).StoreLe u := by
  unfold Setup.advance at hs ht ⊢
  split at hs
  · next pc i he =>
    rw [he] at ht
    exact (hs.join ht).congr (State.apply_join ..).symm ⟨rfl, rfl⟩
  · next he =>
    rw [he] at ht
    exact hs.join ht

namespace Machine

open Setup

variable {s : Setup} {cap : Option Nat} {entry k : Key} {m : Machine} {out : State}
  {rest : List (Key × Payload)} {t : Table} {q : Key} {st : State}

/-- In a run from `entry` a rollback reaches the point before anything else does. -/
def Invents (s : Setup) (cap : Option Nat) (entry k : Key) : Prop :=
  ∃ m k' out rest, Moment s cap entry m k' out ((k, .observations) :: rest) ∧ ¬ m.Reached k

theorem Invents.eq (h : Invents s cap entry k) : k = ⟨k.node, .committed, []⟩ := by
  obtain ⟨m, k', out, rest, hmoment, -⟩ := h
  have hmove := hmoment.accounted.2.moves _ List.mem_cons_self
  obtain ⟨n, i, -, -, ⟨-, hfull, -⟩ | ⟨l, -, hlink, -⟩⟩ := moves_cases hmove
  · cases hfull
  · cases hlink
    rfl

/-! ## Below a table -/

/-- The table has a state for every point that committed execution reaches, and it is closed under
    committed moves. -/
structure Covers (s : Setup) (entry : Key) (t : Table) : Prop where
  entry : ∃ st, t[entry]? = some st ∧ s.initial.StoreLe st
  move : ∀ {k target st}, k.mode = .committed → t[k]? = some st → (target, .full) ∈ s.moves k →
    target.mode = .committed → ∃ st', t[target]? = some st' ∧ (s.advance k st).StoreLe st'

/-- Points that were invented and are visited lead to no more from the state at the start than from
    their states in the table. -/
def Tolerates (s : Setup) (cap : Option Nat) (entry : Key) (t : Table) : Prop :=
  ∀ ⦃m k₀ out₀ k queue n st out⦄, Moment s cap entry m k₀ out₀ [] →
    Visiting s m k queue n st out → k.mode = .committed → Invents s cap entry k →
    ∃ st', t[k]? = some st' ∧ (s.advance k s.initial).StoreLe (s.advance k st')

/-- The state of a point is below that in the table, except for what was invented. -/
def Near (s : Setup) (cap : Option Nat) (entry : Key) (t : Table) (q : Key) (st : State) : Prop :=
  (∃ st', t[q]? = some st' ∧ st.StoreLe st') ∨
    Invents s cap entry q ∧
      (st.StoreLe s.initial ∨ ∃ st', t[q]? = some st' ∧ st.StoreLe (st'.join s.initial))

theorem Near.congr {st' : State} (h : Near s cap entry t q st) (hst : st'.SameStore st) :
    Near s cap entry t q st' := by
  rcases h with ⟨u, hu, hle⟩ | ⟨hinvents, hle | ⟨u, hu, hle⟩⟩
  · exact .inl ⟨u, hu, hst.storeLe.trans hle⟩
  · exact .inr ⟨hinvents, .inl (hst.storeLe.trans hle)⟩
  · exact .inr ⟨hinvents, .inr ⟨u, hu, hst.storeLe.trans hle⟩⟩

/-- A point may receive what is below the table. -/
theorem Near.join {u : State} (h : Near s cap entry t q st) (hq : t[q]? = some u)
    (hout : out.StoreLe u) : Near s cap entry t q (st.join out) := by
  rcases h with ⟨u', hu', hle⟩ | ⟨hinvents, hle | ⟨u', hu', hle⟩⟩
  · cases hq.symm.trans hu'
    exact .inl ⟨u, hq, hle.join hout⟩
  · refine .inr ⟨hinvents, .inr ⟨u, hq, ?_⟩⟩
    exact (hle.trans (.join_right ..)).join (hout.trans (.join_left ..))
  · cases hq.symm.trans hu'
    exact .inr ⟨hinvents, .inr ⟨u, hq, hle.join (hout.trans (.join_left ..))⟩⟩

/-- What a visit makes of a state that is near is below what it makes of that in the table, if what
    was invented is tolerated. -/
theorem Near.advance (h : Near s cap entry t q st)
    (hinvented : Invents s cap entry q →
      ∃ st', t[q]? = some st' ∧ (s.advance q s.initial).StoreLe (s.advance q st')) :
    ∃ st', t[q]? = some st' ∧ (s.advance q st).StoreLe (s.advance q st') := by
  rcases h with ⟨u, hu, hle⟩ | ⟨hinvents, hle | ⟨u, hu, hle⟩⟩
  · exact ⟨u, hu, hle.advance s q⟩
  · obtain ⟨u, hu, hinitial⟩ := hinvented hinvents
    exact ⟨u, hu, (hle.advance s q).trans hinitial⟩
  · obtain ⟨u', hu', hinitial⟩ := hinvented hinvents
    cases hu.symm.trans hu'
    exact ⟨u, hu, (hle.advance s q).trans (.advance_join (.refl _) hinitial)⟩

/-- The committed points of the machine are near the table, and what a committed point passes on is
    below it. -/
structure Within (s : Setup) (cap : Option Nat) (entry : Key) (t : Table) (m : Machine) (k : Key)
    (out : State) (rest : List (Key × Payload)) : Prop where
  held : ∀ q st, q.mode = .committed → m.table[q]? = some st → Near s cap entry t q st
  carried : rest ≠ [] → k.mode = .committed →
    ∃ st, t[k]? = some st ∧ out.StoreLe (s.advance k st)

/-- What a committed point receives is near the table. -/
theorem Within.received (h : Within s cap entry t m k out ((q, payload) :: rest))
    (hc : Covers s entry t) (hmoment : Moment s cap entry m k out ((q, payload) :: rest))
    (hq : q.mode = .committed) :
    Near s cap entry t q (received s.initial m.table[q]? out payload) := by
  have hmove : (q, payload) ∈ s.moves k := hmoment.accounted.2.moves _ List.mem_cons_self
  cases payload with
  | full =>
    have hk := mode_of_full_move hmove hq
    obtain ⟨st', hst', hout⟩ := h.carried nofun hk
    obtain ⟨u, hu, hle⟩ := hc.move hk hst' hmove hq
    cases hold : m.table[q]? with
    | none => exact .inl ⟨u, hu, hout.trans hle⟩
    | some old => exact (h.held q old hq hold).join hu (hout.trans hle)
  | observations =>
    cases hold : m.table[q]? with
    | none =>
      refine .inr ⟨⟨m, k, out, rest, hmoment, not_reached_iff.2 hold⟩, .inl ?_⟩
      exact (State.joinObservations_sameStore ..).storeLe
    | some old => exact (h.held q old hq hold).congr (State.joinObservations_sameStore ..)

/-- At every moment the machine is within a table that covers committed execution. -/
theorem Moment.within (hc : Covers s entry t) (ht : Tolerates s cap entry t)
    (h : Moment s cap entry m k out rest) : Within s cap entry t m k out rest := by
  induction h with
  | start =>
    refine ⟨fun q st _ hst => ?_, nofun⟩
    rw [getElem?_table_start] at hst
    split at hst
    · next heq =>
      subst heq
      cases hst
      exact .inl hc.entry
    · cases hst
  | @visit m k₀ k out₀ st out queue n before visiting ih =>
    refine ⟨fun q st' hq hst' => ih.held q st' hq (by rwa [table_visited] at hst'), fun _ hk => ?_⟩
    rw [eq_advance visiting.after]
    exact (ih.held k st hk visiting.held).advance (ht before visiting hk)
  | @pass m m' k target out payload rest before running ih =>
    refine ⟨fun q st hq hst => ?_, fun _ hk => ih.carried nofun hk⟩
    rcases (propagate_eq_running_iff rfl).1 running with ⟨-, rfl⟩ | ⟨-, -, rfl⟩
    · exact ih.held q st hq hst
    · rw [table_enqueue, update, getElem?_insert_table] at hst
      split at hst
      · next heq =>
        subst heq
        cases hst
        exact ih.received hc before hq
      · exact ih.held q st hq hst

/-! ## Above the state at the start -/

/-- A state in the table only ever receives more. -/
theorem Next.storeLe {now next : Machine × Key × State × List (Key × Payload)} {x : State}
    (h : Next s cap now next) (hst : now.1.table[q]? = some st) (hx : x.StoreLe st) :
    ∃ st', next.1.table[q]? = some st' ∧ x.StoreLe st' := by
  cases h with
  | visit visiting => exact ⟨st, by rwa [table_visited], hx⟩
  | @pass m m' k target out payload rest running =>
    rcases (propagate_eq_running_iff rfl).1 running with ⟨-, rfl⟩ | ⟨-, -, rfl⟩
    · exact ⟨st, hst, hx⟩
    · dsimp only at hst ⊢
      rw [table_enqueue, update, getElem?_insert_table]
      by_cases hq : q = target
      · subst hq
        refine ⟨_, if_pos rfl, ?_⟩
        rw [hst]
        cases payload with
        | full => exact hx.trans (.join_left ..)
        | observations => exact hx.trans (State.joinObservations_sameStore ..).symm.storeLe
      · exact ⟨st, by rwa [if_neg hq], hx⟩

theorem storeLe_of_reaches {now next : Machine × Key × State × List (Key × Payload)} {x : State}
    (h : Relation.ReflTransGen (Next s cap) now next) (hst : now.1.table[q]? = some st)
    (hx : x.StoreLe st) : ∃ st', next.1.table[q]? = some st' ∧ x.StoreLe st' := by
  induction h with
  | refl => exact ⟨st, hst, hx⟩
  | tail _ hnext ih =>
    obtain ⟨st', hst', hx'⟩ := ih
    exact hnext.storeLe hst' hx'

/-- Where a state was invented, all states are above the one at the start. -/
theorem Moment.initial_storeLe (hinvents : Invents s cap entry q)
    (h : Moment s cap entry m k out rest) (hst : m.table[q]? = some st) :
    s.initial.StoreLe st := by
  obtain ⟨m₀, k₀, out₀, rest₀, hmoment, hnone⟩ := hinvents
  rw [not_reached_iff] at hnone
  rcases hmoment.total h with hreaches | hreaches
  · cases hreaches.cases_head with
    | inl heq =>
      cases heq
      rw [hnone] at hst
      cases hst
    | inr hhead =>
      obtain ⟨next, hnext, hreaches⟩ := hhead
      cases hnext with
      | @pass _ m₁ _ _ _ _ _ running =>
        -- the rollback leaves the invented state
        have hfirst : m₁.table[q]? = some (s.initial.joinObservations out₀) := by
          rcases (propagate_eq_running_iff rfl).1 running with ⟨hheld, -⟩ | ⟨-, -, rfl⟩
          · rw [hnone] at hheld
            cases hheld
          · rw [table_enqueue, update, getElem?_insert_table, if_pos rfl, hnone]
            rfl
        obtain ⟨st', hst', hle⟩ := storeLe_of_reaches hreaches hfirst
          (State.joinObservations_sameStore ..).symm.storeLe
        cases hst.symm.trans hst'
        exact hle
  · -- no state is lost on the way to the rollback
    obtain ⟨st', hst', -⟩ := storeLe_of_reaches hreaches hst (State.StoreLe.refl st)
    rw [hnone] at hst'
    cases hst'

/-! ## Steps -/

/-- Every step in the trace is a visit at an earlier moment. -/
theorem Moment.exists_visiting (h : Moment s cap entry m k out rest) {step : Step}
    (hstep : step ∈ m.trace.toList) :
    ∃ m' k₀ out₀ k' queue n st' out', Moment s cap entry m' k₀ out₀ [] ∧
      Visiting s m' k' queue n st' out' ∧ step = Machine.visit step.id n k'.mode out' := by
  induction h with
  | start => cases hstep
  | @visit m k₀ k out₀ st out queue n before visiting ih =>
    rw [trace_visited, Array.toList_push, List.mem_append, List.mem_singleton] at hstep
    rcases hstep with hstep | rfl
    · exact ih hstep
    · exact ⟨m, k₀, out₀, k, queue, n, st, out, before, visiting, rfl⟩
  | @pass m m' k target out payload rest before running ih =>
    have htrace : m'.trace = m.trace := by
      rcases (propagate_eq_running_iff rfl).1 running with ⟨-, rfl⟩ | ⟨-, -, rfl⟩
      · rfl
      · rw [trace_enqueue, update]
    rw [htrace] at hstep
    exact ih hstep

end Machine

namespace Setup

open Machine

variable {s : Setup} {entry : Key} {v : Verdict} {step : Step}

/-- A committed step of an analysis without error is a visit at some moment: a step that shows a
    violation is speculative. -/
theorem exists_visiting_of_step (hi : s.initial.Harmless)
    (hentry : s.checkedEntry = .ok (some entry)) (hok : s.run.outcome = .ok v)
    (hstep : step ∈ s.run.machine.trace.toList) (hmode : step.mode = .committed) :
    ∃ m k₀ out₀ k queue n st out, Moment s (some s.options.iterationCap) entry m k₀ out₀ [] ∧
      Visiting s m k queue n st out ∧ step = visit step.id n k.mode out := by
  rw [run_of_entry hentry] at hok hstep
  obtain ⟨m, k, out, hmoment, hends⟩ := Moment.start.exists_ends hok
  generalize Machine.run _ _ _ _ _ = final at hstep hends
  obtain ⟨m', outcome⟩ := final
  cases hends with
  | secure => exact hmoment.exists_visiting hstep
  | @violation _ k' n st out' node held after violation table trace =>
    rw [show m'.trace = _ from trace, Array.toList_push, List.mem_append,
      List.mem_singleton] at hstep
    rcases hstep with hstep | rfl
    · exact hmoment.exists_visiting hstep
    · have hst := hmoment.accounted.1.stored k' st held
      rw [hasViolation_after (hst.harmless hi) after] at violation
      cases hmode.symm.trans (leaks_iff.1 violation).1

end Setup

/-! ## In a graph that is built -/

namespace SpecGraph

open Machine

variable {c g : SpecGraph} {o : Options} {entry k : Key} {st : State}

/-- In a valid graph rollbacks lead from speculative to committed nodes. -/
theorem placed_of_validate (h : g.validate = .ok ()) {i : Nat} {l : Located}
    (hl : l ∈ g.linksFrom i) (hkind : l.link.kind = .rollback) :
    l.source.kind = .speculative ∧ l.target.kind = .committed := by
  unfold validate at h
  split at h
  · cases h
  · next hnone =>
    have hplaced := List.find?_eq_none.1 hnone l (mem_links_iff.2 (mem_linksFrom_iff.1 hl).2)
    simpa [Located.isPlaced, hkind] using hplaced

theorem validate_of_checkedEntry {found : Option Key}
    (h : (Setup.of g o).checkedEntry = .ok found) : g.validate = .ok () := by
  obtain ⟨_, hvalid, -⟩ := bind_eq_ok_iff.1 h
  exact hvalid

namespace IsCore

variable (h : c.IsCore g)

include h

theorem advance_eq {n : Node} (hn : c.node? k.node = some n) (st : State) :
    (Setup.of c o).advance k st = (Setup.of g o).advance k st := by
  have hnc : (Setup.of c o).graph.node? k.node = some n := hn
  have hng : (Setup.of g o).graph.node? k.node = some n := (h.node.1 hn).1
  rw [Setup.advance, Setup.advance, Setup.executed?, Setup.executed?, hnc, hng]

/-- The committed points of an analysis are nodes of the committed part, outside of all contexts. -/
theorem committed_of_stores (hvalid : g.validate = .ok ())
    (hentry : (Setup.of c o).entryKey = .ok (some entry))
    (hst : (Setup.of g o).Stores entry k st) (hmode : k.mode = .committed) :
    k = ⟨k.node, .committed, []⟩ ∧ ∃ n, c.node? k.node = some n := by
  induction hst with
  | start =>
    obtain ⟨hmode, hframes, hnode⟩ := h.exists_node_of_entryKey hentry
    refine ⟨?_, hnode⟩
    rw [← hmode, ← hframes]
  | @pass k target st out payload old visited after violation move held ih ihheld =>
    obtain ⟨n, i, -, -, ⟨-, -, -, index, e, -, rfl⟩ | ⟨l, hl, hlink, -⟩⟩ := Setup.moves_cases move
    · cases hmode
    · cases hlink with
      | committed kind =>
        have hkmode : k.mode = .committed := hmode
        obtain ⟨hk, -⟩ := ih hkmode
        refine ⟨?_, l.target, (mem_linksFrom_iff.1 (h.mem_linksFrom hl kind)).2.2.2⟩
        rw [Setup.framesAfter_of_committed hkmode, hk]
      | speculative => cases hmode
      | rollback kind =>
        obtain ⟨-, htarget⟩ := placed_of_validate hvalid hl kind
        exact ⟨rfl, l.target, h.node.2 ⟨(mem_linksFrom_iff.1 hl).2.2.2, htarget⟩⟩

theorem committed_of_reached (hvalid : g.validate = .ok ())
    (hentry : (Setup.of c o).entryKey = .ok (some entry)) {cap : Option Nat} {m : Machine}
    {k₀ : Key} {out : State} {rest : List (Key × Payload)}
    (hm : Moment (Setup.of g o) cap entry m k₀ out rest) (hk : m.Reached k)
    (hmode : k.mode = .committed) :
    k = ⟨k.node, .committed, []⟩ ∧ ∃ n, c.node? k.node = some n := by
  obtain ⟨st, hst⟩ := hk
  exact h.committed_of_stores hvalid hentry (hm.accounted.1.stored k st hst) hmode

/-- An analysis of the committed part has committed points only. -/
theorem onlyCommitted (hentry : (Setup.of c o).entryKey = .ok (some entry)) :
    (Setup.of c o).OnlyCommitted entry := by
  intro k st hst
  induction hst with
  | start =>
    obtain ⟨hmode, hframes, -⟩ := h.exists_node_of_entryKey hentry
    rw [← hmode, ← hframes]
  | @pass k target st out payload old visited after violation move held ih ihheld =>
    have hmode : k.mode = .committed := by rw [ih]
    obtain ⟨n, i, -, -, ⟨hspec, -⟩ | ⟨l, hl, hlink, -⟩⟩ := Setup.moves_cases move
    · cases hmode.symm.trans hspec
    · have hkind := h.flow.edge _ _ _ (mem_linksFrom_iff.1 hl).2.1
      cases hlink with
      | committed kind =>
        rw [Setup.framesAfter_of_committed hmode, ih]
      | speculative kind => cases hkind.symm.trans kind
      | rollback kind => cases hkind.symm.trans kind

/-- An analysis of the committed part finds no violation. -/
theorem secure_of_outcome (hentry : (Setup.of c o).checkedEntry = .ok (some entry)) {v : Verdict}
    (hok : (Setup.of c o).run.outcome = .ok v) : (Setup.of c o).run.outcome = .ok .secure := by
  cases v with
  | secure => exact hok
  | violation =>
    obtain ⟨k, st, out, hst, hafter, hv⟩ := Setup.exists_violation_of_outcome hentry hok
    have hstores := Setup.stores_of_mem_table hentry hst
    rw [Setup.hasViolation_after (hstores.harmless (State.harmless_seeded _ _)) hafter] at hv
    have hmode := h.onlyCommitted (Setup.entryKey_of_checkedEntry hentry) k st hstores
    rw [hmode] at hv
    cases (Setup.leaks_iff.1 hv).1

/-- What an analysis of the committed part ends with covers committed execution in the whole
    graph. -/
theorem covers (hvalid : g.validate = .ok ())
    (hentry : (Setup.of c o).checkedEntry = .ok (some entry))
    (hsecure : (Setup.of c o).run.outcome = .ok .secure) :
    Covers (Setup.of g o) entry (Setup.of c o).run.machine.table := by
  have hfix := Setup.isFixpoint_run hentry hsecure
  refine ⟨?_, fun {k target st} hk hst hmove htarget => ?_⟩
  · obtain ⟨st, hst⟩ := hfix.mem_entry
    refine ⟨st, hst, ?_⟩
    rw [← h.initial_eq]
    exact hfix.entry.storeLe hst
  · obtain ⟨out, hafter, -, hmoves⟩ := hfix.settled k st hst
    obtain ⟨n, hn, -⟩ := Setup.after_eq_ok_iff.1 hafter
    have hkind : n.kind = .committed := h.flow.node _ n hn
    have hrollback : ∀ l ∈ g.linksFrom k.node, l.link.kind ≠ .rollback := by
      intro l hl hrollback
      have hsource := (placed_of_validate hvalid hl hrollback).1
      obtain ⟨hhead, -, hnode, -⟩ := mem_linksFrom_iff.1 hl
      rw [hhead, (h.node.1 hn).1] at hnode
      cases hnode
      cases hkind.symm.trans hsource
    have hmove' : (target, .full) ∈ (Setup.of c o).moves k := by
      rw [h.moves_eq hk hn hrollback, List.mem_filter, htarget]
      exact ⟨hmove, rfl⟩
    obtain ⟨st', hst'⟩ := hfix.mem_of_move hst hmove'
    refine ⟨st', hst', ?_⟩
    rw [← h.advance_eq hn, ← Setup.eq_advance hafter]
    exact (hmoves target .full hmove').storeLe hst'

/-- What is invented is invented along a rollback from a speculative point. -/
theorem exists_rollback (hvalid : g.validate = .ok ())
    (hentry : (Setup.of c o).entryKey = .ok (some entry)) {cap : Option Nat} {q : Key}
    (hinvents : Invents (Setup.of g o) cap entry q) :
    ∃ m k out rest l, Moment (Setup.of g o) cap entry m k out rest ∧ k.mode = .speculative ∧
      l ∈ g.linksFrom k.node ∧ l.link.kind = .rollback ∧ c.node? l.tail = some l.target ∧
      q = ⟨l.tail, .committed, []⟩ ∧ ¬ m.Reached q := by
  obtain ⟨m, k, out, rest, hm, hnone⟩ := hinvents
  have hmove := hm.accounted.2.moves _ List.mem_cons_self
  obtain ⟨n, i, -, -, ⟨-, hfull, -⟩ | ⟨l, hl, hlink, -⟩⟩ := Setup.moves_cases hmove
  · cases hfull
  · cases hlink with
    | rollback kind =>
      obtain ⟨hspec, hcommitted⟩ := placed_of_validate hvalid hl kind
      obtain ⟨hhead, -, hsource, htarget⟩ := mem_linksFrom_iff.1 hl
      refine ⟨m, k, out, _, l, hm, ?_, hl, kind, h.node.2 ⟨htarget, hcommitted⟩, rfl, hnone⟩
      cases hk : k.mode with
      | speculative => rfl
      | committed =>
        obtain ⟨-, n', hn'⟩ := h.committed_of_reached hvalid hentry hm hm.reached_self hk
        obtain ⟨hn', hkind⟩ := h.node.1 hn'
        rw [hhead] at hsource
        cases hsource.symm.trans hn'
        cases hspec.symm.trans hkind

end IsCore

end SpecGraph

/-- A rollback is the first to reach the point in the analysis. -/
def Setup.Invents (s : Setup) (k : Key) : Prop :=
  ∃ entry, s.checkedEntry = .ok (some entry) ∧
    Machine.Invents s (some s.options.iterationCap) entry k

/-- Where a step shows a node whose state was invented, the state at the start leads to no more than
    the last step at the node in the other trace has. -/
def Setup.InventsNoMore (s : Setup) (last : List Step) : Prop :=
  ∀ k n, s.Invents k → s.graph.node? k.node = some n →
    (∃ step ∈ s.run.machine.trace.toList, step.mode = .committed ∧ step.nodeId = n.id) →
    ∃ step', lastAt? last n.id = some step' ∧ (s.advance k s.initial).StoreLe step'.state

namespace SpecGraph

open Machine

variable {c g : SpecGraph} {o : Options} {entry : Key} {v : Verdict}

namespace IsCore

variable (h : c.IsCore g) (hentry' : (Setup.of c o).checkedEntry = .ok (some entry))
  (hsecure : (Setup.of c o).run.outcome = .ok .secure)

include h hentry' hsecure

/-- The last steps of the analysis of the committed part are visits in the states of its table. -/
theorem exists_lastAt?_iff {k : Key} {n : Node} (hk : k = ⟨k.node, .committed, []⟩)
    (hn : c.node? k.node = some n) {x : State} :
    (∃ step', lastAt? (Setup.of c o).run.machine.trace.toList n.id = some step' ∧
        x.StoreLe step'.state) ↔
      ∃ st, (Setup.of c o).run.machine.table[k]? = some st ∧
        x.StoreLe ((Setup.of g o).advance k st) := by
  have honly := h.onlyCommitted (Setup.entryKey_of_checkedEntry hentry')
  have hlast : ∀ {st}, (Setup.of c o).run.machine.table[k]? = some st →
      ∃ step', lastAt? (Setup.of c o).run.machine.trace.toList n.id = some step' ∧
        step'.state = (Setup.of g o).advance k st := by
    intro st hst
    obtain ⟨n', step', hn', hstep', hstate⟩ :=
      Setup.exists_last h.flow.indexed honly hentry' hsecure hst
    cases hn.symm.trans hn'
    exact ⟨step', hstep', hstate.trans (h.advance_eq hn st)⟩
  constructor
  · rintro ⟨step', hstep', hle⟩
    obtain ⟨hmem, hid⟩ := mem_of_lastAt? hstep'
    obtain ⟨st, hst⟩ :=
      Setup.exists_state_of_step h.flow.indexed honly hentry' hsecure hmem hn hid
    rw [← hk] at hst
    obtain ⟨step'', hstep'', hstate⟩ := hlast hst
    cases hstep'.symm.trans hstep''
    exact ⟨st, hst, hstate ▸ hle⟩
  · rintro ⟨st, hst, hle⟩
    obtain ⟨step', hstep', hstate⟩ := hlast hst
    exact ⟨step', hstep', hstate ▸ hle⟩

variable (hentry : (Setup.of g o).checkedEntry = .ok (some entry))
  (hok : (Setup.of g o).run.outcome = .ok v)

include hentry hok

/-- The analysis of the committed part tolerates what is invented if that is no more than its last
    steps have. -/
theorem tolerates
    (hinvents : (Setup.of g o).InventsNoMore (Setup.of c o).run.machine.trace.toList) :
    Tolerates (Setup.of g o) (some o.iterationCap) entry (Setup.of c o).run.machine.table := by
  intro m k₀ out₀ k queue n st out hmoment hvisiting hmode hinvented
  obtain ⟨hk, n', hn'⟩ := h.committed_of_reached (validate_of_checkedEntry hentry)
    (Setup.entryKey_of_checkedEntry hentry') hmoment ⟨st, hvisiting.held⟩ hmode
  cases hvisiting.node.symm.trans (h.node.1 hn').1
  refine (h.exists_lastAt?_iff hentry' hsecure hk hn').1
    (hinvents k n ⟨entry, hentry, hinvented⟩ hvisiting.node ?_)
  -- the visit is a step of the trace
  rw [Setup.run_of_entry hentry] at hok ⊢
  refine ⟨visit m.trace.size n k.mode out, ?_, hmode, rfl⟩
  refine (hmoment.visit hvisiting).trace_prefix_of_ok hok |>.subset ?_
  rw [trace_visited, Array.toList_push]
  exact List.mem_append_right _ (List.mem_singleton_self _)

/-- The committed steps of an analysis hold no more than committed execution alone exactly if the
    states that are invented do not. -/
theorem holdsNoMore_iff :
    HoldsNoMore (Setup.of g o).run.machine.trace.toList
        (Setup.of c o).run.machine.trace.toList ↔
      (Setup.of g o).InventsNoMore (Setup.of c o).run.machine.trace.toList := by
  have hvalid := validate_of_checkedEntry hentry
  have hi : (Setup.of g o).initial.Harmless := State.harmless_seeded _ _
  constructor
  · rintro hle k n ⟨entry', hentry'', hinvents⟩ hn ⟨step, hstep, hmode, hid⟩
    cases hentry.symm.trans hentry''
    obtain ⟨step', hstep', hle⟩ := hle step hstep hmode
    obtain ⟨m, k₀, out₀, q, queue, n', st, out, hmoment, hvisiting, heq⟩ :=
      Setup.exists_visiting_of_step hi hentry hok hstep hmode
    rw [heq] at hmode hid hle
    obtain ⟨hq, -⟩ := h.committed_of_reached hvalid (Setup.entryKey_of_checkedEntry hentry')
      hmoment ⟨st, hvisiting.held⟩ hmode
    obtain rfl : q = k := by
      rw [hq, hinvents.eq, h.indexed.eq_of_id hvisiting.node hn hid]
    refine ⟨step', by rwa [heq, hid] at hstep', ?_⟩
    have hle' := (hmoment.initial_storeLe hinvents hvisiting.held).advance (Setup.of g o) q
    rw [← Setup.eq_advance hvisiting.after] at hle'
    exact hle'.trans hle
  · intro hinvents step hstep hmode
    obtain ⟨m, k₀, out₀, k, queue, n, st, out, hmoment, hvisiting, heq⟩ :=
      Setup.exists_visiting_of_step hi hentry hok hstep hmode
    rw [heq] at hmode ⊢
    obtain ⟨hk, n', hn'⟩ := h.committed_of_reached hvalid
      (Setup.entryKey_of_checkedEntry hentry') hmoment ⟨st, hvisiting.held⟩ hmode
    cases hvisiting.node.symm.trans (h.node.1 hn').1
    have htolerates := h.tolerates hentry' hsecure hentry hok hinvents
    have hwithin := hmoment.within (h.covers hvalid hentry' hsecure) htolerates
    refine (h.exists_lastAt?_iff hentry' hsecure hk hn').2 ?_
    have hle := (hwithin.held k st hmode hvisiting.held).advance
      (htolerates hmoment hvisiting hmode)
    rwa [← Setup.eq_advance hvisiting.after] at hle

end IsCore

end SpecGraph

end Mispredict
