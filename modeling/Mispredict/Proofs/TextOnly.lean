/-
  Graphs that show their instructions as texts only.

  Of the text of an instruction the instruction is read again, but for the place to which a
  branch or jump is bound, since the text alone does not tell where a label stands. Only a
  jump to a label makes a difference: it is taken for a jump to what the register of that name
  holds, which shows that register.

  Where the register is public nothing changes, and the analyses with and without instructions
  go on side by side (`Rereads.step_withoutInstrs`). Where it is secret the two visits differ
  in what they show (`Rereads.after_withoutInstrs_ne`). Hence the analyses agree exactly if
  no step strays (`Step.Strays`).
-/
import Mispredict.Proofs.Agreement
import Mispredict.Proofs.Bare
import Mispredict.Proofs.Limits

namespace Mispredict

open MuAsm (Instr Program Entry)
open Machine

/-! ## Jumps to labels -/

/-- A visit of the point in the state `st` jumps to a label that has the name of a register, and
    that register is secret there. -/
def SpecGraph.Strays (g : SpecGraph) (k : Key) (st : State) : Prop :=
  ∃ n i name, g.node? k.node = some n ∧ n.instr = some i ∧ i.label? = some name ∧
    ((st.reg name).view k.mode).isSecret = true

/-- The step of a trace is such a visit. -/
def Step.Strays (g : SpecGraph) (step : Step) : Prop :=
  ∃ j n i name, g.find? step.nodeId = some (j, n) ∧ n.instr = some i ∧ i.label? = some name ∧
    ((step.state.reg name).view step.mode).isSecret = true

/-- Nothing has been observed, or nothing but what is public. -/
def Relation.IsPublic (r : Relation) : Prop := r = .bot ∨ r = .eqLow

theorem Relation.IsPublic.join {a b : Relation} (ha : a.IsPublic) (hb : b.IsPublic) :
    (a.join b).IsPublic := by
  rcases ha with rfl | rfl <;> rcases hb with rfl | rfl <;> simp [IsPublic, Relation.join]

theorem Observations.isPublic_update {r : Relation} (hr : r.IsPublic) {l : Level}
    (hl : l.isSecret = false) (mode : Mode) : (update r l mode).IsPublic := by
  cases mode <;> rcases hr with rfl | rfl <;>
    simp [update, hl, Relation.IsPublic, Relation.join]

theorem Observations.update_ne_of_isSecret {r : Relation} (hr : r.IsPublic) {l : Level}
    (hl : l.isSecret = true) (mode : Mode) : update r l mode ≠ update r .low mode := by
  have hlow : Level.low.isSecret = false := rfl
  cases mode <;> rcases hr with rfl | rfl <;> simp [update, hl, hlow, Relation.join]

namespace Setup

variable {s : Setup} {entry k : Key} {st : State}

/-- Where only public levels are ever shown, nothing else is observed. -/
theorem Stores.isPublic_seen (site : Site)
    (hsite : ∀ k st, s.site? k = some site → (s.shown k st).isSecret = false)
    (hinitial : s.initial.seen site = .bot) (h : s.Stores entry k st) :
    (st.seen site).IsPublic := by
  induction h with
  | start => exact .inl hinitial
  | @pass k target st out payload old visited after violation move held ih ihheld =>
    have hout : (out.seen site).IsPublic := by
      rw [seen_after after]
      split
      · next hk => exact Observations.isPublic_update ih (hsite k st hk) _
      · exact ih
    have hjoin : ∀ t : State, (t.seen site).IsPublic →
        ((t.join out).seen site).IsPublic ∧ ((t.joinObservations out).seen site).IsPublic := by
      intro t ht
      have hseen : (t.joinObservations out).seen site = (t.join out).seen site := by
        rw [State.seen, State.seen, State.observations_joinObservations]
      rw [hseen, State.seen_join]
      exact ⟨ht.join hout, ht.join hout⟩
    cases payload with
    | full =>
      cases old with
      | none => exact hout
      | some t => exact (hjoin t (ihheld t rfl)).1
    | observations =>
      cases old with
      | none => exact (hjoin _ (.inl hinitial)).2
      | some t => exact (hjoin t (ihheld t rfl)).2

end Setup

namespace SpecGraph.Rereads

open Setup

variable {g : SpecGraph} {o : Options} {entry k : Key} {n : Node} {st out : State}
  (hg : g.Rereads)

include hg

/-- Jumps are observed as public: they are bound, and no branch is observed where a jump is. -/
theorem shown_of_site? {name pc : String}
    (h : (Setup.of g o).site? k = some ⟨.ctrl, pc ++ ":target:" ++ name⟩) :
    ((Setup.of g o).shown k st).isSecret = false := by
  unfold Setup.site? executed? at h
  unfold Setup.shown executed?
  cases hn : (Setup.of g o).graph.node? k.node with
  | none => rfl
  | some n =>
    have hreads := hg _ n hn
    rw [hn] at h
    dsimp only at h ⊢
    rw [hreads.executes] at h ⊢
    cases hi : n.instr with
    | none => rfl
    | some i =>
      rw [hi] at h
      dsimp only at h ⊢
      cases i with
      | jmp target resolved =>
        obtain ⟨⟨pc', rfl⟩, -⟩ := hreads.bound _ hi target resolved rfl
        cases k.mode <;> rfl
      | beqz cond target known =>
        have hkey : toString n.pc.toInt = pc ++ ":target:" ++ name :=
          (Site.mk.inj (Option.some.inj h)).2
        refine absurd ?_ (colon_not_mem_toString n.pc.toInt)
        rw [hkey]
        simp
      | load dest addr => cases (Site.mk.inj (Option.some.inj h)).1
      | store src addr => cases (Site.mk.inj (Option.some.inj h)).1
      | skip | assign | spbarr | cmov => cases h

theorem after_eq (hn : g.node? k.node = some n) (st : State) :
    (Setup.of g o).after k st =
        .ok (n.instr.elim st fun i => st.apply i (toString n.pc.toInt) k.mode) ∧
      (Setup.of g.withoutInstrs o).after k st =
        .ok (n.instr.elim st fun i => st.apply i.unbound (toString n.pc.toInt) k.mode) := by
  have hreads := hg _ n hn
  have hn' : (Setup.of g.withoutInstrs o).graph.node? k.node = some n.bare :=
    (g.node?_withoutInstrs k.node).trans (congrArg (Option.map Node.bare) hn)
  rw [after_of_node (s := Setup.of g o) hn, after_of_node hn', Node.transfer, Node.transfer,
    hreads.executes, hreads.bare]
  cases n.instr <;> exact ⟨rfl, rfl⟩

/-- A visit that does not stray has the same result without instructions. -/
theorem after_withoutInstrs (h : ¬ g.Strays k st) :
    (Setup.of g.withoutInstrs o).after k st = (Setup.of g o).after k st := by
  cases hn : g.node? k.node with
  | none =>
    have hn' : g.withoutInstrs.node? k.node = none := by rw [node?_withoutInstrs, hn]; rfl
    rw [after, after, nodeAt, nodeAt, show (Setup.of g o).graph = g from rfl, hn,
      show (Setup.of g.withoutInstrs o).graph = g.withoutInstrs from rfl, hn']
  | some n =>
    obtain ⟨heq, heq'⟩ := hg.after_eq (o := o) hn st
    rw [heq, heq']
    cases hi : n.instr with
    | none => rfl
    | some i =>
      refine congrArg Except.ok ?_
      cases hlabel : i.label? with
      | none => exact Instr.apply_unbound ((hg _ n hn).bound i hi) hlabel st _ _
      | some name =>
        obtain ⟨hbound, hunbound⟩ :=
          Instr.apply_unbound_of_label? hlabel st (toString n.pc.toInt) k.mode
        have hlow : (st.reg name).view k.mode = .low := by
          by_contra hsecret
          exact h ⟨n, i, name, hn, hi, hlabel, bne_iff_ne.2 hsecret⟩
        exact hunbound.trans (hlow ▸ hbound.symm)

/-- A visit that strays has another result. -/
theorem after_withoutInstrs_ne (hst : (Setup.of g o).Stores entry k st) (h : g.Strays k st) :
    (Setup.of g.withoutInstrs o).after k st ≠ (Setup.of g o).after k st := by
  obtain ⟨n, i, name, hn, hi, hlabel, hsecret⟩ := h
  obtain ⟨heq, heq'⟩ := hg.after_eq (o := o) hn st
  obtain ⟨hbound, hunbound⟩ :=
    Instr.apply_unbound_of_label? hlabel st (toString n.pc.toInt) k.mode
  rw [heq, heq', hi, Option.elim_some, Option.elim_some, hbound, hunbound]
  intro hsame
  -- so far nothing but public jumps have been observed here
  have hpublic : (st.obsCtrl.getD (toString n.pc.toInt ++ ":target:" ++ name) .bot).IsPublic :=
    hst.isPublic_seen ⟨.ctrl, toString n.pc.toInt ++ ":target:" ++ name⟩
      (fun k st hk => hg.shown_of_site? hk) rfl
  have hget := congrArg (fun st => st.obsCtrl.get? (toString n.pc.toInt ++ ":target:" ++ name))
    (Except.ok.inj hsame)
  simp only [State.observeCtrl, Observations.observe, SortedMap.get?_insert, if_pos] at hget
  exact Observations.update_ne_of_isSecret hpublic hsecret k.mode (Option.some.inj hget)

theorem strays_visit_iff (hindexed : g.Indexed) (hn : g.node? k.node = some n)
    (hafter : (Setup.of g o).after k st = .ok out) (id : Nat) :
    (visit id n k.mode out).Strays g ↔ g.Strays k st := by
  have hfind : g.find? n.id = some (k.node, n) := hindexed.find?_eq_some_iff.2 ⟨hn, rfl⟩
  obtain ⟨heq, -⟩ := hg.after_eq (o := o) hn st
  rw [heq] at hafter
  -- a jump leaves the registers as they are
  have hreg : ∀ i name, n.instr = some i → i.label? = some name → out.reg name = st.reg name := by
    intro i name hi hlabel
    cases hafter
    rw [hi, Option.elim_some, (Instr.apply_unbound_of_label? hlabel st _ k.mode).1]
    rfl
  constructor
  · rintro ⟨j, n', i, name, hfound, hi, hlabel, hsecret⟩
    cases hfind.symm.trans hfound
    refine ⟨n, i, name, hn, hi, hlabel, ?_⟩
    rw [← hreg i name hi hlabel]
    exact hsecret
  · rintro ⟨n', i, name, hn', hi, hlabel, hsecret⟩
    cases hn.symm.trans hn'
    refine ⟨k.node, n, i, name, hfind, hi, hlabel, ?_⟩
    rw [← hreg i name hi hlabel] at hsecret
    exact hsecret

end SpecGraph.Rereads

/-! ## Two runs side by side -/

namespace Machine

/-- The machines differ in their logs at most. -/
structure Alike (m m' : Machine) : Prop where
  table : m'.table = m.table
  queue : m'.queue = m.queue
  trace : m'.trace = m.trace
  relaxations : m'.relaxations = m.relaxations

end Machine

/-- Both machines go on, or both stop with the same outcome, and they differ in their logs at
    most. -/
inductive Progress.Alike : Progress → Progress → Prop where
  | running {m m' : Machine} (alike : m.Alike m') : Alike (.running m) (.running m')
  | stopped {m m' : Machine} {outcome : Except Error Verdict} (alike : m.Alike m') :
      Alike (.stopped m outcome) (.stopped m' outcome)

namespace Machine

variable {s s' : Setup} {cap : Option Nat} {m m' : Machine} {out : State}

theorem alike_sayAll (h : m.Alike m') (ls ls' : List LogLine) :
    (m.sayAll ls).Alike (m'.sayAll ls') := by
  constructor
  · rw [table_sayAll, table_sayAll, h.table]
  · rw [queue_sayAll, queue_sayAll, h.queue]
  · rw [trace_sayAll, trace_sayAll, h.trace]
  · rw [relaxations_sayAll, relaxations_sayAll, h.relaxations]

theorem Alike.enqueue (h : m.Alike m') (order : TraceMode) (k : Key) :
    (m.enqueue order k).Alike (m'.enqueue order k) := by
  constructor
  · rw [table_enqueue, table_enqueue, h.table]
  · cases order <;> simp only [Machine.enqueue, h.queue]
  · rw [trace_enqueue, trace_enqueue, h.trace]
  · rw [relaxations_enqueue, relaxations_enqueue, h.relaxations]

theorem Alike.propagate (h : m.Alike m') (hinitial : s'.initial = s.initial)
    (hoptions : s'.options = s.options) (cap : Option Nat) (out : State) (target : Key)
    (payload : Payload) :
    (m.propagate s cap out target payload).Alike (m'.propagate s' cap out target payload) := by
  unfold Machine.propagate
  dsimp only
  rw [hinitial, hoptions, h.table, h.relaxations]
  split
  · exact .running h
  · have hstored : Alike
        { m with table := m.table.insert target (received s.initial m.table[target]? out payload),
                 relaxations := m.relaxations + 1 }
        { m' with table := m.table.insert target (received s.initial m.table[target]? out payload),
                  relaxations := m.relaxations + 1 } := ⟨rfl, h.queue, h.trace, rfl⟩
    cases cap with
    | none => exact .running (hstored.enqueue _ _)
    | some limit =>
      dsimp only
      split
      · exact .stopped hstored
      · exact .running (hstored.enqueue _ _)

theorem Alike.propagateAll (h : m.Alike m') (hinitial : s'.initial = s.initial)
    (hoptions : s'.options = s.options) (moves : List (Key × Payload)) :
    (m.propagateAll s cap out moves).Alike (m'.propagateAll s' cap out moves) := by
  induction moves generalizing m m' with
  | nil => exact .running h
  | cons move moves ih =>
    obtain ⟨target, payload⟩ := move
    have hpass := h.propagate hinitial hoptions cap out target payload
    rw [Machine.propagateAll, Machine.propagateAll]
    generalize m.propagate s cap out target payload = p at hpass ⊢
    generalize m'.propagate s' cap out target payload = p' at hpass ⊢
    cases hpass with
    | running alike => exact ih alike
    | stopped alike => exact .stopped alike

/-- What a step adds to the trace is the visit of the next point. -/
theorem mem_trace_step {step : Step} (h : step ∈ (m.step s cap).machine.trace) :
    step ∈ m.trace ∨ ∃ k queue n st out, m.queue.pop? = some (k, queue) ∧
      s.graph.node? k.node = some n ∧ m.table[k]? = some st ∧ s.after k st = .ok out ∧
      step = visit m.trace.size n k.mode out := by
  have hstep := step_ofStep s cap m
  generalize m.step s cap = p at hstep h
  have hpushed : ∀ {k : Key} {n : Node} {st out : State} {m₁ : Machine},
      m.queue.toList = k :: m₁.queue.toList → s.graph.node? k.node = some n →
      m.table[k]? = some st → s.after k st = .ok out →
      step ∈ m.trace.push (visit m.trace.size n k.mode out) →
      step ∈ m.trace ∨ ∃ k queue n st out, m.queue.pop? = some (k, queue) ∧
        s.graph.node? k.node = some n ∧ m.table[k]? = some st ∧ s.after k st = .ok out ∧
        step = visit m.trace.size n k.mode out := by
    intro k n st out m₁ hqueue hnode hheld hafter hmem
    obtain ⟨queue, hpop, -⟩ := Worklist.exists_pop? hqueue
    rcases Array.mem_push.1 hmem with hmem | rfl
    · exact .inl hmem
    · exact .inr ⟨k, queue, n, st, out, hpop, hnode, hheld, hafter, rfl⟩
  cases hstep with
  | done => exact .inl h
  | fails queue table trace => exact .inl (trace ▸ h)
  | violates node held after violation table trace queue =>
    exact hpushed queue node held after (trace ▸ h)
  | passes node held after violation queue table trace result =>
    rw [← result, trace_propagateAll, trace] at h
    exact hpushed queue node held after h

end Machine

namespace SpecGraph.Rereads

open Setup

variable {g : SpecGraph} {o : Options} {cap : Option Nat} {entry : Key} {m m' : Machine}
  (hg : g.Rereads)

include hg

theorem complete_withoutInstrs (h : m.Alike m') (k : Key) (n : Node) (out : State) :
    (m.complete (Setup.of g o) cap k n out).Alike
      (m'.complete (Setup.of g.withoutInstrs o) cap k n.bare out) := by
  have hpushed : Alike { m with trace := m.trace.push (visit m.trace.size n k.mode out) }
      { m' with trace := m'.trace.push (visit m'.trace.size n.bare k.mode out) } :=
    ⟨h.table, h.queue, by rw [h.trace]; rfl, h.relaxations⟩
  unfold complete
  dsimp only
  split
  · exact .stopped (alike_sayAll hpushed _ _)
  · rw [routes_withoutInstrs o hg]
    exact (alike_sayAll hpushed _ _).propagateAll (initial_withoutInstrs o hg) rfl _

/-- A step that does not stray is the same without instructions. -/
theorem step_withoutInstrs (cap : Option Nat) (h : m.Alike m')
    (hstrays : ∀ k queue st, m.queue.pop? = some (k, queue) → m.table[k]? = some st →
      ¬ g.Strays k st) :
    (m.step (Setup.of g o) cap).Alike (m'.step (Setup.of g.withoutInstrs o) cap) := by
  unfold Machine.step
  rw [h.queue]
  cases hpop : m.queue.pop? with
  | none => exact .stopped h
  | some popped =>
    obtain ⟨k, queue⟩ := popped
    have hrest : Alike { m with queue := queue } { m' with queue := queue } :=
      ⟨h.table, rfl, h.trace, h.relaxations⟩
    dsimp only
    have hnode' : (Setup.of g.withoutInstrs o).graph.node? k.node =
        (g.node? k.node).map Node.bare := g.node?_withoutInstrs k.node
    cases hn : g.node? k.node with
    | none =>
      rw [hn] at hnode'
      have hnode : (Setup.of g o).graph.node? k.node = none := hn
      rw [nodeAt, nodeAt, hnode, hnode']
      exact .stopped hrest
    | some n =>
      rw [hn] at hnode'
      have hnode : (Setup.of g o).graph.node? k.node = some n := hn
      have hheld' : m'.table[k]? = m.table[k]? := by rw [h.table]
      rw [nodeAt, nodeAt, hnode, hnode', hheld']
      dsimp only [Option.map_some]
      cases hheld : m.table[k]? with
      | none => exact .stopped hrest
      | some st =>
        have hsame := hg.after_withoutInstrs (o := o) (hstrays k queue st hpop hheld)
        have hafter := (hg.after_eq (o := o) hn st).1
        rw [hafter, after_of_node hnode'] at hsame
        rw [after_of_node hnode] at hafter
        dsimp only
        rw [hafter, hsame]
        have hsaid : Alike ({ m with queue := queue }.say (stepLine m.trace.size n k.mode))
            ({ m' with queue := queue }.say (stepLine m'.trace.size n.bare k.mode)) :=
          ⟨h.table, rfl, h.trace, h.relaxations⟩
        exact hg.complete_withoutInstrs hsaid k n _

/-- Two runs without straying steps come to the same, and two runs with one have different
    traces. -/
theorem run_withoutInstrs (hindexed : g.Indexed) {late : Error} {fuel : Nat} (h : m.Alike m')
    (hm : Accounted (Setup.of g o) entry m) (hcalm : ∀ step ∈ m.trace, ¬ step.Strays g) :
    ((∀ step ∈ (m.run (Setup.of g o) cap late fuel).machine.trace, ¬ step.Strays g) ∧
        (m'.run (Setup.of g.withoutInstrs o) cap late fuel).machine.trace =
          (m.run (Setup.of g o) cap late fuel).machine.trace ∧
        (m'.run (Setup.of g.withoutInstrs o) cap late fuel).outcome =
          (m.run (Setup.of g o) cap late fuel).outcome) ∨
      (∃ step ∈ (m.run (Setup.of g o) cap late fuel).machine.trace, step.Strays g) ∧
        (m'.run (Setup.of g.withoutInstrs o) cap late fuel).machine.trace ≠
          (m.run (Setup.of g o) cap late fuel).machine.trace := by
  induction fuel generalizing m m' with
  | zero =>
    left
    rw [Machine.run, Machine.run, h.queue]
    exact ⟨hcalm, h.trace, rfl⟩
  | succ fuel ih =>
    by_cases hstrays : ∃ k queue st, m.queue.pop? = some (k, queue) ∧ m.table[k]? = some st ∧
        g.Strays k st
    · right
      obtain ⟨k, queue, st, hpop, hheld, hstray⟩ := hstrays
      obtain ⟨n, hn⟩ : ∃ n, g.node? k.node = some n := by
        obtain ⟨n, -, -, hn, -⟩ := hstray
        exact ⟨n, hn⟩
      obtain ⟨hafter, hafter'⟩ := hg.after_eq (o := o) hn st
      have hne := hg.after_withoutInstrs_ne (hm.stored k st hheld) hstray
      rw [hafter, hafter'] at hne
      have hqueue := Worklist.toList_of_pop?_eq_some hpop
      have hnode' : (Setup.of g.withoutInstrs o).graph.node? k.node = some n.bare :=
        (g.node?_withoutInstrs k.node).trans (congrArg (Option.map Node.bare) hn)
      have htrace := trace_step cap hqueue hn hheld hafter
      have htrace' := trace_step cap (m := m') (by rw [h.queue]; exact hqueue) hnode'
        (by rw [h.table]; exact hheld) hafter'
      have hfirst := trace_step_prefix_run (Setup.of g o) cap late fuel m
      have hfirst' := trace_step_prefix_run (Setup.of g.withoutInstrs o) cap late fuel m'
      rw [htrace, Array.toList_push] at hfirst
      rw [htrace', h.trace, Array.toList_push] at hfirst'
      refine ⟨⟨_, Array.mem_def.2 (hfirst.subset (List.mem_concat_self ..)),
        (hg.strays_visit_iff hindexed hn hafter _).2 hstray⟩, fun hsame => hne ?_⟩
      -- the two traces have the same number of steps before this one
      rw [hsame] at hfirst'
      have hlists := (List.prefix_of_prefix_length_le hfirst' hfirst (by simp)).eq_of_length
        (by simp)
      have hsteps := List.singleton_inj.1 (List.append_cancel_left hlists)
      exact congrArg Except.ok (congrArg Step.state hsteps)
    · have hagree : ∀ k queue st, m.queue.pop? = some (k, queue) → m.table[k]? = some st →
          ¬ g.Strays k st :=
        fun k queue st hpop hheld hstray => hstrays ⟨k, queue, st, hpop, hheld, hstray⟩
      have hstep := hg.step_withoutInstrs (o := o) cap h hagree
      have hnext : ∀ step ∈ (m.step (Setup.of g o) cap).machine.trace, ¬ step.Strays g := by
        intro step hmem
        rcases mem_trace_step hmem with hmem | ⟨k, queue, n, st, out, hpop, hn, hheld, hafter, rfl⟩
        · exact hcalm step hmem
        · rw [hg.strays_visit_iff hindexed hn hafter]
          exact hagree k queue st hpop hheld
      have haccounted := hm.step (step_ofStep (Setup.of g o) cap m)
      rw [Machine.run, Machine.run]
      generalize m.step (Setup.of g o) cap = p at hstep hnext haccounted ⊢
      generalize m'.step (Setup.of g.withoutInstrs o) cap = p' at hstep ⊢
      cases hstep with
      | running alike => exact ih alike haccounted hnext
      | stopped alike => exact .inl ⟨hnext, alike.trace, rfl⟩

end SpecGraph.Rereads

/-! ## Labels that are no registers -/

namespace MuAsm.Instr

/-- The register that an instruction writes. -/
def dest? : Instr → Option String
  | .assign dest _ => some dest
  | .load dest _ => some dest
  | .cmov dest _ _ => some dest
  | _ => none

end MuAsm.Instr

theorem State.reg_apply {i : Instr} {name : String} (h : i.dest? ≠ some name) (st : State)
    (pc : String) (mode : Mode) : (st.apply i pc mode).reg name = st.reg name := by
  have hwrite : ∀ (st : State) (dest : String) (v : Value), dest ≠ name →
      (st.writeReg dest v mode).reg name = st.reg name := by
    intro st dest v hne
    rw [State.reg_writeReg, if_neg hne.symm]
  cases i with
  | assign dest expr => exact hwrite _ _ _ fun heq => h (congrArg some heq)
  | load dest addr => exact hwrite _ _ _ fun heq => h (congrArg some heq)
  | cmov dest cond value => exact hwrite _ _ _ fun heq => h (congrArg some heq)
  | skip | spbarr | store | beqz | jmp => rfl

namespace SpecGraph

/-- The policy leaves the register public, and no instruction writes it. -/
def Spares (g : SpecGraph) (o : Options) (name : String) : Prop :=
  (∀ level ∈ o.policy.regs.get? name, level = .low) ∧
    ∀ n ∈ g.nodes, n.instr.bind Instr.dest? ≠ some name

/-- No register that may become secret has the name of a label to which an instruction jumps. -/
def SparesLabels (g : SpecGraph) (o : Options) : Prop :=
  ∀ n ∈ g.nodes, ∀ name ∈ n.instr.bind Instr.label?, g.Spares o name

instance (g : SpecGraph) (o : Options) (name : String) : Decidable (g.Spares o name) :=
  inferInstanceAs (Decidable (_ ∧ _))

instance (g : SpecGraph) (o : Options) : Decidable (g.SparesLabels o) :=
  inferInstanceAs (Decidable (∀ n ∈ g.nodes, ∀ name ∈ n.instr.bind Instr.label?, g.Spares o name))

variable {g : SpecGraph} {o : Options} {entry k : Key} {st : State} {name : String}

theorem Spares.reg_initial (h : g.Spares o name) : (Setup.of g o).initial.reg name = .low := by
  refine State.forall_reg_seeded (P := fun r v => r = name → v = .low) (fun _ _ => rfl) ?_ _ name
    rfl
  rintro ⟨r, level⟩ hmem rfl
  rw [h.1 level ((SortedMap.mem_entries_iff _).1 hmem)]
  rfl

/-- A register that is spared is public at every point. -/
theorem Spares.reg_stores (hg : g.Rereads) (hindexed : g.Indexed) (h : g.Spares o name)
    (hst : (Setup.of g o).Stores entry k st) : st.reg name = .low := by
  have hinitial := h.reg_initial
  induction hst with
  | start => exact hinitial
  | @pass k target st out payload old visited after violation move held ih ihheld =>
    have hout : out.reg name = .low := by
      obtain ⟨n, hn, -⟩ := Setup.after_eq_ok_iff.1 after
      rw [(hg.after_eq (o := o) hn st).1] at after
      cases after
      cases hi : n.instr with
      | none => exact ih
      | some i =>
        have hdest := h.2 n (hindexed.mem_nodes_iff.2 ⟨_, hn⟩)
        rw [hi, Option.bind_some] at hdest
        rw [Option.elim_some, State.reg_apply hdest]
        exact ih
    cases payload with
    | full =>
      cases old with
      | none => exact hout
      | some t =>
        rw [received, State.reg_join, ihheld t rfl, hout]
        rfl
    | observations =>
      cases old with
      | none => exact hinitial
      | some t => exact ihheld t rfl

theorem SparesLabels.not_strays (hg : g.Rereads) (hindexed : g.Indexed) (h : g.SparesLabels o)
    (hst : (Setup.of g o).Stores entry k st) : ¬ g.Strays k st := by
  rintro ⟨n, i, name, hn, hi, hlabel, hsecret⟩
  have hspares := h n (hindexed.mem_nodes_iff.2 ⟨_, hn⟩) name (by rw [hi]; exact hlabel)
  rw [hspares.reg_stores hg hindexed hst] at hsecret
  cases hmode : k.mode <;> rw [hmode] at hsecret <;> cases hsecret

/-! ## Analyses of graphs that were built -/

/-- Two analyses without straying steps come to the same, and two analyses with one have different
    traces. -/
theorem Rereads.analysis_withoutInstrs (hg : g.Rereads) (hindexed : g.Indexed) (o : Options) :
    ((∀ step ∈ (Setup.of g o).run.machine.trace, ¬ step.Strays g) ∧
        (Setup.of g.withoutInstrs o).run.machine.trace = (Setup.of g o).run.machine.trace ∧
        (Setup.of g.withoutInstrs o).run.outcome = (Setup.of g o).run.outcome) ∨
      (∃ step ∈ (Setup.of g o).run.machine.trace, step.Strays g) ∧
        (Setup.of g.withoutInstrs o).run.machine.trace ≠ (Setup.of g o).run.machine.trace := by
  have hsame := Setup.checkedEntry_withoutInstrs (g := g) o
  have hnone : ∀ step ∈ Machine.empty.trace, ¬ step.Strays g := by
    intro step h
    cases h with | mk h => cases h
  cases hchecked : (Setup.of g o).checkedEntry with
  | error e =>
    rw [Setup.run, Setup.run, hsame, hchecked]
    exact .inl ⟨hnone, rfl, rfl⟩
  | ok found =>
    cases found with
    | none =>
      rw [Setup.run, Setup.run, hsame, hchecked]
      exact .inl ⟨hnone, rfl, rfl⟩
    | some entry =>
      rw [Setup.run_of_entry hchecked, Setup.run_of_entry (hsame.trans hchecked)]
      have halike :
          (start (Setup.of g o) entry).Alike (start (Setup.of g.withoutInstrs o) entry) := by
        refine ⟨?_, rfl, rfl, rfl⟩
        rw [start, start, Setup.initial_withoutInstrs o hg]
      exact hg.run_withoutInstrs hindexed halike (accounted_start _ entry) hnone

/-- The texts of a graph that was built stand for its instructions. -/
theorem rereads_of_buildSource {source : String} {b : BuildOptions} {g : SpecGraph}
    (h : (buildSource source b).result = .ok g) : g.Indexed ∧ g.Rereads := by
  obtain ⟨p, d, hp, hfaultless, hd, rfl, hready⟩ := exists_ready_of_buildSource h
  refine ⟨hready.indexed, fun j n hn => ?_⟩
  rcases Draft.instr_cases_of_ofProgram hd (hready.indexed.mem_nodes_iff.2 ⟨j, hn⟩) with
    ⟨hinstr, htext⟩ | ⟨e, hmem, hinstr, htext⟩
  · refine ⟨?_, ?_, fun i hi => ?_⟩
    · simp only [Node.executes, hinstr, htext]
    · simp only [Node.executes, Node.bare, hinstr, htext, Option.map_none]
    · cases hinstr.symm.trans hi
  · obtain ⟨pc, he⟩ := List.mem_iff_getElem?.1 hmem
    refine ⟨?_, ?_, fun i hi => ?_⟩
    · simp only [Node.executes, hinstr]
    · simp only [Node.executes, Node.bare, hinstr, htext, Program.parse_render_instr hp he,
        Option.map_some]
    · cases hinstr.symm.trans hi
      exact hfaultless.isBound hp he

theorem SparesLabels.not_strays_run (hg : g.Rereads) (hindexed : g.Indexed) (h : g.SparesLabels o)
    {step : Step} (hstep : step ∈ (g.analyze o).result.trace) : ¬ step.Strays g := by
  obtain ⟨entry, k, n, st, out, hst, hn, hafter, hvisit⟩ := Setup.visits_of_mem_trace hstep
  rw [hvisit, hg.strays_visit_iff hindexed hn hafter]
  exact h.not_strays hg hindexed hst

end SpecGraph

/-- A graph that was built is analysed from the texts of its instructions as it is from the
    instructions, to the same verdict, error and trace, exactly if no step jumps to a label that has
    the name of a register which is secret at that step. For without the instructions a jump is not
    bound to its label any more, and shows the register instead.

    It is enough that no register which may become secret has the name of a label. -/
theorem analyze_withoutInstrs_iff (source : String) (b : BuildOptions) (g : SpecGraph) (o : Options)
    (hg : (SpecGraph.buildSource source b).result = .ok g) :
    (((g.withoutInstrs.analyze o).result.verdict = (g.analyze o).result.verdict ∧
        (g.withoutInstrs.analyze o).result.error = (g.analyze o).result.error ∧
        (g.withoutInstrs.analyze o).result.trace = (g.analyze o).result.trace) ↔
      ∀ step ∈ (g.analyze o).result.trace, ¬ step.Strays g) ∧
    (g.SparesLabels o → ∀ step ∈ (g.analyze o).result.trace, ¬ step.Strays g) := by
  obtain ⟨hindexed, hrereads⟩ := SpecGraph.rereads_of_buildSource hg
  refine ⟨?_, fun hspares step hstep => hspares.not_strays_run hrereads hindexed hstep⟩
  rcases hrereads.analysis_withoutInstrs hindexed o with
    ⟨hcalm, htrace, houtcome⟩ | ⟨⟨step, hstep, hstray⟩, hne⟩
  · refine ⟨fun _ step hstep => hcalm step (Array.mem_def.2 hstep), fun _ => ?_⟩
    simp only [SpecGraph.analyze, Report.ofFinished, htrace, houtcome, and_self]
  · refine ⟨fun hsame => absurd (Array.toList_inj.1 hsame.2.2) hne, fun hcalm => ?_⟩
    exact absurd hstray (hcalm step (Array.mem_def.1 hstep))

/-- A jump on a mispredicted path, to a label. -/
def divertedSource : String := "beqz c, End\njmp End\nEnd: skip"

def divertedGraph : SpecGraph :=
  (SpecGraph.buildSource divertedSource {}).result.toOption.getD .empty

/-- The register of this name is secret. -/
def secretOptions (name : String) : Options := { policy := ⟨.ofList [(name, .high)], .empty⟩ }

/-- Without its instructions the graph is no longer secure if the label has the name of a secret
    register. -/
theorem diverted_jump_leaks :
    (SpecGraph.buildSource divertedSource {}).result = .ok divertedGraph ∧
      (divertedGraph.analyze (secretOptions "End")).result.verdict = .secure ∧
      (divertedGraph.withoutInstrs.analyze (secretOptions "End")).result.verdict = .violation :=
  ⟨SpecGraph.buildSource_eq_ok (by decide +kernel), by decide +kernel, by decide +kernel⟩

/-- Other secrets do no harm. -/
theorem analyze_withoutInstrs_iff_diverted :
    (SpecGraph.buildSource divertedSource {}).result = .ok divertedGraph ∧
      divertedGraph.SparesLabels (secretOptions "c") ∧
      (divertedGraph.withoutInstrs.analyze (secretOptions "c")).result.trace =
        (divertedGraph.analyze (secretOptions "c")).result.trace := by
  have hg : (SpecGraph.buildSource divertedSource {}).result = .ok divertedGraph :=
    SpecGraph.buildSource_eq_ok (by decide +kernel)
  have hspares : divertedGraph.SparesLabels (secretOptions "c") := by decide +kernel
  obtain ⟨hiff, hcalm⟩ := analyze_withoutInstrs_iff _ _ _ (secretOptions "c") hg
  exact ⟨hg, hspares, (hiff.2 (hcalm hspares)).2.2⟩

end Mispredict
