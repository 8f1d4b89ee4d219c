/-
  Speculation leaves no trace in registers and memory.

  What committed execution holds, the two views see alike: at every moment of an analysis,
  whatever the graph and the options, each register and each cell has the same level in
  both views in every state that is held for a committed point, and in every committed step
  of the trace (`analyze_viewsAgree`).

  Committed instructions write values that they compute from such values, and joins keep
  agreement. A speculative state is never passed on whole to a committed point; of what a
  rollback brings back only the observations are joined in.
-/
import Mispredict.Proofs.Moment
import Mispredict.Proofs.Move
import Mispredict.Proofs.Order

namespace Mispredict

open MuAsm (Expr Instr)

namespace SortedMap

universe u v w

variable {κ : Type u} {ν : Type v} [Ord κ] [Std.TransOrd κ] [Std.LawfulEqOrd κ] [DecidableEq κ]

/-- What holds of all values of a map, and of those that are put in, holds of all values
    afterwards. -/
theorem forall_get?_foldl_insert {α : Type w} {P : κ → ν → Prop} {f : α → κ} {x : α → ν}
    {l : List α} (hx : ∀ a ∈ l, P (f a) (x a)) {m : SortedMap κ ν}
    (hm : ∀ k y, m.get? k = some y → P k y) :
    ∀ k y, (l.foldl (fun m a => m.insert (f a) (x a)) m).get? k = some y → P k y := by
  induction l generalizing m with
  | nil => exact hm
  | cons a l ih =>
    refine ih (fun a ha => hx a (List.mem_cons_of_mem _ ha)) fun k y h => ?_
    rw [get?_insert] at h
    split at h
    · next hk =>
      cases h
      exact hk ▸ hx a List.mem_cons_self
    · exact hm k y h

end SortedMap

/-! ## Values and states -/

namespace Value

/-- Both views see the same level. -/
def Agrees (v : Value) : Prop := v.committed = v.speculative

theorem agrees_uniform (l : Level) : (uniform l).Agrees := rfl

theorem Agrees.join {v w : Value} (hv : v.Agrees) (hw : w.Agrees) : (v.join w).Agrees := by
  rw [Agrees, Value.join, hv, hw]

/-- Where the views agree there is no leak. -/
theorem Agrees.relation_ne_leak {v : Value} (h : v.Agrees) : v.relation ≠ .leak := by
  rw [relation, h]
  cases v.speculative <;> decide

end Value

namespace State

/-- Both views see the same in every register and in every cell. -/
structure ViewsAgree (s : State) : Prop where
  read : ∀ loc, (s.read loc).Agrees

/-- No register and no cell that is listed has the relation of a leak. -/
def LeakFree (s : State) : Prop :=
  ∀ v, v ∈ s.regs.values ∨ v ∈ s.mem.values → v.relation ≠ .leak

namespace ViewsAgree

variable {s t : State}

theorem of_sameStore (h : s.ViewsAgree) (hst : s.SameStore t) : t.ViewsAgree :=
  ⟨fun loc => hst.read loc ▸ h.read loc⟩

theorem join (hs : s.ViewsAgree) (ht : t.ViewsAgree) : (s.join t).ViewsAgree := by
  refine ⟨fun loc => ?_⟩
  rw [read_join]
  exact (hs.read loc).join (ht.read loc)

theorem eval (h : s.ViewsAgree) (e : Expr) : (s.eval e).Agrees := by
  induction e with
  | register name => exact h.read (.reg name)
  | constant _ => exact Value.agrees_uniform .low
  | binary _ lhs rhs ihl ihr => exact ihl.join ihr

theorem written (h : s.ViewsAgree) (i : Instr) : (s.written i).Agrees := by
  cases i with
  | assign dest e => exact h.eval e
  | load dest addr => exact (h.read (.cell addr.render)).join (h.eval addr)
  | store src addr => exact (h.read (.reg src)).join (h.eval addr)
  | cmov dest cond value => exact (h.eval cond).join (h.eval value)
  | _ => exact Value.agrees_uniform .low

/-- A committed instruction keeps the views in agreement. -/
theorem apply (h : s.ViewsAgree) (i : Instr) (pc : String) :
    (s.apply i pc .committed).ViewsAgree := by
  refine ⟨fun loc => ?_⟩
  rw [read_apply]
  split
  · exact h.written i
  · exact h.read loc

theorem leakFree (h : s.ViewsAgree) : s.LeakFree := by
  rintro v (hv | hv)
  · obtain ⟨⟨name, v⟩, he, rfl⟩ := List.mem_map.1 hv
    have hread : s.reg name = v := by
      rw [State.reg, SortedMap.getD, (SortedMap.mem_entries_iff _).1 he]
      rfl
    exact hread ▸ (h.read (.reg name)).relation_ne_leak
  · obtain ⟨⟨key, v⟩, he, rfl⟩ := List.mem_map.1 hv
    have hread : s.cell key = v := by
      rw [State.cell, SortedMap.getD, (SortedMap.mem_entries_iff _).1 he]
      rfl
    exact hread ▸ (h.read (.cell key)).relation_ne_leak

end ViewsAgree

/-- What holds of the levels of a policy and of the defaults holds of all that a program starts
    with. -/
theorem forall_reg_seeded {P : String → Value → Prop} {p : Policy} (hlow : ∀ name, P name .low)
    (hregs : ∀ e ∈ p.regs.entries, P e.1 (.uniform e.2)) (registers : List String) (name : String) :
    P name ((seeded p registers).reg name) := by
  have hnamed : ∀ k v, (registers.foldl
      (fun (m : SortedMap String Value) r => m.insert r .low) .empty).get? k = some v → P k v :=
    SortedMap.forall_get?_foldl_insert (fun name _ => hlow name) (fun _ _ h => by cases h)
  rw [reg, SortedMap.getD]
  cases hv : (seeded p registers).regs.get? name with
  | none => exact hlow name
  | some v => exact SortedMap.forall_get?_foldl_insert hregs hnamed name v hv

theorem forall_cell_seeded {P : Value → Prop} {p : Policy} (hhigh : P .high)
    (hmem : ∀ e ∈ p.mem.entries, P (.uniform e.2)) (registers : List String) (key : String) :
    P ((seeded p registers).cell key) := by
  rw [cell, SortedMap.getD]
  cases hv : (seeded p registers).mem.get? key with
  | none => exact hhigh
  | some v =>
    exact SortedMap.forall_get?_foldl_insert (P := fun _ => P) hmem (fun _ _ h => by cases h) key v
      hv

theorem viewsAgree_seeded (p : Policy) (registers : List String) :
    (seeded p registers).ViewsAgree := by
  have huniform : ∀ l : Level, (Value.uniform l).Agrees := Value.agrees_uniform
  refine ⟨fun loc => ?_⟩
  cases loc with
  | reg name =>
    exact forall_reg_seeded (P := fun _ => Value.Agrees) (fun _ => huniform .low)
      (fun e _ => huniform e.2) registers name
  | cell key => exact forall_cell_seeded (huniform .high) (fun e _ => huniform e.2) registers key

theorem ViewsAgree.received {i out : State} {old : Option State} {payload : Payload}
    (hi : i.ViewsAgree) (hold : ∀ s ∈ old, s.ViewsAgree)
    (hout : payload = .full → out.ViewsAgree) :
    (Machine.received i old out payload).ViewsAgree := by
  cases payload with
  | full =>
    cases old with
    | none => exact hout rfl
    | some s => exact (hold s rfl).join (hout rfl)
  | observations =>
    cases old with
    | none => exact hi.of_sameStore ⟨rfl, rfl⟩
    | some s => exact (hold s rfl).of_sameStore ⟨rfl, rfl⟩

end State

/-! ## Committed points -/

namespace Setup

variable {s : Setup} {entry k : Key} {st out : State}

theorem viewsAgree_after (hst : st.ViewsAgree) (hmode : k.mode = .committed)
    (h : s.after k st = .ok out) : out.ViewsAgree := by
  obtain ⟨-, rfl⟩ | ⟨pc, i, -, rfl⟩ := after_cases h
  · exact hst
  · rw [hmode]
    exact hst.apply i pc

/-- What can be stored at a committed point has views that agree. -/
theorem Stores.viewsAgree (hi : s.initial.ViewsAgree) (h : s.Stores entry k st)
    (hmode : k.mode = .committed) : st.ViewsAgree := by
  induction h with
  | start => exact hi
  | @pass k target st out payload old visited after violation move held ih ihheld =>
    refine hi.received (fun st' hst' => ihheld st' hst' hmode) fun hfull => ?_
    subst hfull
    have hk := mode_of_full_move move hmode
    exact viewsAgree_after (ih hk) hk after

theorem Visits.viewsAgree (hi : s.initial.ViewsAgree) {step : Step} (h : s.Visits entry step)
    (hmode : step.mode = .committed) : step.state.ViewsAgree := by
  obtain ⟨k, n, st, out, hst, -, hafter, hstep⟩ := h
  have hk : k.mode = .committed := by
    rw [hstep] at hmode
    exact hmode
  rw [hstep]
  exact viewsAgree_after (hst.viewsAgree hi hk) hk hafter

end Setup

/-- Both views see the same in all that a machine holds for committed execution: in the states of
    committed points and in the committed steps of the trace. -/
structure Machine.CommittedAgree (m : Machine) : Prop where
  table : ∀ (k : Key) (st : State), m.table[k]? = some st → k.mode = .committed →
    st.ViewsAgree ∧ st.LeakFree
  trace : ∀ step ∈ m.trace, step.mode = .committed → step.state.ViewsAgree ∧ step.state.LeakFree

namespace Machine

theorem Accounted.committedAgree {s : Setup} {entry : Key} {m : Machine}
    (hi : s.initial.ViewsAgree) (h : Accounted s entry m) : CommittedAgree m := by
  refine ⟨fun k st hst hmode => ?_, fun step hs hmode => ?_⟩
  · have hagree := (h.stored k st hst).viewsAgree hi hmode
    exact ⟨hagree, hagree.leakFree⟩
  · have hagree := (h.visited step hs).viewsAgree hi hmode
    exact ⟨hagree, hagree.leakFree⟩

end Machine

/-- At every moment of an analysis, where it stops, and in its report, speculation has left no trace
    in the registers and the memory of committed execution. In particular no value there has the
    relation of a leak. -/
theorem analyze_viewsAgree (g : SpecGraph) (o : Options) :
    (∀ cap entry m k out rest, Machine.Moment (Setup.of g o) cap entry m k out rest →
        m.CommittedAgree) ∧
      (Setup.of g o).run.machine.CommittedAgree ∧
      ∀ step ∈ (g.analyze o).result.trace, step.mode = .committed →
        step.state.ViewsAgree ∧ step.state.LeakFree := by
  have hi : (Setup.of g o).initial.ViewsAgree := State.viewsAgree_seeded _ _
  have hrun : (Setup.of g o).run.machine.CommittedAgree := by
    rcases (Setup.of g o).run_cases with ⟨hmachine, -⟩ | ⟨entry, hentry⟩
    · rw [hmachine]
      refine ⟨fun k st hst => ?_, fun step hs => ?_⟩
      · rw [Machine.empty, Std.TreeMap.getElem?_emptyc] at hst
        cases hst
      · cases hs with | mk hs => cases hs
    · rw [Setup.run_of_entry hentry]
      exact (Machine.accounted_run ..).committedAgree hi
  exact ⟨fun cap entry m k out rest h => h.accounted.1.committedAgree hi, hrun,
    fun step hs hmode => hrun.trace step (Array.mem_def.2 hs) hmode⟩

end Mispredict
