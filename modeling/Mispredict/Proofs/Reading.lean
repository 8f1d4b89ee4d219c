/-
  Levels that are read off a state.

  A reading takes a level from the registers and the memory of a state, and what it
  reads off a join is the join of what it reads off the two sides. The level that a
  visit shows is a reading. A reading of the state after a visit is also a reading of
  the state before it (`Reading.before`), since instructions treat registers and memory
  of a join as they treat those of its sides (`apply_join`). By this a level at the end
  of a path can be followed back to the start, through joins and over visits.
-/
import Mispredict.Proofs.Leak

namespace Mispredict

open MuAsm (Expr Instr)

namespace State

/-! ## Registers and memory -/

/-- The states have the same registers and the same memory. -/
def SameStore (s t : State) : Prop := s.regs = t.regs ∧ s.mem = t.mem

namespace SameStore

variable {s t : State}

theorem reg (h : s.SameStore t) (name : String) : s.reg name = t.reg name := by
  rw [State.reg, State.reg, h.1]

theorem cell (h : s.SameStore t) (key : String) : s.cell key = t.cell key := by
  rw [State.cell, State.cell, h.2]

theorem eval (h : s.SameStore t) (e : Expr) : s.eval e = t.eval e := by
  induction e with
  | register name => exact h.reg name
  | constant _ => rfl
  | binary _ lhs rhs ihl ihr => rw [State.eval, State.eval, ihl, ihr]

theorem shown (h : s.SameStore t) (i : Instr) : s.shown i = t.shown i := by
  cases i with
  | jmp target resolved => cases resolved <;> simp only [State.shown, h.eval]
  | _ => simp only [State.shown, h.eval, h.cell]

theorem writeReg (h : s.SameStore t) (name : String) (v : Value) (mode : Mode) :
    (s.writeReg name v mode).SameStore (t.writeReg name v mode) := by
  refine ⟨?_, h.2⟩
  rw [State.writeReg, State.writeReg, h.1, h.reg]

theorem writeCell (h : s.SameStore t) (key : String) (v : Value) (mode : Mode) :
    (s.writeCell key v mode).SameStore (t.writeCell key v mode) := by
  refine ⟨h.1, ?_⟩
  rw [State.writeCell, State.writeCell, h.2, h.cell]

theorem apply (h : s.SameStore t) (i : Instr) (pc : String) (mode : Mode) :
    (s.apply i pc mode).SameStore (t.apply i pc mode) := by
  cases i with
  | skip => exact h
  | spbarr => exact h
  | assign dest e =>
    rw [State.apply, State.apply, h.eval]
    exact h.writeReg dest _ mode
  | load dest addr =>
    simp only [State.apply, h.eval, h.cell]
    exact writeReg (s := s.observeMem ..) (t := t.observeMem ..) h dest _ mode
  | store src addr =>
    simp only [State.apply, h.eval, h.reg]
    exact writeCell (s := s.observeMem ..) (t := t.observeMem ..) h _ _ mode
  | cmov dest cond value =>
    rw [State.apply, State.apply, h.eval, h.eval]
    exact h.writeReg dest _ mode
  | beqz _ _ _ => exact h
  | jmp _ _ => exact h

end SameStore

theorem eval_join (s t : State) (e : Expr) : (s.join t).eval e = (s.eval e).join (t.eval e) := by
  induction e with
  | register name => exact reg_join s t name
  | constant _ => rfl
  | binary _ lhs rhs ihl ihr =>
    rw [eval, ihl, ihr, Value.join_join_join_comm]
    rfl

theorem shown_join (s t : State) (i : Instr) :
    (s.join t).shown i = (s.shown i).join (t.shown i) := by
  cases i with
  | load _ addr => simp only [shown, eval_join, cell_join, Value.join_join_join_comm]
  | store _ addr => exact eval_join s t addr
  | beqz cond _ _ => exact eval_join s t cond
  | jmp target resolved =>
    cases resolved with
    | pc _ => rfl
    | _ => exact eval_join s t target
  | _ => rfl

theorem writeReg_join (s t : State) (name : String) (v w : Value) (mode : Mode) :
    ((s.join t).writeReg name (v.join w) mode).SameStore
      ((s.writeReg name v mode).join (t.writeReg name w mode)) := by
  refine ⟨?_, rfl⟩
  rw [writeReg, reg_join, Value.overwrite_join]
  exact SortedMap.insert_unionWith ..

theorem writeCell_join (s t : State) (key : String) (v w : Value) (mode : Mode) :
    ((s.join t).writeCell key (v.join w) mode).SameStore
      ((s.writeCell key v mode).join (t.writeCell key w mode)) := by
  refine ⟨rfl, ?_⟩
  rw [writeCell, cell_join, Value.overwrite_join]
  exact SortedMap.insert_unionWith ..

/-- An instruction does to registers and memory of a join what it does to those of its sides. -/
theorem apply_join (s t : State) (i : Instr) (pc : String) (mode : Mode) :
    ((s.join t).apply i pc mode).SameStore ((s.apply i pc mode).join (t.apply i pc mode)) := by
  cases i with
  | assign dest e =>
    rw [apply, eval_join]
    exact writeReg_join ..
  | load dest addr =>
    simp only [apply, eval_join, cell_join, Value.join_join_join_comm]
    exact writeReg_join s t dest _ _ mode
  | store src addr =>
    simp only [apply, eval_join, reg_join, Value.join_join_join_comm]
    exact writeCell_join s t _ _ _ mode
  | cmov dest cond value =>
    simp only [apply, eval_join, Value.join_join_join_comm]
    exact writeReg_join s t dest _ _ mode
  | _ => exact ⟨rfl, rfl⟩

end State

/-! ## Readings -/

/-- A level that is read off registers and memory, from both sides of a join alike. -/
structure Reading where
  level : State → Level
  congr : ∀ {s t : State}, s.SameStore t → level s = level t
  join : ∀ s t : State, level (s.join t) = (level s).join (level t)

namespace Setup

/-- The state after a visit of a point that can be visited. -/
def advance (s : Setup) (k : Key) (st : State) : State :=
  match s.executed? k with
  | some (pc, i) => st.apply i pc k.mode
  | none => st

variable {s : Setup} {k : Key} {st out : State}

/-- Whether a point can be visited does not depend on the state. -/
theorem after_eq_advance (h : s.after k st = .ok out) (st' : State) :
    s.after k st' = .ok (s.advance k st') := by
  obtain ⟨n, hn, h⟩ := after_eq_ok_iff.1 h
  obtain ⟨executed, he, -⟩ := bind_eq_ok_iff.1 h
  refine after_eq_ok_iff.2 ⟨n, hn, bind_eq_ok_iff.2 ⟨executed, he, ?_⟩⟩
  rw [advance, executed?, hn]
  dsimp only
  rw [he]
  cases executed <;> rfl

theorem eq_advance (h : s.after k st = .ok out) : out = s.advance k st :=
  Except.ok.inj (h.symm.trans (after_eq_advance h st))

/-- What a visit of a point shows. -/
def shows (s : Setup) (k : Key) : Reading where
  level := s.shown k
  congr := by
    intro st st' h
    unfold shown
    split
    · rw [h.shown]
    · rfl
  join := by
    intro st st'
    unfold shown
    split
    · rw [State.shown_join, Value.view_join]
    · rfl

end Setup

namespace Reading

/-- What is read off the state after a visit, as a reading of the state before it. -/
def before (ρ : Reading) (s : Setup) (k : Key) : Reading where
  level := fun st => ρ.level (s.advance k st)
  congr := by
    intro st st' h
    unfold Setup.advance
    split
    · exact ρ.congr (h.apply ..)
    · exact ρ.congr h
  join := by
    intro st st'
    unfold Setup.advance
    split
    · rw [ρ.congr (State.apply_join ..), ρ.join]
    · exact ρ.join st st'

/-- Levels are in a chain: what is read off a join is what is read off one of its sides. -/
theorem join_eq_or (ρ : Reading) (s t : State) :
    ρ.level (s.join t) = ρ.level s ∨ ρ.level (s.join t) = ρ.level t := by
  rw [ρ.join]
  exact Level.join_eq_or ..

end Reading

end Mispredict
