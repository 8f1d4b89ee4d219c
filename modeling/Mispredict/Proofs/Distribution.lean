/-
  Instructions distribute over joins of registers and memory.

  Where two states are joined, an instruction may be executed before or after the join: registers
  and memory are the same as they are stored (`State.apply_join`), with what either side lists.
  This holds of committed writes, which replace, and of speculative ones, which add. It carries over
  from one instruction to the next, since what an instruction does to registers and memory does not
  depend on observations (`Distributes.comp`).

  Observations are not like that. A speculative secret is a leak unless there is a baseline for it,
  and a join may bring in the baseline of the other side.
-/
import Mispredict.Proofs.Views

namespace Mispredict.State

open MuAsm (Instr)

/-- A change of states does to the registers and the memory of a join what it does to those of its
    sides. -/
structure Distributes (f : State → State) : Prop where
  regs : ∀ s t : State, (f (s.join t)).regs = ((f s).join (f t)).regs
  mem : ∀ s t : State, (f (s.join t)).mem = ((f s).join (f t)).mem
  /-- What it does to registers and memory depends on them only. -/
  congr : ∀ s t : State, s.SameStore t → (f s).SameStore (f t)

namespace Distributes

variable {f g : State → State}

theorem sameStore (h : Distributes f) (s t : State) :
    (f (s.join t)).SameStore ((f s).join (f t)) :=
  ⟨h.regs s t, h.mem s t⟩

theorem apply (i : Instr) (pc : String) (mode : Mode) :
    Distributes fun s => s.apply i pc mode where
  regs s t := (apply_join s t i pc mode).1
  mem s t := (apply_join s t i pc mode).2
  congr _ _ h := h.apply i pc mode

theorem id : Distributes fun s => s where
  regs _ _ := rfl
  mem _ _ := rfl
  congr _ _ h := h

theorem comp (hf : Distributes f) (hg : Distributes g) : Distributes fun s => g (f s) := by
  have hstep : ∀ s t : State, (g (f (s.join t))).SameStore (g ((f s).join (f t))) :=
    fun s t => hg.congr _ _ (hf.sameStore s t)
  exact
    { regs := fun s t => (hstep s t).1.trans (hg.regs (f s) (f t))
      mem := fun s t => (hstep s t).2.trans (hg.mem (f s) (f t))
      congr := fun s t h => hg.congr _ _ (hf.congr s t h) }

theorem applyAll (code : List (String × Instr)) (mode : Mode) :
    Distributes fun s => s.applyAll code mode :=
  applyAll_induction .id (fun _ _ => .comp) (fun i pc => .apply i pc mode) code

end Distributes

/-- Instructions distribute over joins of registers and memory, one by one and in sequence. -/
theorem instructions_distribute (mode : Mode) :
    (∀ i pc, Distributes fun s => s.apply i pc mode) ∧
      ∀ code, Distributes fun s => s.applyAll code mode :=
  ⟨fun i pc => .apply i pc mode, fun code => .applyAll code mode⟩

-- after the join a branch on the secret `h` has the baseline of one side; before it, only that side
example :
    let i : Instr := .beqz (.register "h") "L" none
    let s := seeded (Policy.empty.setReg "h" .high) []
    let t := s.apply i "3" .committed
    ((s.join t).apply i "3" .speculative).hasViolation = false ∧
      ((s.apply i "3" .speculative).join (t.apply i "3" .speculative)).hasViolation = true := by
  decide

end Mispredict.State
