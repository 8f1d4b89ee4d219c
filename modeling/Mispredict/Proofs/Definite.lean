/-
  Levels that are defined.

  The lowest level, `bot`, stands for a level that nobody has said anything about. It counts as
  a secret, but joined with the level of something public it is public. A policy that gives it
  to no register is definite. Then no state of the analysis has it in a register
  (`Stores.definite`), since what instructions write there they compute from constants and from
  registers, if they do not load it, and a load joins in the level of its address. So nothing
  that a visit shows has the level `bot` (`Setup.shown_ne_bot`). Cells may have it.
-/
import Mispredict.Proofs.Agreement
import Mispredict.Proofs.Origin

namespace Mispredict

open MuAsm (Expr Instr)

open Machine

/-- The policy leaves the level of no register undefined. -/
def Policy.Definite (p : Policy) : Prop := ∀ e ∈ p.regs.entries, e.2 ≠ .bot

instance (p : Policy) : Decidable p.Definite :=
  inferInstanceAs (Decidable (∀ e ∈ p.regs.entries, e.2 ≠ .bot))

namespace Value

theorem low_le_uniform {l : Level} (h : l ≠ .bot) : low ≤ uniform l := by
  rw [le_iff_view_le]
  intro mode
  rw [Level.le_iff_height_le]
  cases l with
  | bot => exact absurd rfl h
  | _ => cases mode <;> decide

theorem low_le_overwrite {v w : Value} (hv : low ≤ v) (hw : low ≤ w) (mode : Mode) :
    low ≤ v.overwrite w mode := by
  have hlow : low.overwrite low mode = low := by cases mode <;> decide
  exact hlow ▸ overwrite_le_overwrite hv hw mode

theorem view_ne_bot {v : Value} (h : low ≤ v) (mode : Mode) : v.view mode ≠ .bot := by
  have hview := Level.le_iff_height_le.1 (le_iff_view_le.1 h mode)
  intro hbot
  rw [hbot] at hview
  cases mode <;> exact absurd hview (by decide)

end Value

namespace State

/-- All registers have levels that are defined. -/
structure Definite (s : State) : Prop where
  reg : ∀ name, Value.low ≤ s.reg name

theorem definite_seeded {p : Policy} (h : p.Definite) (registers : List String) :
    (seeded p registers).Definite :=
  ⟨forall_reg_seeded (P := fun _ v => .low ≤ v) (fun _ => le_rfl)
    (fun e he => Value.low_le_uniform (h e he)) registers⟩

namespace Definite

variable {s t : State}

theorem of_storeLe (h : s.Definite) (hle : s.StoreLe t) : t.Definite :=
  ⟨fun name => (h.reg name).trans (hle.reg name)⟩

theorem of_regs_eq (h : s.Definite) (hregs : s.regs = t.regs) : t.Definite := by
  refine ⟨fun name => ?_⟩
  rw [State.reg, ← hregs]
  exact h.reg name

theorem eval (h : s.Definite) (e : Expr) : Value.low ≤ s.eval e := by
  induction e with
  | register name => exact h.reg name
  | constant _ => exact le_rfl
  | binary _ lhs rhs ihl ihr => exact le_sup_of_le_left ihl

theorem shown (h : s.Definite) (i : Instr) : Value.low ≤ s.shown i := by
  cases i with
  | load dest addr => exact le_sup_of_le_right (h.eval addr)
  | store src addr => exact h.eval addr
  | beqz cond label target => exact h.eval cond
  | jmp target resolved =>
    cases resolved with
    | pc n => exact le_rfl
    | _ => exact h.eval target
  | _ => exact le_rfl

theorem written (h : s.Definite) (i : Instr) : Value.low ≤ s.written i := by
  cases i with
  | assign dest e => exact h.eval e
  | load dest addr => exact le_sup_of_le_right (h.eval addr)
  | store src addr => exact le_sup_of_le_right (h.eval addr)
  | cmov dest cond value => exact le_sup_of_le_left (h.eval cond)
  | _ => exact le_rfl

theorem apply (h : s.Definite) (i : Instr) (pc : String) (mode : Mode) :
    (s.apply i pc mode).Definite := by
  refine ⟨fun name => ?_⟩
  have hread := s.read_apply i pc mode (.reg name)
  rw [read, read] at hread
  rw [hread]
  split
  · exact Value.low_le_overwrite (h.reg name) (h.written i) mode
  · exact h.reg name

theorem received {i out : State} {old : Option State} {payload : Payload} (hi : i.Definite)
    (hold : ∀ s ∈ old, s.Definite) (hout : out.Definite) :
    (Machine.received i old out payload).Definite := by
  cases payload with
  | full =>
    cases old with
    | none => exact hout
    | some s => exact hout.of_storeLe (.join_right s out)
  | observations =>
    cases old with
    | none => exact hi.of_regs_eq rfl
    | some s => exact (hold s rfl).of_regs_eq rfl

end Definite

end State

namespace Setup

variable {s : Setup} {entry r k : Key} {R st τ : State}

theorem definite_advance (h : st.Definite) : (s.advance k st).Definite := by
  unfold advance
  split
  · exact h.apply ..
  · exact h

/-- What can be stored is definite if the start is. -/
theorem Stores.definite (hi : s.initial.Definite) (h : s.Stores entry k st) : st.Definite := by
  induction h with
  | start => exact hi
  | pass visited after violation move held ih ihheld =>
    exact hi.received ihheld (eq_advance after ▸ definite_advance ih)

theorem Trail.definite (hR : R.Definite) (h : s.Trail r R k τ) : τ.Definite := by
  induction h with
  | start => exact hR
  | move _ _ ih => exact definite_advance ih

theorem shown_ne_bot (h : st.Definite) : s.shown k st ≠ .bot := by
  unfold shown
  split
  · exact Value.view_ne_bot (h.shown _) _
  · decide

end Setup

end Mispredict
