/-
  What an instruction does to an abstract state.
-/
import Mispredict.MuAsm.Instr
import Mispredict.Security.State

namespace Mispredict

open MuAsm (Expr Instr Jump)

namespace State

/-- The level of an expression in a state. Constants are public. -/
def eval (s : State) : Expr → Value
  | .register name => s.reg name
  | .constant _ => .low
  | .binary _ lhs rhs => (s.eval lhs).join (s.eval rhs)

/-- The state after the instruction at `pc`. What it reads is read from the state before it. A load
    is observed by the level of what it loads, a store by that of its address, a branch by that of
    its condition and a jump by that of its target, which is public if it is known. -/
def apply (s : State) (i : Instr) (pc : String) (mode : Mode) : State :=
  match i with
  | .skip => s
  | .spbarr => s
  | .assign dest expr => s.writeReg dest (s.eval expr) mode
  | .load dest addr =>
    let key := addr.render
    let loaded := (s.cell key).join (s.eval addr)
    (s.observeMem (pc ++ ":" ++ key) (loaded.view mode) mode).writeReg dest loaded mode
  | .store src addr =>
    let key := addr.render
    let address := s.eval addr
    (s.observeMem (pc ++ ":" ++ key) (address.view mode) mode).writeCell key
      ((s.reg src).join address) mode
  | .cmov dest cond value => s.writeReg dest ((s.eval cond).join (s.eval value)) mode
  | .beqz cond _ _ => s.observeCtrl pc ((s.eval cond).view mode) mode
  | .jmp target resolved =>
    let level := match resolved with
      | .pc _ => .low
      | .label _ => (s.eval target).view mode
      | .dynamic => (s.eval target).view mode
    s.observeCtrl (pc ++ ":target:" ++ target.render) level mode

end State

end Mispredict
