/-
  Instructions of MuASM.
-/
import Mispredict.MuAsm.Expr

namespace Mispredict.MuAsm

/-- Where a jump goes. -/
inductive Jump where
  /-- To a known program counter. -/
  | pc (n : Nat)
  /-- To a name that is no label of the program. -/
  | label (name : String)
  /-- To a place known only when the program runs. -/
  | dynamic
  deriving DecidableEq, Repr

/-- An instruction of the assembly language. -/
inductive Instr where
  | skip
  /-- `dest <- expr` -/
  | assign (dest : String) (expr : Expr)
  /-- `load dest, addr` -/
  | load (dest : String) (addr : Expr)
  /-- `store src, addr` -/
  | store (src : String) (addr : Expr)
  /-- `beqz cond, target`: a branch to the label when the condition is zero. -/
  | beqz (cond : Expr) (target : String) (targetPc : Option Nat)
  /-- `jmp target` -/
  | jmp (target : Expr) (resolved : Jump)
  /-- A speculation barrier. -/
  | spbarr
  /-- `dest <- value ? cond`: a move under a condition. -/
  | cmov (dest : String) (cond value : Expr)
  deriving DecidableEq, Repr

namespace Instr

/-- The name of an instruction, whatever its operands. -/
def mnemonic : Instr → String
  | .skip => "skip"
  | .assign .. => "assign"
  | .load .. => "load"
  | .store .. => "store"
  | .beqz .. => "beqz"
  | .jmp .. => "jmp"
  | .spbarr => "spbarr"
  | .cmov .. => "cmov"

/-- Whether an instruction is a conditional branch, the only one that is mispredicted. -/
def isBranch : Instr → Bool
  | .beqz .. => true
  | _ => false

/-- Whether an instruction ends speculation. -/
def isBarrier : Instr → Bool
  | .spbarr => true
  | _ => false

/-- The registers that an instruction reads, in order, repetitions included. A jump reads its target
    only when that is dynamic. -/
def registersRead : Instr → List String
  | .skip => []
  | .spbarr => []
  | .assign _ expr => expr.registers
  | .load _ addr => addr.registers
  | .store src addr => src :: addr.registers
  | .beqz cond _ _ => cond.registers
  | .jmp target .dynamic => target.registers
  | .jmp _ _ => []
  | .cmov _ cond value => value.registers ++ cond.registers

/-- The register that an instruction writes, if it writes one. -/
def registersWritten : Instr → List String
  | .assign dest _ => [dest]
  | .load dest _ => [dest]
  | .cmov dest _ _ => [dest]
  | _ => []

/-- The registers of an instruction, those read first. -/
def registers (i : Instr) : List String := i.registersRead ++ i.registersWritten

/-- The instruction as source text. A jump shows its target, not where it was resolved to. -/
def render : Instr → String
  | .skip => "skip"
  | .assign dest expr => dest ++ " <- " ++ expr.render
  | .load dest addr => "load " ++ dest ++ ", " ++ addr.render
  | .store src addr => "store " ++ src ++ ", " ++ addr.render
  | .beqz cond target _ => "beqz " ++ cond.render ++ ", " ++ target
  | .jmp target _ => "jmp " ++ target.render
  | .spbarr => "spbarr"
  | .cmov dest cond value => dest ++ " <- " ++ value.render ++ " ? " ++ cond.render

end Instr

end Mispredict.MuAsm
