/-
  Programs of MuASM: instructions by program counter, and labels.
-/
import Mispredict.MuAsm.Instr
import Std.Data.ExtTreeMap
import Std.Data.ExtTreeSet

namespace Mispredict.MuAsm

/-- One instruction of a program and its place in the source. -/
structure Entry where
  /-- The first of the labels that stand before the instruction. -/
  label : Option String
  instr : Instr
  /-- The line of the source, counted from 1. -/
  sourceLine : Nat
  pc : Nat
  deriving DecidableEq, Repr

/-- A program. A label may also be bound to the program counter after the last instruction. -/
structure Program where
  entries : List Entry
  labels : Std.ExtTreeMap String Nat

namespace Program

instance : DecidableEq Program := fun p q =>
  decidable_of_iff (p.entries = q.entries ∧ p.labels = q.labels) <| by
    cases p; cases q; simp

/-- How many instructions the program has. -/
def length (p : Program) : Nat := p.entries.length

/-- The entry at a program counter. -/
def entry? (p : Program) (pc : Nat) : Option Entry := p.entries[pc]?

/-- The instruction at a program counter. -/
def instr? (p : Program) (pc : Nat) : Option Instr := (p.entry? pc).map (·.instr)

/-- The program counter to which a label is bound. -/
def labelPc? (p : Program) (label : String) : Option Nat := p.labels[label]?

/-- The registers of the program in increasing order, each once. -/
def registers (p : Program) : List String :=
  (Std.ExtTreeSet.ofList (p.entries.flatMap (·.instr.registers))).toList

/-- The lines of the text for one program counter: its labels, then its instruction. -/
def renderAt (p : Program) (labels : List (String × Nat)) (pc : Nat) : List String :=
  ((labels.filter (·.2 == pc)).map (·.1 ++ ":\n")) ++
    ((p.instr? pc).map fun i => "    " ++ i.render ++ "\n").toList

/-- The program as a source text. The labels of one program counter are in increasing order. -/
def render (p : Program) : String :=
  let labels := p.labels.toList
  String.join ((List.range (p.length + 1)).flatMap (p.renderAt labels))

end Program

end Mispredict.MuAsm
