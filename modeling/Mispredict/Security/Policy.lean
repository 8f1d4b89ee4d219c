/-
  The levels of a program's inputs.
-/
import Mispredict.Json.Decode
import Mispredict.Json.Parser
import Mispredict.Security.Level

namespace Mispredict

/-- The levels of the registers and memory cells that a program starts with. -/
structure Policy where
  regs : SortedMap String Level
  mem : SortedMap String Level
  deriving DecidableEq

namespace Policy

/-- The policy that says nothing. -/
def empty : Policy := ⟨.empty, .empty⟩

instance : Inhabited Policy := ⟨empty⟩

/-- The policy with a level for this register. -/
def setReg (p : Policy) (name : String) (l : Level) : Policy :=
  { p with regs := p.regs.insert name l }

/-- The policy with a level for this cell. -/
def setCell (p : Policy) (key : String) (l : Level) : Policy :=
  { p with mem := p.mem.insert key l }

/-- A policy: the levels of registers and of cells, by name. -/
def toJson (p : Policy) : Json :=
  let levels (m : SortedMap String Level) : Json :=
    .obj (m.entries.map fun (k, l) => (k, .str l.name))
  .obj [("regs", levels p.regs), ("mem", levels p.mem)]

/-- Reads a policy. Registers and cells may both be left out. -/
def ofJson (j : Json) : Decoded Policy := do
  let levels := Json.asMap (Json.asName Level.names)
  let fields ← j.record ["regs", "mem"] 0
  return {
    regs := ← Json.withDefault fields "regs" levels .empty
    mem := ← Json.withDefault fields "mem" levels .empty }

/-- The policy that a JSON text describes. -/
def parse? (text : String) : Option Policy := do
  let j ← Json.parse? text
  (ofJson j).toOption

end Policy

end Mispredict
