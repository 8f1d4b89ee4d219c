/-
  Values and states as JSON. The relation of a value is written for the reader's
  convenience and computed anew when a value is read.
-/
import Mispredict.Security.State

namespace Mispredict

namespace Value

/-- A value: its two levels and their relation. -/
def toJson (v : Value) : Json :=
  .obj [("ns", .str v.committed.name), ("sp", .str v.speculative.name),
    ("rel", .str v.relation.name)]

/-- Reads a value by its two levels; what is said of their relation is ignored. -/
def ofJson (j : Json) : Decoded Value := do
  let fields ← j.record ["ns", "sp"] 2
  return {
    committed := ← Json.required fields "ns" (Json.asName Level.names)
    speculative := ← Json.required fields "sp" (Json.asName Level.names) }

end Value

namespace State

/-- A state: registers, cells and the two channels of observations, each by name. -/
def toJson (s : State) : Json :=
  let values (m : SortedMap String Value) : Json := .obj (m.entries.map fun (k, v) => (k, v.toJson))
  let relations (o : Observations) : Json := .obj (o.entries.map fun (k, r) => (k, .str r.name))
  .obj [("regs", values s.regs), ("mem", values s.mem), ("obsMem", relations s.obsMem),
    ("obsCtrl", relations s.obsCtrl)]

/-- Reads a state, all four parts of which are required. -/
def ofJson (j : Json) : Decoded State := do
  let values := Json.asMap Value.ofJson
  let relations := Json.asMap (Json.asName Relation.names)
  let fields ← j.record ["regs", "mem", "obsMem", "obsCtrl"] 4
  return {
    regs := ← Json.required fields "regs" values
    mem := ← Json.required fields "mem" values
    obsMem := ← Json.required fields "obsMem" relations
    obsCtrl := ← Json.required fields "obsCtrl" relations }

end State

end Mispredict
