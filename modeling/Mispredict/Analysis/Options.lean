/-
  How a graph is analysed.
-/
import Mispredict.Security.Policy
import Mispredict.SpecGraph.Options

namespace Mispredict

/-- In which order pending work is done. -/
inductive TraceMode where
  /-- First in, first out. -/
  | breadthFirst
  /-- Last in, first out: one path is followed to its end before the next. -/
  | singlePath
  deriving DecidableEq, Repr

/-- The name of the order as an option value. -/
def TraceMode.name : TraceMode → String
  | .breadthFirst => "bfs"
  | .singlePath => "single-path"

/-- The orders by their names. -/
def TraceMode.names : List (String × TraceMode) :=
  [("bfs", .breadthFirst), ("single-path", .singlePath)]

/-- How a graph is analysed. -/
structure Options where
  policy : Policy := .empty
  /-- Registers that are tracked even if no instruction names them. -/
  entryRegs : List String := []
  /-- The node at which to start, if not at the entry of the graph. -/
  entryNode : Option String := none
  traceMode : TraceMode := .breadthFirst
  /-- The most steps of a trace. -/
  maxSteps : Nat := 10000
  /-- The most changes of a state. -/
  iterationCap : Nat := 100000
  speculation : SpeculationMode := .discard
  /-- How many instructions a speculation may execute. -/
  specWindow : Int := 8
  deriving DecidableEq, Inhabited

namespace Options

/-- All options, defaults too. An entry node that was not given is `null`. -/
def toJson (o : Options) : Json :=
  .obj [("policy", o.policy.toJson), ("entryRegs", .strings o.entryRegs),
    ("entryNodeId", .nullable .str o.entryNode), ("traceMode", .str o.traceMode.name),
    ("maxSteps", .nat o.maxSteps), ("iterationCap", .nat o.iterationCap),
    ("speculationMode", .str o.speculation.name), ("specWindow", .int o.specWindow)]

/-- Reads options. What is left out has its default; only the entry node may be `null`. -/
def ofJson (j : Json) : Decoded Options := do
  let fields ← j.record ["policy", "entryRegs", "entryNodeId", "traceMode", "maxSteps",
    "iterationCap", "speculationMode", "specWindow"] 0
  let d : Options := {}
  return {
    policy := ← Json.withDefault fields "policy" Policy.ofJson d.policy
    entryRegs := ← Json.withDefault fields "entryRegs" (Json.asList Json.asString) d.entryRegs
    entryNode := ← Json.optional fields "entryNodeId" Json.asString
    traceMode := ← Json.withDefault fields "traceMode" (Json.asName TraceMode.names) d.traceMode
    maxSteps := ← Json.withDefault fields "maxSteps" Json.asNat d.maxSteps
    iterationCap := ← Json.withDefault fields "iterationCap" Json.asNat d.iterationCap
    speculation :=
      ← Json.withDefault fields "speculationMode" (Json.asName SpeculationMode.names) d.speculation
    specWindow := ← Json.withDefault fields "specWindow" Json.asInt d.specWindow }

end Options

end Mispredict
