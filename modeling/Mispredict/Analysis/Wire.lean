/-
  Reports as JSON. An error is left out when there is none, and so are warnings.
-/
import Mispredict.Analysis.Report
import Mispredict.Json.Printer
import Mispredict.Security.Wire
import Mispredict.SpecGraph.Wire

namespace Mispredict

/-- The verdicts by their names. -/
def Verdict.names : List (String × Verdict) :=
  [("Secure", .secure), ("SNI_Violation", .violation)]

/-- The classes of errors by their names. -/
def ErrorClass.names : List (String × ErrorClass) :=
  [("ParseError", .parse), ("AnalysisError", .analysis), ("InternalError", .internal)]

/-- The kinds of warnings by their names. -/
def WarningKind.names : List (String × WarningKind) := [("TopObserved", .topObserved)]

namespace Step

/-- A step. A description that is not there is left out. -/
def toJson (s : Step) : Json :=
  .obj ([("stepId", .nat s.id), ("nodeId", .str s.nodeId), ("pc", .int s.pc.toInt),
    ("executionMode", .str s.mode.name)] ++ Json.member? "description" .str s.description ++
    [("state", s.state.toJson), ("isViolation", .bool s.isViolation)])

/-- Reads a step; all but the description is required. -/
def ofJson (j : Json) : Decoded Step := do
  let fields ← j.record
    ["stepId", "nodeId", "pc", "executionMode", "description", "state", "isViolation"] 7
  return {
    id := ← Json.required fields "stepId" Json.asNat
    nodeId := ← Json.required fields "nodeId" Json.asString
    pc := ← Json.required fields "pc" Json.asInt64
    mode := ← Json.required fields "executionMode" (Json.asName Mode.names)
    description := ← Json.optional fields "description" Json.asString
    state := ← Json.required fields "state" State.ofJson
    isViolation := ← Json.required fields "isViolation" Json.asBool }

end Step

namespace ErrorInfo

/-- An error. Its class is written as its type. -/
def toJson (e : ErrorInfo) : Json :=
  .obj ([("type", .str e.errorClass.name), ("message", .str e.message)] ++
    Json.member? "detail" id e.detail)

/-- Reads an error; any JSON value may be its detail. -/
def ofJson (j : Json) : Decoded ErrorInfo := do
  let fields ← j.record ["type", "message", "detail"] 2
  return {
    errorClass := ← Json.required fields "type" (Json.asName ErrorClass.names)
    message := ← Json.required fields "message" Json.asString
    detail := ← Json.optional fields "detail" .ok }

end ErrorInfo

namespace Warning

/-- A warning, with its detail if it has one. -/
def toJson (w : Warning) : Json :=
  .obj ([("type", .str w.kind.name)] ++ Json.member? "detail" id w.detail)

/-- Reads a warning; any JSON value may be its detail. -/
def ofJson (j : Json) : Decoded Warning := do
  let fields ← j.record ["type", "detail"] 1
  return {
    kind := ← Json.required fields "type" (Json.asName WarningKind.names)
    detail := ← Json.optional fields "detail" .ok }

end Warning

namespace Report

/-- Reads the steps of a trace, which stand in a field of their own. -/
def traceOfJson (j : Json) : Decoded (List Step) := do
  let fields ← j.record ["steps"] 1
  Json.required fields "steps" (Json.asList Step.ofJson)

/-- A report, its fields in the order of `fieldNames`. -/
def toJson (r : Report) : Json :=
  .obj ([("schemaVersion", .str r.schemaVersion), ("graph", r.graph.toJson),
    ("trace", .obj [("steps", .arr (r.trace.map Step.toJson))]),
    ("traceMode", .str r.traceMode.name), ("result", .str r.verdict.name)] ++
    Json.member? "error" ErrorInfo.toJson r.error ++
    if r.warnings.isEmpty then [] else [("warnings", .arr (r.warnings.map Warning.toJson))])

/-- The fields of a report, in order. -/
def fieldNames : List String :=
  ["schemaVersion", "graph", "trace", "traceMode", "result", "error", "warnings"]

/-- Checks the form of a field other than the graph. -/
def checkField : String × Json → Decoded Unit
  | ("schemaVersion", j) => discard j.asString
  | ("trace", j) => discard (traceOfJson j)
  | ("traceMode", j) => discard (j.asName TraceMode.names)
  | ("result", j) => discard (j.asName Verdict.names)
  | ("error", j) => discard (j.asOption ErrorInfo.ofJson)
  | ("warnings", j) => discard (j.asList Warning.ofJson)
  | _ => .ok ()

/-- Reads a report. The fields are read in the order in which they stand: a graph that breaks a rule
    is reported as such unless a field before it has the wrong form. -/
def ofJson (j : Json) : Decoded Report := do
  (← j.fields fieldNames).takeWhile (·.1 != "graph") |>.forM checkField
  let graph ← Json.required (← j.fields fieldNames) "graph" SpecGraph.ofJson
  let fields ← j.record fieldNames 5
  return {
    schemaVersion := ← Json.required fields "schemaVersion" Json.asString
    graph := graph
    trace := ← Json.required fields "trace" traceOfJson
    traceMode := ← Json.required fields "traceMode" (Json.asName TraceMode.names)
    verdict := ← Json.required fields "result" (Json.asName Verdict.names)
    error := ← Json.optional fields "error" ErrorInfo.ofJson
    warnings := ← Json.withDefault fields "warnings" (Json.asList Warning.ofJson) [] }

/-- The report as JSON text. -/
def render (r : Report) : String := r.toJson.pretty

end Report

end Mispredict
