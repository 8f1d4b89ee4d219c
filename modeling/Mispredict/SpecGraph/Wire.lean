/-
  Graphs as JSON: the list of nodes by number and the list of links by the numbers
  of their ends. What has no value is left out. Reading adds the nodes, then the
  links, and checks that the graph is valid.
-/
import Mispredict.MuAsm.Wire
import Mispredict.SpecGraph.Basic

namespace Mispredict

open MuAsm (Instr)

/-- The kinds of nodes by their names. -/
def NodeKind.names : List (String × NodeKind) := [("ns", .committed), ("spec", .speculative)]

/-- The kinds of links by their names. -/
def LinkKind.names : List (String × LinkKind) :=
  [("ns", .committed), ("spec", .speculative), ("rollback", .rollback)]

/-- The ends of a speculation by their names. -/
def Phase.names : List (String × Phase) := [("begin", .begin), ("end", .finish)]

namespace Origin

/-- An origin. -/
def toJson (o : Origin) : Json := .obj [("branchPc", .nat o.branchPc), ("context", .nat o.context)]

/-- Reads an origin. -/
def ofJson (j : Json) : Decoded Origin := do
  let fields ← j.record ["branchPc", "context"] 2
  return {
    branchPc := ← Json.required fields "branchPc" Json.asNat
    context := ← Json.required fields "context" Json.asNat }

end Origin

namespace Marker

/-- A mark. Its context is written as its id. -/
def toJson (m : Marker) : Json := .obj [("id", .nat m.context), ("phase", .str m.phase.name)]

/-- Reads a mark. -/
def ofJson (j : Json) : Decoded Marker := do
  let fields ← j.record ["id", "phase"] 2
  return {
    context := ← Json.required fields "id" Json.asNat
    phase := ← Json.required fields "phase" (Json.asName Phase.names) }

end Marker

namespace Node

/-- A node. What it does not have is left out. -/
def toJson (n : Node) : Json :=
  .obj ([("id", .str n.id), ("pc", .int n.pc.toInt)] ++ Json.member? "label" .str n.label ++
    [("kind", .str n.kind.name)] ++ Json.member? "specOrigin" Origin.toJson n.origin ++
    Json.member? "specContext" Marker.toJson n.marker ++ Json.member? "instruction" .str n.text ++
    Json.member? "instructionAst" Instr.toJson n.instr)

/-- Reads a node; its id, program counter and kind are required. -/
def ofJson (j : Json) : Decoded Node := do
  let fields ← j.record
    ["id", "pc", "label", "kind", "specOrigin", "specContext", "instruction", "instructionAst"] 4
  return {
    id := ← Json.required fields "id" Json.asString
    pc := ← Json.required fields "pc" Json.asInt64
    label := ← Json.optional fields "label" Json.asString
    kind := ← Json.required fields "kind" (Json.asName NodeKind.names)
    origin := ← Json.optional fields "specOrigin" Origin.ofJson
    marker := ← Json.optional fields "specContext" Marker.ofJson
    text := ← Json.optional fields "instruction" Json.asString
    instr := ← Json.optional fields "instructionAst" Instr.ofJson }

end Node

namespace Edge

/-- A link, by the ids of its ends. -/
def toJson (e : Edge) : Json :=
  .obj ([("source", .str e.source), ("target", .str e.target), ("kind", .str e.link.kind.name)] ++
    Json.member? "label" .str e.link.label)

/-- Reads a link, which may have no label. -/
def ofJson (j : Json) : Decoded Edge := do
  let fields ← j.record ["source", "target", "kind", "label"] 3
  return {
    source := ← Json.required fields "source" Json.asString
    target := ← Json.required fields "target" Json.asString
    link := {
      kind := ← Json.required fields "kind" (Json.asName LinkKind.names)
      label := ← Json.optional fields "label" Json.asString } }

end Edge

namespace SpecGraph

/-- A graph as two lists. -/
def toJson (g : SpecGraph) : Json :=
  .obj [("nodes", .arr (g.nodes.map Node.toJson)), ("edges", .arr (g.edges.map Edge.toJson))]

/-- Reads a graph. Lists that break a rule are rejected with the rule. -/
def ofJson (j : Json) : Decoded SpecGraph := do
  let fields ← j.record ["nodes", "edges"] 2
  let nodes ← Json.required fields "nodes" (Json.asList Node.ofJson)
  let edges ← Json.required fields "edges" (Json.asList Edge.ofJson)
  match ofLists nodes edges with
  | .ok g => return g
  | .error e => .error (.rejected e.message)

end SpecGraph

end Mispredict
