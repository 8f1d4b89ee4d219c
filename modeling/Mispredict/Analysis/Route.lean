/-
  Where analysis can go from a point.

  Each link out of a point's node gives a route to another point, or is pruned; a
  speculation that must end goes to the end of its context, or rolls back.
-/
import Mispredict.Analysis.Key
import Mispredict.Analysis.Options
import Mispredict.Log
import Mispredict.Security.Transfer
import Mispredict.SpecGraph.Basic

namespace Mispredict

open MuAsm (Instr)

/-- What of a state is passed on. -/
inductive Payload where
  | full
  /-- Observations only, which is all that survives a rollback. -/
  | observations
  deriving DecidableEq, Repr

/-- Why a link is not followed. -/
inductive Pruning where
  /-- The link leads into a context that is open, but not the innermost one. -/
  | contextOpen
  /-- The rollback leaves a context that is not the innermost one. -/
  | notInnermost
  /-- The link leads to the end of a context that is not the innermost one. -/
  | contextMismatch
  deriving DecidableEq, Repr

/-- What becomes of a way out of a point. -/
inductive Route where
  | follow (target : Key) (payload : Payload)
  /-- The speculation ends, at the node with this id. -/
  | squash (target : Key) (endId : String)
  /-- The link to the node with this id is not followed. -/
  | pruned (targetId : String) (cause : Pruning)
  deriving DecidableEq, Repr

namespace Route

/-- The point to which a route leads, and what is passed on to it. -/
def move? : Route → Option (Key × Payload)
  | .follow target payload => some (target, payload)
  | .squash target _ => some (target, .full)
  | .pruned .. => none

/-- What the log says of a route out of the node with id `source`. -/
def logLine? (source : String) : Route → Option LogLine
  | .follow .. => none
  | .squash _ endId => some ⟨.trace, "squashing speculation at " ++ source ++ " into " ++ endId⟩
  | .pruned target .contextOpen =>
    some ⟨.debug, "pruned " ++ source ++ " -> " ++ target ++ ": context already open"⟩
  | .pruned target .notInnermost =>
    some ⟨.debug, "pruned rollback " ++ source ++ " -> " ++ target ++
      ": not the innermost context"⟩
  | .pruned target .contextMismatch =>
    some ⟨.debug, "pruned " ++ source ++ " -> " ++ target ++ ": context mismatch"⟩

end Route

namespace Node

/-- The state after the node in this mode. A node without instruction leaves it as it is. -/
def transfer (n : Node) (s : State) (mode : Mode) : Except Error State := do
  match ← n.executes with
  | some i => return s.apply i (toString n.pc.toInt) mode
  | none => return s

end Node

/-- What is analysed, how, and from which state. -/
structure Setup where
  graph : SpecGraph
  options : Options
  initial : State
  /-- The ends of contexts, which are looked up time and again. -/
  ends : List (Nat × Node)
  ends_eq : ends = graph.contextEnds

namespace Setup

/-- The registers that are tracked: those asked for and those of all instructions that can be
    read. -/
def trackedRegisters (g : SpecGraph) (o : Options) : List String :=
  o.entryRegs ++ g.nodes.flatMap fun n =>
    match n.executes with
    | .ok (some i) => i.registers
    | _ => []

/-- The analysis of a graph, from the state in which its program starts. -/
def of (g : SpecGraph) (o : Options) : Setup where
  graph := g
  options := o
  initial := .seeded o.policy (trackedRegisters g o)
  ends := g.contextEnds
  ends_eq := rfl

/-- How many instructions a speculation may execute. -/
def window (s : Setup) : Nat := s.options.specWindow.toNat

/-- Whether contexts must close in the order opposite to that in which they opened. -/
def stackGuard (s : Setup) : Bool := s.options.speculation == .stackGuard

/-! ## The end of a speculation -/

/-- The open contexts after one more instruction of the innermost. -/
def spend : List Frame → List Frame
  | [] => []
  | f :: rest => { f with remaining := f.remaining - 1 } :: rest

/-- Whether the innermost context may execute no further instruction. -/
def exhausted : List Frame → Bool
  | [] => false
  | f :: _ => f.remaining == 0

/-- The open contexts after a node. Markers cost nothing. -/
def framesAfter (k : Key) (n : Node) : List Frame :=
  if k.mode = .speculative ∧ !n.isMarker then spend k.frames else k.frames

/-- Whether the speculation at a point must end after its node: the window is used up, the node is a
    barrier, or nothing follows it. -/
def mustEnd (k : Key) (n : Node) (i : Option Instr) (links : List SpecGraph.Located) : Bool :=
  k.mode == .speculative &&
    ((!n.isMarker && (exhausted (framesAfter k n) || i.any (·.isBarrier))) ||
      (links.isEmpty && !n.endsContext))

/-- The end of the innermost context, if the graph has a node for it other than the one with number
    `index`. -/
def contextEnd? (s : Setup) (index : Nat) (frames : List Frame) : Option (Nat × Node) :=
  match frames with
  | ⟨some context, _⟩ :: _ => (SpecGraph.endOf? context s.ends).filter (·.1 != index)
  | _ => none

/-! ## Links -/

/-- The open contexts after a speculative link into `target`, if it may be followed. A link out of
    committed execution opens the first context; inside a speculation a link into a new context
    opens that, with the window that is left. -/
def enter? (s : Setup) (mode : Mode) (frames : List Frame) (target : Node) : Option (List Frame) :=
  match mode with
  | .committed => some [⟨target.context?, s.window⟩]
  | .speculative =>
    match target.context? with
    | none => some frames
    | some context =>
      match frames with
      | [] => some [⟨some context, s.window⟩]
      | top :: rest =>
        if top.context = some context then some frames
        else if rest.any (·.context == some context) then
          if s.stackGuard then none else some frames
        else some (⟨some context, top.remaining⟩ :: frames)

/-- The context of the innermost frame. -/
def innermost? (frames : List Frame) : Option (Option Nat) := frames.head?.map (·.context)

/-- Where a link leads and with what, before the check on ends of contexts. -/
def through (s : Setup) (k : Key) (frames : List Frame) (l : SpecGraph.Located) :
    Except Pruning (Key × Payload) :=
  match l.link.kind with
  | .committed => .ok (⟨l.tail, k.mode, frames⟩, .full)
  | .speculative =>
    match s.enter? k.mode frames l.target with
    | some frames => .ok (⟨l.tail, .speculative, frames⟩, .full)
    | none => .error .contextOpen
  | .rollback =>
    if s.stackGuard ∧ innermost? frames ≠ none ∧ innermost? frames ≠ some l.source.context? then
      .error .notInnermost
    else .ok (⟨l.tail, .committed, []⟩, .observations)

/-- What becomes of a link. Under the stack guard the end of a context is reached only when that
    context is the innermost. -/
def routeOf (s : Setup) (k : Key) (frames : List Frame) (l : SpecGraph.Located) : Route :=
  match s.through k frames l with
  | .error cause => .pruned l.target.id cause
  | .ok (target, payload) =>
    if s.stackGuard ∧ l.target.endsContext ∧ innermost? target.frames ≠ some l.target.context? then
      .pruned l.target.id .contextMismatch
    else .follow target payload

/-! ## All routes -/

/-- The routes out of a point whose node is `n` and executes `i`. -/
def routesFrom (s : Setup) (k : Key) (n : Node) (i : Option Instr) : List Route :=
  let links := s.graph.linksFrom k.node
  let frames := framesAfter k n
  if mustEnd k n i links then
    match s.contextEnd? k.node frames with
    | some (index, e) => [.squash ⟨index, .speculative, frames⟩ e.id]
    | none => (links.filter (·.link.kind == .rollback)).map (s.routeOf k frames)
  else links.map (s.routeOf k frames)

/-- The routes out of a point. -/
def routes (s : Setup) (k : Key) : List Route :=
  match s.graph.node? k.node with
  | none => []
  | some n =>
    match n.executes with
    | .error _ => []
    | .ok i => s.routesFrom k n i

/-- The points that follow a point, and what is passed on to them. -/
def moves (s : Setup) (k : Key) : List (Key × Payload) := (s.routes k).filterMap Route.move?

/-- The point at which analysis starts; none if the graph is empty. -/
def entryKey (s : Setup) : Except Error (Option Key) := do
  let found ← match s.options.entryNode with
    | some id =>
      match s.graph.find? id with
      | some n => pure (some n)
      | none => .error (.graph (.missingEntry id))
    | none => pure s.graph.entry?
  return found.map fun (index, n) =>
    if n.isSpeculative then ⟨index, .speculative, [⟨n.context?, s.window⟩]⟩
    else ⟨index, .committed, []⟩

end Setup

end Mispredict
