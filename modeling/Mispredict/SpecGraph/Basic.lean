/-
  Graphs of committed and speculative control flow.

  Nodes are numbered in the order in which they are added and are named by their
  ids, by which they are found through an index; a link is given by the ids of its
  two ends. A graph is valid when every rollback leads from a speculative to a
  committed node.
-/
import Mispredict.Digraph
import Mispredict.SpecGraph.Node

namespace Mispredict

/-- A graph of committed and speculative control flow. -/
structure SpecGraph where
  graph : Digraph Node Link
  /-- The numbers of the nodes by their ids. -/
  ids : Std.ExtTreeMap String Nat

/-- A link with the ids of its ends. -/
structure Edge where
  source : String
  target : String
  link : Link
  deriving DecidableEq, Repr

namespace SpecGraph

instance : DecidableEq SpecGraph := fun g h =>
  decidable_of_iff (g.graph = h.graph ∧ g.ids = h.ids) <| by
    cases g; cases h; simp

/-- The graph without nodes. -/
def empty : SpecGraph := ⟨.empty, ∅⟩

instance : Inhabited SpecGraph := ⟨empty⟩

/-! ## Nodes -/

/-- The nodes with their numbers, in order. -/
def indexedNodes (g : SpecGraph) : List (Nat × Node) := g.graph.vertices

/-- The nodes in the order of their numbers. -/
def nodes (g : SpecGraph) : List Node := g.indexedNodes.map (·.2)

/-- How many nodes there are. -/
def numNodes (g : SpecGraph) : Nat := g.graph.numVertices

/-- Whether there is no node. -/
def isEmpty (g : SpecGraph) : Bool := g.numNodes == 0

/-- The node with this number. -/
def node? (g : SpecGraph) (index : Nat) : Option Node := g.graph.vertex? index

/-- The number of the node with this id. -/
def index? (g : SpecGraph) (id : String) : Option Nat := g.ids[id]?

/-- Whether a node has this id. -/
def hasNode (g : SpecGraph) (id : String) : Bool := (g.index? id).isSome

/-- The node with this id, and its number. -/
def find? (g : SpecGraph) (id : String) : Option (Nat × Node) := do
  let index ← g.index? id
  return (index, ← g.node? index)

/-- The node with this number, which must be there. -/
def nodeAt (g : SpecGraph) (index : Nat) : Except Error Node :=
  match g.node? index with
  | some n => .ok n
  | none => .error (.vertexNotFound index)

/-- The number of the node with this id, which must be there. -/
def indexOf (g : SpecGraph) (id : String) : Except Error Nat :=
  match g.index? id with
  | some index => .ok index
  | none => .error (.graph (.missingNode id))

/-- Where execution starts: at `n0` if there is such a node, otherwise at the first one. -/
def entry? (g : SpecGraph) : Option (Nat × Node) :=
  match g.find? "n0" with
  | some n => some n
  | none => g.indexedNodes.head?

/-- The nodes at which contexts end, with their numbers. -/
def contextEnds (g : SpecGraph) : List (Nat × Node) := g.indexedNodes.filter (·.2.endsContext)

/-- The first node, of those at which contexts end, that belongs to this context. -/
def endOf? (context : Nat) (ends : List (Nat × Node)) : Option (Nat × Node) :=
  ends.find? (·.2.marker.map (·.context) == some context)

/-- The node at which a context ends. -/
def contextEnd? (g : SpecGraph) (context : Nat) : Option (Nat × Node) :=
  endOf? context g.contextEnds

/-- Adds a node with a new id; it gets the next number. -/
def insertNode (g : SpecGraph) (n : Node) : Except Error SpecGraph :=
  if g.hasNode n.id then .error (.graph (.duplicateNode n.id))
  else do return ⟨← g.graph.insertVertex g.numNodes n, g.ids.insert n.id g.numNodes⟩

/-! ## Links -/

/-- A link with its two ends. -/
structure Located where
  head : Nat
  source : Node
  tail : Nat
  target : Node
  link : Link
  deriving DecidableEq, Repr

/-- The link with the ids of its ends. -/
def Located.edge (l : Located) : Edge := ⟨l.source.id, l.target.id, l.link⟩

/-- A link with its two ends looked up. -/
def locate? (g : SpecGraph) (head tail : Nat) (link : Link) : Option Located := do
  let source ← g.node? head
  let target ← g.node? tail
  return ⟨head, source, tail, target, link⟩

/-- The links by the number of the node they leave, then by that of the node they enter. -/
def links (g : SpecGraph) : List Located :=
  g.graph.edges.filterMap fun (head, tail, link) => g.locate? head tail link

/-- The links with the ids of their ends, in the order of `links`. -/
def edges (g : SpecGraph) : List Edge := g.links.map (·.edge)

/-- How many links there are. -/
def numEdges (g : SpecGraph) : Nat := g.graph.numEdges

/-- The links that leave the node with this number, by the number of the node they enter. -/
def linksFrom (g : SpecGraph) (index : Nat) : List Located :=
  (g.graph.edgesOut index).filterMap fun (tail, link) => g.locate? index tail link

/-- The links that leave the node with this id. -/
def linksOut (g : SpecGraph) (id : String) : Except Error (List Located) := do
  return g.linksFrom (← g.indexOf id)

/-- Whether a link leads from the one node to the other, by their ids. -/
def hasEdge (g : SpecGraph) (source target : String) : Bool :=
  match g.index? source, g.index? target with
  | some head, some tail => g.graph.hasEdge head tail
  | _, _ => false

/-- Adds a link between two nodes that have none yet. -/
def insertEdge (g : SpecGraph) (e : Edge) : Except Error SpecGraph := do
  let head ← g.indexOf e.source
  let tail ← g.indexOf e.target
  return { g with graph := ← g.graph.insertEdge head tail e.link }

/-- Adds nodes, in order. -/
def insertNodes (g : SpecGraph) (nodes : List Node) : Except Error SpecGraph :=
  nodes.foldlM insertNode g

/-- Adds links, in order. -/
def insertEdges (g : SpecGraph) (edges : List Edge) : Except Error SpecGraph :=
  edges.foldlM insertEdge g

/-! ## The graph as a whole -/

/-- Whether a link keeps to the rule for rollbacks. -/
def Located.isPlaced (l : Located) : Bool :=
  l.link.kind != .rollback || (l.source.kind == .speculative && l.target.kind == .committed)

/-- Checks the rule for rollbacks; the first link that breaks it is the error. -/
def validate (g : SpecGraph) : Except Error Unit :=
  match g.links.find? (!·.isPlaced) with
  | some l => .error (.graph (.misplacedRollback l.source.id l.target.id))
  | none => .ok ()

/-- The valid graph with these nodes and links. -/
def ofLists (nodes : List Node) (edges : List Edge) : Except Error SpecGraph := do
  let g ← empty.insertNodes nodes
  let g ← g.insertEdges edges
  g.validate
  return g

/-- The committed part of the graph: its committed nodes and the committed links between them. -/
def committedPart (g : SpecGraph) : Except Error SpecGraph := do
  let c ← empty.insertNodes (g.nodes.filter (·.kind == .committed))
  c.insertEdges (g.edges.filter fun e =>
    e.link.kind == .committed && c.hasNode e.source && c.hasNode e.target)

/-- The drawing of the graph. -/
def dot (g : SpecGraph) : String := g.graph.dot Node.dot Link.dot

end SpecGraph

end Mispredict
