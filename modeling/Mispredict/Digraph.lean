/-
  Directed graphs whose vertices have numbers, with at most one edge from a vertex
  to another. Everything is listed by number: vertices by their own, edges by the
  vertex they leave and then by the vertex they enter.

  The vertices are in a search tree, of which only what it maps to what counts:
  graphs with the same vertices and edges are equal, in whatever order they were
  added.
-/
import Mispredict.Dot
import Mispredict.Error
import Mispredict.SortedMap
import Std.Data.ExtTreeMap

namespace Mispredict

/-- A vertex and the edges that leave it, by the vertex they enter. -/
structure Digraph.Slot (ν ε : Type) where
  value : ν
  out : SortedMap Nat ε
  deriving DecidableEq

/-- A directed graph with data of type `ν` at its vertices and of type `ε` at its edges. -/
structure Digraph (ν ε : Type) where
  slots : Std.ExtTreeMap Nat (Digraph.Slot ν ε)

namespace Digraph

variable {ν ε : Type}

instance [DecidableEq ν] [DecidableEq ε] : DecidableEq (Digraph ν ε) := fun g h =>
  decidable_of_iff (g.slots = h.slots) <| by
    cases g; cases h; simp

/-- The graph without vertices. -/
def empty : Digraph ν ε := ⟨∅⟩

instance : Inhabited (Digraph ν ε) := ⟨empty⟩

/-! ## Reading -/

/-- The vertex with this number. -/
def vertex? (g : Digraph ν ε) (index : Nat) : Option ν := g.slots[index]?.map (·.value)

/-- Whether there is a vertex with this number. -/
def hasVertex (g : Digraph ν ε) (index : Nat) : Bool := g.slots.contains index

/-- The edge from `head` to `tail`. -/
def edge? (g : Digraph ν ε) (head tail : Nat) : Option ε :=
  g.slots[head]?.bind (·.out.get? tail)

/-- Whether an edge leads from `head` to `tail`. -/
def hasEdge (g : Digraph ν ε) (head tail : Nat) : Bool := (g.edge? head tail).isSome

/-- How many vertices there are. -/
def numVertices (g : Digraph ν ε) : Nat := g.slots.size

/-- The vertices by number. -/
def vertices (g : Digraph ν ε) : List (Nat × ν) := g.slots.toList.map fun (i, s) => (i, s.value)

/-- The edges that leave a vertex, by the vertex they enter. -/
def edgesOut (g : Digraph ν ε) (index : Nat) : List (Nat × ε) :=
  (g.slots[index]?.map (·.out.entries)).getD []

/-- The edges by the vertex they leave, then by the vertex they enter. -/
def edges (g : Digraph ν ε) : List (Nat × Nat × ε) :=
  g.slots.toList.flatMap fun (head, s) => s.out.entries.map fun (tail, e) => (head, tail, e)

/-- How many edges there are. -/
def numEdges (g : Digraph ν ε) : Nat := g.edges.length

/-! ## Writing -/

/-- Adds a vertex with a new number. -/
def insertVertex (g : Digraph ν ε) (index : Nat) (v : ν) : Except Error (Digraph ν ε) :=
  if g.hasVertex index then .error (.graph (.duplicateVertex index))
  else .ok ⟨g.slots.insert index ⟨v, .empty⟩⟩

/-- Adds an edge between two vertices that have none yet. -/
def insertEdge (g : Digraph ν ε) (head tail : Nat) (e : ε) : Except Error (Digraph ν ε) :=
  if g.hasEdge head tail then .error (.graph (.duplicateEdge head tail))
  else
    match g.slots[head]? with
    | none => .error (.vertexNotFound head)
    | some slot =>
      if g.hasVertex tail then
        .ok ⟨g.slots.insert head { slot with out := slot.out.insert tail e }⟩
      else .error (.vertexNotFound tail)

/-- The drawing of the graph. -/
def dot (g : Digraph ν ε) (vertex : ν → Dot.Vertex) (edge : ε → Dot.Edge) : String :=
  Dot.render (g.vertices.map fun (i, v) => (i, vertex v))
    (g.edges.map fun (h, t, e) => (h, t, edge e))

end Digraph

end Mispredict
