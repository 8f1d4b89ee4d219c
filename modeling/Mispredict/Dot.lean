/-
  Graphs as text in the dot language.
-/

namespace Mispredict.Dot

/-- How a vertex is drawn. -/
structure Vertex where
  label : String
  fillColor : String := "#ffddcc"
  fontColor : String := "#000000"
  deriving DecidableEq, Repr

/-- How an edge is drawn. -/
structure Edge where
  label : String
  style : String := "solid"
  color : String := "#000000"
  deriving DecidableEq, Repr

/-- A label on one line; each line of it is set flush left. -/
def flushLeft (label : String) : String :=
  String.ofList (label.toList.flatMap fun c => if c = '\n' then ['\\', 'l'] else [c])

/-- A vertex as a line of the drawing. -/
def Vertex.render (index : Nat) (v : Vertex) : String :=
  toString index ++ " [shape=\"box\", label=\"" ++ flushLeft v.label ++
    "\", style=\"filled\", fillcolor=\"" ++ v.fillColor ++ "\", fontcolor=\"" ++ v.fontColor ++
    "\"];"

/-- An edge as a line of the drawing. -/
def Edge.render (head tail : Nat) (e : Edge) : String :=
  toString head ++ " -> " ++ toString tail ++ " [label=\"" ++ flushLeft e.label ++
    "\", style=\"" ++ e.style ++ "\", color=\"" ++ e.color ++ "\"];"

/-- Attributes of the whole drawing. -/
def attributes : List String :=
  ["graph [fontname = \"Courier New\", splines=\"polyline\"]",
    "node [fontname = \"Courier New\"]",
    "edge [fontname = \"Courier New\"]"]

/-- The drawing of a graph, its vertices and edges in the order given. -/
def render (vertices : List (Nat × Vertex)) (edges : List (Nat × Nat × Edge)) : String :=
  "digraph G \x7b\n" ++ String.intercalate "\n" attributes ++ "\n\n" ++
    String.intercalate "\n" (vertices.map fun (i, v) => v.render i) ++ "\n" ++
    String.intercalate "\n" (edges.map fun (h, t, e) => e.render h t) ++ "\n\x7d"

end Mispredict.Dot
