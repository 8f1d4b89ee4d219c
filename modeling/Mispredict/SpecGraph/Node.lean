/-
  Nodes and links of a graph of committed and speculative control flow.
-/
import Mispredict.Dot
import Mispredict.Error
import Mispredict.MuAsm.Instr.Parser

namespace Mispredict

open MuAsm (Instr)

/-- Whether a node belongs to committed or to speculative control flow. -/
inductive NodeKind where
  | committed
  | speculative
  deriving DecidableEq, Repr

/-- The name of a kind of nodes. -/
def NodeKind.name : NodeKind → String
  | .committed => "ns"
  | .speculative => "spec"

/-- Which end of a speculation a marker stands for. -/
inductive Phase where
  | begin
  | finish
  deriving DecidableEq, Repr

/-- The name of an end of a speculation. -/
def Phase.name : Phase → String
  | .begin => "begin"
  | .finish => "end"

/-- The branch from which a speculative node was reached, and the context in which it runs. -/
structure Origin where
  branchPc : Nat
  context : Nat
  deriving DecidableEq, Repr

/-- A mark that a context begins or ends at a node. -/
structure Marker where
  context : Nat
  phase : Phase
  deriving DecidableEq, Repr

/-- What a marker stands for, for a reader. -/
def Marker.render (m : Marker) : String :=
  "spec-" ++ m.phase.name ++ " " ++ toString m.context

/-- A node. One that executes an instruction has its program counter; a marker has a negative one. -/
structure Node where
  id : String
  pc : Int64
  label : Option String := none
  kind : NodeKind
  origin : Option Origin := none
  marker : Option Marker := none
  /-- The instruction as text. -/
  text : Option String := none
  /-- The instruction itself, if it is at hand. -/
  instr : Option Instr := none
  deriving DecidableEq, Repr

namespace Node

/-- The node with an instruction and its text. -/
def withInstr (n : Node) (i : Instr) : Node := { n with text := some i.render, instr := some i }

/-- The node with the text of an instruction only. -/
def withText (n : Node) (text : String) : Node := { n with text := some text, instr := none }

/-- Whether the node belongs to speculative control flow. -/
def isSpeculative (n : Node) : Bool := n.kind == .speculative

/-- Whether the node is a marker, which executes nothing and costs nothing. -/
def isMarker (n : Node) : Bool := n.pc < 0

/-- The context to which a node belongs. -/
def context? (n : Node) : Option Nat :=
  match n.marker with
  | some m => some m.context
  | none => n.origin.map (·.context)

/-- Whether a context ends at the node. -/
def endsContext (n : Node) : Bool :=
  match n.marker with
  | some m => m.phase == .finish
  | none => false

/-- The instruction that the node executes. A node that has only a text has the instruction that
    the text stands for. -/
def executes (n : Node) : Except Error (Option Instr) :=
  match n.instr with
  | some i => .ok (some i)
  | none =>
    match n.text with
    | none => .ok none
    | some text =>
      match Instr.parse text with
      | .ok i => .ok (some i)
      | .error e => .error (.unsupportedInstruction n.id e.message)

/-- What the node does, for a reader: its instruction or its mark. -/
def description? (n : Node) : Option String :=
  match n.text with
  | some text => some text
  | none => n.marker.map Marker.render

/-- The node in a drawing: its id and instruction, in a color for its kind. -/
def dot (n : Node) : Dot.Vertex where
  label :=
    match n.text with
    | some text => n.id ++ "\n" ++ text
    | none => (n.marker.map Marker.render).getD n.id
  fillColor :=
    match n.kind with
    | .committed => "#ffddcc"
    | .speculative => if n.isMarker then "#dddddd" else "#ccddff"

end Node

/-- What following a link does to the mode of execution. -/
inductive LinkKind where
  /-- Stays in the mode. -/
  | committed
  /-- Follows a mispredicted path. -/
  | speculative
  /-- Returns from a mispredicted path to committed execution. -/
  | rollback
  deriving DecidableEq, Repr

/-- The name of a kind of links. -/
def LinkKind.name : LinkKind → String
  | .committed => "ns"
  | .speculative => "spec"
  | .rollback => "rollback"

/-- A link from a node to another. -/
structure Link where
  kind : LinkKind
  label : Option String := none
  deriving DecidableEq, Repr

/-- The link in a drawing, in a style and a color for its kind. -/
def Link.dot (l : Link) : Dot.Edge where
  label := l.label.getD l.kind.name
  style :=
    match l.kind with
    | .committed => "solid"
    | .speculative => "dashed"
    | .rollback => "dotted"
  color :=
    match l.kind with
    | .committed => "#000000"
    | .speculative => "#0000aa"
    | .rollback => "#aa0000"

end Mispredict
