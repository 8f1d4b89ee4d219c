/-
  From programs to graphs.

  Every instruction becomes a committed node `n<pc>`, with a link to each
  instruction that can follow it. For every branch the speculation on it is added.

  The light layout adds a pair of markers: the begin marker leads to both
  successors of the branch and to the end marker.

  The unrolled layout follows both mispredicted directions of the branch and gives
  each context its own nodes `s<context>_<pc>`. A path ends at a barrier, at the end
  of the program, at the end of the window, or at a node of its context that is
  already there. A branch on the path opens a new context for each direction.
-/
import Mispredict.Log
import Mispredict.MuAsm.Program.Parser
import Mispredict.SpecGraph.Basic
import Mispredict.SpecGraph.Options

namespace Mispredict

open MuAsm (Instr Entry Expr Jump Program SourceError)

namespace MuAsm.Program

/-- The program counter, if it is inside the program. -/
def within? (p : Program) (pc : Nat) : Option Nat := if pc < p.length then some pc else none

/-- The program counter after `pc`, if it is inside the program. An entry may have a program counter
    outside of the program, up to the largest machine word, after which comes 0. -/
def next? (p : Program) (pc : Nat) : Option Nat :=
  p.within? (if pc < p.length then pc + 1 else (pc + 1) % UInt64.size)

theorem next?_of_lt {p : Program} {pc : Nat} (h : pc < p.length) :
    p.next? pc = p.within? (pc + 1) := by
  rw [next?, if_pos h]

/-- Where the branch at `pc` goes when it is taken. -/
def branchTarget (p : Program) (pc : Nat) : Except Error Nat :=
  match p.entry? pc with
  | none => .error (.internal (.noInstruction pc))
  | some e =>
    match e.instr with
    | .beqz _ target (some targetPc) =>
      if targetPc ≤ p.length then .ok targetPc
      else .error (.source (.atLine e.sourceLine (.branchOutOfRange target)))
    | .beqz _ target none => .error (.source (.atLine e.sourceLine (.undefinedLabel target)))
    | _ => .error (.internal (.noBranch pc))

/-- Where a jump at `pc` goes. -/
def jumpTarget (p : Program) (pc : Nat) (target : Expr) (resolved : Jump) : Except Error Nat :=
  match resolved with
  | .pc n => if n ≤ p.length then .ok n else .error (.unresolvedJump pc target.render)
  | _ => .error (.unresolvedJump pc target.render)

end MuAsm.Program

namespace SpecGraph

/-- A graph under construction, and the number of contexts that were opened. -/
structure Draft where
  graph : SpecGraph
  contexts : Nat
  deriving DecidableEq

/-- The id of the committed node of an instruction. -/
def committedId (pc : Nat) : String := "n" ++ toString pc

/-- The id of the node for an instruction on a mispredicted path, one for each context. -/
def unrolledId (context pc : Nat) : String := "s" ++ toString context ++ "_" ++ toString pc

/-- The id of the marker where speculation in a context begins. -/
def beginId (context : Nat) : String := "spec_begin_" ++ toString context

/-- The id of the marker where speculation in a context ends. -/
def endId (context : Nat) : String := "spec_end_" ++ toString context

namespace Draft

/-- A graph without nodes, for which no context was opened. -/
def empty : Draft := ⟨.empty, 0⟩

/-- Adds a node with a new id. -/
def addNode (d : Draft) (n : Node) : Except Error Draft := do
  return { d with graph := ← d.graph.insertNode n }

/-- Adds a link unless the two nodes have one already. -/
def connect (d : Draft) (source target : String) (kind : LinkKind) (label : Option String) :
    Except Error Draft :=
  if d.graph.hasEdge source target then .ok d
  else do return { d with graph := ← d.graph.insertEdge ⟨source, target, ⟨kind, label⟩⟩ }

/-- Adds a link to the committed node of a program counter, if there is one. -/
def connectPc (d : Draft) (source : String) (pc : Option Nat) (kind : LinkKind)
    (label : Option String) : Except Error Draft :=
  match pc with
  | some pc => d.connect source (committedId pc) kind label
  | none => .ok d

/-! ## Committed control flow -/

/-- The committed node of an instruction. -/
def committedNode (e : Entry) : Node :=
  { id := committedId e.pc, pc := Int64.ofNat e.pc, label := e.label,
    kind := .committed : Node }.withInstr e.instr

/-- Adds the links that leave an instruction. -/
def addFlow (p : Program) (d : Draft) (e : Entry) : Except Error Draft := do
  let source := committedId e.pc
  match e.instr with
  | .jmp target resolved =>
    let targetPc ← p.jumpTarget e.pc target resolved
    d.connectPc source (p.within? targetPc) .committed "jmp"
  | .beqz .. =>
    let targetPc ← p.branchTarget e.pc
    let d ← d.connectPc source (p.within? targetPc) .committed "taken"
    d.connectPc source (p.next? e.pc) .committed "not-taken"
  | _ => d.connectPc source (p.next? e.pc) .committed none

/-- The committed control flow of a program. -/
def committed (p : Program) : Except Error Draft := do
  let d ← (p.entries.map committedNode).foldlM addNode empty
  p.entries.foldlM (addFlow p) d

/-! ## The light layout -/

/-- The marker where speculation on a branch begins. Markers have odd negative counters. -/
def beginNode (branchPc context : Nat) : Node where
  id := beginId context
  pc := -(2 * Int64.ofNat context + 1)
  kind := .speculative
  origin := some ⟨branchPc, context⟩
  marker := some ⟨context, .begin⟩

/-- The marker where speculation on a branch ends. Markers have even negative counters. -/
def endNode (branchPc context : Nat) : Node where
  id := endId context
  pc := -(2 * Int64.ofNat context + 2)
  kind := .speculative
  origin := some ⟨branchPc, context⟩
  marker := some ⟨context, .finish⟩

/-- Adds the pair of markers for the branch at `pc`. -/
def addMarkers (p : Program) (mode : SpeculationMode) (d : Draft) (pc : Nat) :
    Except Error Draft := do
  let context := d.contexts
  let d := { d with contexts := context + 1 }
  let d ← d.addNode (beginNode pc context)
  let d ← d.addNode (endNode pc context)
  let d ← d.connect (committedId pc) (beginId context) .speculative "mispredict"
  let taken ← p.branchTarget pc
  let d ← d.connectPc (beginId context) (p.within? taken) .speculative "taken"
  let d ← d.connectPc (beginId context) (p.next? pc) .speculative "not-taken"
  let d ← d.connect (beginId context) (endId context) .speculative "squash"
  match mode with
  | .discard => return d
  | .stackGuard => d.connect (endId context) (committedId pc) .rollback "rollback"

/-! ## The unrolled layout -/

/-- A mispredicted path that is still to be followed. -/
structure Pending where
  /-- The node from which the path goes on. -/
  source : String
  /-- The next instruction, if the path is still inside the program. -/
  pc : Option Nat
  /-- How many instructions may follow. -/
  budget : Nat
  context : Nat
  /-- Where committed execution goes on when the path ends. -/
  resume : Nat
  /-- The branch at which the context was opened. -/
  branchPc : Nat
  deriving DecidableEq, Repr

/-- Ends a mispredicted path at a node. -/
def endPath (p : Program) (mode : SpeculationMode) (d : Draft) (source : String) (resume : Nat) :
    Except Error Draft :=
  match mode with
  | .discard => .ok d
  | .stackGuard =>
    match d.graph.find? source with
    | some (_, n) =>
      if n.isSpeculative then d.connectPc source (p.within? resume) .rollback "rollback" else .ok d
    | none => .ok d

/-- The node for the instruction at `pc` on the path `w`. -/
def unrolledNode (e : Entry) (pc : Nat) (w : Pending) : Node :=
  { id := unrolledId w.context pc, pc := Int64.ofNat pc, label := e.label, kind := .speculative,
    origin := some ⟨w.branchPc, w.context⟩ : Node }.withInstr e.instr

/-- How a mispredicted path goes on after an instruction. -/
inductive Onward where
  | ends
  /-- In the same context. -/
  | continues (pc : Option Nat)
  /-- In a new context for each direction. -/
  | forks (taken next : Option Nat)
  deriving DecidableEq, Repr

/-- How a path goes on after the instruction at `pc`. -/
def onward (p : Program) (pc : Nat) (i : Instr) : Except Error Onward :=
  match i with
  | .spbarr => .ok .ends
  | .beqz .. => do return .forks (p.within? (← p.branchTarget pc)) (p.next? pc)
  | .jmp target resolved => do return .continues (p.within? (← p.jumpTarget pc target resolved))
  | _ => .ok (.continues (p.next? pc))

/-- The paths that go on from the node of `w` at `pc`, the one to be followed first at the front;
    the direction taken has the first of the new contexts. -/
def branchOff (w : Pending) (pc budget contexts : Nat) : Onward → List Pending
  | .ends => []
  | .continues pc' => [{ w with source := unrolledId w.context pc, pc := pc', budget := budget }]
  | .forks taken next =>
    let onto (context : Nat) (pc' : Option Nat) : Pending :=
      { w with
        source := unrolledId w.context pc
        pc := pc'
        budget := budget
        context := context
        branchPc := pc }
    [onto (contexts + 1) next, onto contexts taken]

/-- How many contexts are opened where a path goes on. -/
def Onward.opened : Onward → Nat
  | .forks .. => 2
  | _ => 0

/-- Follows a path by one instruction. Gives the paths that go on from there. -/
def follow (p : Program) (mode : SpeculationMode) (d : Draft) (w : Pending) :
    Except Error (List Pending × Draft) :=
  match w.pc, w.budget with
  | some pc, budget + 1 =>
    let id := unrolledId w.context pc
    if d.graph.hasNode id then do return ([], ← d.connect w.source id .speculative none)
    else
      match p.entry? pc with
      | none => .error (.internal (.noInstruction pc))
      | some e => do
        let d ← d.addNode (unrolledNode e pc w)
        let d ← d.connect w.source id .speculative none
        match ← onward p pc e.instr with
        | .ends => return ([], ← d.endPath p mode id w.resume)
        | on =>
          return (branchOff w pc budget d.contexts on, { d with contexts := d.contexts + on.opened })
  | _, _ => do return ([], ← d.endPath p mode w.source w.resume)

/-- The most paths that can come of one with this budget, itself included. -/
def offspring : Nat → Nat
  | 0 => 1
  | budget + 1 => 2 * offspring budget + 1

/-- The most paths that can come of pending ones. -/
def weight : List Pending → Nat
  | [] => 0
  | w :: rest => offspring w.budget + weight rest

theorem offspring_pos (budget : Nat) : 0 < offspring budget := by
  cases budget <;> simp [offspring]

theorem weight_append (ws rest : List Pending) : weight (ws ++ rest) = weight ws + weight rest := by
  induction ws with
  | nil => simp [weight]
  | cons w ws ih => simp only [List.cons_append, weight, ih]; omega

theorem weight_branchOff_lt (w : Pending) (pc budget contexts : Nat) (on : Onward) :
    weight (branchOff w pc budget contexts on) < offspring (budget + 1) := by
  have := offspring_pos budget
  cases on <;> simp only [branchOff, weight, offspring] <;> omega

theorem weight_follow_lt {p : Program} {mode : SpeculationMode} {d d' : Draft} {w : Pending}
    {ws : List Pending} (h : follow p mode d w = .ok (ws, d')) : weight ws < offspring w.budget := by
  have nil_lt : weight [] < offspring w.budget := offspring_pos w.budget
  unfold follow at h
  split at h
  · next pc budget _ hbudget =>
    rw [hbudget] at nil_lt ⊢
    dsimp only at h
    split at h
    · obtain ⟨_, _, h⟩ := bind_eq_ok_iff.1 h
      cases h; exact nil_lt
    · split at h
      · cases h
      · obtain ⟨_, _, h⟩ := bind_eq_ok_iff.1 h
        obtain ⟨_, _, h⟩ := bind_eq_ok_iff.1 h
        obtain ⟨on, _, h⟩ := bind_eq_ok_iff.1 h
        split at h
        · obtain ⟨_, _, h⟩ := bind_eq_ok_iff.1 h
          cases h; exact nil_lt
        · cases h; exact weight_branchOff_lt ..
  · obtain ⟨_, _, h⟩ := bind_eq_ok_iff.1 h
    cases h; exact nil_lt

/-- Follows pending paths to their ends, the first one first. -/
def unroll (p : Program) (mode : SpeculationMode) (d : Draft) (stack : List Pending) :
    Except Error Draft :=
  match stack with
  | [] => .ok d
  | w :: rest =>
    match _h : follow p mode d w with
    | .error e => .error e
    | .ok (ws, d) => unroll p mode d (ws ++ rest)
termination_by weight stack
decreasing_by
  have := weight_follow_lt _h
  rw [weight_append, weight]
  omega

/-- The path that speculates on `speculated` at the branch at `pc` while execution commits to
    `resume`. -/
def firstPending (p : Program) (pc window context speculated resume : Nat) : Pending where
  source := committedId pc
  pc := p.within? speculated
  budget := window
  context := context
  resume := resume
  branchPc := pc

/-- Adds both mispredicted directions of the branch at `pc`. -/
def addUnrolled (p : Program) (mode : SpeculationMode) (window : Nat) (d : Draft) (pc : Nat) :
    Except Error Draft := do
  let taken ← p.branchTarget pc
  let next := pc + 1
  let first := firstPending p pc window d.contexts taken next
  let d ← unroll p mode { d with contexts := d.contexts + 1 } [first]
  let second := firstPending p pc window d.contexts next taken
  unroll p mode { d with contexts := d.contexts + 1 } [second]

/-! ## Both layouts -/

/-- Adds the speculation on a branch. -/
def addSpeculation (p : Program) (o : BuildOptions) (d : Draft) (pc : Nat) : Except Error Draft :=
  match o.layout with
  | .light => d.addMarkers p o.speculation pc
  | .unrolled => d.addUnrolled p o.speculation o.windowSize.toNat pc

/-- The program counters of the branches, in order. -/
def branches (p : Program) : List Nat := (p.entries.filter (·.instr.isBranch)).map (·.pc)

/-- The graph of a program, with its number of contexts. -/
def ofProgram (p : Program) (o : BuildOptions) : Except Error Draft :=
  if o.windowSize ≤ 0 then .error (.invalidWindowSize o.windowSize)
  else do (branches p).foldlM (addSpeculation p o) (← committed p)

/-- The log line for a graph that was built. -/
def builtLine (o : BuildOptions) (d : Draft) : LogLine :=
  let layout := o.layout.name
  let nodes := d.graph.numNodes
  let edges := d.graph.numEdges
  let contexts := d.contexts
  ⟨.debug, s!"built {layout} vcfg with {nodes} nodes, {edges} edges, {contexts} speculation contexts"⟩

end Draft

/-- The graph of a program. -/
def ofProgram (p : Program) (o : BuildOptions) : Except Error SpecGraph := do
  return (← Draft.ofProgram p o).graph

/-- The graph of a program, with the log of its construction. -/
def build (p : Program) (o : BuildOptions) : Logged (Except Error SpecGraph) :=
  match Draft.ofProgram p o with
  | .error e => ⟨.error e, []⟩
  | .ok d => ⟨.ok d.graph, [Draft.builtLine o d]⟩

/-- The graph of a source text, with the log of its construction. -/
def buildSource (source : String) (o : BuildOptions) : Logged (Except Error SpecGraph) :=
  match Program.parse source with
  | .error e => ⟨.error (.source e), []⟩
  | .ok p =>
    let built := build p o
    ⟨built.result, p.parsedLine :: built.log⟩

end SpecGraph

end Mispredict
