/-
  The analysis as a machine.

  The machine holds a state for every point it has reached, and a queue of points
  whose state has changed since they were last visited. A step takes a point from
  the queue, executes its node and passes the result on along its routes. The
  analysis ends when the queue is empty, when an observation violates
  non-interference, or at an error. Two limits guard a run: the number of steps and
  the number of changes of a state.
-/
import Mispredict.Analysis.Route
import Mispredict.Analysis.Worklist
import Std.Data.TreeMap

namespace Mispredict

/-- What an analysis finds. -/
inductive Verdict where
  | secure
  | violation
  deriving DecidableEq, Repr

theorem Verdict.eq_of_violation_iff {v v' : Verdict} (h : v = .violation ↔ v' = .violation) :
    v = v' := by
  cases v <;> cases v' <;> simp at h ⊢

/-- The verdict as a report words it. -/
def Verdict.name : Verdict → String
  | .secure => "Secure"
  | .violation => "SNI_Violation"

/-- One visit of a point. -/
structure Step where
  id : Nat
  nodeId : String
  pc : Int64
  mode : Mode
  description : Option String
  /-- The state after the node. -/
  state : State
  isViolation : Bool
  deriving DecidableEq

/-- The states of the points that were reached. -/
abbrev Table := Std.TreeMap Key State

/-- The machine between two steps. -/
structure Machine where
  table : Table
  /-- The points that are to be visited. -/
  queue : Worklist
  trace : Array Step
  /-- How often a state has changed. -/
  relaxations : Nat
  log : Array LogLine

/-- What a machine does next. -/
inductive Progress where
  | running (m : Machine)
  | stopped (m : Machine) (outcome : Except Error Verdict)

/-- A machine that has stopped, and why. -/
structure Finished where
  machine : Machine
  outcome : Except Error Verdict

namespace Machine

/-- A machine that has reached nothing. -/
def empty : Machine := ⟨{}, .empty, #[], 0, #[]⟩

/-- The machine before its first step. -/
def start (s : Setup) (entry : Key) : Machine :=
  { empty with table := empty.table.insert entry s.initial, queue := Worklist.empty.pushBack entry }

/-- Adds a line to the log. -/
def say (m : Machine) (line : LogLine) : Machine := { m with log := m.log.push line }

/-- Adds lines to the log, in order. -/
def sayAll (m : Machine) (lines : List LogLine) : Machine := lines.foldl say m

/-- Adds a point to the queue unless it is there already. -/
def enqueue (order : TraceMode) (m : Machine) (k : Key) : Machine :=
  match order with
  | .breadthFirst => { m with queue := m.queue.pushBack k }
  | .singlePath => { m with queue := m.queue.pushFront k }

/-! ## Passing a state on -/

/-- What is stored at a point that held `old` after `out` is passed on to it. -/
def received (initial : State) (old : Option State) (out : State) : Payload → State
  | .full =>
    match old with
    | some s => s.join out
    | none => out
  | .observations =>
    match old with
    | some s => s.joinObservations out
    | none => initial.joinObservations out

/-- Passes `out` on to a point. If that changes its state it is queued; `cap` limits how often that
    may happen. -/
def propagate (s : Setup) (cap : Option Nat) (out : State) (m : Machine) (target : Key)
    (payload : Payload) : Progress :=
  let old := m.table[target]?
  let new := received s.initial old out payload
  if old = some new then .running m
  else
    let m := { m with table := m.table.insert target new, relaxations := m.relaxations + 1 }
    match cap with
    | some cap =>
      if cap < m.relaxations then .stopped m (.error (.iterationCapExceeded cap))
      else .running (m.enqueue s.options.traceMode target)
    | none => .running (m.enqueue s.options.traceMode target)

/-- Passes `out` on to several points in order. -/
def propagateAll (s : Setup) (cap : Option Nat) (out : State) (m : Machine) :
    List (Key × Payload) → Progress
  | [] => .running m
  | (target, payload) :: rest =>
    match m.propagate s cap out target payload with
    | .running m => m.propagateAll s cap out rest
    | .stopped m outcome => .stopped m outcome

/-! ## Steps -/

/-- The log line of a visit: its number, the node with its mnemonic, and the mode. -/
def stepLine (id : Nat) (n : Node) (mode : Mode) : LogLine :=
  ⟨.trace, "step " ++ toString id ++ ": " ++ n.id ++ " (" ++
    ((n.instr.map (·.mnemonic)).getD "-") ++ ") in " ++ mode.name⟩

/-- The log line of an observation that violates non-interference. -/
def violationLine (n : Node) (mode : Mode) (v : State.Violation) : LogLine :=
  ⟨.info, v.channel ++ " " ++ v.key ++ " is " ++ v.relation.name ++ " at " ++ n.id ++ " (" ++
    mode.name ++ ")"⟩

/-- The trace step for a visit of a point after which the state is `out`. -/
def visit (id : Nat) (n : Node) (mode : Mode) (out : State) : Step where
  id := id
  nodeId := n.id
  pc := n.pc
  mode := mode
  description := n.description?
  state := out
  isViolation := out.hasViolation

/-- Visits a point, whose node is `n`, with the result `out`. -/
def complete (s : Setup) (cap : Option Nat) (m : Machine) (k : Key) (n : Node) (out : State) :
    Progress :=
  let m := { m with trace := m.trace.push (visit m.trace.size n k.mode out) }
  if out.hasViolation then
    .stopped (m.sayAll (out.violations.map (violationLine n k.mode))) (.ok .violation)
  else
    let routes := s.routes k
    (m.sayAll (routes.filterMap (Route.logLine? n.id))).propagateAll s cap out
      (routes.filterMap Route.move?)

/-- Takes one point from the queue and visits it. -/
def step (s : Setup) (cap : Option Nat) (m : Machine) : Progress :=
  match m.queue.pop? with
  | none => .stopped m (.ok .secure)
  | some (k, queue) =>
    let m := { m with queue := queue }
    match s.graph.nodeAt k.node with
    | .error e => .stopped m (.error e)
    | .ok n =>
      match m.table[k]? with
      | none => .stopped m (.error (.internal (.noState n.id)))
      | some state =>
        let m := m.say (stepLine m.trace.size n k.mode)
        match n.transfer state k.mode with
        | .error e => .stopped m (.error e)
        | .ok out => m.complete s cap k n out

/-- Runs a machine for at most `fuel` steps; that there is more to do after them is the error
    `late`. -/
def run (s : Setup) (cap : Option Nat) (late : Error) : (fuel : Nat) → Machine → Finished
  | 0, m => ⟨m, if m.queue.isEmpty then .ok .secure else .error late⟩
  | fuel + 1, m =>
    match m.step s cap with
    | .running m => m.run s cap late fuel
    | .stopped m outcome => ⟨m, outcome⟩

end Machine

namespace Setup

/-- The point at which the analysis of a valid graph with a window starts. -/
def checkedEntry (s : Setup) : Except Error (Option Key) := do
  s.graph.validate
  if s.options.specWindow ≤ 0 then .error (.invalidSpecWindow s.options.specWindow)
  s.entryKey

/-- The whole analysis. -/
def run (s : Setup) : Finished :=
  match s.checkedEntry with
  | .error e => ⟨.empty, .error e⟩
  | .ok none => ⟨.empty, .ok .secure⟩
  | .ok (some entry) =>
    (Machine.start s entry).run s (some s.options.iterationCap)
      (.maxStepsExceeded s.options.maxSteps) s.options.maxSteps

end Setup

end Mispredict
