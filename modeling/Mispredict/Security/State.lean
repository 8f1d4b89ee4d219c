/-
  Abstract states: what is known of registers, memory cells and observations at a
  point of a program.

  A register that is not listed is public, a cell that is not listed is secret, and
  an observation that is not listed has not been made. States are joined by reading:
  what either side lists is listed, with the join of the two readings.
-/
import Mispredict.Security.Policy

namespace Mispredict

/-- What an observer of one kind of events has seen, by the place of the event. -/
abbrev Observations := SortedMap String Relation

namespace Observations

/-- What is known of an observation after one more event of level `l`. A committed secret is the
    baseline `eqHigh`; a speculative secret without that baseline is a leak, and stays one. -/
def update (current : Relation) (l : Level) : Mode → Relation
  | .committed => current.join (if l.isSecret then .eqHigh else .eqLow)
  | .speculative =>
    if current = .leak then .leak
    else if l.isSecret then if current = .eqHigh then .eqHigh else .leak
    else current.join .eqLow

/-- The observations after an event of level `l` at `key`. -/
def observe (o : Observations) (key : String) (l : Level) (mode : Mode) : Observations :=
  o.insert key (update (o.getD key .bot) l mode)

/-- What either of two runs has observed; nothing counts as `bot`. -/
def join (a b : Observations) : Observations := a.unionWith Relation.join .bot b

end Observations

/-- What is known at a point of a program. -/
structure State where
  regs : SortedMap String Value
  mem : SortedMap String Value
  /-- Observations of memory addresses. -/
  obsMem : Observations
  /-- Observations of control flow. -/
  obsCtrl : Observations
  deriving DecidableEq

namespace State

/-- The state that lists nothing. -/
def empty : State := ⟨.empty, .empty, .empty, .empty⟩

instance : Inhabited State := ⟨empty⟩

/-- The state in which a program starts: the named registers are public unless the policy says
    otherwise, and cells are as the policy says. -/
def seeded (policy : Policy) (registers : List String) : State where
  regs :=
    policy.regs.entries.foldl (fun m e => m.insert e.1 (.uniform e.2))
      (registers.foldl (fun m r => m.insert r .low) .empty)
  mem := policy.mem.entries.foldl (fun m e => m.insert e.1 (.uniform e.2)) .empty
  obsMem := .empty
  obsCtrl := .empty

/-- The value of a register; one that is not listed is public. -/
def reg (s : State) (name : String) : Value := s.regs.getD name .low

/-- The value of a cell; one that is not listed is secret. -/
def cell (s : State) (key : String) : Value := s.mem.getD key .high

/-- Writes a register. Speculation changes only what speculation sees of it. -/
def writeReg (s : State) (name : String) (v : Value) (mode : Mode) : State :=
  { s with regs := s.regs.insert name ((s.reg name).overwrite v mode) }

/-- Writes a cell. Speculation changes only what speculation sees of it. -/
def writeCell (s : State) (key : String) (v : Value) (mode : Mode) : State :=
  { s with mem := s.mem.insert key ((s.cell key).overwrite v mode) }

/-- Records that an address of this level is used at a memory site. -/
def observeMem (s : State) (key : String) (l : Level) (mode : Mode) : State :=
  { s with obsMem := s.obsMem.observe key l mode }

/-- Records that control flow depends on a value of this level at a site. -/
def observeCtrl (s : State) (key : String) (l : Level) (mode : Mode) : State :=
  { s with obsCtrl := s.obsCtrl.observe key l mode }

/-! ## Violations -/

/-- An observation that violates non-interference. -/
structure Violation where
  channel : String
  key : String
  relation : Relation
  deriving DecidableEq, Repr

/-- The observations of a channel that violate non-interference, by site. -/
def violationsIn (channel : String) (o : Observations) : List Violation :=
  (o.entries.filter (·.2.isViolation)).map fun (key, r) => ⟨channel, key, r⟩

/-- All observations that violate non-interference, those of memory first. -/
def violations (s : State) : List Violation :=
  violationsIn "obsMem" s.obsMem ++ violationsIn "obsCtrl" s.obsCtrl

/-- Whether some observation violates non-interference. -/
def hasViolation (s : State) : Bool :=
  s.obsMem.values.any Relation.isViolation || s.obsCtrl.values.any Relation.isViolation

/-! ## Joins -/

/-- The least state above both. -/
def join (s t : State) : State where
  regs := s.regs.unionWith Value.join .low t.regs
  mem := s.mem.unionWith Value.join .high t.mem
  obsMem := s.obsMem.join t.obsMem
  obsCtrl := s.obsCtrl.join t.obsCtrl

/-- The state with the observations of `t` joined in. -/
def joinObservations (s t : State) : State :=
  { s with obsMem := s.obsMem.join t.obsMem, obsCtrl := s.obsCtrl.join t.obsCtrl }

/-- The state with `t` joined in, and whether that has changed it. -/
def merge (s t : State) : State × Bool :=
  let joined := s.join t
  if joined = s then (s, false) else (joined, true)

/-- The state with only the observations of `t` joined in, and whether that has changed it. For
    registers and memory it is merged with itself. -/
def mergeObservations (s t : State) : State × Bool :=
  s.merge { t with regs := s.regs, mem := s.mem }

/-! ## Text -/

/-- The state line by line: registers, cells, then the two kinds of observations. -/
def render (s : State) : String :=
  String.join <|
    s.regs.entries.map (fun (k, v) => "reg " ++ k ++ " = " ++ v.render ++ "\n") ++
    s.mem.entries.map (fun (k, v) => "mem [" ++ k ++ "] = " ++ v.render ++ "\n") ++
    s.obsMem.entries.map (fun (k, r) => "obsMem " ++ k ++ " = " ++ r.name ++ "\n") ++
    s.obsCtrl.entries.map (fun (k, r) => "obsCtrl " ++ k ++ " = " ++ r.name ++ "\n")

end State

end Mispredict
