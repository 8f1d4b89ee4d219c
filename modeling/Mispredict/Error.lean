/-
  What can go wrong, by cause, with the wording of each cause.
-/
import Mispredict.Json.Basic
import Mispredict.MuAsm.Fault

namespace Mispredict

open MuAsm (SourceError)

/-- Which rule a graph breaks. -/
inductive GraphFault where
  | duplicateVertex (index : Nat)
  | duplicateEdge (head tail : Nat)
  | duplicateNode (id : String)
  | missingNode (id : String)
  /-- A rollback that does not lead from a speculative to a committed node. -/
  | misplacedRollback (source target : String)
  /-- The analysis is to start at a node that is not there. -/
  | missingEntry (id : String)
  /-- A fault described by the caller. -/
  | note (text : String)
  deriving DecidableEq, Repr

/-- The rule that is broken, in words. -/
def GraphFault.message : GraphFault → String
  | .duplicateVertex index => "duplicate vertex index " ++ toString index
  | .duplicateEdge head tail => "duplicate edge " ++ toString head ++ " -> " ++ toString tail
  | .duplicateNode id => "duplicate node id `" ++ id ++ "`"
  | .missingNode id => "node `" ++ id ++ "` does not exist"
  | .misplacedRollback source target =>
    "rollback edge " ++ source ++ " -> " ++ target ++ " must go from a spec node to an ns node"
  | .missingEntry id => "entry node `" ++ id ++ "` does not exist"
  | .note text => text

/-- Which of the data that belong together do not. -/
inductive InternalFault where
  | noInstruction (pc : Nat)
  | noBranch (pc : Nat)
  | noState (node : String)
  /-- A fault described by the caller. -/
  | note (text : String)
  deriving DecidableEq, Repr

/-- What does not belong together, in words. -/
def InternalFault.message : InternalFault → String
  | .noInstruction pc => "no instruction at pc " ++ toString pc
  | .noBranch pc => "no beqz at pc " ++ toString pc
  | .noState node => "no state for node " ++ node
  | .note text => text

/-- Why a file operation failed. -/
inductive FileFault where
  | notFound
  | notADirectory
  | alreadyExists
  | isADirectory
  | nameTooLong
  /-- Any other cause, as the system words it. -/
  | other (text : String)
  deriving DecidableEq, Repr

/-- The cause as the system words it. -/
def FileFault.message : FileFault → String
  | .notFound => "No such file or directory (os error 2)"
  | .notADirectory => "Not a directory (os error 20)"
  | .alreadyExists => "File exists (os error 17)"
  | .isADirectory => "Is a directory (os error 21)"
  | .nameTooLong => "File name too long (os error 36)"
  | .other text => text

/-- Why an operation failed. -/
inductive Error where
  | source (e : SourceError)
  | graph (fault : GraphFault)
  | unresolvedJump (pc : Nat) (target : String)
  | invalidWindowSize (size : Int)
  | invalidSpecWindow (size : Int)
  | iterationCapExceeded (cap : Nat)
  | maxStepsExceeded (limit : Nat)
  | unsupportedInstruction (node : String) (detail : String)
  | unknownOption (text : String)
  | vertexNotFound (index : Nat)
  /-- Text that is no JSON, or JSON of the wrong form. -/
  | malformedJson
  | file (fault : FileFault)
  | internal (fault : InternalFault)
  deriving DecidableEq, Repr

/-- The classes of errors that a report tells apart. -/
inductive ErrorClass where
  | parse
  | analysis
  | internal
  deriving DecidableEq, Repr

/-- The class as a report words it. -/
def ErrorClass.name : ErrorClass → String
  | .parse => "ParseError"
  | .analysis => "AnalysisError"
  | .internal => "InternalError"

namespace Error

/-- The text of an error. -/
def message : Error → String
  | .source e => e.message
  | .graph fault => "Malformed graph: " ++ fault.message
  | .unresolvedJump pc target =>
    "jmp at pc " ++ toString pc ++ " has an unresolvable target `" ++ target ++ "`"
  | .invalidWindowSize size => "windowSize must be positive, got " ++ toString size
  | .invalidSpecWindow size => "specWindow must be positive, got " ++ toString size
  | .iterationCapExceeded cap =>
    "Exceeded iterationCap of " ++ toString cap ++ " state relaxations"
  | .maxStepsExceeded limit => "Exceeded maxSteps of " ++ toString limit ++ " trace steps"
  | .unsupportedInstruction node detail =>
    "Unsupported instruction at node " ++ node ++ ": " ++ detail
  | .unknownOption text => "Unknown option value `" ++ text ++ "`"
  | .vertexNotFound index =>
    "The vertex id " ++ toString index ++ " does not exist in the graph"
  | .malformedJson => "Json error"
  | .file fault => "Io error: " ++ fault.message
  | .internal fault => fault.message

/-- The class of an error: whether the input, the analysis or the program is at fault. -/
def errorClass : Error → ErrorClass
  | .source _ | .graph _ | .unresolvedJump .. | .malformedJson => .parse
  | .invalidWindowSize _ | .invalidSpecWindow _ | .iterationCapExceeded _ | .maxStepsExceeded _
  | .unsupportedInstruction .. | .unknownOption _ => .analysis
  | .vertexNotFound _ | .file _ | .internal _ => .internal

/-- What a report adds to the message, members in key order. -/
def detail : Error → Option Json
  | .source e =>
    some (.obj [("at", .nullable .nat e.column), ("sourceLine", .nullable .nat e.line)])
  | .unresolvedJump pc target => some (.obj [("pc", .nat pc), ("target", .str target)])
  | .invalidWindowSize size => some (.obj [("windowSize", .int size)])
  | .invalidSpecWindow size => some (.obj [("specWindow", .int size)])
  | .iterationCapExceeded cap => some (.obj [("iterationCap", .nat cap)])
  | .maxStepsExceeded limit => some (.obj [("maxSteps", .nat limit)])
  | .unsupportedInstruction node _ => some (.obj [("nodeId", .str node)])
  | _ => none

end Error

/-! ## Sequences of operations -/

/-- A sequence of two operations succeeds when both do. -/
theorem bind_eq_ok_iff {ε α β : Type} {x : Except ε α} {f : α → Except ε β} {b : β} :
    (x >>= f) = .ok b ↔ ∃ a, x = .ok a ∧ f a = .ok b := by
  cases x with
  | error e => simp [bind, Except.bind]
  | ok a => simp [bind, Except.bind]

/-- A sequence of two operations fails when one of them does. -/
theorem bind_eq_error_iff {ε α β : Type} {x : Except ε α} {f : α → Except ε β} {e : ε} :
    (x >>= f) = .error e ↔ x = .error e ∨ ∃ a, x = .ok a ∧ f a = .error e := by
  cases x with
  | error e' => simp [bind, Except.bind]
  | ok a => simp [bind, Except.bind]

theorem mapError_eq_ok_iff {ε ε' α : Type} {f : ε → ε'} {x : Except ε α} {a : α} :
    x.mapError f = .ok a ↔ x = .ok a := by
  cases x with
  | ok b =>
    show (.ok b : Except ε' α) = .ok a ↔ _
    simp only [Except.ok.injEq]
  | error e =>
    show (.error (f e) : Except ε' α) = .ok a ↔ _
    simp only [reduceCtorEq]

theorem mapError_eq_error_iff {ε ε' α : Type} {f : ε → ε'} {x : Except ε α} {e : ε'} :
    x.mapError f = .error e ↔ ∃ e', x = .error e' ∧ f e' = e := by
  cases x with
  | ok b =>
    show (.ok b : Except ε' α) = .error e ↔ _
    simp only [reduceCtorEq, false_and, exists_false]
  | error e' =>
    show (.error (f e') : Except ε' α) = .error e ↔ _
    simp only [Except.error.injEq, exists_eq_left']

end Mispredict
