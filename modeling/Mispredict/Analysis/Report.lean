/-
  The result of an analysis.
-/
import Mispredict.Analysis.Machine
import Mispredict.SpecGraph.Build

namespace Mispredict

/-- An error as a report shows it. -/
structure ErrorInfo where
  errorClass : ErrorClass
  message : String
  detail : Option Json
  deriving DecidableEq

/-- What a report shows of an error. -/
def Error.info (e : Error) : ErrorInfo := ⟨e.errorClass, e.message, e.detail⟩

/-- What a report warns of. -/
inductive WarningKind where
  /-- The policy gives an input the level `top`, so that the verdict may be too careful. -/
  | topObserved
  deriving DecidableEq, Repr

/-- The name of a warning in a report. -/
def WarningKind.name : WarningKind → String
  | .topObserved => "TopObserved"

/-- A warning of a report. -/
structure Warning where
  kind : WarningKind
  detail : Option Json
  deriving DecidableEq

/-- The result of an analysis. An error leaves the trace of the steps before it. -/
structure Report where
  schemaVersion : String
  graph : SpecGraph
  trace : List Step
  traceMode : TraceMode
  verdict : Verdict
  error : Option ErrorInfo
  warnings : List Warning
  deriving DecidableEq

namespace Report

/-- The version of the format of reports. -/
def currentSchema : String := "1.0"

/-- The inputs to which a policy gives the level `top`. -/
def policyWarnings (p : Policy) : List Warning :=
  let warn (channel : String) (m : SortedMap String Level) : List Warning :=
    (m.entries.filter (·.2 == .top)).map fun (name, _) =>
      ⟨.topObserved, some (.obj [("channel", .str channel), ("name", .str name)])⟩
  warn "regs" p.regs ++ warn "mem" p.mem

/-- Whether the analysis came to its end and found no violation. -/
def isSecure (r : Report) : Bool := r.error.isNone && r.verdict == .secure

/-- The first step with a violation. -/
def violation? (r : Report) : Option Step := r.trace.find? (·.isViolation)

/-- The report of an analysis that could not start. -/
def failed (o : Options) (e : Error) : Report where
  schemaVersion := currentSchema
  graph := .empty
  trace := []
  traceMode := o.traceMode
  verdict := .secure
  error := some e.info
  warnings := policyWarnings o.policy

/-- The report of a finished analysis. An error counts as no violation. -/
def ofFinished (g : SpecGraph) (o : Options) (f : Finished) : Report where
  schemaVersion := currentSchema
  graph := g
  trace := f.machine.trace.toList
  traceMode := o.traceMode
  verdict :=
    match f.outcome with
    | .ok v => v
    | .error _ => .secure
  error :=
    match f.outcome with
    | .ok _ => none
    | .error e => some e.info
  warnings := policyWarnings o.policy

end Report

/-- The log lines at the end of an analysis. -/
def Finished.closing (f : Finished) : List LogLine :=
  let summary (v : Verdict) : LogLine :=
    ⟨.debug, v.name ++ " after " ++ toString f.machine.trace.size ++ " steps and " ++
      toString f.machine.relaxations ++ " relaxations"⟩
  match f.outcome with
  | .ok v => [summary v]
  | .error e => [⟨.warn, "analysis stopped: " ++ e.message⟩, summary .secure]

/-- Checks a graph for speculative non-interference. -/
def SpecGraph.analyze (g : SpecGraph) (o : Options) : Logged Report :=
  let f := (Setup.of g o).run
  ⟨.ofFinished g o f, f.machine.log.toList ++ f.closing⟩

/-- Checks a source text for speculative non-interference. -/
def analyzeSource (source : String) (b : BuildOptions) (o : Options) : Logged Report :=
  let built := SpecGraph.buildSource source b
  match built.result with
  | .ok g =>
    let r := g.analyze o
    ⟨r.result, built.log ++ r.log⟩
  | .error e =>
    ⟨.failed o e, built.log ++ [⟨.warn, "could not build graph: " ++ e.message⟩]⟩

end Mispredict
