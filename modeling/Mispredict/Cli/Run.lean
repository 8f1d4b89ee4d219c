/-
  What a command does.

  The policy is read, then the directory for drawings is made, then the sources are
  listed and checked one after the other in the order of their names. What is logged
  about a source is printed before its report. The first thing that fails ends the
  run; a source that cannot be analysed does not.
-/
import Mispredict.Analysis.Wire
import Mispredict.Cli.Command
import Mispredict.Cli.Host
import Mispredict.Cli.Path

namespace Mispredict.Cli

/-- The lines that report on the source at `path`. -/
def reportLines (path : String) (r : Report) : List String :=
  match r.error with
  | some e => [path ++ ": " ++ e.errorClass.name ++ ": " ++ e.message]
  | none =>
    let head := path ++ ": " ++ r.verdict.name ++ " (" ++ toString r.trace.length ++ " steps)"
    let witness :=
      match r.verdict, r.violation? with
      | .violation, some s =>
        ("    at " ++ s.nodeId ++ " (pc " ++ toString s.pc.toInt ++ ", " ++ s.mode.name ++ "): " ++
          s.description.getD "") ::
          s.state.violations.map fun v =>
            "    " ++ v.channel ++ " " ++ v.key ++ " = " ++ v.relation.name
      | _, _ => []
    let warnings := r.warnings.filterMap fun w =>
      w.detail.map fun d => "    warning: " ++ w.kind.name ++ " " ++ d.compact
    head :: (witness ++ warnings)

variable {m : Type → Type} [Monad m] [Host m]

/-- Prints the log lines that the command shows. -/
def printLog (c : Command) (log : List LogLine) : m Unit :=
  (log.filter (·.visibleAt c.logLevel)).forM fun l => Host.print l.render

/-- The policy that the command names. -/
def readPolicy (c : Command) : ExceptT Error m Policy := do
  match c.policy with
  | none => return .empty
  | some path =>
    match ← (Host.readFile path : m _) with
    | .error e => throw (.file e)
    | .ok text =>
      match Policy.parse? text with
      | some policy => return policy
      | none => throw .malformedJson

/-- Makes the directory for drawings. -/
def prepareDot (c : Command) : ExceptT Error m Unit := do
  match c.dot with
  | none => return
  | some dir =>
    match ← (makeDirs dir : m _) with
    | .error e => throw (.file e)
    | .ok () => return

/-- The names of the sources, in order. -/
def sources (c : Command) : ExceptT Error m (List String) := do
  match ← (Host.listFiles c.dir : m _) with
  | .error e => throw (.file e)
  | .ok names =>
    return (SortedMap.ofList ((names.filter (Path.extension? · == some c.extension)).map
      fun n => (n, ()))).keys

/-- Checks the source with this name. Says whether it could be analysed. -/
def checkSource (c : Command) (policy : Policy) (name : String) : ExceptT Error m Bool := do
  let path := Path.join c.dir name
  match ← (Host.readFile path : m _) with
  | .error e => throw (.file e)
  | .ok source =>
    let r := analyzeSource source c.buildOptions (c.options policy)
    printLog (m := m) c r.log
    let lines := if c.json then [r.result.render] else reportLines path r.result
    for line in lines do
      (Host.print line : m Unit)
    match c.dot with
    | none => pure ()
    | some dir =>
      let target := Path.withExtension (Path.join dir (Path.stem name)) "dot"
      match ← (Host.writeFile target r.result.graph.dot : m _) with
      | .error e => throw (.file e)
      | .ok () => pure ()
    return r.result.error.isNone

/-- Checks all sources. Says whether all of them could be analysed. -/
def checkAll (c : Command) : ExceptT Error m Bool := do
  let policy ← readPolicy c
  prepareDot c
  let results ← (← sources c).mapM (checkSource c policy)
  return results.all id

/-- How a run ended. -/
structure Ending where
  exitCode : Nat
  /-- What is printed as an error. -/
  complaint : Option String
  deriving DecidableEq, Repr

/-- Carries out a command. -/
def Command.run (c : Command) : m Ending := do
  printLog c [⟨.debug, "log level " ++ c.logLevel.name⟩]
  match ← (checkAll c).run with
  | .ok true => return ⟨0, none⟩
  | .ok false => return ⟨1, none⟩
  | .error e => return ⟨1, some ("error: " ++ e.message)⟩

/-- Carries out what the arguments ask for. Arguments that break a rule end the run at once. -/
def run (args : List String) : m Ending :=
  match Command.parse? args with
  | none => return ⟨2, some "error: the arguments were not understood"⟩
  | some c => c.run

end Mispredict.Cli
