/-
  Log lines as data. Operations that report their progress return the lines
  they emit, in order, beside their result.
-/

namespace Mispredict

/-- How much a log line matters, least first. -/
inductive LogLevel where
  | trace
  | debug
  | info
  | warn
  deriving DecidableEq, Repr

namespace LogLevel

/-- The level as a log line shows it. -/
def name : LogLevel → String
  | .trace => "TRACE"
  | .debug => "DEBUG"
  | .info => "INFO"
  | .warn => "WARN"

/-- Position in the order from least to most severe. -/
def rank : LogLevel → Nat
  | .trace => 0
  | .debug => 1
  | .info => 2
  | .warn => 3

end LogLevel

/-- A line of a log. -/
structure LogLine where
  level : LogLevel
  message : String
  deriving DecidableEq, Repr

namespace LogLine

/-- The line as it is shown. -/
def render (l : LogLine) : String := l.level.name ++ " - " ++ l.message

/-- Whether a reader who asked for `threshold` and above sees the line. -/
def visibleAt (threshold : LogLevel) (l : LogLine) : Bool := threshold.rank ≤ l.level.rank

end LogLine

/-- A result with the log lines of the work that led to it, which a failure keeps too. -/
structure Logged (α : Type) where
  result : α
  log : List LogLine
  deriving Repr

end Mispredict
