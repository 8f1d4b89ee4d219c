/-
  What the command line asks for.

  There is one positional argument, the directory of the sources. An option takes
  its value from the next argument, or after an equals sign in the same one; the
  next argument may not start with a dash, unless it is just a dash. Each option
  may be given once; `-v` may be repeated. After `--` all arguments are positional.
-/
import Mispredict.Analysis.Options
import Mispredict.Log

namespace Mispredict.Cli

/-- What the command line asks for. -/
structure Command where
  dir : String
  traceMode : TraceMode
  /-- The window, both for building graphs and for analysing them. -/
  windowSize : Int
  layout : Layout
  speculation : SpeculationMode
  /-- The file that holds the policy. -/
  policy : Option String
  /-- The extension of source files. -/
  extension : String
  /-- Whether reports are printed as JSON. -/
  json : Bool
  /-- The directory for drawings of the graphs. -/
  dot : Option String
  verbosity : Nat
  deriving DecidableEq, Repr

namespace Command

/-- The log lines that are shown. -/
def logLevel (c : Command) : LogLevel :=
  match c.verbosity with
  | 0 => .warn
  | 1 => .info
  | 2 => .debug
  | _ => .trace

/-- The arguments that were read so far. -/
structure Draft where
  dir : Option String := none
  traceMode : Option TraceMode := none
  windowSize : Option Int := none
  layout : Option Layout := none
  speculation : Option SpeculationMode := none
  policy : Option String := none
  extension : Option String := none
  json : Bool := false
  dot : Option String := none
  verbosity : Nat := 0
  deriving DecidableEq, Repr

/-- A decimal number with an optional sign that fits a machine word. -/
def parseInt? (text : String) : Option Int :=
  let (negative, digits) := match text.toList with
    | '-' :: rest => (true, rest)
    | '+' :: rest => (false, rest)
    | cs => (false, cs)
  if digits.isEmpty || !digits.all Char.isDigit then none
  else
    let n : Int := digits.foldl (fun n c => 10 * n + (c.toNat - '0'.toNat : Nat)) 0
    let i := if negative then -n else n
    if Int64.minValue.toInt ≤ i ∧ i ≤ Int64.maxValue.toInt then some i else none

/-- A path, which may not be empty. -/
def parsePath? (text : String) : Option String := if text.isEmpty then none else some text

/-- The value with this name, case included. -/
def byName? {α : Type} (names : List (String × α)) (text : String) : Option α :=
  (names.find? (·.1 == text)).map (·.2)

/-- Sets a value that is not set yet. -/
def once {α : Type} (current new : Option α) : Option (Option α) :=
  match current, new with
  | none, some a => some (some a)
  | _, _ => none

namespace Draft

/-- Takes an argument as the directory; there may be one only. -/
def setDir (d : Draft) (arg : String) : Option Draft := do
  return { d with dir := ← once d.dir (parsePath? arg) }

/-- Whether this is the name of an option with a value. -/
def takesValue (name : String) : Bool :=
  ["trace-mode", "window-size", "mode", "speculation-mode", "policy", "extension", "dot"].contains
    name

/-- Sets an option with a value. -/
def setOption (d : Draft) (name value : String) : Option Draft :=
  match name with
  | "trace-mode" => do
    return { d with traceMode := ← once d.traceMode (byName? TraceMode.names value) }
  | "window-size" => do return { d with windowSize := ← once d.windowSize (parseInt? value) }
  | "mode" => do return { d with layout := ← once d.layout (byName? Layout.names value) }
  | "speculation-mode" => do
    return { d with speculation := ← once d.speculation (byName? SpeculationMode.names value) }
  | "policy" => do return { d with policy := ← once d.policy (parsePath? value) }
  | "extension" => do return { d with extension := ← once d.extension (some value) }
  | "dot" => do return { d with dot := ← once d.dot (parsePath? value) }
  | _ => none

/-- Sets an option without value. -/
def setFlag (d : Draft) (name : String) : Option Draft :=
  match name with
  | "json" => if d.json then none else some { d with json := true }
  | "verbose" => some { d with verbosity := d.verbosity + 1 }
  | _ => none

/-- Sets the options of an argument with one dash. -/
def setShort (d : Draft) (letters : List Char) : Option Draft :=
  if letters.all (· == 'v') then some { d with verbosity := d.verbosity + letters.length } else none

/-- Whether an argument can be the value of the option before it. -/
def isValue (arg : String) : Bool := arg == "-" || arg.toList.head? != some '-'

/-- Reads arguments none of which is an option. -/
def readPositional (d : Draft) (args : List String) : Option Draft := args.foldlM setDir d

/-- Reads the arguments from left to right. -/
def read (d : Draft) : List String → Option Draft
  | [] => some d
  | arg :: rest =>
    match arg.toList with
    | ['-', '-'] => d.readPositional rest
    | '-' :: '-' :: long =>
      let name := String.ofList (long.takeWhile (· != '='))
      match long.dropWhile (· != '=') with
      | _ :: value => do (← d.setOption name (String.ofList value)).read rest
      | [] =>
        if takesValue name then
          match rest with
          | value :: rest => if isValue value then do (← d.setOption name value).read rest else none
          | [] => none
        else do (← d.setFlag name).read rest
    | '-' :: c :: short => do (← d.setShort (c :: short)).read rest
    | _ => do (← d.setDir arg).read rest

end Draft

/-- The command that the arguments stand for; none if they break a rule. -/
def parse? (args : List String) : Option Command := do
  let d ← Draft.read {} args
  return {
    dir := ← d.dir
    traceMode := d.traceMode.getD .breadthFirst
    windowSize := d.windowSize.getD 8
    layout := d.layout.getD .light
    speculation := d.speculation.getD .discard
    policy := d.policy
    extension := d.extension.getD "muasm"
    json := d.json
    dot := d.dot
    verbosity := d.verbosity }

/-- How the command builds graphs. -/
def buildOptions (c : Command) : BuildOptions where
  windowSize := c.windowSize
  layout := c.layout
  speculation := c.speculation

/-- How the command analyses graphs: its window bounds speculation as well. -/
def options (c : Command) (policy : Policy) : Options :=
  { policy := policy
    traceMode := c.traceMode
    speculation := c.speculation
    specWindow := c.windowSize }

end Command

end Mispredict.Cli
