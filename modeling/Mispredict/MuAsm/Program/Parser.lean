/-
  From source text to programs.

  The lines are read in order. A label waits for the next instruction and is bound
  to its program counter; labels after the last instruction are bound to the end.
  When all lines are read, branch and jump targets are looked up.
-/
import Mispredict.Log
import Mispredict.MuAsm.Instr.Parser
import Mispredict.MuAsm.Program

namespace Mispredict.MuAsm.Program

/-- A line after its label was split off. -/
structure Labelled where
  label : Option String
  rest : List Char
  /-- The byte at which `rest` begins. -/
  offset : Nat
  deriving DecidableEq, Repr

/-- Splits off the label, which is what stands before the first colon. -/
def splitLabel (line : List Char) : Except SourceError Labelled :=
  let before := line.takeWhile (· != ':')
  match line.dropWhile (· != ':') with
  | [] => .ok ⟨none, line, 0⟩
  | _ :: rest =>
    let label := Text.trim before
    if isIdentifier label then
      .ok ⟨some (String.ofList label), rest, Text.byteLength before + 1⟩
    else .error (.atColumn 0 (.invalidLabel (String.ofList label)))

/-- The part of a program that was read so far. -/
structure Draft where
  entries : Array Entry
  labels : Std.ExtTreeMap String Nat
  /-- Labels that wait for their instruction, in order. -/
  waiting : List String

namespace Draft

/-- A program of which nothing was read. -/
def empty : Draft := ⟨#[], ∅, []⟩

/-- Binds the waiting labels to the next program counter. -/
def bindWaiting (d : Draft) : Std.ExtTreeMap String Nat :=
  d.waiting.foldl (fun labels l => labels.insert l d.entries.size) d.labels

/-- The draft with one more label that waits. -/
def addLabel (d : Draft) (label : String) : Except Fault Draft :=
  if d.labels.contains label || d.waiting.contains label then .error (.duplicateLabel label)
  else .ok { d with waiting := d.waiting ++ [label] }

/-- The draft with one more instruction. -/
def addInstr (d : Draft) (line : Nat) (i : Instr) : Draft where
  entries := d.entries.push ⟨d.waiting.head?, i, line, d.entries.size⟩
  labels := d.bindWaiting
  waiting := []

/-- Reads one line, of which the comment is cut. -/
def readLine (d : Draft) (number : Nat) (line : List Char) : Except SourceError Draft := do
  if Text.isBlankText line then return d
  let l ← (splitLabel line).mapError (.onLine number)
  let d ← match l.label with
    | none => pure d
    | some label => (d.addLabel label).mapError (.atLine number)
  if Text.isBlankText l.rest then return d
  let i ← (Instr.ofText l.offset l.rest).mapError (.onLine number)
  return d.addInstr number i

/-- Reads lines, of which the first has this number. -/
def readLines (d : Draft) (number : Nat) : List (List Char) → Except SourceError Draft
  | [] => .ok d
  | line :: rest => do
    let d ← d.readLine number (Text.cutComment line)
    d.readLines (number + 1) rest

end Draft

/-- The entries with their targets looked up. The first branch without its label is the error. -/
def resolveEntries (labels : Std.ExtTreeMap String Nat) (entries : List Entry) :
    Except SourceError (List Entry) :=
  entries.mapM fun e => do
    let i ← (e.instr.resolve labels).mapError (.atLine e.sourceLine)
    return { e with instr := i }

/-- The program of a source text. -/
def parse (source : String) : Except SourceError Program := do
  let d ← Draft.empty.readLines 1 (Text.lines source.toList)
  let labels := d.bindWaiting
  return ⟨← resolveEntries labels d.entries.toList, labels⟩

/-- The log line for a program that was read. -/
def parsedLine (p : Program) : LogLine :=
  let entries := p.length
  let labels := p.labels.size
  ⟨.debug, s!"parsed {entries} instructions, {labels} labels"⟩

end Mispredict.MuAsm.Program
