/-
  Expressions, instructions and programs as JSON.

  Each alternative is an object with one member named for it, or its name alone if
  it holds nothing. An absent target of a branch is written as `null`.
-/
import Mispredict.Json.Decode
import Mispredict.MuAsm.Program

namespace Mispredict.MuAsm

/-- The operators by their names. -/
def BinOp.names : List (String × BinOp) :=
  [("Add", .add), ("Sub", .sub), ("Mul", .mul), ("And", .and)]

/-- The name of an operator. -/
def BinOp.name : BinOp → String
  | .add => "Add"
  | .sub => "Sub"
  | .mul => "Mul"
  | .and => "And"

namespace Expr

/-- An expression. The operands of an operator stand in a list after its name. -/
def toJson : Expr → Json
  | .register name => .obj [("Register", .str name)]
  | .constant value => .obj [("Constant", .int value.toInt)]
  | .binary op lhs rhs => .obj [("Binary", .arr [.str op.name, lhs.toJson, rhs.toJson])]

/-- Reads an expression. -/
def ofJson : Json → Decoded Expr
  | .obj [("Register", content)] => do return .register (← content.asString)
  | .obj [("Constant", content)] => do return .constant (← content.asInt64)
  | .obj [("Binary", .arr [op, lhs, rhs])] => do
    let op ← op.asName BinOp.names
    let lhs ← ofJson lhs
    let rhs ← ofJson rhs
    return .binary op lhs rhs
  | _ => .error .shape

end Expr

namespace Jump

/-- Where a jump goes. -/
def toJson : Jump → Json
  | .pc n => .obj [("Pc", .nat n)]
  | .label name => .obj [("Label", .str name)]
  | .dynamic => .str "Dynamic"

/-- Reads where a jump goes. -/
def ofJson (j : Json) : Decoded Jump := do
  match ← j.choice with
  | .holding "Pc" content => return .pc (← content.asNat)
  | .holding "Label" content => return .label (← content.asString)
  | .holding "Dynamic" .null => return .dynamic
  | .bare "Dynamic" => return .dynamic
  | _ => .error .shape

end Jump

namespace Instr

/-- An instruction. -/
def toJson : Instr → Json
  | .skip => .str "Skip"
  | .spbarr => .str "Spbarr"
  | .assign dest expr => .obj [("Assign", .obj [("dest", .str dest), ("expr", expr.toJson)])]
  | .load dest addr => .obj [("Load", .obj [("dest", .str dest), ("addr", addr.toJson)])]
  | .store src addr => .obj [("Store", .obj [("src", .str src), ("addr", addr.toJson)])]
  | .beqz cond target targetPc =>
    .obj [("Beqz", .obj [("cond", cond.toJson), ("target", .str target),
      ("target_pc", .nullable .nat targetPc)])]
  | .jmp target resolved =>
    .obj [("Jmp", .obj [("target", target.toJson), ("resolved", resolved.toJson)])]
  | .cmov dest cond value =>
    .obj [("Cmov", .obj [("dest", .str dest), ("cond", cond.toJson), ("value", value.toJson)])]

/-- Reads an instruction. The program counter of a branch may be absent or `null`. -/
def ofJson (j : Json) : Decoded Instr := do
  match ← j.choice with
  | .bare "Skip" => return .skip
  | .holding "Skip" .null => return .skip
  | .bare "Spbarr" => return .spbarr
  | .holding "Spbarr" .null => return .spbarr
  | .holding "Assign" content =>
    let fields ← content.members
    return .assign (← Json.required fields "dest" Json.asString)
      (← Json.required fields "expr" Expr.ofJson)
  | .holding "Load" content =>
    let fields ← content.members
    return .load (← Json.required fields "dest" Json.asString)
      (← Json.required fields "addr" Expr.ofJson)
  | .holding "Store" content =>
    let fields ← content.members
    return .store (← Json.required fields "src" Json.asString)
      (← Json.required fields "addr" Expr.ofJson)
  | .holding "Beqz" content =>
    let fields ← content.members
    return .beqz (← Json.required fields "cond" Expr.ofJson)
      (← Json.required fields "target" Json.asString)
      (← Json.optional fields "target_pc" Json.asNat)
  | .holding "Jmp" content =>
    let fields ← content.members
    return .jmp (← Json.required fields "target" Expr.ofJson)
      (← Json.required fields "resolved" Jump.ofJson)
  | .holding "Cmov" content =>
    let fields ← content.members
    return .cmov (← Json.required fields "dest" Json.asString)
      (← Json.required fields "cond" Expr.ofJson)
      (← Json.required fields "value" Expr.ofJson)
  | _ => .error .shape

end Instr

/-- Reads an entry of a program, which may have no label. -/
def Entry.ofJson (j : Json) : Decoded Entry := do
  let fields ← j.record ["label", "instruction", "sourceLine", "pc"] 4
  return {
    label := ← Json.optional fields "label" Json.asString
    instr := ← Json.required fields "instruction" Instr.ofJson
    sourceLine := ← Json.required fields "sourceLine" Json.asNat
    pc := ← Json.required fields "pc" Json.asNat }

/-- Reads a program. Of labels with one name the last counts. -/
def Program.ofJson (j : Json) : Decoded Program := do
  let fields ← j.record ["entries", "labels"] 2
  return {
    entries := ← Json.required fields "entries" (Json.asList Entry.ofJson)
    labels := Std.ExtTreeMap.ofList (← Json.required fields "labels" (Json.asEntries Json.asNat)) }

end Mispredict.MuAsm
