/-
  From tokens to instructions.

  A line's first word decides its form; a word that is no mnemonic is the register
  that an assignment or a conditional move writes. Targets are resolved against a
  label table in a second step.
-/
import Mispredict.MuAsm.Expr.Parser
import Mispredict.MuAsm.Instr
import Mispredict.MuAsm.Scan
import Std.Data.ExtTreeMap

namespace Mispredict.MuAsm

/-- The column of the first token, or `stop` if there is none. -/
def nextColumn (stop : Nat) : List Token → Nat
  | [] => stop
  | t :: _ => t.column

/-- The kind of the first token. -/
def nextKind? (tokens : List Token) : Option TokenKind := tokens.head?.map (·.kind)

/-- Takes a register or label name. -/
def takeName (stop : Nat) : List Token → Except SourceError (String × List Token)
  | ⟨.identifier name, _⟩ :: rest => .ok (name, rest)
  | tokens => .error (.atColumn (nextColumn stop tokens) (.expectedRegister (nextKind? tokens)))

/-- Takes a token of one kind. -/
def takeKind (kind : TokenKind) (stop : Nat) (tokens : List Token) :
    Except SourceError (List Token) :=
  match tokens with
  | [] => .error (.atColumn stop (.expected kind none))
  | t :: rest =>
    if t.kind = kind then .ok rest else .error (.atColumn t.column (.expected kind (some t.kind)))

namespace Instr

/-- Reads `name, expression`. -/
def readNameExpr (stop : Nat) (tokens : List Token) :
    Except SourceError (String × Expr × List Token) := do
  let (name, tokens) ← takeName stop tokens
  let tokens ← takeKind .comma stop tokens
  let e ← Expr.read stop 0 tokens
  return (name, e.expr, e.rest)

/-- Reads an instruction from the front of a token list, with its targets unresolved. -/
def read (stop : Nat) (tokens : List Token) : Except SourceError (Instr × List Token) :=
  match tokens with
  | ⟨.identifier "skip", _⟩ :: rest => .ok (.skip, rest)
  | ⟨.identifier "spbarr", _⟩ :: rest => .ok (.spbarr, rest)
  | ⟨.identifier "load", _⟩ :: rest => do
    let (dest, addr, rest) ← readNameExpr stop rest
    return (.load dest addr, rest)
  | ⟨.identifier "store", _⟩ :: rest => do
    let (src, addr, rest) ← readNameExpr stop rest
    return (.store src addr, rest)
  | ⟨.identifier "beqz", _⟩ :: rest => do
    let cond ← Expr.read stop 0 rest
    let rest ← takeKind .comma stop cond.rest
    let (target, rest) ← takeName stop rest
    return (.beqz cond.expr target none, rest)
  | ⟨.identifier "jmp", _⟩ :: rest => do
    let target ← Expr.read stop 0 rest
    return (.jmp target.expr .dynamic, target.rest)
  | ⟨.identifier dest, _⟩ :: rest => do
    let rest ← takeKind .arrow stop rest
    let value ← Expr.read stop 0 rest
    match value.rest with
    | ⟨.question, _⟩ :: rest =>
      let cond ← Expr.read stop value.used rest
      return (.cmov dest cond.expr value.expr, cond.rest)
    | rest => return (.assign dest value.expr, rest)
  | tokens => .error (.atColumn (nextColumn stop tokens) (.expectedInstruction (nextKind? tokens)))

/-- The instruction that a whole token list stands for, with its targets unresolved. -/
def ofTokens (stop : Nat) (tokens : List Token) : Except SourceError Instr := do
  match ← read stop tokens with
  | (i, []) => return i
  | (_, t :: _) => .error (.atColumn t.column (.trailingToken t.kind))

/-- The instruction that the rest of a line stands for. The text begins at byte `offset` of its
    line; the column after it is counted in bytes, too. -/
def ofText (offset : Nat) (text : List Char) : Except SourceError Instr := do
  let tokens ← tokenize offset text
  ofTokens (offset + Text.byteLength text) tokens

end Instr

/-- Where a jump with this target goes: a lone name is a label, and a constant that is not negative
    is a program counter. -/
def Jump.ofTarget (labels : Std.ExtTreeMap String Nat) (target : Expr) : Jump :=
  match target with
  | .register name =>
    match labels[name]? with
    | some n => .pc n
    | none => .label name
  | target =>
    match target.constant? with
    | some value => if 0 ≤ value.toInt then .pc value.toInt.toNat else .dynamic
    | none => .dynamic

namespace Instr

/-- The instruction with its target looked up. Only a branch can fail to find its label. -/
def resolve (labels : Std.ExtTreeMap String Nat) : Instr → Except Fault Instr
  | .beqz cond target _ =>
    match labels[target]? with
    | some pc => .ok (.beqz cond target (some pc))
    | none => .error (.undefinedLabel target)
  | .jmp target _ => .ok (.jmp target (.ofTarget labels target))
  | i => .ok i

/-- The instruction with its jump target classified where no label is known. -/
def resolveAlone : Instr → Instr
  | .jmp target _ => .jmp target (.ofTarget ∅ target)
  | i => i

/-- The instruction that a text without label stands for. -/
def parse (text : String) : Except SourceError Instr := do
  let i ← ofText 0 (Text.cutComment text.toList)
  return i.resolveAlone

end Instr

end Mispredict.MuAsm
