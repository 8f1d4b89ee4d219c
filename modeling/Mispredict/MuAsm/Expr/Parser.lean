/-
  From tokens to expressions.

  Tokens are read from left to right, with a stack of what is still open: an
  operator that waits for its right operand, or a parenthesis that waits to be
  closed. An operator first completes the operators on the stack that bind at
  least as tightly. The expression ends where no operand or operator can follow.
-/
import Mispredict.MuAsm.Expr
import Mispredict.MuAsm.Fault

namespace Mispredict.MuAsm

/-- The operator for which a token stands. -/
def TokenKind.operator? : TokenKind → Option BinOp
  | .plus => some .add
  | .minus => some .sub
  | .star => some .mul
  | .amp => some .and
  | _ => none

/-- The most operators and opening parentheses that one instruction may have. -/
def nestingLimit : Nat := 512

namespace Expr

/-- Something that an unfinished expression waits for. -/
inductive Pending where
  /-- The right operand of `op`. -/
  | operand (lhs : Expr) (op : BinOp)
  /-- A closing parenthesis. -/
  | group
  deriving DecidableEq, Repr

/-- Completes with `e` the pending operators that bind at least as tightly as `p`. -/
def settle (p : Nat) (e : Expr) : List Pending → Expr × List Pending
  | .operand lhs op :: rest =>
    if p ≤ op.precedence then settle p (.binary op lhs e) rest else (e, .operand lhs op :: rest)
  | stack => (e, stack)

/-- An expression read from the front of a token list. -/
structure Parsed where
  expr : Expr
  /-- How many operators and opening parentheses the instruction has had so far. -/
  used : Nat
  rest : List Token
  deriving DecidableEq, Repr

mutual

/-- Reads on where an operand must follow. `stop` is the column after the last token. -/
def readOperand (stop : Nat) (stack : List Pending) (used : Nat) :
    List Token → Except SourceError Parsed
  | [] => .error (.atColumn stop .incompleteExpression)
  | t :: ts =>
    match t.kind with
    | .identifier name => readOperator stop stack used (.register name) ts
    | .integer value => readOperator stop stack used (.constant (Int64.ofNat value)) ts
    | .minus =>
      match ts with
      | ⟨.integer value, _⟩ :: ts => readOperator stop stack used (.constant (-Int64.ofNat value)) ts
      | _ => .error (.atColumn t.column .straySign)
    | .lparen =>
      if used < nestingLimit then readOperand stop (.group :: stack) (used + 1) ts
      else .error (.atColumn t.column .nestedTooDeeply)
    | kind => .error (.atColumn t.column (.notAnOperand kind))

/-- Reads on after the operand `e`. -/
def readOperator (stop : Nat) (stack : List Pending) (used : Nat) (e : Expr) :
    List Token → Except SourceError Parsed
  | [] =>
    match settle 0 e stack with
    | (e, []) => .ok ⟨e, used, []⟩
    | (_, _ :: _) => .error (.atColumn stop (.expected .rparen none))
  | t :: ts =>
    match t.kind.operator? with
    | some op =>
      if used < nestingLimit then
        let (lhs, stack) := settle op.precedence e stack
        readOperand stop (.operand lhs op :: stack) (used + 1) ts
      else .error (.atColumn t.column .nestedTooDeeply)
    | none =>
      match settle 0 e stack with
      | (e, []) => .ok ⟨e, used, t :: ts⟩
      | (e, _ :: stack) =>
        if t.kind = .rparen then readOperator stop stack used e ts
        else .error (.atColumn t.column (.expected .rparen (some t.kind)))

end

/-- Reads an expression from the front of a token list, in an instruction that has already had
    `used` operators and opening parentheses. -/
def read (stop : Nat) (used : Nat) (tokens : List Token) : Except SourceError Parsed :=
  readOperand stop [] used tokens

end Expr

end Mispredict.MuAsm
