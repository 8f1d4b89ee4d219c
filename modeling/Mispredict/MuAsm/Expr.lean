/-
  Expressions of MuASM: registers and machine words under four operators.
-/

namespace Mispredict.MuAsm

/-- The operators of expressions. -/
inductive BinOp where
  | add
  | sub
  | mul
  | and
  deriving DecidableEq, Repr

namespace BinOp

/-- Binding strength; a higher one binds tighter. -/
def precedence : BinOp → Nat
  | .and => 1
  | .add => 2
  | .sub => 2
  | .mul => 3

/-- The operator as it is written. -/
def symbol : BinOp → String
  | .add => "+"
  | .sub => "-"
  | .mul => "*"
  | .and => "&"

/-- The operator on machine words, which wraps at 64 bits. -/
def apply : BinOp → Int64 → Int64 → Int64
  | .add, a, b => a + b
  | .sub, a, b => a - b
  | .mul, a, b => a * b
  | .and, a, b => a &&& b

end BinOp

/-- An expression over registers and constants. -/
inductive Expr where
  | register (name : String)
  | constant (value : Int64)
  | binary (op : BinOp) (lhs rhs : Expr)
  deriving DecidableEq, Repr

namespace Expr

/-- The registers of an expression from left to right, repetitions included. -/
def registers : Expr → List String
  | .register name => [name]
  | .constant _ => []
  | .binary _ lhs rhs => lhs.registers ++ rhs.registers

/-- The value of an expression without registers. -/
def constant? : Expr → Option Int64
  | .register _ => none
  | .constant value => some value
  | .binary op lhs rhs =>
    match lhs.constant?, rhs.constant? with
    | some a, some b => some (op.apply a b)
    | _, _ => none

/-- Whether an operand of an operator of strength `p` needs parentheses; a right operand needs them
    also at equal strength, since operators associate to the left. -/
def needsParens (p : Nat) (right : Bool) : Expr → Bool
  | .binary op _ _ => if right then op.precedence ≤ p else op.precedence < p
  | _ => false

/-- The text, in parentheses if they are asked for. -/
def parenthesise (parens : Bool) (text : String) : String :=
  if parens then "(" ++ text ++ ")" else text

/-- The expression with the fewest parentheses that keep its structure. -/
def render : Expr → String
  | .register name => name
  | .constant value => toString value.toInt
  | .binary op lhs rhs =>
    parenthesise (lhs.needsParens op.precedence false) lhs.render ++ " " ++ op.symbol ++ " " ++
      parenthesise (rhs.needsParens op.precedence true) rhs.render

end Expr

end Mispredict.MuAsm
