/-
  Tokens of MuASM, the assembly language that is analysed, and identifiers.
-/

namespace Mispredict.MuAsm

/-- A token without its place. -/
inductive TokenKind where
  | identifier (name : String)
  | integer (value : Nat)
  | arrow
  | comma
  | lparen
  | rparen
  | plus
  | minus
  | star
  | amp
  | question
  deriving DecidableEq, Repr

/-- The token as it is shown; a number is shown in decimal. -/
def TokenKind.render : TokenKind → String
  | .identifier name => name
  | .integer value => toString value
  | .arrow => "<-"
  | .comma => ","
  | .lparen => "("
  | .rparen => ")"
  | .plus => "+"
  | .minus => "-"
  | .star => "*"
  | .amp => "&"
  | .question => "?"

/-- A token with the column at which it starts. -/
structure Token where
  kind : TokenKind
  column : Nat
  deriving DecidableEq, Repr

/-! ## Identifiers -/

/-- An ASCII letter or an underscore. -/
def isIdentStart (c : Char) : Bool := c.isAlpha || c == '_'

/-- An ASCII letter or digit, or an underscore. -/
def isIdentChar (c : Char) : Bool := c.isAlphanum || c == '_'

/-- Whether a whole text is one identifier. -/
def isIdentifier : List Char → Bool
  | [] => false
  | c :: cs => isIdentStart c && cs.all isIdentChar

end Mispredict.MuAsm
