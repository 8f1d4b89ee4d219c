/-
  What can be wrong with a source text, and where.
-/
import Mispredict.MuAsm.Token

namespace Mispredict.MuAsm

/-- What is wrong with a source text. -/
inductive Fault where
  | unexpectedCharacter (c : Char)
  /-- A `<` without the `-` of an arrow. -/
  | brokenArrow
  /-- A number that runs into a letter, up to that letter. -/
  | invalidToken (text : String)
  /-- A number without digits or too large for a machine word. -/
  | invalidInteger (text : String)
  | expectedInstruction (found : Option TokenKind)
  | expectedRegister (found : Option TokenKind)
  | expected (wanted : TokenKind) (found : Option TokenKind)
  | trailingToken (found : TokenKind)
  | incompleteExpression
  | notAnOperand (found : TokenKind)
  /-- A sign that does not stand before a number. -/
  | straySign
  | nestedTooDeeply
  | invalidLabel (text : String)
  | duplicateLabel (name : String)
  | undefinedLabel (name : String)
  | branchOutOfRange (name : String)
  /-- A fault described by the caller. -/
  | note (text : String)
  deriving DecidableEq, Repr

namespace Fault

/-- The end of a message that says what stood in the place of what was expected. -/
def foundInstead : Option TokenKind → String
  | none => ""
  | some kind => ", found `" ++ kind.render ++ "`"

/-- The fault in words, without its place. -/
def message : Fault → String
  | .unexpectedCharacter c => "Unexpected character `" ++ c.toString ++ "`"
  | .brokenArrow => "Expected `<-`"
  | .invalidToken text => "Invalid token `" ++ text ++ "`"
  | .invalidInteger text => "Invalid integer `" ++ text ++ "`"
  | .expectedInstruction found => "Expected an instruction" ++ foundInstead found
  | .expectedRegister found => "Expected a register" ++ foundInstead found
  | .expected wanted found => "Expected `" ++ wanted.render ++ "`" ++ foundInstead found
  | .trailingToken found => "Unexpected trailing token `" ++ found.render ++ "`"
  | .incompleteExpression => "Incomplete expression"
  | .notAnOperand found => "Unexpected token `" ++ found.render ++ "` in expression"
  | .straySign => "Unary `-` must precede an integer"
  | .nestedTooDeeply => "Expression nested too deeply"
  | .invalidLabel text => "Invalid label `" ++ text ++ "`"
  | .duplicateLabel name => "Duplicate label `" ++ name ++ "`"
  | .undefinedLabel name => "Undefined label `" ++ name ++ "`"
  | .branchOutOfRange name => "Branch target `" ++ name ++ "` is out of range"
  | .note text => text

end Fault

/-- A fault and its place: the line, counted from 1, and the column, counted from 0, as far as they
    are known. -/
structure SourceError where
  fault : Fault
  line : Option Nat
  column : Option Nat
  deriving DecidableEq, Repr

namespace SourceError

/-- A fault at a column of a line that the caller knows. -/
def atColumn (column : Nat) (fault : Fault) : SourceError := ⟨fault, none, some column⟩

/-- A fault of a whole line. -/
def atLine (line : Nat) (fault : Fault) : SourceError := ⟨fault, some line, none⟩

/-- The same fault, on this line. -/
def onLine (line : Nat) (e : SourceError) : SourceError := { e with line := some line }

/-- The fault in words, after its line. The column is not part of the text. -/
def message (e : SourceError) : String :=
  match e.line with
  | some line => "line " ++ toString line ++ ": " ++ e.fault.message
  | none => e.fault.message

end SourceError

end Mispredict.MuAsm
