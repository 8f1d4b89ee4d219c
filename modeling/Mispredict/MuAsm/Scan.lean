/-
  From text to tokens. Blanks separate tokens and are dropped; words and numbers
  are as long as they can be; a number may not run into a letter. Columns are
  machine words, so that the one after the largest is 0.
-/
import Mispredict.MuAsm.Fault
import Mispredict.Text.Blank

namespace Mispredict.MuAsm

/-- Whether a character is a hexadecimal digit of either case. -/
def isHexDigit (c : Char) : Bool :=
  c.isDigit || ('a' ≤ c && c ≤ 'f') || ('A' ≤ c && c ≤ 'F')

/-- The value of a hexadecimal digit of either case. -/
def digitValue (c : Char) : Nat :=
  if c.isDigit then c.toNat - '0'.toNat
  else if 'a' ≤ c then c.toNat - 'a'.toNat + 10
  else c.toNat - 'A'.toNat + 10

/-- The number that a run of digits stands for. -/
def numeral (base : Nat) (digits : List Char) : Nat :=
  digits.foldl (fun n c => base * n + digitValue c) 0

/-- Base and digits of the number that starts with `c`: hexadecimal after `0x` or `0X`, otherwise
    decimal. -/
def numberDigits (c : Char) (rest : List Char) : Nat × List Char :=
  match rest with
  | x :: rest' =>
    if c == '0' && (x == 'x' || x == 'X') then (16, rest'.takeWhile isHexDigit)
    else (10, c :: rest.takeWhile Char.isDigit)
  | [] => (10, [c])

/-- How many characters after `c` belong to the number that starts with it. -/
def numberExtent (c : Char) (rest : List Char) : Nat :=
  match numberDigits c rest with
  | (16, digits) => digits.length + 1
  | (_, digits) => digits.length - 1

/-- The number that starts with `c`, and how many characters after `c` belong to it. -/
def scanNumber (c : Char) (rest : List Char) : Except Fault (TokenKind × Nat) :=
  let (base, digits) := numberDigits c rest
  let extent := numberExtent c rest
  let lexeme := c :: rest.take extent
  match (rest.drop extent).head? with
  | some next =>
    if isIdentChar next then .error (.invalidToken (String.ofList (lexeme ++ [next])))
    else value base digits extent lexeme
  | none => value base digits extent lexeme
where
  value (base : Nat) (digits : List Char) (extent : Nat) (lexeme : List Char) :
      Except Fault (TokenKind × Nat) :=
    if !digits.isEmpty ∧ numeral base digits ≤ Int64.maxValue.toInt then
      .ok (.integer (numeral base digits), extent)
    else .error (.invalidInteger (String.ofList lexeme))

/-- The mark that starts with `c`, and how many characters after `c` belong to it. -/
def scanMark (c : Char) (rest : List Char) : Except Fault (TokenKind × Nat) :=
  match c with
  | '<' => if rest.head? == some '-' then .ok (.arrow, 1) else .error .brokenArrow
  | ',' => .ok (.comma, 0)
  | '(' => .ok (.lparen, 0)
  | ')' => .ok (.rparen, 0)
  | '+' => .ok (.plus, 0)
  | '-' => .ok (.minus, 0)
  | '*' => .ok (.star, 0)
  | '&' => .ok (.amp, 0)
  | '?' => .ok (.question, 0)
  | c => .error (.unexpectedCharacter c)

/-- The token that starts with `c`, which is not blank, and how many characters after `c` belong to
    it. -/
def scanToken (c : Char) (rest : List Char) : Except Fault (TokenKind × Nat) :=
  if isIdentStart c then
    let tail := rest.takeWhile isIdentChar
    .ok (.identifier (String.ofList (c :: tail)), tail.length)
  else if c.isDigit then scanNumber c rest
  else scanMark c rest

/-- A column as a token or an error has it. -/
def columnWord (column : Nat) : Nat := column % UInt64.size

/-- The tokens of a text whose first character stands at `column`. -/
def tokenize (column : Nat) (text : List Char) : Except SourceError (List Token) :=
  match text with
  | [] => .ok []
  | c :: rest =>
    if Text.isBlank c then tokenize (column + 1) rest
    else
      match scanToken c rest with
      | .error fault => .error (.atColumn (columnWord column) fault)
      | .ok (kind, extent) =>
        match tokenize (column + 1 + extent) (rest.drop extent) with
        | .error e => .error e
        | .ok tokens => .ok (⟨kind, columnWord column⟩ :: tokens)
termination_by text.length
decreasing_by
  · simp
  · simp only [List.length_drop, List.length_cons]; omega

end Mispredict.MuAsm
