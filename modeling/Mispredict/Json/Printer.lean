/-
  Writing JSON text, on one line or indented by two blanks a level. Members are
  written in the order in which the object holds them.
-/
import Mispredict.Json.Basic

namespace Mispredict.Json

/-- The digits of an escape, by value. -/
def hexDigits : List Char := "0123456789abcdef".toList

/-- The character as it stands inside quotes. Only the quote, the backslash and control characters
    are escaped. -/
def escapeChar (c : Char) : List Char :=
  if c = '"' then ['\\', '"']
  else if c = '\\' then ['\\', '\\']
  else if c = '\x08' then ['\\', 'b']
  else if c = '\x0c' then ['\\', 'f']
  else if c = '\n' then ['\\', 'n']
  else if c = '\r' then ['\\', 'r']
  else if c = '\t' then ['\\', 't']
  else if c.toNat < 0x20 then
    ['\\', 'u', '0', '0', hexDigits.getD (c.toNat / 16) '0', hexDigits.getD (c.toNat % 16) '0']
  else [c]

/-- The text between quotes. -/
def quote (s : String) : String :=
  "\"" ++ String.ofList (s.toList.flatMap escapeChar) ++ "\""

mutual

/-- Writes the value behind `out` on one line, without blanks. -/
def compactOnto (out : String) : Json → String
  | .null => out ++ "null"
  | .bool b => out ++ if b then "true" else "false"
  | .int i => out ++ toString i
  | .real literal => out ++ literal
  | .str s => out ++ quote s
  | .arr [] => out ++ "[]"
  | .arr (j :: rest) => compactItems (compactOnto (out ++ "[") j) rest ++ "]"
  | .obj [] => out ++ "\x7b\x7d"
  | .obj ((k, j) :: rest) =>
    compactMembers (compactOnto (out ++ "\x7b" ++ quote k ++ ":") j) rest ++ "\x7d"
  | .unreadable => out ++ "null"

/-- Writes items behind others. -/
def compactItems (out : String) : List Json → String
  | [] => out
  | j :: rest => compactItems (compactOnto (out ++ ",") j) rest

/-- Writes members behind others. -/
def compactMembers (out : String) : List (String × Json) → String
  | [] => out
  | (k, j) :: rest => compactMembers (compactOnto (out ++ "," ++ quote k ++ ":") j) rest

end

/-- The value on one line, without blanks. -/
def compact (j : Json) : String := compactOnto "" j

/-- A line break followed by `depth` levels of indentation. -/
def newline (depth : Nat) : String := "\n" ++ String.ofList (List.replicate (2 * depth) ' ')

mutual

/-- Writes the value behind `out` over several lines, as it stands at indentation `depth`. -/
def prettyOnto (depth : Nat) (out : String) : Json → String
  | .arr (j :: rest) =>
    prettyItems (depth + 1) (prettyOnto (depth + 1) (out ++ "[" ++ newline (depth + 1)) j) rest ++
      newline depth ++ "]"
  | .obj ((k, j) :: rest) =>
    prettyMembers (depth + 1)
        (prettyOnto (depth + 1) (out ++ "\x7b" ++ newline (depth + 1) ++ quote k ++ ": ") j) rest ++
      newline depth ++ "\x7d"
  | j => compactOnto out j

/-- Writes items behind others. -/
def prettyItems (depth : Nat) (out : String) : List Json → String
  | [] => out
  | j :: rest => prettyItems depth (prettyOnto depth (out ++ "," ++ newline depth) j) rest

/-- Writes members behind others. -/
def prettyMembers (depth : Nat) (out : String) : List (String × Json) → String
  | [] => out
  | (k, j) :: rest =>
    prettyMembers depth (prettyOnto depth (out ++ "," ++ newline depth ++ quote k ++ ": ") j) rest

end

/-- The value over several lines. -/
def pretty (j : Json) : String := prettyOnto 0 "" j

end Mispredict.Json
