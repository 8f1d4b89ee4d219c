/-
  Reading JSON text. The grammar is the strict one: no comments, no trailing
  commas, no leading zeros, nothing but blanks after the value.
-/
import Mispredict.Json.Basic

namespace Mispredict.Json

/-- The blanks that JSON allows between its tokens. -/
def isGap (c : Char) : Bool := c == ' ' || c == '\n' || c == '\t' || c == '\r'

/-- The text after the blanks at its front. -/
def skipGap (cs : List Char) : List Char := cs.dropWhile isGap

/-- The value of a hexadecimal digit of either case. -/
def hexDigit? (c : Char) : Option Nat :=
  if '0' ≤ c ∧ c ≤ '9' then some (c.toNat - '0'.toNat)
  else if 'a' ≤ c ∧ c ≤ 'f' then some (c.toNat - 'a'.toNat + 10)
  else if 'A' ≤ c ∧ c ≤ 'F' then some (c.toNat - 'A'.toNat + 10)
  else none

/-- The value of the four hexadecimal digits of an escape. -/
def hex4? (a b c d : Char) : Option Nat := do
  let a ← hexDigit? a
  let b ← hexDigit? b
  let c ← hexDigit? c
  let d ← hexDigit? d
  return ((a * 16 + b) * 16 + c) * 16 + d

/-- The character that a two-character escape stands for. -/
def simpleEscape? : Char → Option Char
  | '"' => some '"'
  | '\\' => some '\\'
  | '/' => some '/'
  | 'b' => some '\x08'
  | 'f' => some '\x0c'
  | 'n' => some '\n'
  | 'r' => some '\r'
  | 't' => some '\t'
  | _ => none

/-- Whether a code unit is the first of a surrogate pair. -/
def isHighSurrogate (n : Nat) : Bool := 0xD800 ≤ n && n ≤ 0xDBFF

/-- Whether a code unit is the second of a surrogate pair. -/
def isLowSurrogate (n : Nat) : Bool := 0xDC00 ≤ n && n ≤ 0xDFFF

/-- The character of a surrogate pair. -/
def joinSurrogates (high low : Nat) : Char :=
  Char.ofNat (0x10000 + (high - 0xD800) * 0x400 + (low - 0xDC00))

/-- Reads the rest of a string after its opening quote. `acc` holds the characters so far, in
    reverse, and is none once half of a surrogate pair was met. -/
def stringRest (acc : Option (List Char)) : List Char → Option (Option String × List Char)
  | [] => none
  | '"' :: cs => some (acc.map fun a => String.ofList a.reverse, cs)
  | '\\' :: 'u' :: a :: b :: c :: d :: cs =>
    match hex4? a b c d with
    | none => none
    | some n =>
      if isHighSurrogate n then
        match cs with
        | '\\' :: 'u' :: e :: f :: g :: h :: cs' =>
          match hex4? e f g h with
          | none => none
          | some m =>
            if isLowSurrogate m then stringRest (acc.map (joinSurrogates n m :: ·)) cs'
            else stringRest none cs'
        | cs => stringRest none cs
      else if isLowSurrogate n then stringRest none cs
      else stringRest (acc.map (Char.ofNat n :: ·)) cs
  | '\\' :: e :: cs =>
    match simpleEscape? e with
    | none => none
    | some c => stringRest (acc.map (c :: ·)) cs
  | c :: cs => if c.toNat < 0x20 then none else stringRest (acc.map (c :: ·)) cs

/-- The value of a run of decimal digits. -/
def digitsValue (cs : List Char) : Nat :=
  cs.foldl (fun n c => 10 * n + (c.toNat - '0'.toNat)) 0

/-- The longest run of digits at the front, and what follows it. -/
def splitDigits (cs : List Char) : List Char × List Char :=
  (cs.takeWhile Char.isDigit, cs.dropWhile Char.isDigit)

/-- The part of a number after its decimal point. -/
def fraction? : List Char → Option (List Char × List Char)
  | '.' :: cs =>
    let (digits, rest) := splitDigits cs
    if digits.isEmpty then none else some ('.' :: digits, rest)
  | cs => some ([], cs)

/-- The exponent of a number. -/
def exponent? (cs : List Char) : Option (List Char × List Char) :=
  let digitsAfter (head rest : List Char) : Option (List Char × List Char) :=
    let (digits, rest) := splitDigits rest
    if digits.isEmpty then none else some (head ++ digits, rest)
  match cs with
  | e :: s :: rest =>
    if e == 'e' || e == 'E' then
      if s == '+' || s == '-' then digitsAfter [e, s] rest else digitsAfter [e] (s :: rest)
    else some ([], cs)
  | [e] => if e == 'e' || e == 'E' then none else some ([], cs)
  | [] => some ([], cs)

/-- The number that a literal without fraction and exponent stands for. Minus zero is no integer. -/
def integer (negative : Bool) (digits : List Char) : Json :=
  let n := digitsValue digits
  if negative then
    if 0 < n ∧ Int64.minValue.toInt ≤ -n then .int (-n)
    else .real (String.ofList ('-' :: digits))
  else
    if n < UInt64.size then .int n else .real (String.ofList digits)

/-- Reads a number. -/
def number? (cs : List Char) : Option (Json × List Char) := do
  let (sign, cs) := match cs with
    | '-' :: rest => (['-'], rest)
    | cs => ([], cs)
  let (digits, cs) := splitDigits cs
  guard (!digits.isEmpty)
  guard (digits.head? != some '0' || digits.length == 1)
  let (frac, cs) ← fraction? cs
  let (expo, cs) ← exponent? cs
  if frac.isEmpty && expo.isEmpty then
    return (integer (!sign.isEmpty) digits, cs)
  else
    return (.real (String.ofList (sign ++ digits ++ frac ++ expo)), cs)

mutual

/-- Reads one value, which may follow blanks. Each nested value costs one unit of `fuel`. -/
def value? : (fuel : Nat) → List Char → Option (Json × List Char)
  | 0, _ => none
  | fuel + 1, cs =>
    match skipGap cs with
    | 'n' :: 'u' :: 'l' :: 'l' :: rest => some (.null, rest)
    | 't' :: 'r' :: 'u' :: 'e' :: rest => some (.bool true, rest)
    | 'f' :: 'a' :: 'l' :: 's' :: 'e' :: rest => some (.bool false, rest)
    | '"' :: rest => (stringRest (some []) rest).map fun (s, rest) =>
        (s.elim .unreadable .str, rest)
    | '[' :: rest =>
      match skipGap rest with
      | ']' :: rest => some (.arr [], rest)
      | rest => (items? fuel rest).map fun (items, rest) => (.arr items, rest)
    | '\x7b' :: rest =>
      match skipGap rest with
      | '\x7d' :: rest => some (.obj [], rest)
      | rest => (members? fuel rest).map fun (members, rest) =>
          (members.elim .unreadable .obj, rest)
    | rest => number? rest

/-- Reads the items of an array up to its closing bracket. -/
def items? : (fuel : Nat) → List Char → Option (List Json × List Char)
  | 0, _ => none
  | fuel + 1, cs =>
    match value? fuel cs with
    | none => none
    | some (j, rest) =>
      match skipGap rest with
      | ']' :: rest => some ([j], rest)
      | ',' :: rest => (items? fuel rest).map fun (items, rest) => (j :: items, rest)
      | _ => none

/-- Reads the members of an object up to its closing brace; none of them if a key is unreadable. -/
def members? : (fuel : Nat) → List Char → Option (Option (List (String × Json)) × List Char)
  | 0, _ => none
  | fuel + 1, cs =>
    match skipGap cs with
    | '"' :: rest =>
      match stringRest (some []) rest with
      | none => none
      | some (key, rest) =>
        match skipGap rest with
        | ':' :: rest =>
          match value? fuel rest with
          | none => none
          | some (j, rest) =>
            match skipGap rest with
            | '\x7d' :: rest => some (key.map fun k => [(k, j)], rest)
            | ',' :: rest => (members? fuel rest).map fun (members, rest) =>
                (key.bind fun k => members.map ((k, j) :: ·), rest)
            | _ => none
        | _ => none
    | _ => none

end

/-- The value that a JSON text stands for. -/
def parse? (text : String) : Option Json :=
  let cs := text.toList
  match value? (2 * cs.length + 2) cs with
  | some (j, rest) => if (skipGap rest).isEmpty then some j else none
  | none => none

end Mispredict.Json
