/-
  Reading typed data from JSON values.

  The rules are the same for every type. A record is an object with its fields by
  name, or an array with its fields in order; unknown members are ignored, a
  repeated one is refused. A choice is an object with one member, named for the
  alternative; an alternative without content may also be given by its name alone,
  and the fields of an alternative are given by name.
-/
import Mispredict.Json.Basic

namespace Mispredict

/-- Why a JSON value does not stand for data of the wanted type. -/
inductive DecodeError where
  /-- The value has the wrong form. -/
  | shape
  /-- The value has the right form, and what it describes breaks a rule. -/
  | rejected (reason : String)
  deriving DecidableEq, Repr

/-- The outcome of reading data from a JSON value. -/
abbrev Decoded (α : Type) := Except DecodeError α

namespace Json

variable {α : Type}

/-- A text. -/
def asString : Json → Decoded String
  | .str s => .ok s
  | _ => .error .shape

/-- A truth value. -/
def asBool : Json → Decoded Bool
  | .bool b => .ok b
  | _ => .error .shape

/-- A natural number below 2^64. -/
def asNat : Json → Decoded Nat
  | .int i => if 0 ≤ i ∧ i.toNat < UInt64.size then .ok i.toNat else .error .shape
  | _ => .error .shape

/-- An integer of 64 bits with sign. -/
def asInt : Json → Decoded Int
  | .int i =>
    if Int64.minValue.toInt ≤ i ∧ i ≤ Int64.maxValue.toInt then .ok i else .error .shape
  | _ => .error .shape

/-- A machine word with sign. -/
def asInt64 (j : Json) : Decoded Int64 := do
  return Int64.ofInt (← j.asInt)

/-- A list, item by item. -/
def asList (decode : Json → Decoded α) : Json → Decoded (List α)
  | .arr items => items.mapM decode
  | _ => .error .shape

/-- An object as the list of its members. -/
def asEntries (decode : Json → Decoded α) : Json → Decoded (List (String × α))
  | .obj members => members.mapM fun (k, j) => do return (k, ← decode j)
  | _ => .error .shape

/-- An object as a map from its keys. Of members with one key the last counts. -/
def asMap (decode : Json → Decoded α) (j : Json) : Decoded (SortedMap String α) := do
  return SortedMap.ofList (← j.asEntries decode)

/-- A value for which `null` stands for none. -/
def asOption (decode : Json → Decoded α) : Json → Decoded (Option α)
  | .null => .ok none
  | j => do return some (← decode j)

/-! ## Records -/

/-- The members of an object. -/
def members : Json → Decoded (List (String × Json))
  | .obj members => .ok members
  | _ => .error .shape

/-- The members of a record with the fields `names`, as they stand. An array gives its fields in
    that order, as many as it has. -/
def fields (names : List String) : Json → Decoded (List (String × Json))
  | .obj members => .ok members
  | .arr items => .ok (names.zip items)
  | _ => .error .shape

/-- The members of a record with the fields `names`. An array must have the first `required` of
    them at least, and no more than all. -/
def record (names : List String) (required : Nat) (j : Json) : Decoded (List (String × Json)) :=
  match j with
  | .arr items =>
    if required ≤ items.length ∧ items.length ≤ names.length then j.fields names else .error .shape
  | j => j.fields names

/-- The member of a record with this name, if there is one. -/
def member (members : List (String × Json)) (name : String) : Decoded (Option Json) :=
  match members.filter (·.1 == name) with
  | [] => .ok none
  | [(_, j)] => .ok (some j)
  | _ => .error .shape

/-- A field that must be present. -/
def required (members : List (String × Json)) (name : String) (decode : Json → Decoded α) :
    Decoded α := do
  match ← member members name with
  | some j => decode j
  | none => .error .shape

/-- A field that takes the value `d` when it is absent. -/
def withDefault (members : List (String × Json)) (name : String) (decode : Json → Decoded α)
    (d : α) : Decoded α := do
  match ← member members name with
  | some j => decode j
  | none => return d

/-- A field without value when it is absent or `null`. -/
def optional (members : List (String × Json)) (name : String) (decode : Json → Decoded α) :
    Decoded (Option α) :=
  withDefault members name (asOption decode) none

/-! ## Choices -/

/-- The name and the content of a choice; a name alone has the content `null`, which only an
    alternative without content accepts. -/
inductive Choice where
  | bare (name : String)
  | holding (name : String) (content : Json)

/-- Reads a choice: a name alone, or an object with one member. -/
def choice : Json → Decoded Choice
  | .str name => .ok (.bare name)
  | .obj [(name, content)] => .ok (.holding name content)
  | _ => .error .shape

/-- One of several names. -/
def asName (alternatives : List (String × α)) (j : Json) : Decoded α := do
  let name ← match ← choice j with
    | .bare name => pure name
    | .holding name .null => pure name
    | .holding _ _ => .error .shape
  match alternatives.find? (·.1 == name) with
  | some (_, a) => return a
  | none => .error .shape

end Json

end Mispredict
