/-
  JSON values.

  Members of an object keep the order in which they were written, and a key may
  be repeated; what a repeated key means is for the reader of the object to say.
-/
import Mispredict.SortedMap

namespace Mispredict

/-- A JSON value. -/
inductive Json where
  | null
  | bool (b : Bool)
  /-- An integer from -2^63 to 2^64 - 1. -/
  | int (i : Int)
  /-- Any other number, as it was written. -/
  | real (literal : String)
  | str (s : String)
  | arr (items : List Json)
  | obj (members : List (String × Json))
  /-- Well-formed text that stands for no value: a string, or a key of an object, with half of a
      surrogate pair in it. It may stand where it is not looked at. -/
  | unreadable
  deriving Repr, Inhabited

namespace Json

/-! ## Equality -/

mutual

/-- Equality of values, by their structure. -/
def decEq : (a b : Json) → Decidable (a = b)
  | .null, b => by cases b <;> first | exact isTrue rfl | exact isFalse nofun
  | .bool x, b => by
      cases b with
      | bool y => exact decidable_of_iff (x = y) (by simp)
      | _ => exact isFalse nofun
  | .int x, b => by
      cases b with
      | int y => exact decidable_of_iff (x = y) (by simp)
      | _ => exact isFalse nofun
  | .real x, b => by
      cases b with
      | real y => exact decidable_of_iff (x = y) (by simp)
      | _ => exact isFalse nofun
  | .str x, b => by
      cases b with
      | str y => exact decidable_of_iff (x = y) (by simp)
      | _ => exact isFalse nofun
  | .arr xs, b => by
      cases b with
      | arr ys => exact @decidable_of_iff _ (xs = ys) (by simp) (decEqItems xs ys)
      | _ => exact isFalse nofun
  | .obj xs, b => by
      cases b with
      | obj ys => exact @decidable_of_iff _ (xs = ys) (by simp) (decEqMembers xs ys)
      | _ => exact isFalse nofun
  | .unreadable, b => by cases b <;> first | exact isTrue rfl | exact isFalse nofun

/-- Equality of the items of two arrays. -/
def decEqItems : (xs ys : List Json) → Decidable (xs = ys)
  | [], [] => isTrue rfl
  | [], _ :: _ => isFalse nofun
  | _ :: _, [] => isFalse nofun
  | x :: xs, y :: ys =>
    have := decEq x y
    have := decEqItems xs ys
    decidable_of_iff (x = y ∧ xs = ys) (by simp)

/-- Equality of the members of two objects, order included. -/
def decEqMembers : (xs ys : List (String × Json)) → Decidable (xs = ys)
  | [], [] => isTrue rfl
  | [], _ :: _ => isFalse nofun
  | _ :: _, [] => isFalse nofun
  | (k, x) :: xs, (l, y) :: ys =>
    have := decEq x y
    have := decEqMembers xs ys
    decidable_of_iff (k = l ∧ x = y ∧ xs = ys) (by simp [and_assoc])

end

instance : DecidableEq Json := decEq

/-! ## Canonical form -/

mutual

/-- The value with the members of every object in key order. Of members with one key the last
    counts. -/
def sortKeys : Json → Json
  | .arr items => .arr (sortKeysItems items)
  | .obj members => .obj (SortedMap.ofList (sortKeysMembers members)).entries
  | j => j

/-- The items of an array, each with its keys sorted. -/
def sortKeysItems : List Json → List Json
  | [] => []
  | j :: rest => sortKeys j :: sortKeysItems rest

/-- The members of an object as they stand, each with its keys sorted. -/
def sortKeysMembers : List (String × Json) → List (String × Json)
  | [] => []
  | (k, j) :: rest => (k, sortKeys j) :: sortKeysMembers rest

end

/-! ## Building -/

/-- A natural number. -/
def nat (n : Nat) : Json := .int n

/-- A list of texts. -/
def strings (l : List String) : Json := .arr (l.map .str)

/-- The value, or `null` for none. -/
def nullable {α : Type} (f : α → Json) : Option α → Json
  | none => .null
  | some a => f a

/-- The member, or none at all: a field that is left out when it has no value. -/
def member? {α : Type} (name : String) (f : α → Json) : Option α → List (String × Json)
  | none => []
  | some a => [(name, f a)]

/-- The value of the last member with this key. -/
def get? (j : Json) (name : String) : Option Json :=
  match j with
  | .obj members => (members.reverse.find? (·.1 == name)).map (·.2)
  | _ => none

end Json

end Mispredict
