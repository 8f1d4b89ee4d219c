/-
  Joins are commutative, associative and idempotent: of levels, relations and
  values, of maps that read a default where they have no entry, and of states.

  States with `State.join` are a join semilattice. A point of the analysis receives
  either a whole state or its observations; what two payloads do to a state does not
  depend on their order (`receive_right_comm`), and to receive the same payload again
  changes nothing (`receive_receive_self`). These two laws are all that the fixpoint
  argument uses of joins.
-/
import Mathlib.Order.Lattice
import Mispredict.Analysis.Machine

namespace Mispredict

/-! ## Levels, relations and values -/

namespace Level

theorem join_comm (a b : Level) : a.join b = b.join a := by
  cases a <;> cases b <;> rfl

theorem join_assoc (a b c : Level) : (a.join b).join c = a.join (b.join c) := by
  cases a <;> cases b <;> cases c <;> rfl

theorem join_self (a : Level) : a.join a = a := by
  cases a <;> rfl

/-- Levels are in a chain, so a join is one of its sides. -/
theorem join_eq_or (a b : Level) : a.join b = a ∨ a.join b = b := by
  cases a <;> cases b <;> decide

theorem join_join_join_comm (a b c d : Level) :
    (a.join b).join (c.join d) = (a.join c).join (b.join d) := by
  rw [join_assoc, join_assoc, ← join_assoc b, join_comm b c, join_assoc c]

end Level

namespace Relation

theorem join_comm (a b : Relation) : a.join b = b.join a := by
  cases a <;> cases b <;> rfl

theorem join_assoc (a b c : Relation) : (a.join b).join c = a.join (b.join c) := by
  cases a <;> cases b <;> cases c <;> rfl

theorem join_self (a : Relation) : a.join a = a := by
  cases a <;> rfl

end Relation

namespace Value

theorem join_comm (v w : Value) : v.join w = w.join v := by
  rw [join, join, Level.join_comm, Level.join_comm v.speculative]

theorem join_assoc (u v w : Value) : (u.join v).join w = u.join (v.join w) := by
  simp only [join, Level.join_assoc]

theorem join_self (v : Value) : v.join v = v := by
  rw [join, Level.join_self, Level.join_self]

theorem join_join_join_comm (t u v w : Value) :
    (t.join u).join (v.join w) = (t.join v).join (u.join w) := by
  simp only [join, Level.join_join_join_comm]

theorem view_join (v w : Value) (mode : Mode) :
    (v.join w).view mode = (v.view mode).join (w.view mode) := by
  cases mode <;> rfl

/-- What is written over a join is the join of what is written over its sides. -/
theorem overwrite_join (u v x y : Value) (mode : Mode) :
    (u.join v).overwrite (x.join y) mode = (u.overwrite x mode).join (v.overwrite y mode) := by
  cases mode with
  | committed => rfl
  | speculative => simp only [overwrite, join, Level.join_join_join_comm]

end Value

/-! ## Maps -/

namespace SortedMap

universe u v

variable {κ : Type u} {ν : Type v} [Ord κ] [Std.TransOrd κ] [Std.LawfulEqOrd κ] [DecidableEq κ]
  {f : ν → ν → ν} {d : ν}

theorem unionWith_comm (hf : ∀ x y, f x y = f y x) (a b : SortedMap κ ν) :
    a.unionWith f d b = b.unionWith f d a := by
  refine ext_get? fun k => ?_
  rw [get?_unionWith, get?_unionWith, hf]
  cases a.get? k <;> cases b.get? k <;> rfl

theorem unionWith_assoc (hf : ∀ x y z, f (f x y) z = f x (f y z)) (hd : f d d = d)
    (a b c : SortedMap κ ν) :
    (a.unionWith f d b).unionWith f d c = a.unionWith f d (b.unionWith f d c) := by
  refine ext_get? fun k => ?_
  simp only [get?_unionWith, getD_unionWith f hd, hf]
  cases a.get? k <;> cases b.get? k <;> cases c.get? k <;> rfl

theorem unionWith_self (hf : ∀ x, f x x = x) (a : SortedMap κ ν) : a.unionWith f d a = a := by
  refine ext_get? fun k => ?_
  rw [get?_unionWith, hf, getD]
  cases a.get? k <;> rfl

/-- Writing to both sides of a union is writing the combination to the union. -/
theorem insert_unionWith (a b : SortedMap κ ν) (k : κ) (x y : ν) :
    (a.unionWith f d b).insert k (f x y) = (a.insert k x).unionWith f d (b.insert k y) := by
  refine ext_get? fun q => ?_
  rw [get?_insert, get?_unionWith, get?_unionWith, get?_insert, get?_insert, getD_insert,
    getD_insert]
  by_cases h : q = k
  · simp [h]
  · simp [h]

end SortedMap

/-! ## States -/

namespace Observations

theorem join_comm (a b : Observations) : a.join b = b.join a :=
  SortedMap.unionWith_comm Relation.join_comm a b

theorem join_assoc (a b c : Observations) : (a.join b).join c = a.join (b.join c) :=
  SortedMap.unionWith_assoc Relation.join_assoc rfl a b c

theorem join_self (a : Observations) : a.join a = a := SortedMap.unionWith_self Relation.join_self a

theorem join_right_comm (a b c : Observations) : (a.join b).join c = (a.join c).join b := by
  rw [join_assoc, join_comm b, ← join_assoc]

theorem join_join_self (a b : Observations) : (a.join b).join b = a.join b := by
  rw [join_assoc, join_self]

end Observations

namespace State

theorem join_comm (s t : State) : s.join t = t.join s := by
  simp only [join, SortedMap.unionWith_comm Value.join_comm s.regs,
    SortedMap.unionWith_comm Value.join_comm s.mem, Observations.join_comm s.obsMem,
    Observations.join_comm s.obsCtrl]

theorem join_assoc (s t u : State) : (s.join t).join u = s.join (t.join u) := by
  simp only [join, SortedMap.unionWith_assoc Value.join_assoc (Value.join_self _),
    Observations.join_assoc]

theorem join_self (s : State) : s.join s = s := by
  simp only [join, SortedMap.unionWith_self Value.join_self, Observations.join_self]

instance : Max State := ⟨join⟩

instance : SemilatticeSup State := SemilatticeSup.mk' join_comm join_assoc join_self

theorem reg_join (s t : State) (name : String) :
    (s.join t).reg name = (s.reg name).join (t.reg name) :=
  SortedMap.getD_unionWith Value.join (Value.join_self _) s.regs t.regs name

theorem cell_join (s t : State) (key : String) :
    (s.join t).cell key = (s.cell key).join (t.cell key) :=
  SortedMap.getD_unionWith Value.join (Value.join_self _) s.mem t.mem key

end State

/-! ## Receiving a payload -/

namespace Machine

/-- What a point that holds `s` holds after `out` was passed on to it. -/
abbrev receive (initial s out : State) (p : Payload) : State := received initial (some s) out p

/-- The order in which two payloads arrive does not matter. -/
theorem receive_right_comm (i s x y : State) (p q : Payload) :
    receive i (receive i s x p) y q = receive i (receive i s y q) x p := by
  cases p <;> cases q
  · exact sup_right_comm s x y
  · simp only [receive, received, State.joinObservations, State.join,
      Observations.join_right_comm]
  · simp only [receive, received, State.joinObservations, State.join,
      Observations.join_right_comm]
  · simp only [receive, received, State.joinObservations,
      Observations.join_right_comm _ x.obsMem, Observations.join_right_comm _ x.obsCtrl]

/-- A payload that arrives again changes nothing, whether or not the point held a state before. -/
theorem receive_receive_self (i : State) (old : Option State) (x : State) (p : Payload) :
    receive i (received i old x p) x p = received i old x p := by
  cases p with
  | full =>
    cases old with
    | none => exact sup_idem x
    | some s => exact sup_right_idem s x
  | observations =>
    cases old <;>
      simp only [receive, received, State.joinObservations, Observations.join_join_self]

end Machine

end Mispredict
