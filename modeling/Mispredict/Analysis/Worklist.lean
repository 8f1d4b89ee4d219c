/-
  The points that are to be visited, in order and each of them once.

  The order is held by two lists, so that both of its ends are at hand, and a set
  tells at once whether a point is in it. What an operation does is said of the list
  of all points, the next one first: see `toList_pushBack`, `toList_pushFront`,
  `pop?_eq_none_iff` and `toList_of_pop?_eq_some`.
-/
import Mispredict.Analysis.Key
import Std.Data.TreeSet

namespace Mispredict

namespace Worklist

/-- A set holds what a list has, and the list has each of it once. -/
def Holds (set : Std.TreeSet Key) (l : List Key) : Prop := l.Nodup ∧ ∀ k, k ∈ set ↔ k ∈ l

namespace Holds

variable {set : Std.TreeSet Key} {l : List Key} {k : Key}

theorem erase (h : Holds set (k :: l)) : Holds (set.erase k) l := by
  obtain ⟨hk, hl⟩ := List.nodup_cons.1 h.1
  refine ⟨hl, fun k' => ?_⟩
  rw [Std.TreeSet.mem_erase, h.2, List.mem_cons, ne_eq, Std.LawfulEqOrd.compare_eq_iff_eq]
  constructor
  · rintro ⟨hne, rfl | h'⟩
    · exact absurd rfl hne
    · exact h'
  · exact fun h' => ⟨fun e => hk (e ▸ h'), .inr h'⟩

theorem cons (h : Holds set l) (hk : k ∉ set) : Holds (set.insert k) (k :: l) := by
  refine ⟨List.nodup_cons.2 ⟨fun h' => hk ((h.2 k).2 h'), h.1⟩, fun k' => ?_⟩
  rw [Std.TreeSet.mem_insert, h.2, List.mem_cons, Std.LawfulEqOrd.compare_eq_iff_eq]
  exact or_congr eq_comm .rfl

theorem concat (h : Holds set l) (hk : k ∉ set) : Holds (set.insert k) (l ++ [k]) :=
  have p : (l ++ [k]).Perm (k :: l) := List.perm_append_singleton k l
  ⟨p.nodup_iff.2 (h.cons hk).1, fun k' => ((h.cons hk).2 k').trans p.mem_iff.symm⟩

end Holds

end Worklist

/-- The points that are to be visited. -/
structure Worklist where
  /-- The points at the front, the next one first. -/
  front : List Key
  /-- The points behind them, the last one first. -/
  back : List Key
  queued : Std.TreeSet Key
  holds : Worklist.Holds queued (front ++ back.reverse)

namespace Worklist

/-- The points in order, the next one first. -/
def toList (w : Worklist) : List Key := w.front ++ w.back.reverse

/-- The list without points. -/
def empty : Worklist := ⟨[], [], {}, List.nodup_nil, fun k => by simp⟩

instance : Inhabited Worklist := ⟨empty⟩

/-- Whether the point is in the list. -/
def contains (w : Worklist) (k : Key) : Bool := w.queued.contains k

/-- Whether no point is left. -/
def isEmpty (w : Worklist) : Bool := w.front.isEmpty && w.back.isEmpty

/-- Adds a point behind the others, unless it is there already. -/
def pushBack (w : Worklist) (k : Key) : Worklist :=
  if h : k ∈ w.queued then w
  else
    ⟨w.front, k :: w.back, w.queued.insert k, by
      rw [List.reverse_cons, ← List.append_assoc]
      exact w.holds.concat h⟩

/-- Adds a point before the others, unless it is there already. -/
def pushFront (w : Worklist) (k : Key) : Worklist :=
  if h : k ∈ w.queued then w
  else ⟨k :: w.front, w.back, w.queued.insert k, w.holds.cons h⟩

/-- Takes out the next point. -/
def pop? : Worklist → Option (Key × Worklist)
  | ⟨k :: front, back, queued, holds⟩ => some (k, ⟨front, back, queued.erase k, holds.erase⟩)
  | ⟨[], back, queued, holds⟩ =>
    match h : back.reverse with
    | [] => none
    | k :: front =>
      some (k, ⟨front, [], queued.erase k, by
        rw [List.reverse_nil, List.append_nil]
        exact Holds.erase (h ▸ holds)⟩)

/-! ## The list of all points -/

theorem nodup_toList (w : Worklist) : w.toList.Nodup := w.holds.1

@[simp] theorem mem_queued_iff (w : Worklist) (k : Key) : k ∈ w.queued ↔ k ∈ w.toList := w.holds.2 k

@[simp] theorem contains_iff (w : Worklist) (k : Key) : w.contains k ↔ k ∈ w.toList :=
  Std.TreeSet.contains_iff_mem.trans (w.holds.2 k)

@[simp] theorem toList_empty : empty.toList = [] := rfl

@[simp] theorem isEmpty_iff (w : Worklist) : w.isEmpty ↔ w.toList = [] := by
  simp [isEmpty, toList]

theorem toList_pushBack (w : Worklist) (k : Key) :
    (w.pushBack k).toList = if k ∈ w.toList then w.toList else w.toList ++ [k] := by
  unfold pushBack
  by_cases h : k ∈ w.queued
  · rw [dif_pos h, if_pos ((w.mem_queued_iff k).1 h)]
  · rw [dif_neg h, if_neg fun h' => h ((w.mem_queued_iff k).2 h')]
    simp [toList]

theorem toList_pushFront (w : Worklist) (k : Key) :
    (w.pushFront k).toList = if k ∈ w.toList then w.toList else k :: w.toList := by
  unfold pushFront
  by_cases h : k ∈ w.queued
  · rw [dif_pos h, if_pos ((w.mem_queued_iff k).1 h)]
  · rw [dif_neg h, if_neg fun h' => h ((w.mem_queued_iff k).2 h')]
    rfl

theorem pop?_eq_none_iff (w : Worklist) : w.pop? = none ↔ w.toList = [] := by
  obtain ⟨front, back, queued, holds⟩ := w
  cases front with
  | cons k front => simp [pop?, toList]
  | nil =>
    rw [pop?]
    split
    · next h => simp [toList, h]
    · next h => simp [toList, h]

theorem toList_of_pop?_eq_some {w w' : Worklist} {k : Key} (h : w.pop? = some (k, w')) :
    w.toList = k :: w'.toList := by
  obtain ⟨front, back, queued, holds⟩ := w
  cases front with
  | cons k' front => cases h; rfl
  | nil =>
    rw [pop?] at h
    split at h
    · cases h
    · next h' => cases h; simp [toList, h']

end Worklist

end Mispredict
