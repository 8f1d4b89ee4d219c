/-
  Points of an analysis, and their order.

  A point is a node together with the mode of execution and the stack of open
  speculation contexts, each with the instructions it may still execute.
-/
import Mispredict.Security.Level

namespace Mispredict

/-- An open speculation context. -/
structure Frame where
  context : Option Nat
  /-- How many instructions may still be executed. -/
  remaining : Nat
  deriving DecidableEq, Repr

/-- A point of the analysis. -/
structure Key where
  /-- The number of the node. -/
  node : Nat
  mode : Mode
  /-- The open contexts, the innermost first. -/
  frames : List Frame
  deriving DecidableEq, Repr

/-- Whether execution is on a mispredicted path at the point. -/
def Key.isSpeculative (k : Key) : Bool := k.mode == .speculative

/-! ## Order -/

theorem compareOn_eq_eq {α β : Type} [Ord β] [Std.LawfulEqOrd β] {f : α → β} {a b : α} :
    compareOn f a b = .eq ↔ f a = f b := Std.LawfulEqOrd.compare_eq_iff_eq

/-- Frames by context, then by what remains. -/
instance : Ord Frame := ⟨compareLex (compareOn Frame.context) (compareOn Frame.remaining)⟩

instance : Std.TransOrd Frame :=
  inferInstanceAs (Std.TransCmp (compareLex (compareOn Frame.context) (compareOn Frame.remaining)))

instance : Std.LawfulEqOrd Frame where
  eq_of_compare {a b} h := by
    obtain ⟨hc, hr⟩ := Ordering.then_eq_eq.1 h
    have hc := compareOn_eq_eq.1 hc
    have hr := compareOn_eq_eq.1 hr
    cases a; cases b; simp_all

/-- Points by node, the committed one before those of speculations, which go by their contexts. -/
instance : Ord Key :=
  ⟨compareLex (compareOn Key.node)
    (compareLex (compareOn Key.isSpeculative) (compareOn Key.frames))⟩

instance : Std.TransOrd Key :=
  inferInstanceAs (Std.TransCmp (compareLex (compareOn Key.node)
    (compareLex (compareOn Key.isSpeculative) (compareOn Key.frames))))

instance : Std.LawfulEqOrd Key where
  eq_of_compare {a b} h := by
    obtain ⟨hn, h⟩ := Ordering.then_eq_eq.1 h
    obtain ⟨hm, hf⟩ := Ordering.then_eq_eq.1 h
    have hn := compareOn_eq_eq.1 hn
    have hm := compareOn_eq_eq.1 hm
    have hf := compareOn_eq_eq.1 hf
    obtain ⟨n, m, f⟩ := a
    obtain ⟨n', m', f'⟩ := b
    cases m <;> cases m' <;> simp_all [Key.isSpeculative]

end Mispredict
