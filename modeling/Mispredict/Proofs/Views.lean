/-
  The committed and the speculative view never mix.

  An instruction writes one location at most (`read_apply`), and to each view of that location
  only what this view sees of the operands. So what a view sees after an instruction
  depends only on what it saw before (`SeesAlike.apply`), and what is observed depends only on the
  view of the mode of execution (`SameObservations.apply`). A speculative instruction leaves the
  committed view as it is, and in the speculative view levels only rise.

  All this carries over from one instruction to the next (`KeepsApart.comp`), and so to
  sequences of instructions.
-/
import Mispredict.Proofs.Order

namespace Mispredict

open MuAsm (Expr Instr)

namespace State

variable {s t : State} {view mode : Mode}

/-! ## One view of two states -/

/-- A view sees the same in both states, in every register and in every cell. -/
structure SeesAlike (view : Mode) (s t : State) : Prop where
  read : ∀ loc, (s.read loc).view view = (t.read loc).view view

/-- The same has been observed in both states. -/
structure SameObservations (s t : State) : Prop where
  obsMem : s.obsMem = t.obsMem
  obsCtrl : s.obsCtrl = t.obsCtrl

end State

/-- A view of what is written over a value comes of the same view of the two values. -/
theorem Value.view_overwrite (v w : Value) (mode view : Mode) :
    (v.overwrite w mode).view view =
      match mode, view with
      | .committed, _ => w.view view
      | .speculative, .committed => v.view view
      | .speculative, .speculative => (v.view view).join (w.view view) := by
  cases mode <;> cases view <;> rfl

namespace State

variable {s t : State} {view mode : Mode}

namespace SeesAlike

theorem join {v v' w w' : Value} (hv : v.view view = v'.view view)
    (hw : w.view view = w'.view view) : (v.join w).view view = (v'.join w').view view := by
  rw [Value.view_join, Value.view_join, hv, hw]

theorem eval (h : SeesAlike view s t) (e : Expr) : (s.eval e).view view = (t.eval e).view view := by
  induction e with
  | register name => exact h.read (.reg name)
  | constant _ => rfl
  | binary _ lhs rhs ihl ihr => exact join ihl ihr

theorem shown (h : SeesAlike view s t) (i : Instr) :
    (s.shown i).view view = (t.shown i).view view := by
  cases i with
  | load _ addr => exact join (h.read (.cell addr.render)) (h.eval addr)
  | store _ addr => exact h.eval addr
  | beqz cond _ _ => exact h.eval cond
  | jmp target resolved =>
    cases resolved with
    | pc _ => rfl
    | _ => exact h.eval target
  | _ => rfl

theorem written (h : SeesAlike view s t) (i : Instr) :
    (s.written i).view view = (t.written i).view view := by
  cases i with
  | assign _ expr => exact h.eval expr
  | load _ addr => exact join (h.read (.cell addr.render)) (h.eval addr)
  | store src addr => exact join (h.read (.reg src)) (h.eval addr)
  | cmov _ cond value => exact join (h.eval cond) (h.eval value)
  | _ => rfl

/-- What a view sees after an instruction comes of what it saw before. -/
theorem apply (h : SeesAlike view s t) (i : Instr) (pc : String) (mode : Mode) :
    SeesAlike view (s.apply i pc mode) (t.apply i pc mode) := by
  refine ⟨fun loc => ?_⟩
  rw [read_apply, read_apply]
  split
  · rw [Value.view_overwrite, Value.view_overwrite, h.read loc, h.written i]
  · exact h.read loc

end SeesAlike

/-- What is observed comes of what the view of the mode saw. -/
theorem SameObservations.apply (h : s.SameObservations t) (hview : SeesAlike mode s t) (i : Instr)
    (pc : String) : (s.apply i pc mode).SameObservations (t.apply i pc mode) := by
  have hsame : ∀ c, s.observations c = t.observations c := by
    intro c
    cases c with
    | mem => exact h.obsMem
    | ctrl => exact h.obsCtrl
  have hafter : ∀ c, (s.apply i pc mode).observations c = (t.apply i pc mode).observations c := by
    intro c
    simp only [observations_apply, noticed, hsame, hview.shown i]
  exact ⟨hafter .mem, hafter .ctrl⟩

/-! ## Speculation -/

/-- The second state differs from the first by speculation only: the committed view is the same,
    and no level of the speculative view is lower. -/
structure OnlySpeculates (s t : State) : Prop where
  committed : ∀ loc, (t.read loc).committed = (s.read loc).committed
  speculative : ∀ loc, (s.read loc).speculative ≤ (t.read loc).speculative

theorem OnlySpeculates.refl (s : State) : s.OnlySpeculates s := ⟨fun _ => rfl, fun _ => le_rfl⟩

theorem OnlySpeculates.trans {u : State} (h : s.OnlySpeculates t) (h' : t.OnlySpeculates u) :
    s.OnlySpeculates u where
  committed loc := (h'.committed loc).trans (h.committed loc)
  speculative loc := (h.speculative loc).trans (h'.speculative loc)

theorem onlySpeculates_apply (s : State) (i : Instr) (pc : String) :
    s.OnlySpeculates (s.apply i pc .speculative) where
  committed loc := by
    rw [read_apply]
    split <;> rfl
  speculative loc := by
    rw [read_apply]
    split
    · exact le_sup_left
    · exact le_rfl

/-! ## Sequences of instructions -/

/-- A change of states that is made in the given mode keeps the two views apart. -/
structure KeepsApart (mode : Mode) (f : State → State) : Prop where
  /-- What a view sees comes of what it saw before. -/
  views : ∀ (view : Mode) (s t : State), SeesAlike view s t → SeesAlike view (f s) (f t)
  /-- What is observed comes of what was observed, and of what the view of the mode saw. -/
  observations : ∀ s t : State, s.SameObservations t → SeesAlike mode s t →
    (f s).SameObservations (f t)
  /-- Speculation has no effect on the committed view and lowers no level. -/
  speculation : mode = .speculative → ∀ s : State, s.OnlySpeculates (f s)

namespace KeepsApart

theorem apply (i : Instr) (pc : String) (mode : Mode) :
    KeepsApart mode fun s => s.apply i pc mode where
  views _ _ _ h := h.apply i pc mode
  observations _ _ h hview := h.apply hview i pc
  speculation hmode s := hmode ▸ s.onlySpeculates_apply i pc

theorem id (mode : Mode) : KeepsApart mode fun s => s where
  views _ _ _ h := h
  observations _ _ h _ := h
  speculation _ s := .refl s

theorem comp {f g : State → State} (hf : KeepsApart mode f) (hg : KeepsApart mode g) :
    KeepsApart mode fun s => g (f s) where
  views view s t h := hg.views view _ _ (hf.views view s t h)
  observations s t h hview :=
    hg.observations _ _ (hf.observations s t h hview) (hf.views mode s t hview)
  speculation hmode s := (hf.speculation hmode s).trans (hg.speculation hmode (f s))

end KeepsApart

/-- The state after a sequence of instructions, each with its program counter, in one mode. -/
def applyAll (s : State) (code : List (String × Instr)) (mode : Mode) : State :=
  code.foldl (fun s e => s.apply e.2 e.1 mode) s

/-- What holds of single instructions, and is kept when one change follows another, holds of
    sequences. -/
theorem applyAll_induction {P : (State → State) → Prop} (id : P fun s => s)
    (comp : ∀ f g, P f → P g → P fun s => g (f s))
    (apply : ∀ i pc, P fun s => s.apply i pc mode) (code : List (String × Instr)) :
    P fun s => s.applyAll code mode := by
  induction code with
  | nil => exact id
  | cons e code ih => exact comp _ _ (apply e.2 e.1) ih

theorem KeepsApart.applyAll (code : List (String × Instr)) (mode : Mode) :
    KeepsApart mode fun s => s.applyAll code mode :=
  applyAll_induction (.id mode) (fun _ _ => .comp) (fun i pc => .apply i pc mode) code

/-- Instructions keep the two views apart, one by one and in sequence. -/
theorem views_keptApart (mode : Mode) :
    (∀ i pc, KeepsApart mode fun s => s.apply i pc mode) ∧
      ∀ code, KeepsApart mode fun s => s.applyAll code mode :=
  ⟨fun i pc => .apply i pc mode, fun code => .applyAll code mode⟩

/-- A state with a secret, before a mispredicted path copies the secret to `x`. -/
def beforeCopy : State := seeded (Policy.empty.setReg "h" .high) ["x"]

def afterCopy : State := beforeCopy.apply (.assign "x" (.register "h")) "3" .speculative

/-- A store and a branch that depend on `x`. -/
def dependent : List (String × Instr) :=
  [("4", .store "h" (.register "x")), ("5", .beqz (.register "x") "L" none)]

/-- Committed execution is not affected by the copy, although speculation sees it. -/
theorem views_keptApart_afterCopy :
    (beforeCopy.reg "x").speculative ≠ (afterCopy.reg "x").speculative ∧
      SeesAlike .committed (beforeCopy.applyAll dependent .committed)
        (afterCopy.applyAll dependent .committed) ∧
      (beforeCopy.applyAll dependent .committed).SameObservations
        (afterCopy.applyAll dependent .committed) := by
  have hcopy := ((views_keptApart .speculative).1 (.assign "x" (.register "h")) "3").speculation
    rfl beforeCopy
  have hview : SeesAlike .committed beforeCopy afterCopy :=
    ⟨fun loc => (hcopy.committed loc).symm⟩
  have hcode := (views_keptApart .committed).2 dependent
  exact ⟨by decide, hcode.views .committed _ _ hview, hcode.observations _ _ ⟨rfl, rfl⟩ hview⟩

end State

end Mispredict
