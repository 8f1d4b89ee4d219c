/-
  Levels, values and stores in order.

  Levels are in a chain, `bot` before `low` before `high` before `top`, and their join is
  the greater of two (`Level.le_iff_height_le`). Values are compared view by view. One
  store is below another if every register and every cell of the one reads below that of
  the other; what a state does not list counts with its default.

  An instruction writes over one location at most, by what it reads (`read_apply`). That is
  all that has to be known of it to follow a property of stores over instructions. They are
  monotone in the store (`StoreLe.apply`), and so are visits (`StoreLe.advance`).
-/
import Mispredict.Proofs.Reading

namespace Mispredict

open MuAsm (Expr Instr)

/-! ## Levels -/

namespace Level

instance : Max Level := ⟨join⟩

instance : SemilatticeSup Level := SemilatticeSup.mk' join_comm join_assoc join_self

/-- The place of a level in the chain. -/
def height : Level → Nat
  | .bot => 0
  | .low => 1
  | .high => 2
  | .top => 3

theorem le_iff_join_eq {a b : Level} : a ≤ b ↔ a.join b = b := sup_eq_right.symm

/-- The order of levels is `bot`, `low`, `high`, `top`. -/
theorem le_iff_height_le {a b : Level} : a ≤ b ↔ a.height ≤ b.height := by
  rw [le_iff_join_eq]
  cases a <;> cases b <;> decide

end Level

/-! ## Values -/

namespace Value

instance : Max Value := ⟨join⟩

instance : SemilatticeSup Value := SemilatticeSup.mk' join_comm join_assoc join_self

theorem le_iff_join_eq {v w : Value} : v ≤ w ↔ v.join w = w := sup_eq_right.symm

theorem le_iff {v w : Value} :
    v ≤ w ↔ v.committed ≤ w.committed ∧ v.speculative ≤ w.speculative := by
  obtain ⟨vc, vs⟩ := v
  obtain ⟨wc, ws⟩ := w
  rw [le_iff_join_eq, Level.le_iff_join_eq, Level.le_iff_join_eq, join, mk.injEq]

/-- Values are compared by what execution in each mode sees of them. -/
theorem le_iff_view_le {v w : Value} : v ≤ w ↔ ∀ mode, v.view mode ≤ w.view mode := by
  rw [le_iff]
  constructor
  · rintro ⟨hc, hs⟩ mode
    cases mode with
    | committed => exact hc
    | speculative => exact hs
  · intro h
    exact ⟨h .committed, h .speculative⟩

theorem join_le_join {v w x y : Value} (hv : v ≤ x) (hw : w ≤ y) : v.join w ≤ x.join y :=
  sup_le_sup hv hw

theorem overwrite_le_overwrite {v w x y : Value} (hv : v ≤ w) (hx : x ≤ y) (mode : Mode) :
    v.overwrite x mode ≤ w.overwrite y mode := by
  rw [le_iff_join_eq] at hv hx ⊢
  rw [← overwrite_join, hv, hx]

end Value

/-! ## Stores -/

/-- What a store has values for. -/
inductive Location where
  | reg (name : String)
  | cell (key : String)
  deriving DecidableEq, Repr

/-- The location that an instruction writes. -/
def MuAsm.Instr.writes? : Instr → Option Location
  | .assign dest _ => some (.reg dest)
  | .load dest _ => some (.reg dest)
  | .store _ addr => some (.cell addr.render)
  | .cmov dest _ _ => some (.reg dest)
  | _ => none

namespace State

def read (s : State) : Location → Value
  | .reg name => s.reg name
  | .cell key => s.cell key

theorem read_join (s t : State) (loc : Location) :
    (s.join t).read loc = (s.read loc).join (t.read loc) := by
  cases loc with
  | reg name => exact reg_join s t name
  | cell key => exact cell_join s t key

theorem SameStore.read {s t : State} (h : s.SameStore t) (loc : Location) :
    s.read loc = t.read loc := by
  cases loc with
  | reg name => exact h.reg name
  | cell key => exact h.cell key

theorem reg_writeReg (s : State) (dest : String) (v : Value) (mode : Mode) (name : String) :
    (s.writeReg dest v mode).reg name =
      if name = dest then (s.reg dest).overwrite v mode else s.reg name :=
  SortedMap.getD_insert ..

theorem cell_writeCell (s : State) (dest : String) (v : Value) (mode : Mode) (key : String) :
    (s.writeCell dest v mode).cell key =
      if key = dest then (s.cell dest).overwrite v mode else s.cell key :=
  SortedMap.getD_insert ..

/-- The value that an instruction writes. -/
def written (s : State) : Instr → Value
  | .assign _ expr => s.eval expr
  | .load _ addr => (s.cell addr.render).join (s.eval addr)
  | .store src addr => (s.reg src).join (s.eval addr)
  | .cmov _ cond value => (s.eval cond).join (s.eval value)
  | _ => .low

theorem read_writeReg (s : State) (dest : String) (v : Value) (mode : Mode) (loc : Location) :
    (s.writeReg dest v mode).read loc =
      if some (.reg dest) = some loc then (s.read loc).overwrite v mode else s.read loc := by
  cases loc with
  | reg name =>
    rw [read, reg_writeReg]
    by_cases h : name = dest
    · simp [h, read]
    · simp [h, Ne.symm h, read]
  | cell key => simp [read, writeReg, cell]

theorem read_writeCell (s : State) (dest : String) (v : Value) (mode : Mode) (loc : Location) :
    (s.writeCell dest v mode).read loc =
      if some (.cell dest) = some loc then (s.read loc).overwrite v mode else s.read loc := by
  cases loc with
  | reg name => simp [read, writeCell, reg]
  | cell key =>
    rw [read, cell_writeCell]
    by_cases h : key = dest
    · simp [h, read]
    · simp [h, Ne.symm h, read]

/-- What an instruction does to registers and memory: it writes over one location, or over none. -/
theorem read_apply (s : State) (i : Instr) (pc : String) (mode : Mode) (loc : Location) :
    (s.apply i pc mode).read loc =
      if i.writes? = some loc then (s.read loc).overwrite (s.written i) mode else s.read loc := by
  cases i with
  | assign dest expr => exact read_writeReg s dest _ mode loc
  | load dest addr => exact read_writeReg (s.observeMem ..) dest _ mode loc
  | store src addr => exact read_writeCell (s.observeMem ..) addr.render _ mode loc
  | cmov dest cond value => exact read_writeReg s dest _ mode loc
  | _ => rfl

/-- Every register and every cell of the one state reads below that of the other. -/
structure StoreLe (s t : State) : Prop where
  read : ∀ loc, s.read loc ≤ t.read loc

namespace StoreLe

variable {s t u : State}

theorem refl (s : State) : s.StoreLe s := ⟨fun _ => le_rfl⟩

theorem trans (h : s.StoreLe t) (h' : t.StoreLe u) : s.StoreLe u :=
  ⟨fun loc => (h.read loc).trans (h'.read loc)⟩

/-- Only registers and memory count. -/
theorem congr {s' t' : State} (h : s.StoreLe t) (hs : s.SameStore s') (ht : t.SameStore t') :
    s'.StoreLe t' :=
  ⟨fun loc => hs.read loc ▸ ht.read loc ▸ h.read loc⟩

theorem join_left (s t : State) : s.StoreLe (s.join t) := by
  refine ⟨fun loc => ?_⟩
  rw [read_join]
  exact le_sup_left

theorem join_right (s t : State) : t.StoreLe (s.join t) := by
  rw [join_comm]
  exact join_left t s

theorem of_le (h : s ≤ t) : s.StoreLe t := by
  have hle := join_left s t
  rwa [show s.join t = t from sup_eq_right.2 h] at hle

theorem join (hs : s.StoreLe u) (ht : t.StoreLe u) : (s.join t).StoreLe u := by
  refine ⟨fun loc => ?_⟩
  rw [read_join]
  exact sup_le (hs.read loc) (ht.read loc)

theorem reg (h : s.StoreLe t) (name : String) : s.reg name ≤ t.reg name := h.read (.reg name)

theorem cell (h : s.StoreLe t) (key : String) : s.cell key ≤ t.cell key := h.read (.cell key)

theorem eval (h : s.StoreLe t) (e : Expr) : s.eval e ≤ t.eval e := by
  induction e with
  | register name => exact h.reg name
  | constant _ => exact le_rfl
  | binary _ lhs rhs ihl ihr => exact Value.join_le_join ihl ihr

theorem shown (h : s.StoreLe t) (i : Instr) : s.shown i ≤ t.shown i := by
  cases i with
  | load dest addr => exact Value.join_le_join (h.cell addr.render) (h.eval addr)
  | store src addr => exact h.eval addr
  | beqz cond label target => exact h.eval cond
  | jmp target resolved =>
    cases resolved with
    | pc n => exact le_rfl
    | _ => exact h.eval target
  | _ => exact le_rfl

theorem written (h : s.StoreLe t) (i : Instr) : s.written i ≤ t.written i := by
  cases i with
  | assign dest e => exact h.eval e
  | load dest addr => exact Value.join_le_join (h.cell addr.render) (h.eval addr)
  | store src addr => exact Value.join_le_join (h.reg src) (h.eval addr)
  | cmov dest cond value => exact Value.join_le_join (h.eval cond) (h.eval value)
  | _ => exact le_rfl

/-- Instructions are monotone in the store. -/
theorem apply (h : s.StoreLe t) (i : Instr) (pc : String) (mode : Mode) :
    (s.apply i pc mode).StoreLe (t.apply i pc mode) := by
  refine ⟨fun loc => ?_⟩
  rw [read_apply, read_apply]
  split
  · exact Value.overwrite_le_overwrite (h.read loc) (h.written i) mode
  · exact h.read loc

/-- Visits are monotone in the store. -/
theorem advance (h : s.StoreLe t) (setup : Setup) (k : Key) :
    (setup.advance k s).StoreLe (setup.advance k t) := by
  unfold Setup.advance
  split
  · exact h.apply ..
  · exact h

end StoreLe

end State

end Mispredict
