/-
  Instructions and expressions that are told by their texts.

  An instruction is well spelled if a text can have been written for it: its names are
  identifiers, its constants are not the least machine word, whose digits are too large
  without the sign, an arrow does not lead to a register that has the name of a mnemonic, and
  the limit on operators and parentheses is kept. The text of such an instruction is read as the
  instruction, but for what its target is bound to (`Instr.WellSpelled.reads_render`).

  Names and constants are all that matters for expressions to have different texts
  (`Expr.WellSpelled.render_inj`), since a text is made of one list of tokens, and that
  derives one expression at most, however long it is. Cells and observations of addresses and
  targets have these texts for keys, so that different expressions never share them.
-/
import Mispredict.Proofs.Order
import Mispredict.Proofs.Precedence
import Mispredict.Proofs.Unbound

namespace Mispredict.MuAsm

/-! ## Expressions -/

/-- A text is made of one list of tokens only. -/
theorem Lexes.unique {text : List Char} {ks us : List TokenKind} (h : Lexes text ks)
    (h' : Lexes text us) : ks = us := by
  obtain ⟨tokens, htokens, rfl⟩ := exists_tokenize_of_lexes h 0
  obtain ⟨tokens', htokens', rfl⟩ := exists_tokenize_of_lexes h' 0
  rw [Except.ok.inj (htokens.symm.trans htokens')]

namespace Expr

/-- The constants of an expression from left to right. -/
def constants : Expr → List Int64
  | .register _ => []
  | .constant value => [value]
  | .binary _ lhs rhs => lhs.constants ++ rhs.constants

/-- A text can be written for the expression. -/
structure WellSpelled (e : Expr) : Prop where
  names : ∀ name ∈ e.registers, isIdentifier name.toList = true
  constants : Int64.minValue ∉ e.constants

instance (e : Expr) : Decidable e.WellSpelled :=
  decidable_of_iff ((∀ name ∈ e.registers, isIdentifier name.toList = true) ∧
    Int64.minValue ∉ e.constants) ⟨fun h => ⟨h.1, h.2⟩, fun h => ⟨h.1, h.2⟩⟩

/-- All machine words but the least fit without their sign. -/
theorem natAbs_toInt_le {value : Int64} (h : value ≠ Int64.minValue) :
    (value.toInt.natAbs : Int) ≤ Int64.maxValue.toInt := by
  have hne : value.toInt ≠ Int64.minValue.toInt := fun heq => h (Int64.toInt_inj.1 heq)
  have hle := Int64.toInt_le value
  have hge := Int64.le_toInt value
  have hmin : Int64.minValue.toInt = -9223372036854775808 := by decide
  have hmax : Int64.maxValue.toInt = 9223372036854775807 := by decide
  omega

namespace WellSpelled

variable {op : BinOp} {e e' lhs rhs : Expr}

theorem left (h : (Expr.binary op lhs rhs).WellSpelled) : lhs.WellSpelled where
  names name hname := h.names name (List.mem_append_left _ hname)
  constants hmem := h.constants (List.mem_append_left _ hmem)

theorem right (h : (Expr.binary op lhs rhs).WellSpelled) : rhs.WellSpelled where
  names name hname := h.names name (List.mem_append_right _ hname)
  constants hmem := h.constants (List.mem_append_right _ hmem)

theorem writable (h : e.WellSpelled) : ∀ kind ∈ e.kinds, kind.Writable := by
  induction e with
  | register name =>
    have hname := h.names name (List.mem_singleton.2 rfl)
    simpa [kinds, TokenKind.Writable] using hname
  | constant value =>
    have hne : value ≠ Int64.minValue := fun heq => h.constants (List.mem_singleton.2 heq.symm)
    exact writable_constantKinds (natAbs_toInt_le hne)
  | binary op lhs rhs ihl ihr => exact writable_binary.2 ⟨ihl h.left, ihr h.right⟩

/-- Expressions with the same text are the same. -/
theorem render_inj (h : e.WellSpelled) (h' : e'.WellSpelled) : e.render = e'.render ↔ e = e' := by
  refine ⟨fun heq => ?_, fun heq => heq ▸ rfl⟩
  have hlexes := (e.written_render_end h.writable).lexes
  rw [heq] at hlexes
  have hkinds : e.kinds = e'.kinds := hlexes.unique (e'.written_render_end h'.writable).lexes
  have hd : Derives 0 e.kinds e e.nodes := e.derives_kinds 0 e.needsParens_zero
  exact hd.unique (e'.derives_kinds 0 e'.needsParens_zero) hkinds

end WellSpelled

end Expr

/-! ## Instructions -/

namespace Instr

/-- The expressions of an instruction. -/
def exprs : Instr → List Expr
  | .skip => []
  | .spbarr => []
  | .assign _ expr => [expr]
  | .load _ addr => [addr]
  | .store _ addr => [addr]
  | .beqz cond _ _ => [cond]
  | .jmp target _ => [target]
  | .cmov _ cond value => [value, cond]

/-- The register or label that an instruction names beside its expressions. -/
def name? : Instr → Option String
  | .assign dest _ => some dest
  | .load dest _ => some dest
  | .store src _ => some src
  | .beqz _ target _ => some target
  | .cmov dest _ _ => some dest
  | _ => none

/-- A text can be written for the instruction, and is read as an instruction of its form. -/
structure WellSpelled (i : Instr) : Prop where
  name : ∀ name ∈ i.name?, isIdentifier name.toList = true
  exprs : ∀ e ∈ i.exprs, e.WellSpelled
  /-- A mnemonic would be read as such. -/
  free : ∀ dest ∈ i.arrowDest?, dest ∉ mnemonics
  short : i.nodes ≤ 512

namespace WellSpelled

variable {i : Instr}

theorem writable (h : i.WellSpelled) : ∀ kind ∈ i.kinds, kind.Writable := by
  have hmnemonic : ∀ word ∈ mnemonics, (TokenKind.identifier word).Writable := by
    simp only [TokenKind.Writable]
    decide
  have hname : ∀ name ∈ i.name?, (TokenKind.identifier name).Writable := h.name
  have hexpr : ∀ e ∈ i.exprs, ∀ kind ∈ e.kinds, kind.Writable :=
    fun e he => (h.exprs e he).writable
  cases i with
  | skip => exact List.forall_mem_singleton.2 (hmnemonic "skip" (by decide))
  | spbarr => exact List.forall_mem_singleton.2 (hmnemonic "spbarr" (by decide))
  | load dest addr =>
    simp only [kinds, List.forall_mem_cons]
    exact ⟨hmnemonic "load" (by decide), hname dest rfl, trivial, hexpr addr List.mem_cons_self⟩
  | store src addr =>
    simp only [kinds, List.forall_mem_cons]
    exact ⟨hmnemonic "store" (by decide), hname src rfl, trivial, hexpr addr List.mem_cons_self⟩
  | beqz cond target known =>
    simp only [kinds, List.cons_append, List.forall_mem_cons, List.forall_mem_append]
    exact ⟨hmnemonic "beqz" (by decide), hexpr cond List.mem_cons_self, trivial, hname target rfl,
      List.forall_mem_nil _⟩
  | jmp target resolved =>
    simp only [kinds, List.forall_mem_cons]
    exact ⟨hmnemonic "jmp" (by decide), hexpr target List.mem_cons_self⟩
  | assign dest expr =>
    simp only [kinds, List.forall_mem_cons]
    exact ⟨hname dest rfl, trivial, hexpr expr List.mem_cons_self⟩
  | cmov dest cond value =>
    simp only [kinds, List.cons_append, List.forall_mem_cons, List.forall_mem_append]
    exact ⟨hname dest rfl, trivial, hexpr value List.mem_cons_self, trivial,
      hexpr cond (List.mem_cons_of_mem _ List.mem_cons_self)⟩

/-- The text of an instruction is read as the instruction, but for what its target is bound to. -/
theorem reads_render (h : i.WellSpelled) : Instr.parse i.render = .ok i.unbound := by
  have hparse := (denotes_render h.writable h.free h.short).parse_render_alone
  have hunbound : i.unresolved.resolveAlone = i.unbound := by cases i <;> rfl
  rwa [render_unresolved, hunbound] at hparse

end WellSpelled

end Instr

/-- Two expressions are told by their texts, and by the keys of cells and observations. -/
structure Expr.Told (e e' : Expr) : Prop where
  text : e.render = e'.render ↔ e = e'
  /-- The cell that a store writes. -/
  cell : ∀ src src', (Instr.store src e).writes? = (Instr.store src' e').writes? ↔ e = e'
  /-- The observation that a load or a store makes of its address. -/
  address : ∀ pc dest src, (Instr.load dest e).site? pc = (Instr.store src e').site? pc ↔ e = e'
  /-- The observation that a jump makes of its target. -/
  target : ∀ pc known known',
    (Instr.jmp e known).site? pc = (Instr.jmp e' known').site? pc ↔ e = e'

/-- The text of a well-spelled instruction is read as the instruction, but for what its target is
    bound to, and well-spelled expressions are told by their texts. -/
theorem wellSpelled_told :
    (∀ i : Instr, i.WellSpelled → Instr.parse i.render = .ok i.unbound) ∧
      ∀ e e' : Expr, e.WellSpelled → e'.WellSpelled → e.Told e' := by
  refine ⟨fun i h => h.reads_render, fun e e' h h' => ?_⟩
  have htext := h.render_inj h'
  have hkey : ∀ front : String, front ++ e.render = front ++ e'.render ↔ e = e' :=
    fun front => (String.append_right_inj front).trans htext
  refine ⟨htext, fun src src' => ?_, fun pc dest src => ?_, fun pc known known' => ?_⟩
  · simpa [Instr.writes?] using htext
  · simpa [Instr.site?] using hkey (pc ++ ":")
  · simpa [Instr.site?] using hkey (pc ++ ":target:")

/-- `x <- a - (b - -3) ? jmp & 2 * (c + d)` -/
def guardedMove : Instr :=
  .cmov "x"
    (.binary .and (.register "jmp")
      (.binary .mul (.constant 2) (.binary .add (.register "c") (.register "d"))))
    (.binary .sub (.register "a") (.binary .sub (.register "b") (.constant (-3))))

/-- `jmp load`, which a program may have bound to a program counter -/
def farJump : Instr := .jmp (.register "load") (.pc 7)

/-- `a - b - -3`, without the parentheses of the move -/
def chain : Expr :=
  .binary .sub (.binary .sub (.register "a") (.register "b")) (.constant (-3))

theorem told_guardedMove :
    Instr.parse "x <- a - (b - -3) ? jmp & 2 * (c + d)" = .ok guardedMove ∧
      Instr.parse "jmp load" = .ok (.jmp (.register "load") (.label "load")) ∧
      ∀ e ∈ guardedMove.exprs, e.render ≠ chain.render := by
  obtain ⟨hparse, htold⟩ := wellSpelled_told
  have hmove : guardedMove.WellSpelled := ⟨by decide, by decide, by decide, by decide⟩
  have hjump : farJump.WellSpelled := ⟨by decide, by decide, by decide, by decide⟩
  have hne : ∀ e ∈ guardedMove.exprs, e ≠ chain := by decide
  refine ⟨hparse guardedMove hmove, hparse farJump hjump, fun e he heq => ?_⟩
  exact hne e he ((htold e chain (hmove.exprs e he) (by decide)).text.1 heq)

end Mispredict.MuAsm
