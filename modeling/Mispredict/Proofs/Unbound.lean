/-
  Instructions as their texts give them.

  A program binds the targets of its jumps and branches to program counters. The text of an
  instruction does not say what its label stands for, so what is read from it is the
  instruction without that (`Instr.unbound`, `Program.parse_render_instr`).

  For a branch this makes no difference to an analysis, since its target is not observed, nor
  does it for a jump to a constant, which the text gives. A jump to a label, however, is
  observed as public if the label is bound, and otherwise at the level of the register that has
  the name of the label (`apply_unbound_of_label?`).
-/
import Mispredict.Proofs.Buildable
import Mispredict.Proofs.RoundTrip

namespace Mispredict

open MuAsm (Expr Instr Jump Program Entry)

namespace MuAsm.Instr

/-- The instruction without what its target is bound to; a target that is a constant needs no
    binding. -/
def unbound : Instr → Instr
  | .beqz cond target _ => .beqz cond target none
  | .jmp target _ => .jmp target (.ofTarget ∅ target)
  | i => i

/-- The label by which a jump gives its target, if it does. -/
def label? : Instr → Option String
  | .jmp (.register name) (.pc _) => some name
  | _ => none

/-- A jump goes to a program counter, to which its target is bound by a label or of itself. -/
def IsBound (i : Instr) : Prop :=
  ∀ target resolved, i = .jmp target resolved → (∃ pc, resolved = .pc pc) ∧
    ((∃ name, target = .register name) ∨ resolved = .ofTarget ∅ target)

/-! ## Reading an instruction back -/

/-- An instruction that was read of some text can be read of its own text. -/
theorem Denotes.parse_render_alone {text : List Char} {i : Instr} (h : Denotes text i) :
    Instr.parse i.render = .ok i.resolveAlone := by
  obtain ⟨hdenotes, hinline⟩ := h.render
  have hfree : ¬ ['/', '/'] <:+: i.render.toList := by
    intro hslashes
    exact not_mem_of_inline hinline (c := '/') (by decide) (hslashes.subset List.mem_cons_self)
  rw [Instr.parse, Program.cutComment_of_free hfree]
  exact bind_eq_ok_iff.2 ⟨i, ofText_eq_ok_iff.2 hdenotes, rfl⟩

/-- What is looked up for a target is lost again. -/
theorem Denotes.resolveAlone_eq {text : List Char} {i i' : Instr}
    {labels : Std.ExtTreeMap String Nat} (h : Denotes text i) (hi : Program.Resolved labels i i') :
    i.resolveAlone = i'.unbound := by
  obtain ⟨ks, n, -, hderives, -⟩ := h
  cases hderives with
  | beqz => cases hi with
    | branch => rfl
    | plain branch => exact absurd rfl (branch _ _ _)
  | jmp => cases hi with
    | plain _ jump => exact absurd rfl (jump _ _)
    | _ => rfl
  | _ => cases hi with
    | plain => rfl

end MuAsm.Instr

namespace MuAsm.Program

variable {source : String} {p : Program} {pc : Nat} {e : Entry}

/-- Every instruction of a program was read of some text, and its target was then looked up. -/
theorem exists_denotes_of_parse (hp : parse source = .ok p) (he : p.entry? pc = some e) :
    ∃ text i, Instr.Denotes text i ∧ Resolved p.labels i e.instr := by
  have houtcome := outcome_parse source
  rw [hp] at houtcome
  obtain ⟨ls, hsource, hbuilds⟩ := houtcome
  obtain ⟨-, i, hi, hresolved⟩ := hbuilds.entries pc e he
  have hmem : i ∈ instrsOf ls := by
    rw [← map_snd_numbered]
    exact List.mem_map.2 ⟨_, List.mem_of_getElem? hi, rfl⟩
  obtain ⟨l, hl, hinstr⟩ := List.mem_filterMap.1 hmem
  obtain ⟨n, hn⟩ := List.mem_iff_getElem?.1 hl
  obtain ⟨line, -, hread⟩ := exists_of_forall₂_of_getElem? hsource.reads hn
  obtain ⟨text, hdenotes⟩ := hread.valid.instr i hinstr
  exact ⟨text, i, hdenotes, hresolved⟩

/-- The text of an instruction of a program gives the instruction, but for what its target is bound
    to. -/
theorem parse_render_instr (hp : parse source = .ok p) (he : p.entry? pc = some e) :
    Instr.parse e.instr.render = .ok e.instr.unbound := by
  obtain ⟨text, i, hdenotes, hresolved⟩ := exists_denotes_of_parse hp he
  rw [hresolved.render, hdenotes.parse_render_alone, hdenotes.resolveAlone_eq hresolved]

/-- The jumps of a program without faults are bound. -/
theorem Faultless.isBound (hf : p.Faultless) (hp : parse source = .ok p)
    (he : p.entry? pc = some e) : e.instr.IsBound := by
  intro target resolved hinstr
  constructor
  · have hfault := hf e (List.mem_of_getElem? he)
    rw [fault?, hinstr] at hfault
    cases resolved with
    | pc n => exact ⟨n, rfl⟩
    | label name => cases hfault
    | dynamic => cases hfault
  · obtain ⟨text, i, -, hresolved⟩ := exists_denotes_of_parse hp he
    rw [hinstr] at hresolved
    by_cases hname : ∃ name, target = .register name
    · exact .inl hname
    · right
      obtain ⟨known, rfl⟩ : ∃ known, i = .jmp target known := by
        cases hresolved with
        | plain => exact ⟨_, rfl⟩
        | _ => exact ⟨_, rfl⟩
      have hcompound : ∀ name, target ≠ .register name := fun name heq => hname ⟨name, heq⟩
      have heq := hresolved.unique (resolved_jump p.labels target known)
      rw [(Instr.jmp.inj heq).2, jumpOfTarget_of_compound hcompound,
        jumpOfTarget_of_compound hcompound]

end MuAsm.Program

/-! ## Effects -/

namespace MuAsm.Instr

variable {i : Instr}

theorem isBarrier_unbound (i : Instr) : i.unbound.isBarrier = i.isBarrier := by
  cases i <;> rfl

theorem registers_unbound (h : i.IsBound) : i.unbound.registers = i.registers := by
  cases i with
  | jmp target resolved =>
    obtain ⟨⟨pc, rfl⟩, ⟨name, rfl⟩ | heq⟩ := h target resolved rfl
    · rfl
    · rw [unbound, ← heq]
  | _ => rfl

/-- The instruction keeps its effect, unless it is a jump to a label. -/
theorem apply_unbound (h : i.IsBound) (hlabel : i.label? = none) (st : State) (pc : String)
    (mode : Mode) : st.apply i.unbound pc mode = st.apply i pc mode := by
  cases i with
  | jmp target resolved =>
    obtain ⟨⟨n, rfl⟩, ⟨name, rfl⟩ | heq⟩ := h target resolved rfl
    · cases hlabel
    · rw [unbound, ← heq]
  | _ => rfl

/-- A jump to a label is public if the label is bound. Otherwise it shows the register that has the
    name of the label. -/
theorem apply_unbound_of_label? {name : String} (hlabel : i.label? = some name) (st : State)
    (pc : String) (mode : Mode) :
    st.apply i pc mode = st.observeCtrl (pc ++ ":target:" ++ name) .low mode ∧
      st.apply i.unbound pc mode =
        st.observeCtrl (pc ++ ":target:" ++ name) ((st.reg name).view mode) mode := by
  unfold label? at hlabel
  split at hlabel
  · cases hlabel
    exact ⟨rfl, rfl⟩
  · cases hlabel

end MuAsm.Instr

end Mispredict
