/-
  The registers that an analysis tracks.

  The state at the start lists the registers of the policy, those asked for and those of all
  instructions (`State.mem_registers_seeded_iff`). From then on states list these registers and no
  others: what an instruction writes is listed already, and joins list what their sides list
  (`Setup.Stores.registers_eq`).

  `Instr.lookups` are the registers that an instruction looks at or writes. A register that is not
  among them may be listed or not, with whatever value, and the instruction does the same
  (`State.apply_setReg`). The registers by which a start is seeded are found by another rule, which
  leaves out the target of a jump to a label. But such a jump has no node in a graph that was
  built of a source, since there all jumps are bound. So the instructions of such a graph find
  listed what they look up (`analysis_tracks_registers`), and never fall back to the value of
  a register that is not listed.
-/
import Mispredict.Proofs.Mentioned
import Mispredict.Proofs.TextOnly

namespace Mispredict

open MuAsm (Expr Instr)

/-! ## Registers of instructions -/

namespace MuAsm.Instr

/-- The registers that an instruction looks at or writes. A jump to a known place does not look at
    its target. -/
def lookups : Instr → List String
  | .skip => []
  | .spbarr => []
  | .assign dest expr => dest :: expr.registers
  | .load dest addr => dest :: addr.registers
  | .store src addr => src :: addr.registers
  | .beqz cond _ _ => cond.registers
  | .jmp _ (.pc _) => []
  | .jmp target _ => target.registers
  | .cmov dest cond value => dest :: (cond.registers ++ value.registers)

/-- An instruction whose jump is bound looks up no other registers than its own. -/
theorem mem_registers_of_mem_lookups {i : Instr} (hbound : i.IsBound) {name : String}
    (h : name ∈ i.lookups) : name ∈ i.registers := by
  cases i with
  | jmp target resolved =>
    obtain ⟨⟨pc, rfl⟩, -⟩ := hbound target resolved rfl
    cases h
  | skip | spbarr => cases h
  | beqz cond target known => exact List.mem_append_left _ h
  | _ =>
    simp only [lookups, List.mem_cons, List.mem_append] at h
    simp only [registers, registersRead, registersWritten, List.mem_cons, List.mem_append,
      List.not_mem_nil, or_false]
    tauto

end MuAsm.Instr

/-! ## Registers of states -/

namespace State

variable {s t : State} {name : String}

/-- The registers that a state lists, in increasing order. -/
def registers (s : State) : List String := s.regs.keys

/-- The state with one register listed anew. -/
def setReg (s : State) (name : String) (v : Value) : State :=
  { s with regs := s.regs.insert name v }

theorem mem_registers_iff : name ∈ s.registers ↔ s.regs.get? name = some (s.reg name) := by
  rw [registers, SortedMap.mem_keys_iff, reg, SortedMap.getD]
  cases s.regs.get? name <;> simp

/-- A start lists the registers that it is given and those of its policy. -/
theorem mem_registers_seeded_iff {p : Policy} {names : List String} :
    name ∈ (seeded p names).registers ↔ name ∈ names ∨ name ∈ p.regs.keys := by
  rw [registers, seeded, SortedMap.mem_keys_iff, SortedMap.mem_keys_iff,
    SortedMap.get?_foldl_insert_entries _ p.regs.increasing,
    SortedMap.get?_foldl_insert fun _ => Value.low]
  rw [← SortedMap.get?]
  cases p.regs.get? name <;> by_cases h : name ∈ names <;> simp [h]

theorem registers_writeReg (h : name ∈ s.registers) (v : Value) (mode : Mode) :
    (s.writeReg name v mode).registers = s.registers :=
  SortedMap.keys_insert_of_mem h _

/-- An instruction that writes only what is listed lists no other registers. -/
theorem registers_apply {i : Instr} (h : ∀ name ∈ i.registers, name ∈ s.registers) (pc : String)
    (mode : Mode) : (s.apply i pc mode).registers = s.registers := by
  have hdest : ∀ name ∈ i.registersWritten, name ∈ s.registers :=
    fun name hname => h name (List.mem_append_right _ hname)
  cases i with
  | assign dest expr => exact registers_writeReg (hdest dest List.mem_cons_self) _ mode
  | load dest addr =>
    exact registers_writeReg (s := s.observeMem ..) (hdest dest List.mem_cons_self) _ mode
  | cmov dest cond value => exact registers_writeReg (hdest dest List.mem_cons_self) _ mode
  | _ => rfl

theorem registers_join (h : t.registers = s.registers) : (s.join t).registers = s.registers :=
  SortedMap.keys_unionWith_of_eq h _ _

theorem registers_received {i out : State} {old : Option State} (payload : Payload)
    (hold : ∀ st ∈ old, st.registers = i.registers) (hout : out.registers = i.registers) :
    (Machine.received i old out payload).registers = i.registers := by
  cases payload with
  | full =>
    cases old with
    | none => exact hout
    | some st =>
      have hst := hold st rfl
      exact (registers_join (hout.trans hst.symm)).trans hst
  | observations =>
    cases old with
    | none => rfl
    | some st => exact hold st rfl

/-! ## What is not looked up -/

theorem reg_setReg_of_ne {r : String} (h : r ≠ name) (v : Value) :
    (s.setReg name v).reg r = s.reg r :=
  (SortedMap.getD_insert ..).trans (if_neg h)

theorem eval_setReg {e : Expr} (h : name ∉ e.registers) (v : Value) :
    (s.setReg name v).eval e = s.eval e := by
  induction e with
  | register r => exact reg_setReg_of_ne (fun heq => h (List.mem_singleton.2 heq.symm)) v
  | constant _ => rfl
  | binary op lhs rhs ihl ihr =>
    obtain ⟨hl, hr⟩ := not_or.1 (mt List.mem_append.2 h)
    rw [eval, eval, ihl hl, ihr hr]

theorem writeReg_setReg {dest : String} (h : dest ≠ name) (v w : Value) (mode : Mode) :
    (s.setReg name v).writeReg dest w mode = (s.writeReg dest w mode).setReg name v := by
  rw [writeReg, reg_setReg_of_ne h, writeReg, setReg, setReg, SortedMap.insert_insert_comm h.symm]

/-- A register that an instruction does not look up may have any value, and keeps it. -/
theorem apply_setReg {i : Instr} (h : name ∉ i.lookups) (v : Value) (pc : String) (mode : Mode) :
    (s.setReg name v).apply i pc mode = (s.apply i pc mode).setReg name v := by
  cases i with
  | skip | spbarr => rfl
  | assign dest expr =>
    obtain ⟨hdest, hexpr⟩ := List.ne_and_not_mem_of_not_mem_cons h
    rw [apply, apply, eval_setReg hexpr, writeReg_setReg hdest.symm]
  | load dest addr =>
    obtain ⟨hdest, haddr⟩ := List.ne_and_not_mem_of_not_mem_cons h
    dsimp only [apply]
    rw [eval_setReg haddr]
    exact writeReg_setReg (s := s.observeMem ..) hdest.symm v _ mode
  | store src addr =>
    obtain ⟨hsrc, haddr⟩ := List.ne_and_not_mem_of_not_mem_cons h
    dsimp only [apply]
    rw [eval_setReg haddr, reg_setReg_of_ne hsrc.symm]
    rfl
  | beqz cond target known =>
    rw [apply, apply, eval_setReg h]
    rfl
  | jmp target resolved =>
    cases resolved with
    | pc n => rfl
    | label _ | dynamic =>
      dsimp only [apply]
      rw [eval_setReg h]
      rfl
  | cmov dest cond value =>
    obtain ⟨hdest, hexprs⟩ := List.ne_and_not_mem_of_not_mem_cons h
    obtain ⟨hcond, hvalue⟩ := not_or.1 (mt List.mem_append.2 hexprs)
    rw [apply, apply, eval_setReg hcond, eval_setReg hvalue, writeReg_setReg hdest.symm]

/-- The state lists all that an instruction looks up. -/
structure Covers (s : State) (i : Instr) (pc : String) (mode : Mode) : Prop where
  /-- No look-up falls back to the value of a register that is not listed. -/
  listed : ∀ name ∈ i.lookups, s.regs.get? name = some (s.reg name)
  /-- If another register were listed, with whatever value, the instruction would do the same. -/
  others : ∀ name, name ∉ s.registers → ∀ v,
    (s.setReg name v).apply i pc mode = (s.apply i pc mode).setReg name v

theorem covers_of_lookups {i : Instr} (h : ∀ name ∈ i.lookups, name ∈ s.registers) (pc : String)
    (mode : Mode) : s.Covers i pc mode where
  listed name hname := mem_registers_iff.1 (h name hname)
  others _ hname v := apply_setReg (fun hmem => hname (h _ hmem)) v pc mode

end State

/-! ## Registers of an analysis -/

namespace Setup

variable {s : Setup} {entry k : Key} {st out : State}

/-- The instructions of a graph name only registers that are listed at the start. -/
def Seeded (s : Setup) : Prop :=
  ∀ k pc i, s.executed? k = some (pc, i) → ∀ name ∈ i.registers, name ∈ s.initial.registers

theorem seeded_of (g : SpecGraph) (o : Options) : (Setup.of g o).Seeded := by
  intro k pc i h name hname
  obtain ⟨n, hn, hi, -⟩ := executed?_eq_some_iff.1 h
  refine State.mem_registers_seeded_iff.2 (.inl (List.mem_append_right _ ?_))
  refine List.mem_flatMap.2 ⟨n, SpecGraph.mem_nodes_of_node? hn, ?_⟩
  rw [hi]
  exact hname

theorem Seeded.registers_after (hs : s.Seeded) (hst : st.registers = s.initial.registers)
    (h : s.after k st = .ok out) : out.registers = s.initial.registers := by
  obtain ⟨-, rfl⟩ | ⟨pc, i, he, rfl⟩ := after_cases h
  · exact hst
  · have hlisted : ∀ name ∈ i.registers, name ∈ st.registers := by
      rw [hst]
      exact hs k pc i he
    exact (State.registers_apply hlisted pc k.mode).trans hst

/-- What can be stored lists the registers of the start. -/
theorem Stores.registers_eq (hs : s.Seeded) (h : s.Stores entry k st) :
    st.registers = s.initial.registers := by
  induction h with
  | start => rfl
  | pass _ after _ _ _ ih ihheld =>
    exact State.registers_received _ ihheld (hs.registers_after ih after)

theorem Visits.registers_eq (hs : s.Seeded) {step : Step} (h : s.Visits entry step) :
    step.state.registers = s.initial.registers := by
  obtain ⟨k, n, st, out, hst, -, hafter, hstep⟩ := h
  rw [hstep]
  exact hs.registers_after (hst.registers_eq hs) hafter

end Setup

namespace Machine

variable {s : Setup} {m : Machine}

/-- The machine is one of an analysis, at some moment or where the analysis stops. -/
def Occurs (s : Setup) (m : Machine) : Prop :=
  m = s.run.machine ∨ ∃ cap entry k out rest, Moment s cap entry m k out rest

theorem accounted_empty (s : Setup) (entry : Key) : Accounted s entry .empty := by
  refine ⟨fun k st hst => ?_, fun step hstep => ?_⟩
  · rw [empty, Std.TreeMap.getElem?_emptyc] at hst
    cases hst
  · cases hstep with | mk hstep => cases hstep

theorem Occurs.exists_accounted (h : Occurs s m) : ∃ entry, Accounted s entry m := by
  rcases h with rfl | ⟨cap, entry, k, out, rest, h⟩
  · rcases s.run_cases with ⟨hmachine, -⟩ | ⟨entry, hentry⟩
    · rw [hmachine]
      exact ⟨⟨0, .committed, []⟩, accounted_empty ..⟩
    · rw [Setup.run_of_entry hentry]
      exact ⟨entry, accounted_run ..⟩
  · exact ⟨entry, h.accounted.1⟩

/-- The states of table and trace list the registers of the start. -/
structure TracksRegisters (s : Setup) (m : Machine) : Prop where
  table : ∀ (k : Key) (st : State), m.table[k]? = some st → st.registers = s.initial.registers
  trace : ∀ step ∈ m.trace, step.state.registers = s.initial.registers

theorem Occurs.tracksRegisters (hs : s.Seeded) (h : Occurs s m) : m.TracksRegisters s := by
  obtain ⟨entry, haccounted⟩ := h.exists_accounted
  exact ⟨fun k st hst => (haccounted.stored k st hst).registers_eq hs,
    fun step hstep => (haccounted.visited step hstep).registers_eq hs⟩

/-- At each point that was reached the instruction finds listed what it looks up. -/
def FindsRegisters (s : Setup) (m : Machine) : Prop :=
  ∀ (k : Key) (st : State) (pc : String) (i : Instr), m.table[k]? = some st →
    s.executed? k = some (pc, i) →
      (∀ name ∈ i.lookups, name ∈ s.initial.registers) ∧ st.Covers i pc k.mode

theorem TracksRegisters.findsRegisters (h : m.TracksRegisters s)
    (hlookups : ∀ k pc i, s.executed? k = some (pc, i) → ∀ name ∈ i.lookups,
      name ∈ s.initial.registers) : m.FindsRegisters s := by
  intro k st pc i hst he
  have hnames := hlookups k pc i he
  refine ⟨hnames, State.covers_of_lookups (fun name hname => ?_) pc k.mode⟩
  rw [h.table k st hst]
  exact hnames name hname

end Machine

/-- In a graph whose jumps are bound, instructions look up only registers that are listed at the
    start. -/
theorem SpecGraph.Rereads.mem_registers {g : SpecGraph} (hg : g.Rereads) {o : Options} {k : Key}
    {pc : String} {i : Instr} (h : (Setup.of g o).executed? k = some (pc, i)) {name : String}
    (hname : name ∈ i.lookups) : name ∈ (Setup.of g o).initial.registers := by
  obtain ⟨n, hn, hi, -⟩ := Setup.executed?_eq_some_iff.1 h
  have hreads := hg k.node n hn
  have hinstr : n.instr = some i := Except.ok.inj (hreads.executes.symm.trans hi)
  exact Setup.seeded_of g o k pc i h name
    (Instr.mem_registers_of_mem_lookups (hreads.bound i hinstr) hname)

/-- The registers in the states of an analysis of a graph. -/
structure SpecGraph.TracksRegisters (g : SpecGraph) (o : Options) : Prop where
  machine : ∀ m, Machine.Occurs (Setup.of g o) m → m.TracksRegisters (Setup.of g o)
  report : ∀ step ∈ (g.analyze o).result.trace,
    step.state.registers = (Setup.of g o).initial.registers
  /-- The instructions of a source find listed what they look up. -/
  finds : ∀ source b, (SpecGraph.buildSource source b).result = .ok g →
    ∀ m, Machine.Occurs (Setup.of g o) m → m.FindsRegisters (Setup.of g o)

/-- All states of an analysis list the registers that its start lists. If the graph was built of a
    source, its instructions find listed what they look up, wherever the analysis gets. -/
theorem analysis_tracks_registers (g : SpecGraph) (o : Options) : g.TracksRegisters o := by
  have htracks : ∀ m, Machine.Occurs (Setup.of g o) m → m.TracksRegisters (Setup.of g o) :=
    fun m hm => hm.tracksRegisters (Setup.seeded_of g o)
  refine ⟨htracks, fun step hstep => ?_, fun source b hbuilt m hm => ?_⟩
  · exact (htracks _ (.inl rfl)).trace step (Array.mem_def.2 hstep)
  · have hreads := (SpecGraph.rereads_of_buildSource hbuilt).2
    exact (htracks m hm).findsRegisters fun k pc i he name hname => hreads.mem_registers he hname

/-- A load from an address of two registers, in a loop by a jump to a label. -/
def circling : String := "A: beqz c, B\nload x, p + q\njmp A\nB: skip"

def circlingGraph : SpecGraph :=
  (SpecGraph.buildSource circling {}).result.toOption.getD .empty

/-- The load of the loop, and its point. -/
def circlingLoad : Instr := .load "x" (.binary .add (.register "p") (.register "q"))

def circlingPoint : Key := ⟨1, .committed, []⟩

/-- The names of labels are not tracked. -/
theorem analysis_tracks_registers_circling :
    (Setup.of circlingGraph {}).initial.registers = ["c", "p", "q", "x"] ∧
      ∃ st, (Setup.of circlingGraph {}).run.machine.table[circlingPoint]? = some st ∧
        st.registers = ["c", "p", "q", "x"] ∧ st.Covers circlingLoad "1" .committed := by
  have hregisters : (Setup.of circlingGraph {}).initial.registers = ["c", "p", "q", "x"] := by
    decide +kernel
  have hload : (Setup.of circlingGraph {}).executed? circlingPoint = some ("1", circlingLoad) := by
    decide +kernel
  obtain ⟨st, hst⟩ : ∃ st,
      (Setup.of circlingGraph {}).run.machine.table[circlingPoint]? = some st :=
    Option.isSome_iff_exists.1 (by decide +kernel)
  have htracks := analysis_tracks_registers circlingGraph {}
  have hbuilt : (SpecGraph.buildSource circling {}).result = .ok circlingGraph :=
    SpecGraph.buildSource_eq_ok (by decide +kernel)
  have hcovers := (htracks.finds circling {} hbuilt _ (.inl rfl) _ st _ _ hst hload).2
  have hlists := (htracks.machine _ (.inl rfl)).table _ st hst
  exact ⟨hregisters, st, hst, hlists.trans hregisters, hcovers⟩

end Mispredict
