/-
  What a program does not mention has no effect.

  A policy may give levels to registers and cells that stand in no instruction. They are then
  listed in every state, take part in every join and in every comparison of states. But no
  instruction reads or writes them, so they keep the values that they had at the start
  (`State.Mirrors.aside`), and the join of a value with itself is that value. Hence they never make
  a difference between what a point holds and what it receives, and two policies that differ
  only there lead to analyses that go on side by side (`related_of_policies`).
-/
import Mispredict.Proofs.Order
import Mispredict.Proofs.Related

namespace Mispredict

open MuAsm (Expr Instr)

/-! ## Mentions -/

/-- The registers that an instruction names, and the cell that it addresses. The target of a jump
    counts, whether or not it is known. -/
def MuAsm.Instr.mentions : Instr → List Location
  | .skip => []
  | .spbarr => []
  | .assign dest expr => .reg dest :: expr.registers.map .reg
  | .load dest addr => .cell addr.render :: .reg dest :: addr.registers.map .reg
  | .store src addr => .cell addr.render :: .reg src :: addr.registers.map .reg
  | .beqz cond _ _ => cond.registers.map .reg
  | .jmp target _ => target.registers.map .reg
  | .cmov dest cond value => .reg dest :: (cond.registers ++ value.registers).map .reg

/-- What the instructions of a graph mention. -/
def SpecGraph.mentioned (g : SpecGraph) : List Location :=
  g.nodes.flatMap fun n =>
    match n.executes with
    | .ok (some i) => i.mentions
    | _ => []

theorem SpecGraph.mem_nodes_of_node? {g : SpecGraph} {i : Nat} {n : Node}
    (h : g.node? i = some n) : n ∈ g.nodes := by
  obtain ⟨slot, hslot, rfl⟩ := Option.map_eq_some_iff.1 h
  have hmem := Std.ExtTreeMap.mem_toList_iff_getElem?_eq_some.2 hslot
  exact List.mem_map.2 ⟨(i, slot.value), List.mem_map.2 ⟨(i, slot), hmem, rfl⟩, rfl⟩

theorem SpecGraph.mem_mentioned {g : SpecGraph} {j : Nat} {n : Node} {i : Instr} {loc : Location}
    (hn : g.node? j = some n) (hi : n.executes = .ok (some i)) (h : loc ∈ i.mentions) :
    loc ∈ g.mentioned := by
  refine List.mem_flatMap.2 ⟨n, mem_nodes_of_node? hn, ?_⟩
  rw [hi]
  exact h

/-- The level that a policy gives to a location. -/
def Policy.level? (p : Policy) : Location → Option Level
  | .reg name => p.regs.get? name
  | .cell key => p.mem.get? key

/-! ## What a state lists -/

/-- What is read at a location that is not listed. -/
def Location.unlisted : Location → Value
  | .reg _ => .low
  | .cell _ => .high

namespace State

variable {s t u : State} {loc : Location}

/-- The value that a state lists for a location. -/
def listed? (s : State) : Location → Option Value
  | .reg name => s.regs.get? name
  | .cell key => s.mem.get? key

theorem read_eq_getD (s : State) (loc : Location) :
    s.read loc = (s.listed? loc).getD loc.unlisted := by
  cases loc <;> rfl

/-- A state is what it lists, and what was observed. -/
theorem ext_listed? (hmem : s.obsMem = t.obsMem) (hctrl : s.obsCtrl = t.obsCtrl)
    (h : ∀ loc, s.listed? loc = t.listed? loc) : s = t := by
  have hregs : s.regs = t.regs := SortedMap.ext_get? fun name => h (.reg name)
  have hcells : s.mem = t.mem := SortedMap.ext_get? fun key => h (.cell key)
  cases s
  cases t
  simp_all

theorem listed?_writeReg (s : State) (dest : String) (v : Value) (mode : Mode) (loc : Location) :
    (s.writeReg dest v mode).listed? loc =
      if loc = .reg dest then some ((s.read (.reg dest)).overwrite v mode) else s.listed? loc := by
  cases loc with
  | reg name =>
    rw [listed?, writeReg, SortedMap.get?_insert]
    simp only [Location.reg.injEq]
    rfl
  | cell key => rw [if_neg (by simp)]; rfl

theorem listed?_writeCell (s : State) (dest : String) (v : Value) (mode : Mode) (loc : Location) :
    (s.writeCell dest v mode).listed? loc =
      if loc = .cell dest then some ((s.read (.cell dest)).overwrite v mode)
      else s.listed? loc := by
  cases loc with
  | reg name => rw [if_neg (by simp)]; rfl
  | cell key =>
    rw [listed?, writeCell, SortedMap.get?_insert]
    simp only [Location.cell.injEq]
    rfl

theorem listed?_join (s t : State) (loc : Location) :
    (s.join t).listed? loc =
      ((s.listed? loc).or (t.listed? loc)).map fun _ => (s.read loc).join (t.read loc) := by
  cases loc <;> exact SortedMap.get?_unionWith ..

/-- Where both sides list the same, so does the join. -/
theorem listed?_join_of_eq (hs : s.listed? loc = u.listed? loc)
    (ht : t.listed? loc = u.listed? loc) : (s.join t).listed? loc = u.listed? loc := by
  rw [listed?_join, read_eq_getD, read_eq_getD, hs, ht]
  cases u.listed? loc with
  | none => rfl
  | some v =>
    rw [Option.or_some, Option.map_some, Option.getD_some, Value.join_self]

end State

/-! ## States that agree on what is mentioned -/

namespace State

/-- The same has been observed in both states, and they list the same for the given locations. -/
structure AgreesOn (locs : List Location) (s s' : State) : Prop where
  obsMem : s'.obsMem = s.obsMem
  obsCtrl : s'.obsCtrl = s.obsCtrl
  listed : ∀ loc ∈ locs, s'.listed? loc = s.listed? loc

/-- States of two analyses that agree on the given locations, and list for all others what the
    analyses had there at the start. -/
structure Mirrors (locs : List Location) (i i' s s' : State) : Prop extends AgreesOn locs s s' where
  aside : ∀ loc, loc ∉ locs → s.listed? loc = i.listed? loc ∧ s'.listed? loc = i'.listed? loc

variable {locs : List Location} {i i' s s' t t' : State}

theorem AgreesOn.read {loc : Location} (h : AgreesOn locs s s') (hloc : loc ∈ locs) :
    s'.read loc = s.read loc := by
  rw [read_eq_getD, read_eq_getD, h.listed loc hloc]

theorem AgreesOn.eval {e : Expr} (h : AgreesOn locs s s')
    (he : ∀ r ∈ e.registers, .reg r ∈ locs) : s'.eval e = s.eval e := by
  induction e with
  | register name => exact h.read (he name (List.mem_singleton.2 rfl))
  | constant value => rfl
  | binary op lhs rhs ihl ihr =>
    rw [State.eval, State.eval, ihl fun r hr => he r (List.mem_append_left _ hr),
      ihr fun r hr => he r (List.mem_append_right _ hr)]

theorem AgreesOn.hasViolation (h : AgreesOn locs s s') : s'.hasViolation = s.hasViolation := by
  rw [State.hasViolation, State.hasViolation, h.obsMem, h.obsCtrl]

namespace Mirrors

theorem symm (h : Mirrors locs i i' s s') : Mirrors locs i' i s' s where
  obsMem := h.obsMem.symm
  obsCtrl := h.obsCtrl.symm
  listed := fun loc hloc => (h.listed loc hloc).symm
  aside := fun loc hloc => (h.aside loc hloc).symm

/-- What differs between the analyses never tells a state from another one. -/
theorem eq_of_eq (h : Mirrors locs i i' s s') (ht : Mirrors locs i i' t t') (heq : s = t) :
    s' = t' := by
  subst heq
  refine ext_listed? (h.obsMem.trans ht.obsMem.symm) (h.obsCtrl.trans ht.obsCtrl.symm)
    fun loc => ?_
  by_cases hloc : loc ∈ locs
  · rw [h.listed loc hloc, ht.listed loc hloc]
  · rw [(h.aside loc hloc).2, (ht.aside loc hloc).2]

/-- The same write to a location that is given. -/
theorem write {dest : Location} {v : Value} (h : Mirrors locs i i' s s') (hdest : dest ∈ locs)
    (hobs : t.obsMem = s.obsMem ∧ t.obsCtrl = s.obsCtrl)
    (hobs' : t'.obsMem = s'.obsMem ∧ t'.obsCtrl = s'.obsCtrl)
    (ht : ∀ loc, t.listed? loc = if loc = dest then some v else s.listed? loc)
    (ht' : ∀ loc, t'.listed? loc = if loc = dest then some v else s'.listed? loc) :
    Mirrors locs i i' t t' where
  obsMem := by rw [hobs.1, hobs'.1, h.obsMem]
  obsCtrl := by rw [hobs.2, hobs'.2, h.obsCtrl]
  listed := by
    intro loc hloc
    rw [ht, ht', h.listed loc hloc]
  aside := by
    intro loc hloc
    have hne : loc ≠ dest := fun heq => hloc (heq ▸ hdest)
    rw [ht, ht', if_neg hne, if_neg hne]
    exact h.aside loc hloc

theorem writeReg {dest : String} (h : Mirrors locs i i' s s') (hdest : .reg dest ∈ locs) (v : Value)
    (mode : Mode) : Mirrors locs i i' (s.writeReg dest v mode) (s'.writeReg dest v mode) := by
  refine h.write hdest ⟨rfl, rfl⟩ ⟨rfl, rfl⟩ (listed?_writeReg s dest v mode) fun loc => ?_
  rw [listed?_writeReg, h.read hdest]

theorem writeCell {dest : String} (h : Mirrors locs i i' s s') (hdest : .cell dest ∈ locs)
    (v : Value) (mode : Mode) :
    Mirrors locs i i' (s.writeCell dest v mode) (s'.writeCell dest v mode) := by
  refine h.write hdest ⟨rfl, rfl⟩ ⟨rfl, rfl⟩ (listed?_writeCell s dest v mode) fun loc => ?_
  rw [listed?_writeCell, h.read hdest]

theorem observeMem (h : Mirrors locs i i' s s') (key : String) (l : Level) (mode : Mode) :
    Mirrors locs i i' (s.observeMem key l mode) (s'.observeMem key l mode) where
  obsMem := congrArg (Observations.observe · key l mode) h.obsMem
  obsCtrl := h.obsCtrl
  listed := h.listed
  aside := h.aside

theorem observeCtrl (h : Mirrors locs i i' s s') (key : String) (l : Level) (mode : Mode) :
    Mirrors locs i i' (s.observeCtrl key l mode) (s'.observeCtrl key l mode) where
  obsMem := h.obsMem
  obsCtrl := congrArg (Observations.observe · key l mode) h.obsCtrl
  listed := h.listed
  aside := h.aside

/-- An instruction does the same to both states if all that it mentions is given. -/
theorem apply {instr : Instr} (h : Mirrors locs i i' s s')
    (hinstr : ∀ loc ∈ instr.mentions, loc ∈ locs) (pc : String) (mode : Mode) :
    Mirrors locs i i' (s.apply instr pc mode) (s'.apply instr pc mode) := by
  have heval : ∀ e : Expr, (∀ r ∈ e.registers, .reg r ∈ instr.mentions) → s'.eval e = s.eval e :=
    fun e he => h.eval fun r hr => hinstr _ (he r hr)
  cases instr with
  | skip => exact h
  | spbarr => exact h
  | assign dest expr =>
    rw [State.apply, State.apply, heval expr (by simp +contextual [Instr.mentions])]
    exact h.writeReg (hinstr _ (by simp [Instr.mentions])) _ mode
  | load dest addr =>
    have hcell : s'.cell addr.render = s.cell addr.render :=
      h.read (hinstr (.cell addr.render) (by simp [Instr.mentions]))
    dsimp only [State.apply]
    rw [heval addr (by simp +contextual [Instr.mentions]), hcell]
    exact (h.observeMem _ _ mode).writeReg (hinstr _ (by simp [Instr.mentions])) _ mode
  | store src addr =>
    have hsrc : s'.reg src = s.reg src :=
      h.read (hinstr (.reg src) (by simp [Instr.mentions]))
    dsimp only [State.apply]
    rw [heval addr (by simp +contextual [Instr.mentions]), hsrc]
    exact (h.observeMem _ _ mode).writeCell (hinstr _ (by simp [Instr.mentions])) _ mode
  | beqz cond target known =>
    rw [State.apply, State.apply, heval cond (by simp [Instr.mentions])]
    exact h.observeCtrl _ _ mode
  | jmp target resolved =>
    dsimp only [State.apply]
    rw [heval target (by simp [Instr.mentions])]
    exact h.observeCtrl _ _ mode
  | cmov dest cond value =>
    rw [State.apply, State.apply, heval cond (by simp +contextual [Instr.mentions]),
      heval value (by simp +contextual [Instr.mentions])]
    exact h.writeReg (hinstr _ (by simp [Instr.mentions])) _ mode

theorem join (h : Mirrors locs i i' s s') (ht : Mirrors locs i i' t t') :
    Mirrors locs i i' (s.join t) (s'.join t') where
  obsMem := congrArg₂ Observations.join h.obsMem ht.obsMem
  obsCtrl := congrArg₂ Observations.join h.obsCtrl ht.obsCtrl
  listed := by
    intro loc hloc
    rw [listed?_join, listed?_join, h.listed loc hloc, ht.listed loc hloc, h.read hloc,
      ht.read hloc]
  aside := by
    intro loc hloc
    obtain ⟨hs, hs'⟩ := h.aside loc hloc
    obtain ⟨ht, ht'⟩ := ht.aside loc hloc
    exact ⟨listed?_join_of_eq hs ht, listed?_join_of_eq hs' ht'⟩

theorem joinObservations (h : Mirrors locs i i' s s') (ht : Mirrors locs i i' t t') :
    Mirrors locs i i' (s.joinObservations t) (s'.joinObservations t') where
  obsMem := congrArg₂ Observations.join h.obsMem ht.obsMem
  obsCtrl := congrArg₂ Observations.join h.obsCtrl ht.obsCtrl
  listed := h.listed
  aside := h.aside

end Mirrors

end State

/-! ## Two policies -/

namespace State

/-- At the start a state lists what the policy does, and the other registers that are named. -/
theorem listed?_seeded (p : Policy) (registers : List String) (loc : Location) :
    (seeded p registers).listed? loc =
      ((p.level? loc).map .uniform).or ((seeded .empty registers).listed? loc) := by
  cases loc with
  | reg name => exact SortedMap.get?_foldl_insert_entries Value.uniform p.regs.increasing _ name
  | cell key => exact SortedMap.get?_foldl_insert_entries Value.uniform p.mem.increasing _ key

theorem mirrors_seeded {locs : List Location} {p p' : Policy}
    (h : ∀ loc ∈ locs, p'.level? loc = p.level? loc) (registers : List String) :
    Mirrors locs (seeded p registers) (seeded p' registers) (seeded p registers)
      (seeded p' registers) where
  obsMem := rfl
  obsCtrl := rfl
  listed := by
    intro loc hloc
    rw [listed?_seeded, listed?_seeded p, h loc hloc]
  aside := fun _ _ => ⟨rfl, rfl⟩

end State

namespace SpecGraph

/-- The setup of an analysis under a policy. -/
abbrev setupWith (g : SpecGraph) (o : Options) (p : Policy) : Setup :=
  Setup.of g { o with policy := p }

/-- Under policies that agree on what a graph mentions, the analyses of the graph go side by
    side. -/
theorem related_of_policies (g : SpecGraph) (o : Options) {p p' : Policy}
    (h : ∀ loc ∈ g.mentioned, p'.level? loc = p.level? loc) :
    (g.setupWith o p).Related
      (State.Mirrors g.mentioned (g.setupWith o p).initial (g.setupWith o p').initial)
      (g.setupWith o p') where
  graph := rfl
  routes := fun _ => rfl
  order := rfl
  initial := State.mirrors_seeded h _
  transfer := by
    intro j n hn mode st st' hst
    unfold Node.transfer
    cases hi : n.executes with
    | error e => exact .error e
    | ok found =>
      cases found with
      | none => exact .ok hst
      | some i => exact .ok (hst.apply (fun loc hloc => mem_mentioned hn hi hloc) _ mode)
  join := fun _ _ _ _ => State.Mirrors.join
  joinObservations := fun _ _ _ _ => State.Mirrors.joinObservations
  eq_iff := fun _ _ _ _ hst ht => ⟨hst.eq_of_eq ht, hst.symm.eq_of_eq ht.symm⟩
  hasViolation := fun _ _ hst => hst.hasViolation

end SpecGraph

/-- Levels that a policy gives to registers and cells that no instruction mentions make no
    difference: the verdict and the error are the same, and step by step the traces agree in all
    but what they list for such registers and cells. -/
theorem analyze_of_policies_agree (g : SpecGraph) (o : Options) (p p' : Policy)
    (h : ∀ loc ∈ g.mentioned, p'.level? loc = p.level? loc) :
    (g.analyze { o with policy := p' }).result.verdict =
        (g.analyze { o with policy := p }).result.verdict ∧
      (g.analyze { o with policy := p' }).result.error =
        (g.analyze { o with policy := p }).result.error ∧
      List.Forall₂ (Step.Related (State.AgreesOn g.mentioned))
        (g.analyze { o with policy := p }).result.trace
        (g.analyze { o with policy := p' }).result.trace := by
  obtain ⟨hmachine, houtcome⟩ := (g.related_of_policies o h).run rfl rfl rfl
  dsimp only [SpecGraph.analyze, Report.ofFinished]
  rw [houtcome]
  refine ⟨rfl, rfl, hmachine.trace.imp fun _ _ hstep => ?_⟩
  exact { hstep with state := hstep.state.toAgreesOn }

def tableLookup : String := "beqz c, D\nload x, k\nD: store x, p"

def tableLookupGraph : SpecGraph :=
  (SpecGraph.buildSource tableLookup {}).result.toOption.getD .empty

def tableLookupPolicy : Policy := Policy.empty.setCell "k" .high

/-- The policy with a register and a cell that the program does not mention. -/
def wordyPolicy : Policy := (tableLookupPolicy.setReg "spare" .top).setCell "q" .low

theorem analyze_of_policies_agree_wordy :
    (∀ loc ∈ tableLookupGraph.mentioned, wordyPolicy.level? loc = tableLookupPolicy.level? loc) ∧
      (tableLookupGraph.analyze { policy := tableLookupPolicy }).result.verdict = .violation ∧
      (tableLookupGraph.analyze { policy := wordyPolicy }).result.verdict = .violation ∧
      List.Forall₂ (Step.Related (State.AgreesOn tableLookupGraph.mentioned))
        (tableLookupGraph.analyze { policy := tableLookupPolicy }).result.trace
        (tableLookupGraph.analyze { policy := wordyPolicy }).result.trace := by
  have hagree : ∀ loc ∈ tableLookupGraph.mentioned,
      wordyPolicy.level? loc = tableLookupPolicy.level? loc := by decide +kernel
  have hverdict : (tableLookupGraph.analyze { policy := tableLookupPolicy }).result.verdict =
      .violation := by decide +kernel
  obtain ⟨hsame, -, htrace⟩ :=
    analyze_of_policies_agree tableLookupGraph {} tableLookupPolicy wordyPolicy hagree
  exact ⟨hagree, hverdict, hsame.trans hverdict, htrace⟩

end Mispredict
