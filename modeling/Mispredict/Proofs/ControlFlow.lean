/-
  The control flow of a program, and of the graphs that are built from it.

  `Program.successors` says to which instructions execution can go on from an instruction. In
  a graph that is built, the node with number `pc` below the length of the program is the
  committed node of the instruction at `pc`, and committed links lead from it exactly to its
  successors (`FlowOf`).

  Program counters are machine integers, of which the negative ones are for markers. A text
  that fits into memory has too few instructions for them to run out (`fits_of_parse`).
-/
import Mathlib.Logic.Relation
import Mispredict.Proofs.Flow
import Mispredict.Proofs.Invention
import Mispredict.Proofs.Language

namespace Mispredict

open MuAsm (Instr Program Entry Expr Jump)

namespace MuAsm

/-- Where execution can go on after the instruction, which is at `pc`. -/
def Instr.goesTo (pc : Nat) : Instr → List Nat
  | .jmp _ (.pc target) => [target]
  | .jmp _ _ => []
  | .beqz _ _ (some taken) => [taken, pc + 1]
  | .beqz _ _ none => []
  | _ => [pc + 1]

namespace Program

/-- The program counters inside the program to which execution can go on from `pc`. -/
def successors (p : Program) (pc : Nat) : List Nat :=
  match p.instr? pc with
  | some i => (i.goesTo pc).filter (· < p.length)
  | none => []

variable {p : Program} {pc x : Nat}

theorem mem_successors : x ∈ p.successors pc ↔
    ∃ i, p.instr? pc = some i ∧ x ∈ i.goesTo pc ∧ x < p.length := by
  rw [successors]
  cases p.instr? pc <;> simp

theorem within?_eq_some_iff : p.within? pc = some x ↔ pc = x ∧ x < p.length := by
  rw [within?]
  split
  · next h =>
    rw [Option.some.injEq]
    exact ⟨fun heq => ⟨heq, heq ▸ h⟩, And.left⟩
  · next h =>
    simp only [reduceCtorEq, false_iff, not_and]
    rintro rfl
    exact h

/-- Every entry has its place in the program as its program counter. -/
def Numbered (p : Program) : Prop := ∀ pc e, p.entry? pc = some e → e.pc = pc

theorem instr?_eq_some {e : Entry} (he : p.entry? pc = some e) : p.instr? pc = some e.instr := by
  rw [instr?, he, Option.map_some]

theorem lt_of_instr? {i : Instr} (h : p.instr? pc = some i) : pc < p.length := by
  obtain ⟨e, he, -⟩ := Option.map_eq_some_iff.1 h
  exact (List.getElem?_eq_some_iff.1 he).1

theorem branchTarget_eq_ok {taken : Nat} (h : p.branchTarget pc = .ok taken) :
    ∃ cond label, p.instr? pc = some (.beqz cond label (some taken)) := by
  unfold branchTarget at h
  split at h
  · cases h
  · next e he =>
    split at h
    · next cond label target hinstr =>
      split at h
      · cases h
        exact ⟨cond, label, by rw [instr?, he, Option.map_some, hinstr]⟩
      · cases h
    · cases h
    · cases h

theorem jumpTarget_eq_ok {target : Expr} {resolved : Jump} {n : Nat}
    (h : p.jumpTarget pc target resolved = .ok n) : resolved = .pc n := by
  unfold jumpTarget at h
  split at h
  · split at h
    · cases h
      rfl
    · cases h
  · cases h

/-- A branch goes on where it is taken, and where it is not. -/
theorem mem_successors_of_branchTarget {taken : Nat} (h : p.branchTarget pc = .ok taken) :
    x ∈ p.successors pc ↔ p.within? taken = some x ∨ p.next? pc = some x := by
  obtain ⟨cond, label, hinstr⟩ := branchTarget_eq_ok h
  rw [mem_successors, next?_of_lt (lt_of_instr? hinstr), within?_eq_some_iff, within?_eq_some_iff]
  constructor
  · rintro ⟨i, hi, hx, hlt⟩
    cases hinstr.symm.trans hi
    rcases List.mem_pair.1 hx with rfl | rfl
    · exact .inl ⟨rfl, hlt⟩
    · exact .inr ⟨rfl, hlt⟩
  · rintro (⟨rfl, hlt⟩ | ⟨rfl, hlt⟩)
    · exact ⟨_, hinstr, List.mem_cons_self, hlt⟩
    · exact ⟨_, hinstr, List.mem_cons_of_mem _ List.mem_cons_self, hlt⟩

theorem lt_of_mem_successors (h : x ∈ p.successors pc) : pc < p.length ∧ x < p.length := by
  obtain ⟨i, hi, -, hx⟩ := mem_successors.1 h
  exact ⟨lt_of_instr? hi, hx⟩

/-! ## Committed and mispredicted paths -/

/-- Committed execution can come to the instruction at `pc`. -/
def Reaches (p : Program) (pc : Nat) : Prop :=
  0 < p.length ∧ Relation.ReflTransGen (fun a x => x ∈ p.successors a) 0 pc

/-- Execution can pass from the instruction at `pc` to that at `x` on a mispredicted path too. -/
def Passes (p : Program) (pc x : Nat) : Prop := x ∈ p.successors pc ∧ p.instr? pc ≠ some .spbarr

instance (p : Program) : DecidableRel p.Passes := fun pc x =>
  inferInstanceAs (Decidable (x ∈ p.successors pc ∧ p.instr? pc ≠ some .spbarr))

/-- The instruction at `pc` is a branch. -/
def IsBranchAt (p : Program) (pc : Nat) : Prop := ∃ i, p.instr? pc = some i ∧ i.isBranch = true

/-- Speculation on the branch at `b` can follow the instructions at `qs`. -/
structure IsMispredicted (p : Program) (b : Nat) (qs : List Nat) : Prop where
  reached : p.Reaches b
  branch : p.IsBranchAt b
  chain : (b :: qs).IsChain p.Passes

theorem IsBranchAt.passable (h : p.IsBranchAt pc) : p.instr? pc ≠ some .spbarr := by
  obtain ⟨i, hi, hbranch⟩ := h
  rw [hi]
  rintro ⟨⟩
  cases hbranch

theorem Passes.isBarrier {e : Entry} (h : p.Passes pc x) (he : p.entry? pc = some e) :
    e.instr.isBarrier = false := by
  have hpass := h.2
  rw [instr?, he, Option.map_some] at hpass
  cases hinstr : e.instr with
  | spbarr => exact absurd (congrArg some hinstr) hpass
  | _ => rfl

theorem Reaches.lt (h : p.Reaches pc) : pc < p.length := by
  obtain ⟨hpos, h⟩ := h
  cases h with
  | refl => exact hpos
  | tail _ hx => exact (lt_of_mem_successors hx).2

theorem Reaches.step (h : p.Reaches pc) (hx : x ∈ p.successors pc) : p.Reaches x :=
  ⟨h.1, h.2.tail hx⟩

namespace IsMispredicted

variable {b q : Nat} {qs : List Nat}

theorem nil (hb : p.Reaches b) (hbranch : p.IsBranchAt b) : p.IsMispredicted b [] :=
  ⟨hb, hbranch, .singleton b⟩

/-- A path goes on from its last instruction. -/
theorem concat (h : p.IsMispredicted b qs) (hq : (b :: qs).getLast? = some q) (hx : p.Passes q x) :
    p.IsMispredicted b (qs ++ [x]) := by
  refine ⟨h.reached, h.branch, ?_⟩
  rw [← List.cons_append]
  refine h.chain.append (.singleton x) ?_
  rintro q' hq' x' ⟨rfl⟩
  cases hq.symm.trans hq'
  exact hx

theorem init (h : p.IsMispredicted b (qs ++ [x])) :
    p.IsMispredicted b qs ∧ ∃ q, (b :: qs).getLast? = some q ∧ p.Passes q x := by
  have hchain := h.chain
  rw [← List.cons_append, List.isChain_append] at hchain
  obtain ⟨hinit, -, hlast⟩ := hchain
  refine ⟨⟨h.reached, h.branch, hinit⟩, (b :: qs).getLast (List.cons_ne_nil _ _), ?_, ?_⟩
  · exact List.getLast?_eq_some_getLast _
  · exact hlast _ (List.getLast?_eq_some_getLast _) x rfl

/-- Committed execution comes wherever mispredicted paths come. -/
theorem reaches (h : p.IsMispredicted b qs) (hq : (b :: qs).getLast? = some q) : p.Reaches q := by
  induction qs using List.reverseRecOn generalizing q with
  | nil =>
    cases hq
    exact h.reached
  | append_singleton qs x ih =>
    obtain ⟨hinit, q', hq', hx⟩ := h.init
    rw [← List.cons_append, List.getLast?_concat] at hq
    cases hq
    exact (ih hinit hq').step hx.1

end IsMispredicted

end Program

/-! ## Programs that fit into memory -/

/-- The text is not larger than memory can be: its bytes are numbered by machine integers. -/
def Addressable (source : String) : Prop := (source.utf8ByteSize : Int) ≤ Int64.maxValue.toInt

instance (source : String) : Decidable (Addressable source) :=
  inferInstanceAs (Decidable ((source.utf8ByteSize : Int) ≤ Int64.maxValue.toInt))

end MuAsm

namespace MuAsm.Program

/-- A line with an instruction is not empty. -/
theorem Reads.ne_nil {line : List Char} {l : Line} {i : Instr} (h : Reads line l)
    (hi : l.instr = some i) : line ≠ [] := by
  rintro rfl
  have hempty : Reads [] ⟨none, none⟩ :=
    ⟨[], [], .whole (by simp), .plain (by simp), .blank rfl⟩
  cases h.unique hempty
  cases hi

theorem length_instrsOf_le {lines : List (List Char)} {ls : List Line}
    (h : List.Forall₂ Reads lines ls) :
    2 * (instrsOf ls).length ≤ lines.flatten.length + lines.length := by
  unfold instrsOf
  induction h with
  | nil => exact le_rfl
  | @cons line l lines ls hread _ ih =>
    rw [List.flatten_cons, List.length_append, List.length_cons]
    cases hi : l.instr with
    | none =>
      simp only [List.filterMap_cons, hi]
      omega
    | some i =>
      have hpos := List.length_pos_iff.2 (hread.ne_nil hi)
      simp only [List.filterMap_cons, hi, List.length_cons]
      omega

/-- A program that is read has its entries numbered. -/
theorem numbered_of_parse {source : String} {p : Program} (h : parse source = .ok p) :
    p.Numbered := by
  have houtcome := outcome_parse source
  rw [h] at houtcome
  obtain ⟨ls, -, hbuilds⟩ := houtcome
  exact fun pc e he => (hbuilds.entries pc e he).1

theorem parse_eq_ok {source : String} (h : (parse source).toOption.isSome = true) :
    parse source = .ok ((parse source).toOption.getD ⟨[], ∅⟩) := by
  cases hparse : parse source with
  | ok p => rfl
  | error e =>
    rw [hparse] at h
    cases h

/-- There are machine integers for all instructions, and for a pair of markers for each. -/
def Fits (p : Program) : Prop := (2 * p.length : Int) ≤ Int64.maxValue.toInt + 1

theorem Fits.pc_le {p : Program} {pc : Nat} (h : p.Fits) (hpc : pc < p.length) :
    (pc : Int) ≤ Int64.maxValue.toInt := by
  unfold Fits at h
  omega

/-- Every instruction of a text takes up two bytes, the last one perhaps one. -/
theorem fits_of_parse {source : String} {p : Program} (h : parse source = .ok p)
    (hsource : Addressable source) : p.Fits := by
  have houtcome := outcome_parse source
  rw [h] at houtcome
  obtain ⟨ls, hls, hbuilds⟩ := houtcome
  have hlines := length_instrsOf_le hls.reads
  have hchars := Text.length_flatten_linesFrom_le [] source.toList
  have hbytes := Text.length_le_byteLength source.toList
  rw [Text.byteLength_ofList, String.ofList_toList] at hbytes
  rw [Text.lines, ← map_snd_numbered, List.length_map, ← hbuilds.length] at hlines
  rw [List.length_nil] at hchars
  unfold Addressable at hsource
  unfold Fits
  omega

end MuAsm.Program

/-! ## Program counters of nodes -/

namespace SpecGraph

theorem mem_branches_iff {p : Program} (hp : p.Numbered) {pc : Nat} :
    pc ∈ Draft.branches p ↔ p.IsBranchAt pc := by
  rw [Draft.branches, List.mem_map]
  constructor
  · rintro ⟨e, he, rfl⟩
    obtain ⟨he, hbranch⟩ := List.mem_filter.1 he
    obtain ⟨i, hi⟩ := List.mem_iff_getElem?.1 he
    have hentry : p.entry? e.pc = some e := by
      rw [hp i e hi]
      exact hi
    exact ⟨e.instr, by rw [Program.instr?, hentry, Option.map_some], hbranch⟩
  · rintro ⟨i, hi, hbranch⟩
    obtain ⟨e, he, rfl⟩ := Option.map_eq_some_iff.1 hi
    exact ⟨e, List.mem_filter.2 ⟨List.mem_of_getElem? he, hbranch⟩, hp pc e he⟩

theorem toInt_ofNat_of_le {n : Nat} (h : (n : Int) ≤ Int64.maxValue.toInt) :
    (Int64.ofNat n).toInt = n := by
  have hmax : Int64.maxValue.toInt = 9223372036854775807 := by decide
  exact Int64.toInt_ofNat_of_lt (by omega)

/-- The program counter of an instruction is not negative. -/
theorem not_ofNat_lt_zero {n : Nat} (h : (n : Int) ≤ Int64.maxValue.toInt) :
    ¬ Int64.ofNat n < 0 := by
  rw [Int64.lt_iff_toInt_lt, toInt_ofNat_of_le h]
  simp

/-- The program counters of markers are negative. -/
theorem neg_ofNat_lt_zero {n : Nat} (h : (2 * n + 1 : Int) ≤ Int64.maxValue.toInt) :
    -(2 * Int64.ofNat n + 1) < 0 ∧ -(2 * Int64.ofNat n + 2) < 0 := by
  have hmax : Int64.maxValue.toInt = 9223372036854775807 := by decide
  have htoInt : (Int64.ofNat n).toInt = n := Int64.toInt_ofNat_of_lt (by omega)
  constructor
  all_goals
    rw [Int64.lt_iff_toInt_lt, Int64.toInt_neg, Int64.toInt_add, Int64.toInt_mul, htoInt]
    simp [Int.bmod]
    omega

/-! ## Committed links -/

namespace Draft

variable {p : Program} {d d' d₀ : Draft} {e : Entry}

/-- The links of the control flow of a program. -/
def FlowLink (p : Program) (e : Edge) : Prop :=
  ∃ pc x label, x ∈ p.successors pc ∧ e = ⟨committedId pc, committedId x, ⟨.committed, label⟩⟩

theorem linked_of_connectPc {source : String} {pc : Option Nat} {kind : LinkKind}
    {label : Option String} (h : d.connectPc source pc kind label = .ok d') {x : Nat}
    (hx : pc = some x) : d'.graph.Linked source (committedId x) := by
  subst hx
  exact linked_of_connect h

/-- An instruction gets links to its successors and no others. -/
theorem flow_of_addFlow (he : p.entry? e.pc = some e)
    (hd : d.graph.Indexed) (h : addFlow p d e = .ok d') :
    Adds (FlowNode p) (FlowLink p) d d' ∧
      ∀ x ∈ p.successors e.pc, d'.graph.Linked (committedId e.pc) (committedId x) := by
  have hinstr : p.instr? e.pc = some e.instr := Program.instr?_eq_some he
  have hlt := Program.lt_of_instr? hinstr
  -- one link, to the only place where execution can go on
  have single : ∀ {target : Nat} {label : Option String}, e.instr.goesTo e.pc = [target] →
      d.connectPc (committedId e.pc) (p.within? target) .committed label = .ok d' →
      Adds (FlowNode p) (FlowLink p) d d' ∧
        ∀ x ∈ p.successors e.pc, d'.graph.Linked (committedId e.pc) (committedId x) := by
    intro target label htarget h
    have hsucc : ∀ x, x ∈ p.successors e.pc ↔ p.within? target = some x := by
      intro x
      rw [Program.mem_successors, Program.within?_eq_some_iff]
      constructor
      · rintro ⟨i, hi, hx, hx'⟩
        cases hinstr.symm.trans hi
        rw [htarget, List.mem_singleton] at hx
        exact ⟨hx.symm, hx'⟩
      · rintro ⟨rfl, hx'⟩
        exact ⟨_, hinstr, by rw [htarget]; exact List.mem_singleton.2 rfl, hx'⟩
    exact ⟨adds_connectPc (fun x hx => ⟨e.pc, x, label, (hsucc x).2 hx, rfl⟩) h,
      fun x hx => linked_of_connectPc h ((hsucc x).1 hx)⟩
  unfold addFlow at h
  dsimp only at h
  split at h
  · next target resolved heq =>
    obtain ⟨n, hn, h⟩ := bind_eq_ok_iff.1 h
    exact single (by rw [heq, Program.jumpTarget_eq_ok hn, Instr.goesTo]) h
  · obtain ⟨taken, htaken, h⟩ := bind_eq_ok_iff.1 h
    obtain ⟨d₁, h₁, h⟩ := bind_eq_ok_iff.1 h
    have hsucc := fun x => Program.mem_successors_of_branchTarget (x := x) htaken
    have hadds₁ : Adds (FlowNode p) (FlowLink p) d d₁ :=
      adds_connectPc (fun x hx => ⟨e.pc, x, _, (hsucc x).2 (.inl hx), rfl⟩) h₁
    have hadds : Adds (FlowNode p) (FlowLink p) d₁ d' :=
      adds_connectPc (fun x hx => ⟨e.pc, x, _, (hsucc x).2 (.inr hx), rfl⟩) h
    refine ⟨hadds₁.trans hadds, fun x hx => ?_⟩
    rcases (hsucc x).1 hx with hx | hx
    · exact (linked_of_connectPc h₁ hx).of_grows (hadds₁.graph.indexed hd) hadds.graph
    · exact linked_of_connectPc h hx
  · next hjmp hbeqz =>
    rw [Program.next?_of_lt hlt] at h
    refine single ?_ h
    cases heq : e.instr with
    | jmp target resolved => exact absurd heq (hjmp target resolved)
    | beqz cond label target => exact absurd heq (hbeqz cond label target)
    | _ => rfl

theorem adds_committed_flow (hp : p.Numbered) (h : committed p = .ok d₀) :
    Adds (FlowNode p) (FlowLink p) empty d₀ ∧
      ∀ pc x, x ∈ p.successors pc → d₀.graph.Linked (committedId pc) (committedId x) := by
  obtain ⟨d, hd, h⟩ := bind_eq_ok_iff.1 h
  have hnodes : Adds (FlowNode p) (FlowLink p) empty d :=
    Adds.foldlM (fun n hn _ _ => adds_addNode hn) hd
  have hentry : ∀ {e}, e ∈ p.entries → p.entry? e.pc = some e := by
    intro e he
    obtain ⟨i, hi⟩ := List.mem_iff_getElem?.1 he
    rw [hp i e hi]
    exact hi
  -- the links of each instruction are added to those of the instructions before it
  suffices hfold : ∀ (es : List Entry) (d : Draft), d.graph.Indexed → (∀ e ∈ es, e ∈ p.entries) →
      es.foldlM (addFlow p) d = .ok d₀ → Adds (FlowNode p) (FlowLink p) d d₀ ∧
        ∀ e ∈ es, ∀ x ∈ p.successors e.pc, d₀.graph.Linked (committedId e.pc) (committedId x) by
    obtain ⟨hadds, hlinked⟩ :=
      hfold p.entries d (hnodes.graph.indexed Indexed.empty) (fun _ he => he) h
    refine ⟨hnodes.trans hadds, fun pc x hx => ?_⟩
    obtain ⟨i, hi, -⟩ := Program.mem_successors.1 hx
    obtain ⟨e, he, -⟩ := Option.map_eq_some_iff.1 hi
    cases hp pc e he
    exact hlinked e (List.mem_of_getElem? he) x hx
  intro es
  induction es with
  | nil =>
    intro d _ _ h
    cases h
    exact ⟨.refl, fun _ he => absurd he List.not_mem_nil⟩
  | cons e es ih =>
    intro d hindexed hes h
    rw [List.foldlM_cons] at h
    obtain ⟨d₁, h₁, h⟩ := bind_eq_ok_iff.1 h
    obtain ⟨hadds₁, hlinked₁⟩ := flow_of_addFlow (hentry (hes e List.mem_cons_self)) hindexed h₁
    have hindexed₁ := hadds₁.graph.indexed hindexed
    obtain ⟨hadds, hlinked⟩ := ih d₁ hindexed₁ (fun e' he' => hes e' (List.mem_cons_of_mem _ he')) h
    refine ⟨hadds₁.trans hadds, fun e' he' x hx => ?_⟩
    rcases List.mem_cons.1 he' with rfl | he'
    · exact (hlinked₁ x hx).of_grows hindexed₁ hadds.graph
    · exact hlinked e' he' x hx

end Draft

/-- The graph is the control flow of the program: it has a node for each instruction, under the
    program counter, and a link from each instruction to each of its successors. -/
structure FlowOf (p : Program) (c : SpecGraph) : Prop where
  numbered : p.Numbered
  node : ∀ i, c.node? i = (p.entry? i).map Draft.committedNode
  edge : ∀ i j, (∃ link, c.graph.edge? i j = some link) ↔ j ∈ p.successors i

theorem flowOf_committed {p : Program} {d₀ : Draft} (hp : p.Numbered)
    (h : Draft.committed p = .ok d₀) : d₀.graph.FlowOf p := by
  have hindexed := (Draft.isFlow_committed h).indexed
  have hnode : ∀ i, d₀.graph.node? i = (p.entry? i).map Draft.committedNode := by
    intro i
    rw [← hindexed.getElem?_nodes, Draft.nodes_committed h, List.getElem?_map]
    rfl
  -- ids lead to the program counters they are made of
  have hindex : ∀ {pc i}, d₀.graph.index? (committedId pc) = some i → i = pc := by
    intro pc i hi
    obtain ⟨n, hn, hid⟩ := (hindexed.named _ _).1 hi
    rw [hnode] at hn
    obtain ⟨e, he, rfl⟩ := Option.map_eq_some_iff.1 hn
    rw [← committedId_inj.1 hid]
    exact (hp i e he).symm
  obtain ⟨hadds, hlinked⟩ := Draft.adds_committed_flow hp h
  refine ⟨hp, hnode, fun i j => ⟨?_, fun hj => ?_⟩⟩
  · rintro ⟨link, hedge⟩
    rcases hadds.graph.edge?_cases Indexed.empty hedge with hedge | ⟨e, he, -, hs, ht⟩
    · cases hedge
    · obtain ⟨pc, x, label, hx, rfl⟩ := he
      cases hindex hs
      cases hindex ht
      exact hx
  · obtain ⟨head, tail, link, hs, ht, hedge⟩ := hlinked i j hj
    cases hindex hs
    cases hindex ht
    exact ⟨link, hedge⟩

theorem exists_link_of_linked {g : SpecGraph} (hg : g.Indexed) {source target : String}
    {i : Nat} (h : g.Linked source target) (hi : g.index? source = some i) :
    ∃ l ∈ g.linksFrom i, l.target.id = target := by
  obtain ⟨head, tail, link, hhead, htail, hedge⟩ := h
  cases hi.symm.trans hhead
  obtain ⟨n, hn, -⟩ := (hg.named _ _).1 hhead
  obtain ⟨n', hn', hid⟩ := (hg.named _ _).1 htail
  exact ⟨⟨i, n, tail, n', link⟩, mem_linksFrom_iff.2 ⟨rfl, hedge, hn, hn'⟩, hid⟩

theorem exists_parse_of_buildSource {source : String} {o : BuildOptions} {g : SpecGraph}
    (h : (buildSource source o).result = .ok g) : ∃ p, Program.parse source = .ok p := by
  unfold buildSource at h
  split at h
  · cases h
  · next p hp => exact ⟨p, hp⟩

theorem exists_draft_of_parse {source : String} {o : BuildOptions} {g : SpecGraph} {p : Program}
    (hp : Program.parse source = .ok p) (h : (buildSource source o).result = .ok g) :
    ∃ d, Draft.ofProgram p o = .ok d ∧ d.graph = g := by
  unfold buildSource at h
  rw [hp] at h
  dsimp only [build] at h
  split at h
  · cases h
  · next d hd =>
    cases h
    exact ⟨d, hd, rfl⟩

namespace Stages

variable {p : Program} {N : Node → Prop} {E : Edge → Prop} {c g : SpecGraph} {i pc x : Nat}
  {n : Node} (h : Stages p N E c g) (hc : c.FlowOf p)

include h hc

/-- The node of an instruction has its program counter as number. -/
theorem exists_node (hpc : pc < p.length) :
    ∃ e, p.entry? pc = some e ∧ g.node? pc = some (Draft.committedNode e) := by
  have he : p.entry? pc = some (p.entries.get ⟨pc, hpc⟩) := List.getElem?_eq_getElem hpc
  refine ⟨_, he, (h.core.node.1 ?_).1⟩
  rw [hc.node, he]
  rfl

theorem index?_committedId (hpc : pc < p.length) : g.index? (committedId pc) = some pc := by
  obtain ⟨e, he, hn⟩ := h.exists_node hc hpc
  rw [← hc.numbered pc e he]
  have hid := h.core.indexed.index?_id hn
  rw [← hc.numbered pc e he] at hid
  exact hid

theorem eq_of_committedId (hx : x < p.length) (hn : g.node? i = some n)
    (hid : n.id = committedId x) : i = x := by
  have hi := h.core.indexed.index?_id hn
  rw [hid, h.index?_committedId hc hx] at hi
  exact (Option.some.inj hi).symm

/-- A committed link leads to a successor. -/
theorem mem_successors_of_link {l : Located} (hl : l ∈ g.linksFrom i)
    (hkind : l.link.kind = .committed) : l.tail ∈ p.successors i := by
  obtain ⟨rfl, hedge, -⟩ := mem_linksFrom_iff.1 (h.core.mem_linksFrom hl hkind)
  exact (hc.edge l.head l.tail).1 ⟨l.link, hedge⟩

theorem exists_link (hx : x ∈ p.successors pc) :
    ∃ l ∈ g.linksFrom pc, l.link.kind = .committed ∧ l.tail = x ∧ l.target.endsContext = false := by
  obtain ⟨link, hedge⟩ := (hc.edge pc x).2 hx
  obtain ⟨hpc, hx⟩ := h.core.flow.indexed.joined _ _ _ hedge
  obtain ⟨n, hn⟩ := h.core.flow.indexed.exists_node hpc
  obtain ⟨n', hn'⟩ := h.core.flow.indexed.exists_node hx
  have hl : (⟨pc, n, x, n', link⟩ : Located) ∈ c.linksFrom pc :=
    mem_linksFrom_iff.2 ⟨rfl, hedge, hn, hn'⟩
  rw [h.core.linksFrom_eq, List.mem_filter, beq_iff_eq] at hl
  refine ⟨_, hl.1, hl.2, rfl, ?_⟩
  rw [Node.endsContext, h.core.unmarked hn']

/-- Analysis starts at the first instruction, unless another entry is asked for. -/
theorem entryKey_eq_first {o : Options} (ho : o.entryNode = none) (hpos : 0 < p.length) :
    (Setup.of g o).entryKey = .ok (some ⟨0, .committed, []⟩) := by
  obtain ⟨e, he, hn⟩ := h.exists_node hc hpos
  have hid : (Draft.committedNode e).id = "n0" := by
    rw [show "n0" = committedId 0 from rfl, ← hc.numbered 0 e he]
    rfl
  have hfind : g.find? "n0" = some (0, Draft.committedNode e) :=
    h.core.indexed.find?_eq_some_iff.2 ⟨hn, hid⟩
  have hentry : g.entry? = some (0, Draft.committedNode e) := by
    unfold entry?
    rw [hfind]
  unfold Setup.entryKey
  simp only [Setup.of, ho, hentry]
  rfl

theorem entryKey_eq_first_of_some {o : Options} (ho : o.entryNode = none) {entry : Key}
    (hentry : (Setup.of g o).entryKey = .ok (some entry)) :
    0 < p.length ∧ entry = ⟨0, .committed, []⟩ := by
  have henters : o.EntersCommitted g := by
    intro id hid
    cases ho.symm.trans hid
  have hkey := hentry
  rw [← h.core.entryKey_eq henters] at hkey
  obtain ⟨-, -, n, hn⟩ := h.core.exists_node_of_entryKey hkey
  rw [hc.node] at hn
  obtain ⟨e, he, -⟩ := Option.map_eq_some_iff.1 hn
  have hpos : 0 < p.length := (Nat.zero_le _).trans_lt (List.getElem?_eq_some_iff.1 he).1
  refine ⟨hpos, ?_⟩
  rw [h.entryKey_eq_first hc ho hpos] at hentry
  exact (Option.some.inj (Except.ok.inj hentry)).symm

end Stages

/-- The committed points of an analysis are at instructions, outside of all contexts. -/
theorem Stages.instr_of_stores {p : Program} {N : Node → Prop} {E : Edge → Prop}
    {c g : SpecGraph} {o : Options} {entry k : Key} {st : State} (h : Stages p N E c g)
    (hc : c.FlowOf p) (hvalid : g.validate = .ok ())
    (hentry : (Setup.of c o).entryKey = .ok (some entry))
    (hst : (Setup.of g o).Stores entry k st) (hmode : k.mode = .committed) :
    k.frames = [] ∧ k.node < p.length := by
  obtain ⟨hk, n, hn⟩ := h.core.committed_of_stores hvalid hentry hst hmode
  rw [hc.node] at hn
  obtain ⟨e, he, -⟩ := Option.map_eq_some_iff.1 hn
  exact ⟨by rw [hk], (List.getElem?_eq_some_iff.1 he).1⟩

/-- Committed execution goes on to the successors of an instruction. -/
theorem Stages.mem_moves_successor {p : Program} {N : Node → Prop} {E : Edge → Prop}
    {c : SpecGraph} {s : Setup} {pc x : Nat} (h : Stages p N E c s.graph) (hc : c.FlowOf p)
    (hx : x ∈ p.successors pc) :
    (⟨x, .committed, []⟩, .full) ∈ s.moves ⟨pc, .committed, []⟩ := by
  obtain ⟨hpc, -⟩ := Program.lt_of_mem_successors hx
  obtain ⟨e, -, hn⟩ := h.exists_node hc hpc
  obtain ⟨l, hl, hkind, rfl, hend⟩ := h.exists_link hc hx
  rw [Setup.moves_of_committed (i := some e.instr) rfl hn rfl, List.mem_filterMap]
  exact ⟨l, hl, Setup.move?_routeOf_committed hkind hend⟩

end SpecGraph

theorem Setup.move?_routeOf_speculative {s : Setup} {k : Key} {l : SpecGraph.Located}
    {frames inner : List Frame} (hkind : l.link.kind = .speculative)
    (henter : s.enter? k.mode frames l.target = some inner) (hend : l.target.endsContext = false) :
    (s.routeOf k frames l).move? = some (⟨l.tail, .speculative, inner⟩, .full) := by
  have hthrough : s.through k frames l = .ok (⟨l.tail, .speculative, inner⟩, .full) := by
    rw [through, hkind]
    dsimp only
    rw [henter]
  rw [routeOf, hthrough]
  dsimp only
  rw [if_neg (by simp [hend])]
  rfl

end Mispredict
