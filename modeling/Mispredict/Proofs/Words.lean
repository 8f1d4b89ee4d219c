/-
  The numbers in graphs that are built are machine words.

  Nodes hold program counters, which lie in the program, and the numbers of contexts. For
  unrolled paths these are not bounded by the program, since a branch on a path opens two
  more contexts each time. But it does so at a node that is new, and so there are never more
  than two contexts for each node (`Counted`). A graph whose nodes fit into memory
  then has no number that does not fit into a word (`fitsWords_of_buildSource`), and what is
  found out about a source can be written and read back.
-/
import Mispredict.Proofs.Contexts
import Mispredict.Proofs.ReadBack

namespace Mispredict

open MuAsm (Instr Program Entry)

/-- The node is of one of so many contexts, opened by a branch of so many instructions. -/
structure Node.Within (n : Node) (size contexts : Nat) : Prop where
  origin : ∀ o ∈ n.origin, o.branchPc < size ∧ o.context < contexts
  marker : ∀ m ∈ n.marker, m.context < contexts

theorem Node.Within.mono {n : Node} {size contexts contexts' : Nat} (h : n.Within size contexts)
    (hle : contexts ≤ contexts') : n.Within size contexts' :=
  ⟨fun o ho => ⟨(h.origin o ho).1, (h.origin o ho).2.trans_le hle⟩,
    fun m hm => (h.marker m hm).trans_le hle⟩

namespace SpecGraph

namespace Draft

variable {p : Program} {mode : SpeculationMode} {d d' : Draft} {w : Pending}
  {ws rest stack : List Pending} {slack window pc : Nat}

/-! ## Counting contexts -/

/-- Nodes and paths are of contexts that have been opened, and `slack` more could be opened without
    there being more than two for each node. -/
structure Counted (p : Program) (slack : Nat) (d : Draft) (stack : List Pending) : Prop where
  indexed : d.graph.Indexed
  nodes : ∀ n ∈ d.graph.nodes, n.Within p.length d.contexts
  pending : ∀ w ∈ stack, w.branchPc < p.length ∧ w.context < d.contexts
  room : d.contexts + slack ≤ 2 * d.graph.nodes.length

theorem Counted.stop (h : Counted p slack d (w :: rest)) (hs : Stops p mode d w d') :
    Counted p slack d' rest where
  indexed := hs.grows.indexed h.indexed
  nodes := by
    rw [hs.nodes, hs.contexts]
    exact h.nodes
  pending := by
    rw [hs.contexts]
    exact fun w' hw' => h.pending w' (List.mem_cons_of_mem _ hw')
  room := by
    rw [hs.nodes, hs.contexts]
    exact h.room

theorem Counted.lay {on : Onward} (h : Counted p slack d (w :: rest))
    (hl : Lays p mode d w pc on d') :
    Counted p slack d' (branchOff w pc (w.budget - 1) d.contexts on ++ rest) := by
  obtain ⟨e, he, hnodes⟩ := hl.nodes
  obtain ⟨hpc, -⟩ := List.getElem?_eq_some_iff.1 he
  obtain ⟨hbranch, hcontext⟩ := h.pending w List.mem_cons_self
  have hle : d.contexts ≤ d'.contexts := by
    rw [hl.contexts]
    exact Nat.le_add_right ..
  refine ⟨hl.grows.indexed h.indexed, fun n hn => ?_, fun w' hw' => ?_, ?_⟩
  · rw [hnodes] at hn
    rcases List.mem_append.1 hn with hn | hn
    · exact (h.nodes n hn).mono hle
    · rw [List.mem_singleton.1 hn]
      refine ⟨?_, fun m hm => (by cases hm)⟩
      rintro o ⟨⟩
      exact ⟨hbranch, hcontext.trans_le hle⟩
  · rcases List.mem_append.1 hw' with hw' | hw'
    · rw [hl.contexts]
      cases on with
      | ends => cases hw'
      | continues pc' =>
        rw [List.mem_singleton.1 hw']
        exact ⟨hbranch, hcontext⟩
      | forks taken next =>
        rcases List.mem_pair.1 hw' with rfl | rfl
        · exact ⟨hpc, Nat.lt_succ_self _⟩
        · exact ⟨hpc, Nat.lt_add_of_pos_right Nat.two_pos⟩
    · obtain ⟨hbranch', hcontext'⟩ := h.pending w' (List.mem_cons_of_mem _ hw')
      exact ⟨hbranch', hcontext'.trans_le hle⟩
  · -- the new node makes up for the two contexts that may be opened at it
    have hopened : on.opened ≤ 2 := by cases on <;> simp [Onward.opened]
    have hroom := h.room
    rw [hnodes, List.length_append, List.length_singleton, hl.contexts]
    omega

theorem Counted.unroll (h : Counted p slack d stack) (hunroll : unroll p mode d stack = .ok d') :
    Counted p slack d' [] := by
  refine unroll_invariant (I := Counted p slack) (fun h hfollow => ?_) h hunroll
  rcases follow_cases h.indexed hfollow with ⟨rfl, hs⟩ | ⟨pc, on, rfl, hl⟩
  · exact h.stop hs
  · exact h.lay hl

theorem Counted.start (h : Counted p (slack + 1) d []) (hpc : pc < p.length)
    (window speculated resume : Nat) :
    Counted p slack ⟨d.graph, d.contexts + 1⟩
      [firstPending p pc window d.contexts speculated resume] where
  indexed := h.indexed
  nodes n hn := (h.nodes n hn).mono (Nat.le_succ _)
  pending := by
    intro w hw
    rw [List.mem_singleton.1 hw]
    exact ⟨hpc, Nat.lt_succ_self _⟩
  room := by
    have hroom := h.room
    dsimp only
    omega

theorem Counted.addUnrolled (h : Counted p (slack + 2) d []) (hpc : pc < p.length)
    (hadd : d.addUnrolled p mode window pc = .ok d') : Counted p slack d' [] := by
  obtain ⟨taken, -, hadd⟩ := bind_eq_ok_iff.1 hadd
  obtain ⟨d₁, h₁, hadd⟩ := bind_eq_ok_iff.1 hadd
  have hfirst := (h.start hpc window taken (pc + 1)).unroll h₁
  exact (hfirst.start hpc window (pc + 1) taken).unroll hadd

theorem Counted.foldlM {pcs : List Nat} (h : Counted p (slack + 2 * pcs.length) d [])
    (hpcs : ∀ pc ∈ pcs, pc < p.length)
    (hfold : pcs.foldlM (fun d pc => d.addUnrolled p mode window pc) d = .ok d') :
    Counted p slack d' [] := by
  induction pcs generalizing d with
  | nil =>
    cases hfold
    exact h
  | cons pc pcs ih =>
    rw [List.foldlM_cons] at hfold
    obtain ⟨d₁, h₁, hfold⟩ := bind_eq_ok_iff.1 hfold
    rw [List.length_cons, Nat.mul_succ, ← Nat.add_assoc] at h
    exact ih (h.addUnrolled (hpcs pc List.mem_cons_self) h₁)
      (fun pc hpc => hpcs pc (List.mem_cons_of_mem _ hpc)) hfold

theorem length_branches_le (p : Program) : (branches p).length ≤ p.length := by
  rw [branches, List.length_map]
  exact List.length_filter_le ..

theorem counted_committed (h : committed p = .ok d) : Counted p (2 * (branches p).length) d [] where
  indexed := (adds_committed h).graph.indexed .empty
  nodes n hn := by
    rw [nodes_committed h] at hn
    obtain ⟨e, -, rfl⟩ := List.mem_map.1 hn
    exact ⟨fun o ho => (by cases ho), fun m hm => by cases hm⟩
  pending w hw := by cases hw
  room := by
    have hbranches := length_branches_le p
    rw [(adds_committed h).contexts, nodes_committed h, List.length_map, empty]
    dsimp only [Program.length] at hbranches ⊢
    omega

/-- The program counters and contexts in a graph are bounded by its own size. -/
theorem within_of_ofProgram {o : BuildOptions} (hp : p.Numbered) (h : Draft.ofProgram p o = .ok d) :
    p.length ≤ d.graph.numNodes ∧
      ∀ n ∈ d.graph.nodes, n.Within p.length (2 * d.graph.numNodes) := by
  obtain ⟨d₀, forks, hd₀, hgrows⟩ := exists_stages h
  obtain ⟨ns, hns, hspec⟩ := hgrows.nodes_eq ((adds_committed hd₀).graph.indexed .empty)
  rw [nodes_committed hd₀] at hns
  have hsize : p.length ≤ d.graph.numNodes := by
    rw [← Indexed.length_nodes, hns, List.length_append, List.length_map]
    exact Nat.le_add_right ..
  have hlt : ∀ pc ∈ branches p, pc < p.length := by
    intro pc hpc
    obtain ⟨i, hi, -⟩ := (mem_branches_iff hp).1 hpc
    exact Program.lt_of_instr? hi
  refine ⟨hsize, fun n hn => ?_⟩
  cases hlayout : o.layout with
  | light =>
    rw [hlayout] at hspec
    rw [hns] at hn
    rcases List.mem_append.1 hn with hn | hn
    · obtain ⟨e, -, rfl⟩ := List.mem_map.1 hn
      exact ⟨fun o ho => (by cases ho), fun m hm => by cases hm⟩
    · -- a marker has the number of its branch for context
      have hcontext : ∀ {context pc : Nat}, (branches p)[context]? = some pc →
          pc < p.length ∧ context < 2 * d.graph.numNodes := by
        intro context pc hbranch
        obtain ⟨hcontext, -⟩ := List.getElem?_eq_some_iff.1 hbranch
        have hbranches := length_branches_le p
        exact ⟨hlt pc (List.mem_of_getElem? hbranch), by omega⟩
      cases hspec n hn with
      | begins branch | ends branch =>
        constructor
        · rintro _ ⟨⟩
          exact hcontext branch
        · rintro _ ⟨⟩
          exact (hcontext branch).2
  | unrolled =>
    obtain ⟨d₀, hd₀, hfold⟩ := exists_foldlM_unrolled hlayout h
    have hcounted := counted_committed hd₀
    rw [← Nat.zero_add (2 * _)] at hcounted
    have hcounted := hcounted.foldlM hlt hfold
    refine (hcounted.nodes n hn).mono ?_
    rw [← Indexed.length_nodes]
    exact hcounted.room

end Draft

/-! ## Words -/

/-- The nodes fit into memory: there are no more of them than bytes, which are numbered by machine
    integers. -/
def Addressable (g : SpecGraph) : Prop := (g.numNodes : Int) ≤ Int64.maxValue.toInt

instance (g : SpecGraph) : Decidable g.Addressable :=
  inferInstanceAs (Decidable ((g.numNodes : Int) ≤ Int64.maxValue.toInt))

end SpecGraph

/-- The targets of a program without faults are in the program, or just after it. -/
theorem MuAsm.Program.Faultless.words_le {p : Program} (hp : p.Faultless) {e : Entry}
    (he : e ∈ p.entries) : ∀ n ∈ e.instr.words, n ≤ p.length := by
  intro n hn
  have hfault := hp e he
  unfold fault? at hfault
  cases hinstr : e.instr with
  | beqz cond target resolved =>
    cases resolved with
    | none => simp [hinstr, Instr.words] at hn
    | some targetPc =>
      simp only [hinstr, Instr.words, List.mem_singleton] at hn hfault
      subst hn
      by_contra hle
      simp [hle] at hfault
  | jmp target resolved =>
    cases resolved with
    | pc targetPc =>
      simp only [hinstr, Instr.words, List.mem_singleton] at hn hfault
      subst hn
      by_contra hle
      simp [hle] at hfault
    | label name => simp [hinstr, Instr.words] at hn
    | dynamic => simp [hinstr, Instr.words] at hn
  | _ => simp [hinstr, Instr.words] at hn

namespace SpecGraph

theorem fitsWords_of_buildSource {source : String} {b : BuildOptions} {g : SpecGraph}
    (h : (buildSource source b).result = .ok g) (hsize : g.Addressable) : g.FitsWords := by
  obtain ⟨p, d, hp, hfaultless, hd, rfl, hready⟩ := exists_ready_of_buildSource h
  obtain ⟨hlength, hwithin⟩ := Draft.within_of_ofProgram (Program.numbered_of_parse hp) hd
  have hword : 2 * d.graph.numNodes < UInt64.size := by
    have hmax : Int64.maxValue.toInt = 9223372036854775807 := rfl
    have hwords : UInt64.size = 18446744073709551616 := rfl
    rw [Addressable] at hsize
    omega
  have hpc : p.length < UInt64.size := by omega
  intro n hn w hw
  obtain ⟨horigin, hmarker⟩ := hwithin n hn
  rw [Node.words, List.mem_append, List.mem_append] at hw
  rcases hw with (hw | hw) | hw
  · cases ho : n.origin with
    | none => simp [ho] at hw
    | some o =>
      obtain ⟨hbranch, hcontext⟩ := horigin o ho
      simp only [ho, Option.elim_some, List.mem_pair] at hw
      omega
  · cases hm : n.marker with
    | none => simp [hm] at hw
    | some m =>
      have hcontext := hmarker m hm
      simp only [hm, Option.elim_some, List.mem_singleton] at hw
      omega
  · rcases Draft.instr_cases_of_ofProgram hd hn with ⟨hinstr, -⟩ | ⟨e, he, hinstr, -⟩
    · simp [hinstr] at hw
    · rw [hinstr, Option.elim_some] at hw
      exact (hfaultless.words_le he w hw).trans_lt hpc

end SpecGraph

/-- The reports with these options that are read from what is written of them. -/
structure Options.ReportsReadBack (o : Options) : Prop where
  /-- Those on a valid graph whose numbers are machine words, whichever calls have put it
      together. -/
  graph : ∀ calls : List SpecGraph.Insertion, (SpecGraph.ofInsertions calls).FitsWords →
    (SpecGraph.ofInsertions calls).validate = .ok () →
    Report.ofJson ((SpecGraph.ofInsertions calls).analyze o).result.toJson =
      .ok ((SpecGraph.ofInsertions calls).analyze o).result
  /-- Those on a source whose graph, if it has one, fits into memory. -/
  source : ∀ (source : String) (b : BuildOptions),
    (∀ g, (SpecGraph.buildSource source b).result = .ok g → g.Addressable) →
    Report.ofJson (analyzeSource source b o).result.toJson =
      .ok (analyzeSource source b o).result

/-- Reports are read from what is written of them, if the limit of steps is a machine word: the
    numbers in the graph of a source are machine words as soon as the graph fits into memory. -/
theorem report_readsBack (o : Options) (ho : o.maxSteps < UInt64.size) : o.ReportsReadBack := by
  constructor
  case graph =>
    intro calls hwords hvalid
    exact ((SpecGraph.indexed_ofInsertions calls).readsBack_analyze hwords hvalid ho).read
  case source =>
    intro source b hsize
    unfold analyzeSource
    cases hbuilt : (SpecGraph.buildSource source b).result with
    | error e =>
      simp only [hbuilt]
      exact (Report.readsBack_failed o e).read
    | ok g =>
      simp only [hbuilt]
      have hwords := SpecGraph.fitsWords_of_buildSource hbuilt (hsize g hbuilt)
      obtain ⟨p, d, -, -, -, rfl, hready⟩ := SpecGraph.exists_ready_of_buildSource hbuilt
      exact (hready.indexed.readsBack_analyze hwords hready.valid ho).read

/-- A branch on the mispredicted path of another one, which opens contexts of its own. -/
def forkedSource : String := "beqz c, E\nbeqz d, E\nE: load x, s"

def forkedBuild : BuildOptions := { layout := .unrolled, speculation := .stackGuard }

/-- The policy says nothing certain about one of the inputs, and a warning tells so. -/
def forkedOptions : Options :=
  { policy := ⟨.ofList [("c", .top), ("s", .high)], .empty⟩, speculation := .stackGuard }

def looseNode : Node where
  id := "a"
  pc := 0
  kind := .committed
  text := some "jmp r"

def strayMarker : Node where
  id := "m"
  pc := -1
  kind := .speculative
  origin := some ⟨7, 3⟩
  marker := some ⟨3, .finish⟩
  instr := some (.jmp (.register "r") (.pc 9))

/-- A graph that no builder lays. -/
def looseCalls : List SpecGraph.Insertion :=
  [.node looseNode, .node strayMarker, .edge ⟨"a", "m", ⟨.speculative, some "mispredict"⟩⟩,
    .edge ⟨"m", "a", ⟨.rollback, none⟩⟩]

theorem report_readsBack_forked :
    ((SpecGraph.ofInsertions looseCalls).FitsWords ∧
      (SpecGraph.ofInsertions looseCalls).validate = .ok () ∧
      Report.ofJson ((SpecGraph.ofInsertions looseCalls).analyze forkedOptions).result.toJson =
        .ok ((SpecGraph.ofInsertions looseCalls).analyze forkedOptions).result) ∧
    (∃ g, (SpecGraph.buildSource forkedSource forkedBuild).result = .ok g ∧ g.Addressable) ∧
      (analyzeSource forkedSource forkedBuild forkedOptions).result.warnings ≠ [] ∧
      Report.ofJson (analyzeSource forkedSource forkedBuild forkedOptions).result.toJson =
        .ok (analyzeSource forkedSource forkedBuild forkedOptions).result := by
  have hwords : (SpecGraph.ofInsertions looseCalls).FitsWords := by decide +kernel
  have hvalid : (SpecGraph.ofInsertions looseCalls).validate = .ok () := by decide +kernel
  have hsteps : forkedOptions.maxSteps < UInt64.size := by decide
  have hbuilt : (SpecGraph.buildSource forkedSource forkedBuild).result = .ok
      ((SpecGraph.buildSource forkedSource forkedBuild).result.toOption.getD .empty) :=
    SpecGraph.buildSource_eq_ok (by decide +kernel)
  have hsize : ∀ g, (SpecGraph.buildSource forkedSource forkedBuild).result = .ok g →
      g.Addressable := by
    intro g hg
    rw [hbuilt] at hg
    cases hg
    decide +kernel
  have hread := report_readsBack forkedOptions hsteps
  exact ⟨⟨hwords, hvalid, hread.graph looseCalls hwords hvalid⟩, ⟨_, hbuilt, hsize _ hbuilt⟩,
    by decide +kernel, hread.source _ _ hsize⟩

end Mispredict
