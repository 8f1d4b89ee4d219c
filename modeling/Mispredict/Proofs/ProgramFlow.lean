/-
  The committed part of a graph that is built is the control flow of its program.

  Speculation only adds to the committed part. So the committed part has the node `n<pc>` for each
  instruction, in the order of the program, and a link to each instruction that can follow:
  the target of a jump or of a branch, and the next instruction except after a jump
  (`exists_committedPart_flow`). Layout, window and the end of mispredicted paths play no part
  in it.
-/
import Mispredict.Proofs.Buildable

namespace Mispredict

open MuAsm (Instr Program Entry)

namespace SpecGraph

/-- The committed part of what is built is committed control flow. -/
theorem committedPart_of_build {p : Program} {o : BuildOptions} {g : SpecGraph}
    (h : (build p o).result = .ok g) :
    ∃ d₀, Draft.committed p = .ok d₀ ∧ g.committedPart = .ok d₀.graph := by
  rw [build_result] at h
  cases hd : Draft.ofProgram p o with
  | error e =>
    rw [hd] at h
    cases h
  | ok d =>
    rw [hd] at h
    cases h
    obtain ⟨d₀, forks, hd₀, hgrows⟩ := Draft.exists_stages hd
    exact ⟨d₀, hd₀, committedPart_eq (Draft.isFlow_committed hd₀) (Draft.speculates ..) hgrows⟩

end SpecGraph

namespace MuAsm.Program

variable {p : Program} {d₀ : SpecGraph.Draft} {i j : Nat}

/-- Control flow goes to the target of a jump or a branch, and past all other instructions and
    branches to the next one. -/
theorem mem_successors_iff (hp : p.Numbered) (h : SpecGraph.Draft.committed p = .ok d₀) :
    j ∈ p.successors i ↔ j < p.length ∧
      ((∃ target, p.instr? i = some (.jmp target (.pc j))) ∨
        (∃ cond label, p.instr? i = some (.beqz cond label (some j))) ∨
        j = i + 1 ∧ ∃ instr, p.instr? i = some instr ∧
          ∀ target resolved, instr ≠ .jmp target resolved) := by
  rw [mem_successors]
  constructor
  · rintro ⟨instr, hi, hj, hlt⟩
    refine ⟨hlt, ?_⟩
    cases instr with
    | jmp target resolved =>
      cases resolved with
      | pc n =>
        rw [Instr.goesTo, List.mem_singleton] at hj
        exact .inl ⟨target, by rw [hi, hj]⟩
      | label | dynamic => exact absurd hj List.not_mem_nil
    | beqz cond label target =>
      cases target with
      | none => exact absurd hj List.not_mem_nil
      | some n =>
        rcases List.mem_pair.1 hj with rfl | rfl
        · exact .inr (.inl ⟨cond, label, hi⟩)
        · exact .inr (.inr ⟨rfl, _, hi, by simp⟩)
    | _ => exact .inr (.inr ⟨List.mem_singleton.1 hj, _, hi, by simp⟩)
  · rintro ⟨hlt, ⟨target, hi⟩ | ⟨cond, label, hi⟩ | ⟨rfl, instr, hi, hjmp⟩⟩
    · exact ⟨_, hi, List.mem_singleton.2 rfl, hlt⟩
    · exact ⟨_, hi, List.mem_cons_self, hlt⟩
    · refine ⟨instr, hi, ?_, hlt⟩
      cases instr with
      | jmp target resolved => exact absurd rfl (hjmp target resolved)
      | beqz cond label target =>
        -- a branch of a program that is built has a target
        have hbranch : i ∈ SpecGraph.Draft.branches p :=
          (SpecGraph.mem_branches_iff hp).2 ⟨_, hi, rfl⟩
        obtain ⟨taken, htaken, -⟩ := SpecGraph.Draft.linked_branch h hbranch
        obtain ⟨cond', label', hi'⟩ := branchTarget_eq_ok htaken
        rw [hi] at hi'
        cases hi'
        exact List.mem_cons_of_mem _ (List.mem_singleton.2 rfl)
      | _ => exact List.mem_singleton.2 rfl

end MuAsm.Program

namespace SpecGraph

/-- The committed part of what is built from a program is its control flow, whatever the options. -/
theorem exists_committedPart_flow {source : String} {p : Program} {o : BuildOptions}
    {g : SpecGraph} (hp : Program.parse source = .ok p) (hg : (build p o).result = .ok g) :
    ∃ c, g.committedPart = .ok c ∧ c.nodes.length = p.length ∧
      (∀ i instr, p.instr? i = some instr → ∃ n, c.nodes[i]? = some n ∧ n.id = committedId i ∧
        n.pc = Int64.ofNat i ∧ (MuAsm.Addressable source → n.pc.toInt = i) ∧
        n.kind = .committed ∧ n.instr = some instr) ∧
      (∀ i j link, c.graph.edge? i j = some link → link.kind = .committed) ∧
      (∀ i j, (∃ link, c.graph.edge? i j = some link) ↔ j < p.length ∧
        ((∃ target, p.instr? i = some (.jmp target (.pc j))) ∨
          (∃ cond label, p.instr? i = some (.beqz cond label (some j))) ∨
          j = i + 1 ∧ ∃ instr, p.instr? i = some instr ∧
            ∀ target resolved, instr ≠ .jmp target resolved)) ∧
      ∀ o' g', (build p o').result = .ok g' → g'.committedPart = .ok c := by
  have hnumbered := Program.numbered_of_parse hp
  obtain ⟨d₀, hd₀, hpart⟩ := committedPart_of_build hg
  have hflow := flowOf_committed hnumbered hd₀
  have hisFlow := Draft.isFlow_committed hd₀
  refine ⟨d₀.graph, hpart, ?_, fun i instr hi => ?_, hisFlow.edge,
    fun i j => (hflow.edge i j).trans (Program.mem_successors_iff hnumbered hd₀),
    fun o' g' hg' => ?_⟩
  · rw [Draft.nodes_committed hd₀, List.length_map]
    rfl
  · obtain ⟨e, he, rfl⟩ := Option.map_eq_some_iff.1 hi
    refine ⟨Draft.committedNode e, ?_, ?_, ?_, fun hsource => ?_, rfl, rfl⟩
    · rw [hisFlow.indexed.getElem?_nodes, hflow.node, he]
      rfl
    · show committedId e.pc = committedId i
      rw [hnumbered i e he]
    · show Int64.ofNat e.pc = Int64.ofNat i
      rw [hnumbered i e he]
    · show (Int64.ofNat e.pc).toInt = i
      rw [hnumbered i e he]
      exact toInt_ofNat_of_le ((Program.fits_of_parse hp hsource).pc_le (Program.lt_of_instr? hi))
  · obtain ⟨d₁, hd₁, hpart'⟩ := committedPart_of_build hg'
    rw [hpart', Except.ok.inj (hd₀.symm.trans hd₁)]

/-- A branch to the next instruction, one to itself, a jump to itself, and one to just past the
    end. -/
def knotted : String := "beqz a, A\nA: beqz b, A\nB: jmp B\njmp E\nskip\nE:"

def knottedProgram : Program := (Program.parse knotted).toOption.getD ⟨[], ∅⟩

theorem committedPart_knotted : ∃ g g' c, (build knottedProgram {}).result = .ok g ∧
    (build knottedProgram ⟨4, .unrolled, .stackGuard⟩).result = .ok g' ∧
    g.committedPart = .ok c ∧ g'.committedPart = .ok c ∧ c.nodes.length = 5 ∧
    (∃ link, c.graph.edge? 1 1 = some link) ∧ ¬ ∃ link, c.graph.edge? 3 4 = some link := by
  have hp : Program.parse knotted = .ok knottedProgram := Program.parse_eq_ok (by decide +kernel)
  have hnone : knottedProgram.entries.findSome? knottedProgram.fault? = none := by decide +kernel
  have hok : ∀ o : BuildOptions, 0 < o.windowSize →
      ∃ g, (build knottedProgram o).result = .ok g := by
    intro o ho
    have hcases := Draft.ofProgram_cases (Program.numbered_of_parse hp) ho
    rcases hcases with ⟨-, d, hd, -⟩ | ⟨err, herr, -⟩
    · exact ⟨d.graph, by rw [build_result, hd]; rfl⟩
    · cases hnone.symm.trans herr
  obtain ⟨g, hg⟩ := hok {} (by decide)
  obtain ⟨g', hg'⟩ := hok ⟨4, .unrolled, .stackGuard⟩ (by decide)
  obtain ⟨c, hc, hlen, -, -, hedge, hsame⟩ := exists_committedPart_flow hp hg
  have hbranch : knottedProgram.instr? 1 = some (.beqz (.register "b") "A" (some 1)) := by
    decide +kernel
  have hjmp : knottedProgram.instr? 3 = some (.jmp (.register "E") (.pc 5)) := by decide +kernel
  refine ⟨g, g', c, hg, hg', hc, hsame _ g' hg', hlen.trans (by decide +kernel),
    (hedge 1 1).2 ⟨by decide +kernel, .inr (.inl ⟨_, _, hbranch⟩)⟩, fun hlink => ?_⟩
  obtain ⟨-, ⟨target, h⟩ | ⟨cond, label, h⟩ | ⟨-, instr, h, hnot⟩⟩ := (hedge 3 4).1 hlink
  · cases hjmp.symm.trans h
  · cases hjmp.symm.trans h
  · cases hjmp.symm.trans h
    exact hnot _ _ rfl

end SpecGraph

end Mispredict
