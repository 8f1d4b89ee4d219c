/-
  Nodes and links of graphs that are built.

  A graph that is built is the committed control flow of a program with speculation added to
  it (`Stages`). By this its nodes and links are taken apart (`Stages.node_cases`,
  `Stages.mem_of_link`); nodes are told apart by the letters and numbers of their ids. In the
  control flow a branch has links to both instructions that can follow it
  (`Draft.linked_branch`), and a committed point leads along them (`Stages.mem_moves`).
-/
import Mispredict.Proofs.Restriction
import Std.Data.String.ToNat

namespace Mispredict

open MuAsm (Program Entry)

namespace SpecGraph

/-! ## Ids -/

theorem committedId_inj {a b : Nat} : committedId a = committedId b ↔ a = b := by
  rw [committedId, committedId, String.append_right_inj]
  exact Nat.repr_inj

theorem beginId_inj {a b : Nat} : beginId a = beginId b ↔ a = b := by
  rw [beginId, beginId, String.append_right_inj]
  exact Nat.repr_inj

theorem endId_inj {a b : Nat} : endId a = endId b ↔ a = b := by
  rw [endId, endId, String.append_right_inj]
  exact Nat.repr_inj

theorem beginId_ne_endId (a b : Nat) : beginId a ≠ endId b := by
  intro h
  have hletter := congrArg (·.toList[5]?) h
  simp [beginId, endId] at hletter

theorem committedId_ne {a : Nat} {id : String} (h : id.toList.head? = some 's') :
    committedId a ≠ id := by
  rintro rfl
  simp [committedId] at h

theorem takeWhile_unrolledId (context pc : Nat) :
    (unrolledId context pc).toList.tail.takeWhile (· != '_') = (Nat.repr context).toList := by
  have hdigits : ∀ ch ∈ Nat.toDigits 10 context, (ch != '_') = true := by
    intro ch hch
    rw [bne_iff_ne]
    rintro rfl
    exact Nat.underscore_not_in_toDigits hch
  simp [unrolledId, List.takeWhile_append_of_pos hdigits]

/-- The context can be read off the id of a node of a mispredicted path. -/
theorem context_of_unrolledId {a b pc pc' : Nat} (h : unrolledId a pc = unrolledId b pc') :
    a = b := by
  have hdigits := takeWhile_unrolledId a pc
  rw [h, takeWhile_unrolledId] at hdigits
  exact (Nat.repr_injective (String.toList_injective hdigits)).symm

/-! ## Links that are there -/

/-- The nodes with these ids have a link. -/
def Linked (g : SpecGraph) (source target : String) : Prop :=
  ∃ head tail link, g.index? source = some head ∧ g.index? target = some tail ∧
    g.graph.edge? head tail = some link

theorem Linked.of_grows {N : Node → Prop} {E : Edge → Prop} {g g' : SpecGraph}
    {source target : String} (h : g.Linked source target) (hg : g.Indexed)
    (hgrows : Grows N E g g') : g'.Linked source target := by
  obtain ⟨head, tail, link, hhead, htail, hedge⟩ := h
  exact ⟨head, tail, link, hgrows.index?_of_some hg hhead, hgrows.index?_of_some hg htail,
    hgrows.edge?_of_some hedge⟩

namespace Draft

variable {p : Program} {d d₁ d' d₀ : Draft}

theorem linked_of_connect {source target : String} {kind : LinkKind} {label : Option String}
    (h : d.connect source target kind label = .ok d') : d'.graph.Linked source target := by
  unfold connect at h
  split at h
  · next hhas =>
    cases h
    unfold hasEdge at hhas
    split at hhas
    · next head tail hhead htail =>
      obtain ⟨link, hlink⟩ := Option.isSome_iff_exists.1 hhas
      exact ⟨head, tail, link, hhead, htail, hlink⟩
    · cases hhas
  · obtain ⟨g, hg, h⟩ := bind_eq_ok_iff.1 h
    cases h
    obtain ⟨head, tail, hhead, htail, hgraph, -⟩ := insertEdge_eq_ok_iff.1 hg
    refine ⟨head, tail, ⟨kind, label⟩, ?_, ?_, ?_⟩
    · rw [index?_insertEdge hg, hhead]
    · rw [index?_insertEdge hg, htail]
    · rw [Digraph.edge?_insertEdge hgraph, if_pos ⟨rfl, rfl⟩]

theorem linked_of_addFlow {e : Entry} (hd : d.graph.Indexed) (he : e.instr.isBranch = true)
    (h : addFlow p d e = .ok d') :
    ∃ taken, p.branchTarget e.pc = .ok taken ∧
      ∀ x, p.within? taken = some x ∨ p.next? e.pc = some x →
        d'.graph.Linked (committedId e.pc) (committedId x) := by
  unfold addFlow at h
  dsimp only at h
  split at h
  · next hinstr =>
    rw [hinstr] at he
    cases he
  · obtain ⟨taken, htaken, h⟩ := bind_eq_ok_iff.1 h
    obtain ⟨d₁, h₁, h⟩ := bind_eq_ok_iff.1 h
    refine ⟨taken, htaken, fun x hx => ?_⟩
    have hadds₁ : Adds (FlowNode p) FlowEdge d d₁ := adds_connectPc (fun _ _ => rfl) h₁
    have hadds : Adds (FlowNode p) FlowEdge d₁ d' := adds_connectPc (fun _ _ => rfl) h
    rcases hx with hx | hx
    · rw [hx] at h₁
      exact (linked_of_connect h₁).of_grows (hadds₁.graph.indexed hd) hadds.graph
    · rw [hx] at h
      exact linked_of_connect h
  · next hjmp hbeqz =>
    cases hinstr : e.instr with
    | beqz cond target resolved => exact absurd hinstr (hbeqz cond target resolved)
    | _ =>
      rw [hinstr] at he
      cases he

/-- An item of a list that is added one by one is added at some point. -/
theorem Adds.exists_of_mem {α : Type} {N : Node → Prop} {E : Edge → Prop}
    {f : Draft → α → Except Error Draft} {l : List α} {a : α}
    (hf : ∀ a ∈ l, ∀ d d', f d a = .ok d' → Adds N E d d') (h : l.foldlM f d = .ok d')
    (ha : a ∈ l) : ∃ d₁ d₂, Adds N E d d₁ ∧ f d₁ a = .ok d₂ ∧ Adds N E d₂ d' := by
  obtain ⟨before, after, rfl⟩ := List.append_of_mem ha
  rw [List.foldlM_append] at h
  obtain ⟨d₁, h₁, h⟩ := bind_eq_ok_iff.1 h
  rw [List.foldlM_cons] at h
  obtain ⟨d₂, h₂, h⟩ := bind_eq_ok_iff.1 h
  refine ⟨d₁, d₂, Adds.foldlM (fun b hb => hf b ?_) h₁, h₂, Adds.foldlM (fun b hb => hf b ?_) h⟩
  · exact List.mem_append_left _ hb
  · exact List.mem_append_right _ (List.mem_cons_of_mem _ hb)

/-- A branch has links to what can follow it. -/
theorem linked_branch (h : committed p = .ok d₀) {pc : Nat} (hpc : pc ∈ branches p) :
    ∃ taken, p.branchTarget pc = .ok taken ∧
      ∀ x, p.within? taken = some x ∨ p.next? pc = some x →
        d₀.graph.Linked (committedId pc) (committedId x) := by
  obtain ⟨e, he, rfl⟩ := List.mem_map.1 hpc
  obtain ⟨he, hbranch⟩ := List.mem_filter.1 he
  obtain ⟨d, hd, h⟩ := bind_eq_ok_iff.1 h
  have hindexed : d.graph.Indexed :=
    (Adds.foldlM (N := FlowNode p) (E := FlowEdge) (fun _ hn _ _ => adds_addNode hn)
      hd).graph.indexed Indexed.empty
  obtain ⟨d₁, d₂, h₁, h₂, hadds⟩ := Adds.exists_of_mem (N := FlowNode p) (E := FlowEdge)
    (fun _ _ _ _ => adds_addFlow) h he
  have hindexed₁ := h₁.graph.indexed hindexed
  obtain ⟨taken, htaken, hlinked⟩ := linked_of_addFlow hindexed₁ hbranch h₂
  have hindexed₂ : d₂.graph.Indexed :=
    (adds_addFlow (N := FlowNode p) h₂).graph.indexed hindexed₁
  exact ⟨taken, htaken, fun x hx => (hlinked x hx).of_grows hindexed₂ hadds.graph⟩

end Draft

/-! ## Stages -/

/-- The graph `g` is the committed control flow `c` of a program and what has been added to it:
    speculative nodes in `N` and links in `E`. -/
structure Stages (p : Program) (N : Node → Prop) (E : Edge → Prop) (c g : SpecGraph) : Prop where
  flow : ∃ d₀, Draft.committed p = .ok d₀ ∧ d₀.graph = c
  grows : Grows N E c g
  core : c.IsCore g

/-- A graph that is built comes of these stages. -/
theorem exists_stages {source : String} {o : BuildOptions} {g : SpecGraph}
    (h : (buildSource source o).result = .ok g) :
    ∃ p forks c, g.committedPart = .ok c ∧ Stages p (Draft.SpecNode p o.layout)
      (Draft.SpecEdge p o.speculation forks o.layout) c g := by
  obtain ⟨p, d, hd, rfl⟩ := exists_program_of_buildSource h
  obtain ⟨d₀, forks, hd₀, hgrows⟩ := Draft.exists_stages hd
  exact ⟨p, forks, d₀.graph,
    committedPart_eq (Draft.isFlow_committed hd₀) (Draft.speculates ..) hgrows,
    ⟨d₀, hd₀, rfl⟩, hgrows, Draft.isCore_of_stages hd₀ hgrows⟩

namespace Stages

variable {p : Program} {N : Node → Prop} {E : Edge → Prop} {c g : SpecGraph} {i : Nat} {n : Node}
  (h : Stages p N E c g)

include h

theorem exists_entry (hn : c.node? i = some n) : ∃ e ∈ p.entries, n = Draft.committedNode e := by
  obtain ⟨d₀, hd₀, rfl⟩ := h.flow
  have hmem := h.core.flow.indexed.mem_nodes_iff.2 ⟨i, hn⟩
  rw [Draft.nodes_committed hd₀] at hmem
  obtain ⟨e, he, rfl⟩ := List.mem_map.1 hmem
  exact ⟨e, he, rfl⟩

theorem linked_branch {pc taken x : Nat} (hpc : pc ∈ Draft.branches p)
    (htaken : p.branchTarget pc = .ok taken)
    (hx : p.within? taken = some x ∨ p.next? pc = some x) :
    c.Linked (committedId pc) (committedId x) := by
  obtain ⟨d₀, hd₀, rfl⟩ := h.flow
  obtain ⟨taken', htaken', hlinked⟩ := Draft.linked_branch hd₀ hpc
  cases htaken.symm.trans htaken'
  exact hlinked x hx

theorem node_cases (hn : g.node? i = some n) : c.node? i = some n ∨ N n := by
  by_cases hi : i < c.numNodes
  · left
    rw [← h.grows.node?_of_lt h.core.flow.indexed hi, hn]
  · exact .inr (h.grows.mem_of_ge h.core.flow.indexed (not_lt.1 hi) hn)

/-- A link that is not committed was added. -/
theorem mem_of_link {l : Located} (hl : l ∈ g.linksFrom i) (hkind : l.link.kind ≠ .committed) :
    E l.edge := by
  obtain ⟨-, hedge, hsource, htarget⟩ := mem_linksFrom_iff.1 hl
  rcases h.grows.edge?_cases h.core.flow.indexed hedge with hedge | ⟨e, he, hlink, hs, ht⟩
  · exact absurd (h.core.edge.1 hedge).2 hkind
  · obtain ⟨n, hn, hid⟩ := (h.core.indexed.named _ _).1 hs
    obtain ⟨n', hn', hid'⟩ := (h.core.indexed.named _ _).1 ht
    cases hsource.symm.trans hn
    cases htarget.symm.trans hn'
    rw [Located.edge, hid, hid', ← hlink]
    exact he

theorem index?_of_some {id : String} (hid : c.index? id = some i) : g.index? id = some i :=
  h.grows.index?_of_some h.core.flow.indexed hid

/-- A committed point leads along committed links. -/
theorem mem_moves {source target : String} {j : Nat} {o : Options}
    (hlinked : c.Linked source target) (hi : c.index? source = some i)
    (hj : c.index? target = some j) :
    (⟨j, .committed, []⟩, .full) ∈ (Setup.of g o).moves ⟨i, .committed, []⟩ := by
  obtain ⟨head, tail, link, hhead, htail, hedge⟩ := hlinked
  cases hi.symm.trans hhead
  cases hj.symm.trans htail
  obtain ⟨n, hn, -⟩ := (h.core.flow.indexed.named _ _).1 hi
  obtain ⟨n', hn', -⟩ := (h.core.flow.indexed.named _ _).1 hj
  have hlink : (⟨i, n, j, n', link⟩ : Located) ∈ c.linksFrom i :=
    mem_linksFrom_iff.2 ⟨rfl, hedge, hn, hn'⟩
  rw [h.core.linksFrom_eq, List.mem_filter, beq_iff_eq] at hlink
  obtain ⟨e, -, rfl⟩ := h.exists_entry hn
  have hend : n'.endsContext = false := by
    rw [Node.endsContext, h.core.unmarked hn']
  rw [Setup.moves_of_committed (n := Draft.committedNode e) rfl (h.core.node.1 hn).1
    (i := some e.instr) rfl, List.mem_filterMap]
  exact ⟨_, hlink.1, Setup.move?_routeOf_committed hlink.2 hend⟩

end Stages

end SpecGraph

end Mispredict
