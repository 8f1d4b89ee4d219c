/-
  The committed part of a graph that is built.

  Building starts with committed control flow and then only adds nodes and links of
  speculation. So the committed part of the graph is the graph of the first stage
  (`committedPart_eq`): it has the committed nodes under the numbers they have in the whole
  graph, and the committed links. What else there is in the whole graph executes instructions
  of the committed part, or none (`IsCore`).
-/
import Mispredict.Proofs.Built

namespace Mispredict

open MuAsm (Program Entry)

namespace SpecGraph

variable {c g : SpecGraph} {N : Node → Prop} {E : Edge → Prop}

/-! ## After growth by speculation -/

/-- A graph of committed control flow. -/
structure IsFlow (c : SpecGraph) : Prop where
  indexed : c.Indexed
  node : ∀ i n, c.node? i = some n → n.kind = .committed
  edge : ∀ head tail link, c.graph.edge? head tail = some link → link.kind = .committed

/-- What grows from a graph of committed control flow by speculation. -/
structure Speculates (N : Node → Prop) (E : Edge → Prop) : Prop where
  node : ∀ n, N n → n.kind = .speculative
  edge : ∀ e, E e → e.link.kind ≠ .committed

theorem node?_iff_of_grows (hc : c.IsFlow) (hs : Speculates N E) (h : Grows N E c g) {i : Nat}
    {n : Node} : c.node? i = some n ↔ g.node? i = some n ∧ n.kind = .committed := by
  constructor
  · intro hn
    exact ⟨(h.node?_of_lt hc.indexed (hc.indexed.lt hn)).trans hn, hc.node i n hn⟩
  · rintro ⟨hn, hkind⟩
    by_cases hi : i < c.numNodes
    · rw [← h.node?_of_lt hc.indexed hi, hn]
    · have hspec := hs.node n (h.mem_of_ge hc.indexed (not_lt.1 hi) hn)
      rw [hkind] at hspec
      cases hspec

theorem edge?_iff_of_grows (hc : c.IsFlow) (hs : Speculates N E) (h : Grows N E c g)
    {head tail : Nat} {link : Link} : c.graph.edge? head tail = some link ↔
      g.graph.edge? head tail = some link ∧ link.kind = .committed := by
  constructor
  · intro hedge
    exact ⟨h.edge?_of_some hedge, hc.edge head tail link hedge⟩
  · rintro ⟨hedge, hkind⟩
    rcases h.edge?_cases hc.indexed hedge with hedge | ⟨e, he, rfl, -⟩
    · exact hedge
    · exact absurd hkind (hs.edge e he)

theorem filter_nodes_of_grows (hc : c.IsFlow) (hs : Speculates N E) (h : Grows N E c g) :
    g.nodes.filter (·.kind == .committed) = c.nodes := by
  obtain ⟨ns, hns, hN⟩ := h.nodes_eq hc.indexed
  have hold : c.nodes.filter (·.kind == .committed) = c.nodes := by
    refine List.filter_eq_self.2 fun n hn => ?_
    obtain ⟨i, hi⟩ := hc.indexed.mem_nodes_iff.1 hn
    rw [hc.node i n hi]
    rfl
  have hnew : ns.filter (·.kind == .committed) = [] := by
    refine List.filter_eq_nil_iff.2 fun n hn => ?_
    rw [hs.node n (hN n hn)]
    nofun
  rw [hns, List.filter_append, hold, hnew, List.append_nil]

/-! ## Committed links -/

/-- The committed nodes, in order. -/
def committedNodes (g : SpecGraph) : List Node := g.nodes.filter (·.kind == .committed)

/-- Whether a link and the nodes at its ends are committed. -/
def joinsCommitted (g : SpecGraph) (e : Edge) : Bool :=
  e.link.kind == .committed && g.nodes.any (fun n => n.id == e.source && n.kind == .committed) &&
    g.nodes.any fun n => n.id == e.target && n.kind == .committed

theorem joinsCommitted_iff {e : Edge} : g.joinsCommitted e = true ↔
    e.link.kind = .committed ∧ e.source ∈ g.committedNodes.map Node.id ∧
      e.target ∈ g.committedNodes.map Node.id := by
  simp [joinsCommitted, committedNodes, and_assoc, and_comm]

/-- The ends of a link are found among the committed nodes if they are committed. -/
theorem filter_hasNode_eq {c₁ : SpecGraph} (h₁ : empty.insertNodes g.committedNodes = .ok c₁) :
    (g.edges.filter fun e => e.link.kind == .committed && c₁.hasNode e.source &&
      c₁.hasNode e.target) = g.edges.filter g.joinsCommitted := by
  obtain ⟨hc₁, hnodes, -⟩ := lists_of_insertNodes h₁
  refine List.filter_congr fun e _ => ?_
  rw [Bool.eq_iff_iff, joinsCommitted_iff, ← hnodes, ← hc₁.hasNode_iff, ← hc₁.hasNode_iff]
  simp [and_assoc]

/-- Whether a link and both of its ends are committed. -/
def Located.isCommitted (l : Located) : Bool :=
  l.link.kind == .committed && l.source.kind == .committed && l.target.kind == .committed

/-- A node is committed if its id is that of a committed node. -/
theorem Indexed.mem_committedIds_iff (hg : g.Indexed) {i : Nat} {n : Node}
    (hn : g.node? i = some n) :
    n.id ∈ g.committedNodes.map Node.id ↔ n.kind = .committed := by
  have hmem : n ∈ g.nodes := hg.mem_nodes_iff.2 ⟨i, hn⟩
  simp only [committedNodes, List.mem_map, List.mem_filter, beq_iff_eq]
  constructor
  · rintro ⟨n', ⟨hn', hkind⟩, hid⟩
    rwa [List.inj_on_of_nodup_map hg.nodup_ids hmem hn' hid.symm]
  · intro hkind
    exact ⟨n, ⟨hmem, hkind⟩, rfl⟩

/-- Links are committed, with their ends, exactly if their ends are committed by their ids. -/
theorem Indexed.map_committedLinks (hg : g.Indexed) :
    (g.links.filter (·.isCommitted)).map (·.edge) = g.edges.filter g.joinsCommitted := by
  rw [edges, List.filter_map]
  congr 1
  refine List.filter_congr fun l hl => ?_
  obtain ⟨-, hsource, htarget⟩ := mem_links_iff.1 hl
  rw [Bool.eq_iff_iff, Function.comp_apply, joinsCommitted_iff, Located.edge,
    hg.mem_committedIds_iff hsource, hg.mem_committedIds_iff htarget]
  simp [Located.isCommitted, and_assoc]

theorem mem_committedLinks_iff (hc : c.IsFlow) (hs : Speculates N E) (h : Grows N E c g)
    {l : Located} : l ∈ g.links.filter (·.isCommitted) ↔ l ∈ c.links := by
  simp only [List.mem_filter, mem_links_iff, node?_iff_of_grows hc hs h,
    edge?_iff_of_grows hc hs h, Located.isCommitted, Bool.and_eq_true, beq_iff_eq]
  constructor
  · rintro ⟨⟨hedge, hsource, htarget⟩, ⟨hlink, hsource'⟩, htarget'⟩
    exact ⟨⟨hedge, hlink⟩, ⟨hsource, hsource'⟩, htarget, htarget'⟩
  · rintro ⟨⟨hedge, hlink⟩, ⟨hsource, hsource'⟩, htarget, htarget'⟩
    exact ⟨⟨hedge, hsource, htarget⟩, ⟨hlink, hsource'⟩, htarget'⟩

/-- The committed part of a graph that has grown from committed control flow by speculation is
    that control flow. -/
theorem committedPart_eq (hc : c.IsFlow) (hs : Speculates N E) (h : Grows N E c g) :
    g.committedPart = .ok c := by
  obtain ⟨c₁, h₁, h₂⟩ := hc.indexed.exists_insert_all
    (fun l => mem_committedLinks_iff hc hs h) (g.pairwise_links.filter _)
  rw [← filter_nodes_of_grows hc hs h] at h₁
  refine bind_eq_ok_iff.2 ⟨c₁, h₁, ?_⟩
  rw [filter_hasNode_eq h₁, ← (h.indexed hc.indexed).map_committedLinks]
  exact h₂

/-! ## In a graph that is built -/

/-- `c` is the committed part of `g`, and the rest of `g` is speculation on it. -/
structure IsCore (c g : SpecGraph) : Prop where
  flow : c.IsFlow
  indexed : g.Indexed
  node : ∀ {i n}, c.node? i = some n ↔ g.node? i = some n ∧ n.kind = .committed
  edge : ∀ {head tail link}, c.graph.edge? head tail = some link ↔
    g.graph.edge? head tail = some link ∧ link.kind = .committed
  /-- Committed nodes are no markers. -/
  unmarked : ∀ {i n}, c.node? i = some n → n.marker = none
  /-- Speculation executes what committed nodes execute, or nothing. -/
  executes : ∀ {i n}, g.node? i = some n → n.kind = .speculative →
    n.executes = .ok none ∨ ∃ j n', c.node? j = some n' ∧ n'.executes = n.executes
  /-- The entry is not speculative. -/
  entry : ∀ {i n}, g.node? i = some n → n.kind = .speculative → n.id ≠ "n0"
  nonempty : 0 < g.numNodes → 0 < c.numNodes

namespace Draft

variable {p : Program} {d₀ d : Draft} {o : BuildOptions} {forks : List Fork} {n : Node}

theorem isFlow_committed (h : committed p = .ok d₀) : d₀.graph.IsFlow where
  indexed := (adds_committed h).graph.indexed Indexed.empty
  node i n hn := by
    have hmem : n ∈ d₀.graph.nodes :=
      ((adds_committed h).graph.indexed Indexed.empty).mem_nodes_iff.2 ⟨i, hn⟩
    rw [nodes_committed h] at hmem
    obtain ⟨e, -, rfl⟩ := List.mem_map.1 hmem
    rfl
  edge head tail link hedge := by
    rcases (adds_committed h).graph.edge?_cases Indexed.empty hedge with hedge | ⟨e, he, rfl, -⟩
    · cases hedge
    · exact he

/-- Nodes that speculate are speculative, execute an instruction of the program or none, and have
    ids that begin with another letter than those of committed nodes. -/
structure IsSpeculation (p : Program) (n : Node) : Prop where
  kind : n.kind = .speculative
  executes : n.executes = .ok none ∨ ∃ e ∈ p.entries, n.executes = .ok (some e.instr)
  entries : p.entries ≠ []
  id : n.id.toList.head? = some 's'

theorem entries_ne_nil_of_branch {context pc : Nat} (h : (branches p)[context]? = some pc) :
    p.entries ≠ [] := by
  intro hnil
  rw [branches, hnil] at h
  cases h

theorem isSpeculation_of_specNode {layout : Layout} (h : SpecNode p layout n) :
    IsSpeculation p n := by
  cases layout with
  | light =>
    cases h with
    | begins branch =>
      exact ⟨rfl, .inl rfl, entries_ne_nil_of_branch branch, by simp [beginNode, beginId]⟩
    | ends branch =>
      exact ⟨rfl, .inl rfl, entries_ne_nil_of_branch branch, by simp [endNode, endId]⟩
  | unrolled =>
    obtain ⟨pc, e, w, he, rfl⟩ := h
    have hmem : e ∈ p.entries := List.mem_of_getElem? he
    exact ⟨rfl, .inr ⟨e, hmem, rfl⟩, List.ne_nil_of_mem hmem,
      by simp [unrolledNode, unrolledId, Node.withInstr]⟩

theorem kind_of_specEdge {mode : SpeculationMode} {layout : Layout} {e : Edge}
    (h : SpecEdge p mode forks layout e) : e.link.kind ≠ .committed := by
  cases layout with
  | light => cases h <;> nofun
  | unrolled => cases h <;> nofun

theorem speculates (p : Program) (mode : SpeculationMode) (forks : List Fork) (layout : Layout) :
    Speculates (SpecNode p layout) (SpecEdge p mode forks layout) where
  node _ h := (isSpeculation_of_specNode h).kind
  edge _ := kind_of_specEdge

theorem isCore_of_stages (hd₀ : committed p = .ok d₀)
    (h : Grows (SpecNode p o.layout) (SpecEdge p o.speculation forks o.layout) d₀.graph d.graph) :
    d₀.graph.IsCore d.graph := by
  have hflow := isFlow_committed hd₀
  have hs := speculates p o.speculation forks o.layout
  have hspec : ∀ {i n}, d.graph.node? i = some n → n.kind = .speculative → IsSpeculation p n := by
    intro i n hn hkind
    by_cases hi : i < d₀.graph.numNodes
    · rw [h.node?_of_lt hflow.indexed hi] at hn
      cases (hflow.node i n hn).symm.trans hkind
    · exact isSpeculation_of_specNode (h.mem_of_ge hflow.indexed (not_lt.1 hi) hn)
  have hnodes : ∀ {n}, n ∈ p.entries.map committedNode ↔ ∃ i, d₀.graph.node? i = some n := by
    intro n
    rw [← nodes_committed hd₀, hflow.indexed.mem_nodes_iff]
  have hnum : d₀.graph.numNodes = p.entries.length := by
    rw [← Indexed.length_nodes, nodes_committed hd₀, List.length_map]
  refine ⟨hflow, h.indexed hflow.indexed, node?_iff_of_grows hflow hs h,
    edge?_iff_of_grows hflow hs h, fun {i n} hn => ?_, fun {i n} hn hkind => ?_,
    fun {i n} hn hkind => ?_, fun hpos => ?_⟩
  · obtain ⟨e, -, rfl⟩ := List.mem_map.1 (hnodes.2 ⟨i, hn⟩)
    rfl
  · refine (hspec hn hkind).executes.imp id ?_
    rintro ⟨e, he, hexecutes⟩
    obtain ⟨j, hj⟩ := hnodes.1 (List.mem_map_of_mem he)
    exact ⟨j, committedNode e, hj, hexecutes.symm⟩
  · intro hid
    have hs := (hspec hn hkind).id
    rw [hid] at hs
    cases hs
  · by_contra hzero
    rw [hnum] at hzero
    obtain ⟨n, hn⟩ := (h.indexed hflow.indexed).exists_node hpos
    have hmem := h.mem_of_ge hflow.indexed (by omega) hn
    exact (isSpeculation_of_specNode hmem).entries (List.length_eq_zero_iff.1 (by omega))

end Draft

/-- The graph of a source has a committed part, and the rest of it is speculation on that. -/
theorem exists_isCore {source : String} {o : BuildOptions}
    (h : (buildSource source o).result = .ok g) : ∃ c, g.committedPart = .ok c ∧ c.IsCore g := by
  obtain ⟨p, d, hd, rfl⟩ := exists_program_of_buildSource h
  obtain ⟨d₀, forks, hd₀, hgrows⟩ := Draft.exists_stages hd
  exact ⟨d₀.graph, committedPart_eq (Draft.isFlow_committed hd₀) (Draft.speculates ..) hgrows,
    Draft.isCore_of_stages hd₀ hgrows⟩

end SpecGraph

end Mispredict
