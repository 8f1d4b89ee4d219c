/-
  Graphs whose nodes are numbered and named.

  A graph starts out empty and grows by nodes, which get the next number, and by links
  between nodes that are there. So its nodes are numbered from zero without gaps, the index
  of ids finds exactly the nodes, and links join nodes (`Indexed`). The nodes and the links
  of such a graph determine it (`Indexed.ext`), and lists of nodes with new ids and of new
  links can be added to it (`exists_insertNodes`, `exists_insertEdges`). So it can be put
  together again of its nodes and links (`Indexed.exists_insert_all`).
-/
import Mathlib.Data.List.Sort
import Mathlib.Data.Prod.Lex
import Mispredict.SpecGraph.Basic

namespace Mispredict

/-! ## Vertices and edges -/

namespace Digraph

variable {ν ε : Type} {g g' : Digraph ν ε} {index head tail : Nat} {v : ν} {e : ε}

theorem mem_edgesOut_iff : (tail, e) ∈ g.edgesOut head ↔ g.edge? head tail = some e := by
  unfold edgesOut edge?
  cases g.slots[head]? with
  | none => simp
  | some slot => exact SortedMap.mem_entries_iff slot.out

theorem mem_edges_iff : (head, tail, e) ∈ g.edges ↔ g.edge? head tail = some e := by
  simp only [edges, edge?, List.mem_flatMap, List.mem_map, Option.bind_eq_some_iff]
  constructor
  · rintro ⟨⟨_, slot⟩, hslot, ⟨_, _⟩, hout, heq⟩
    cases heq
    exact ⟨slot, Std.ExtTreeMap.mem_toList_iff_getElem?_eq_some.1 hslot,
      (SortedMap.mem_entries_iff _).1 hout⟩
  · rintro ⟨slot, hslot, hout⟩
    exact ⟨(head, slot), Std.ExtTreeMap.mem_toList_iff_getElem?_eq_some.2 hslot, (tail, e),
      (SortedMap.mem_entries_iff _).2 hout, rfl⟩

/-- Edges are listed by the vertex they leave, then by the vertex they enter. -/
theorem pairwise_edges_lt (g : Digraph ν ε) :
    g.edges.Pairwise fun a b => toLex (a.1, a.2.1) < toLex (b.1, b.2.1) := by
  refine List.pairwise_flatMap.2 ⟨fun ⟨head, slot⟩ _ => ?_, ?_⟩
  · refine List.pairwise_map.2 (slot.out.increasing.imp fun {a b} hlt => ?_)
    exact Prod.Lex.toLex_lt_toLex.2 (.inr ⟨rfl, Nat.compare_eq_lt.1 hlt⟩)
  · refine Std.ExtTreeMap.ordered_keys_toList.imp fun {a b} hlt x hx y hy => ?_
    obtain ⟨_, -, rfl⟩ := List.mem_map.1 hx
    obtain ⟨_, -, rfl⟩ := List.mem_map.1 hy
    exact Prod.Lex.toLex_lt_toLex.2 (.inl (Nat.compare_eq_lt.1 hlt))

theorem vertex?_isSome_iff : (g.vertex? index).isSome ↔ g.hasVertex index := by
  rw [vertex?, Option.isSome_map, hasVertex, Std.ExtTreeMap.isSome_getElem?_eq_contains]

/-- The vertices and the edges determine a graph. -/
theorem ext_get? {g g' : Digraph ν ε} (hvertex : ∀ i, g.vertex? i = g'.vertex? i)
    (hedge : ∀ head tail, g.edge? head tail = g'.edge? head tail) : g = g' := by
  obtain ⟨slots⟩ := g
  obtain ⟨slots'⟩ := g'
  congr 1
  refine Std.ExtTreeMap.ext_getElem? fun i => ?_
  have hi := hvertex i
  have hout := hedge i
  simp only [vertex?, edge?] at hi hout
  cases hs : slots[i]? with
  | none =>
    rw [hs] at hi
    exact (Option.map_eq_none_iff.1 hi.symm).symm
  | some slot =>
    rw [hs] at hi hout
    obtain ⟨slot', hs', hvalue⟩ := Option.map_eq_some_iff.1 hi.symm
    rw [hs'] at hout ⊢
    have hmap : slot.out = slot'.out := SortedMap.ext_get? hout
    obtain ⟨value, out⟩ := slot
    cases hmap
    cases hvalue
    rfl

theorem insertVertex_eq_ok_iff :
    g.insertVertex index v = .ok g' ↔
      g.hasVertex index = false ∧ g' = ⟨g.slots.insert index ⟨v, .empty⟩⟩ := by
  unfold insertVertex
  cases g.hasVertex index with
  | true => simp
  | false => simp [eq_comm]

theorem vertex?_insertVertex (h : g.insertVertex index v = .ok g') (i : Nat) :
    g'.vertex? i = if i = index then some v else g.vertex? i := by
  obtain ⟨-, rfl⟩ := insertVertex_eq_ok_iff.1 h
  rw [vertex?, vertex?, Std.ExtTreeMap.getElem?_insert]
  simp only [Std.LawfulEqOrd.compare_eq_iff_eq, eq_comm (a := index)]
  split <;> rfl

theorem numVertices_insertVertex (h : g.insertVertex index v = .ok g') :
    g'.numVertices = g.numVertices + 1 := by
  obtain ⟨hnew, rfl⟩ := insertVertex_eq_ok_iff.1 h
  rw [numVertices, Std.ExtTreeMap.size_insert, if_neg]
  · rfl
  · rw [Bool.not_eq_true]
    exact hnew

theorem edge?_insertVertex (h : g.insertVertex index v = .ok g') (head tail : Nat) :
    g'.edge? head tail = g.edge? head tail := by
  obtain ⟨hnew, rfl⟩ := insertVertex_eq_ok_iff.1 h
  have hnone : g.slots[index]? = none := Std.ExtTreeMap.getElem?_eq_none_of_contains_eq_false hnew
  rw [edge?, edge?, Std.ExtTreeMap.getElem?_insert]
  simp only [Std.LawfulEqOrd.compare_eq_iff_eq]
  by_cases heq : index = head
  · subst heq
    rw [if_pos rfl, hnone]
    rfl
  · rw [if_neg heq]

theorem insertEdge_eq_ok_iff :
    g.insertEdge head tail e = .ok g' ↔
      g.edge? head tail = none ∧ g.hasVertex tail = true ∧ ∃ slot, g.slots[head]? = some slot ∧
        g' = ⟨g.slots.insert head { slot with out := slot.out.insert tail e }⟩ := by
  unfold insertEdge hasEdge
  cases g.edge? head tail with
  | some e' => simp
  | none =>
    cases g.slots[head]? with
    | none => simp
    | some slot => cases g.hasVertex tail <;> simp [eq_comm]

theorem exists_insertEdge (hnew : g.edge? head tail = none) (hhead : (g.vertex? head).isSome)
    (htail : (g.vertex? tail).isSome) (e : ε) : ∃ g', g.insertEdge head tail e = .ok g' := by
  rw [vertex?, Option.isSome_map] at hhead
  obtain ⟨slot, hslot⟩ := Option.isSome_iff_exists.1 hhead
  exact ⟨_, insertEdge_eq_ok_iff.2 ⟨hnew, vertex?_isSome_iff.1 htail, slot, hslot, rfl⟩⟩

theorem vertex?_insertEdge (h : g.insertEdge head tail e = .ok g') (i : Nat) :
    g'.vertex? i = g.vertex? i := by
  obtain ⟨-, -, slot, hslot, rfl⟩ := insertEdge_eq_ok_iff.1 h
  rw [vertex?, vertex?, Std.ExtTreeMap.getElem?_insert]
  simp only [Std.LawfulEqOrd.compare_eq_iff_eq]
  by_cases heq : head = i
  · subst heq
    rw [if_pos rfl, hslot]
    rfl
  · rw [if_neg heq]

theorem numVertices_insertEdge (h : g.insertEdge head tail e = .ok g') :
    g'.numVertices = g.numVertices := by
  obtain ⟨-, -, slot, hslot, rfl⟩ := insertEdge_eq_ok_iff.1 h
  rw [numVertices, Std.ExtTreeMap.size_insert, if_pos]
  · rfl
  · exact Std.ExtTreeMap.mem_iff_isSome_getElem?.2 (by rw [hslot]; rfl)

theorem edge?_insertEdge (h : g.insertEdge head tail e = .ok g') (head' tail' : Nat) :
    g'.edge? head' tail' =
      if head' = head ∧ tail' = tail then some e else g.edge? head' tail' := by
  obtain ⟨-, -, slot, hslot, rfl⟩ := insertEdge_eq_ok_iff.1 h
  rw [edge?, edge?, Std.ExtTreeMap.getElem?_insert]
  simp only [Std.LawfulEqOrd.compare_eq_iff_eq]
  by_cases heq : head = head'
  · subst heq
    rw [if_pos rfl, hslot, Option.bind_some, Option.bind_some, SortedMap.get?_insert]
    simp only [true_and]
  · rw [if_neg heq, if_neg fun h' => heq h'.1.symm]

end Digraph

namespace SpecGraph

variable {g g' : SpecGraph} {n : Node} {e : Edge} {i : Nat} {id : String}

/-! ## One addition -/

theorem insertNode_eq_ok_iff :
    g.insertNode n = .ok g' ↔ g.index? n.id = none ∧
      g.graph.insertVertex g.numNodes n = .ok g'.graph ∧ g'.ids = g.ids.insert n.id g.numNodes := by
  unfold insertNode hasNode
  cases g.index? n.id with
  | some i => simp
  | none =>
    simp only [Option.isSome_none, Bool.false_eq_true, if_false, true_and]
    constructor
    · intro h
      obtain ⟨graph, hgraph, h⟩ := bind_eq_ok_iff.1 h
      cases h
      exact ⟨hgraph, rfl⟩
    · rintro ⟨hgraph, hids⟩
      rw [hgraph]
      obtain ⟨graph, ids⟩ := g'
      cases hids
      rfl

theorem node?_insertNode (h : g.insertNode n = .ok g') (i : Nat) :
    g'.node? i = if i = g.numNodes then some n else g.node? i :=
  Digraph.vertex?_insertVertex (insertNode_eq_ok_iff.1 h).2.1 i

theorem numNodes_insertNode (h : g.insertNode n = .ok g') : g'.numNodes = g.numNodes + 1 :=
  Digraph.numVertices_insertVertex (insertNode_eq_ok_iff.1 h).2.1

theorem edge?_insertNode (h : g.insertNode n = .ok g') (head tail : Nat) :
    g'.graph.edge? head tail = g.graph.edge? head tail :=
  Digraph.edge?_insertVertex (insertNode_eq_ok_iff.1 h).2.1 head tail

theorem index?_insertNode (h : g.insertNode n = .ok g') (id : String) :
    g'.index? id = if id = n.id then some g.numNodes else g.index? id := by
  rw [index?, (insertNode_eq_ok_iff.1 h).2.2, Std.ExtTreeMap.getElem?_insert]
  simp only [Std.LawfulEqOrd.compare_eq_iff_eq, eq_comm (a := n.id)]
  rfl

theorem indexOf_eq_ok_iff : g.indexOf id = .ok i ↔ g.index? id = some i := by
  rw [indexOf]
  cases g.index? id <;> simp

theorem insertEdge_eq_ok_iff :
    g.insertEdge e = .ok g' ↔ ∃ head tail, g.index? e.source = some head ∧
      g.index? e.target = some tail ∧ g.graph.insertEdge head tail e.link = .ok g'.graph ∧
        g'.ids = g.ids := by
  constructor
  · intro h
    obtain ⟨head, hhead, h⟩ := bind_eq_ok_iff.1 h
    obtain ⟨tail, htail, h⟩ := bind_eq_ok_iff.1 h
    obtain ⟨graph, hgraph, h⟩ := bind_eq_ok_iff.1 h
    cases h
    exact ⟨head, tail, indexOf_eq_ok_iff.1 hhead, indexOf_eq_ok_iff.1 htail, hgraph, rfl⟩
  · rintro ⟨head, tail, hhead, htail, hgraph, hids⟩
    obtain ⟨graph, ids⟩ := g'
    cases hids
    exact bind_eq_ok_iff.2 ⟨head, indexOf_eq_ok_iff.2 hhead, bind_eq_ok_iff.2
      ⟨tail, indexOf_eq_ok_iff.2 htail, bind_eq_ok_iff.2 ⟨graph, hgraph, rfl⟩⟩⟩

theorem node?_insertEdge (h : g.insertEdge e = .ok g') (i : Nat) : g'.node? i = g.node? i := by
  obtain ⟨head, tail, -, -, hgraph, -⟩ := insertEdge_eq_ok_iff.1 h
  exact Digraph.vertex?_insertEdge hgraph i

theorem numNodes_insertEdge (h : g.insertEdge e = .ok g') : g'.numNodes = g.numNodes := by
  obtain ⟨head, tail, -, -, hgraph, -⟩ := insertEdge_eq_ok_iff.1 h
  exact Digraph.numVertices_insertEdge hgraph

theorem index?_insertEdge (h : g.insertEdge e = .ok g') (id : String) :
    g'.index? id = g.index? id := by
  obtain ⟨head, tail, -, -, -, hids⟩ := insertEdge_eq_ok_iff.1 h
  rw [index?, hids]
  rfl

/-! ## The invariant -/

/-- The nodes are numbered from zero without gaps, the index of ids finds exactly the nodes, and
    links join nodes. -/
structure Indexed (g : SpecGraph) : Prop where
  numbered : ∀ i, (g.node? i).isSome ↔ i < g.numNodes
  named : ∀ id i, g.index? id = some i ↔ ∃ n, g.node? i = some n ∧ n.id = id
  joined : ∀ head tail link, g.graph.edge? head tail = some link →
    head < g.numNodes ∧ tail < g.numNodes

namespace Indexed

theorem empty : Indexed .empty where
  numbered i := by simp [node?, numNodes, SpecGraph.empty, Digraph.vertex?, Digraph.numVertices,
    Digraph.empty]
  named id i := by simp [node?, index?, SpecGraph.empty, Digraph.vertex?, Digraph.empty]
  joined head tail link h := by cases h

theorem lt (hg : g.Indexed) (h : g.node? i = some n) : i < g.numNodes :=
  (hg.numbered i).1 (by rw [h]; rfl)

theorem exists_node (hg : g.Indexed) (h : i < g.numNodes) : ∃ n, g.node? i = some n :=
  Option.isSome_iff_exists.1 ((hg.numbered i).2 h)

theorem index?_id (hg : g.Indexed) (h : g.node? i = some n) : g.index? n.id = some i :=
  (hg.named n.id i).2 ⟨n, h, rfl⟩

theorem lt_of_index? (hg : g.Indexed) {id : String} (h : g.index? id = some i) :
    i < g.numNodes := by
  obtain ⟨n, hn, -⟩ := (hg.named id i).1 h
  exact hg.lt hn

/-- Nodes have different ids. -/
theorem eq_of_id (hg : g.Indexed) {i' : Nat} {n' : Node} (h : g.node? i = some n)
    (h' : g.node? i' = some n') (hid : n.id = n'.id) : i = i' :=
  Option.some.inj ((hg.index?_id h).symm.trans (hid ▸ hg.index?_id h'))

theorem id_unique (hg : g.Indexed) {id id' : String} (h : g.index? id = some i)
    (h' : g.index? id' = some i) : id = id' := by
  obtain ⟨n, hn, rfl⟩ := (hg.named _ _).1 h
  obtain ⟨n', hn', rfl⟩ := (hg.named _ _).1 h'
  rw [Option.some.inj (hn.symm.trans hn')]

theorem find?_eq_some_iff (hg : g.Indexed) :
    g.find? id = some (i, n) ↔ g.node? i = some n ∧ n.id = id := by
  unfold find?
  constructor
  · intro h
    obtain ⟨i', hi, h⟩ := Option.bind_eq_some_iff.1 h
    obtain ⟨n', hn, h⟩ := Option.bind_eq_some_iff.1 h
    cases h
    obtain ⟨n₁, hn₁, hid⟩ := (hg.named id i).1 hi
    cases hn₁.symm.trans hn
    exact ⟨hn, hid⟩
  · rintro ⟨hn, rfl⟩
    exact Option.bind_eq_some_iff.2
      ⟨i, hg.index?_id hn, Option.bind_eq_some_iff.2 ⟨n, hn, rfl⟩⟩

theorem insertNode (hg : g.Indexed) (h : g.insertNode n = .ok g') : g'.Indexed where
  numbered i := by
    rw [node?_insertNode h, numNodes_insertNode h]
    split
    · next heq => simp [heq]
    · next hne =>
      rw [hg.numbered]
      omega
  named id i := by
    have hnew := (insertNode_eq_ok_iff.1 h).1
    rw [index?_insertNode h, node?_insertNode h]
    by_cases hid : id = n.id
    · subst hid
      rw [if_pos rfl]
      constructor
      · rintro heq
        cases heq
        exact ⟨n, if_pos rfl, rfl⟩
      · rintro ⟨n', hn', hid⟩
        split at hn'
        · next heq => rw [heq]
        · rw [← hid, hg.index?_id hn'] at hnew
          cases hnew
    · rw [if_neg hid, hg.named]
      constructor
      · rintro ⟨n', hn', hid'⟩
        refine ⟨n', ?_, hid'⟩
        rw [if_neg (hg.lt hn').ne, hn']
      · rintro ⟨n', hn', hid'⟩
        split at hn'
        · cases hn'
          exact absurd hid'.symm hid
        · exact ⟨n', hn', hid'⟩
  joined head tail link hedge := by
    rw [edge?_insertNode h] at hedge
    obtain ⟨hhead, htail⟩ := hg.joined head tail link hedge
    rw [numNodes_insertNode h]
    omega

theorem insertEdge (hg : g.Indexed) (h : g.insertEdge e = .ok g') : g'.Indexed where
  numbered i := by rw [node?_insertEdge h, numNodes_insertEdge h, hg.numbered]
  named id i := by
    simp only [index?_insertEdge h, node?_insertEdge h]
    exact hg.named id i
  joined head tail link hedge := by
    obtain ⟨head', tail', hhead, htail, hgraph, -⟩ := insertEdge_eq_ok_iff.1 h
    rw [numNodes_insertEdge h]
    rw [Digraph.edge?_insertEdge hgraph] at hedge
    split at hedge
    · next heq =>
      obtain ⟨rfl, rfl⟩ := heq
      obtain ⟨source, hsource, -⟩ := (hg.named _ _).1 hhead
      obtain ⟨target, htarget, -⟩ := (hg.named _ _).1 htail
      exact ⟨hg.lt hsource, hg.lt htarget⟩
    · exact hg.joined head tail link hedge

/-- The nodes and the links determine an indexed graph. -/
theorem ext (hg : g.Indexed) (hg' : g'.Indexed) (hnode : ∀ i, g.node? i = g'.node? i)
    (hedge : ∀ head tail, g.graph.edge? head tail = g'.graph.edge? head tail) : g = g' := by
  have hgraph : g.graph = g'.graph := Digraph.ext_get? hnode hedge
  have hids : g.ids = g'.ids := by
    refine Std.ExtTreeMap.ext_getElem? fun id => Option.ext fun i => ?_
    have h := hg.named id i
    simp only [hnode] at h
    exact h.trans (hg'.named id i).symm
  obtain ⟨graph, ids⟩ := g
  cases hgraph
  cases hids
  rfl

/-! ## Lists of nodes -/

theorem keys_slots (hg : g.Indexed) : g.graph.slots.keys = List.range g.numNodes := by
  refine List.Pairwise.eq_of_mem_iff (r := (· < ·)) ?_ List.pairwise_lt_range fun i => ?_
  · exact Std.ExtTreeMap.ordered_keys.imp fun h => Nat.compare_eq_lt.1 h
  · rw [List.mem_range, ← hg.numbered, Std.ExtTreeMap.mem_keys, node?, Digraph.vertex?_isSome_iff,
      Digraph.hasVertex, Std.ExtTreeMap.contains_iff_mem]

theorem getElem?_indexedNodes (hg : g.Indexed) (i : Nat) :
    g.indexedNodes[i]? = (g.node? i).map (i, ·) := by
  rw [indexedNodes, Digraph.vertices, List.getElem?_map]
  cases h : g.graph.slots.toList[i]? with
  | none =>
    have hlen : g.numNodes ≤ i := by
      rw [numNodes, Digraph.numVertices, ← Std.ExtTreeMap.length_toList]
      exact List.getElem?_eq_none_iff.1 h
    have hnone : g.node? i = none := by
      rw [← Option.not_isSome_iff_eq_none, hg.numbered]
      omega
    rw [hnone]
    rfl
  | some entry =>
    obtain ⟨j, slot⟩ := entry
    have hkey : (List.range g.numNodes)[i]? = some j := by
      rw [← hg.keys_slots, ← Std.ExtTreeMap.map_fst_toList_eq_keys, List.getElem?_map, h]
      rfl
    obtain ⟨_, hj⟩ := List.getElem?_eq_some_iff.1 hkey
    rw [List.getElem_range] at hj
    subst hj
    have hslot := Std.ExtTreeMap.mem_toList_iff_getElem?_eq_some.1 (List.mem_of_getElem? h)
    rw [node?, Digraph.vertex?, hslot]
    rfl

theorem getElem?_nodes (hg : g.Indexed) (i : Nat) : g.nodes[i]? = g.node? i := by
  rw [nodes, List.getElem?_map, hg.getElem?_indexedNodes, Option.map_map]
  exact Option.map_id'

theorem mem_nodes_iff (hg : g.Indexed) : n ∈ g.nodes ↔ ∃ i, g.node? i = some n := by
  rw [List.mem_iff_getElem?]
  simp only [hg.getElem?_nodes]

theorem length_nodes (g : SpecGraph) : g.nodes.length = g.numNodes := by
  rw [nodes, indexedNodes, Digraph.vertices, List.length_map, List.length_map,
    Std.ExtTreeMap.length_toList]
  rfl

theorem nodes_insertNode (hg : g.Indexed) (h : g.insertNode n = .ok g') :
    g'.nodes = g.nodes ++ [n] := by
  refine List.ext_getElem? fun i => ?_
  rw [(hg.insertNode h).getElem?_nodes, node?_insertNode h, List.getElem?_append, length_nodes]
  rcases lt_trichotomy i g.numNodes with hlt | rfl | hgt
  · rw [if_neg hlt.ne, if_pos hlt, hg.getElem?_nodes]
  · rw [if_pos rfl, if_neg (lt_irrefl _), Nat.sub_self]
    rfl
  · have hnone : g.node? i = none := by
      rw [← Option.not_isSome_iff_eq_none, hg.numbered]
      omega
    rw [if_neg hgt.ne', hnone, if_neg hgt.not_gt, List.getElem?_eq_none]
    rw [List.length_singleton]
    omega

/-- The next number is free. -/
theorem insertVertex_numNodes (hg : g.Indexed) (n : Node) :
    g.graph.insertVertex g.numNodes n = .ok ⟨g.graph.slots.insert g.numNodes ⟨n, .empty⟩⟩ := by
  refine Digraph.insertVertex_eq_ok_iff.2 ⟨?_, rfl⟩
  rw [← Bool.not_eq_true, ← Digraph.vertex?_isSome_iff]
  exact fun h => lt_irrefl _ ((hg.numbered _).1 h)

theorem exists_insertNode (hg : g.Indexed) (hnew : g.index? n.id = none) :
    ∃ g', g.insertNode n = .ok g' :=
  ⟨⟨_, _⟩, insertNode_eq_ok_iff.2 ⟨hnew, hg.insertVertex_numNodes n, rfl⟩⟩

/-- Nodes with new and different ids can be added. -/
theorem exists_insertNodes (hg : g.Indexed) {ns : List Node}
    (hnew : ∀ n ∈ ns, g.index? n.id = none) (hdistinct : ns.Pairwise fun a b => a.id ≠ b.id) :
    ∃ g', g.insertNodes ns = .ok g' ∧ g'.Indexed ∧ g'.nodes = g.nodes ++ ns ∧
      ∀ head tail, g'.graph.edge? head tail = g.graph.edge? head tail := by
  induction ns generalizing g with
  | nil => exact ⟨g, rfl, hg, (List.append_nil _).symm, fun _ _ => rfl⟩
  | cons n ns ih =>
    obtain ⟨g₁, h₁⟩ := hg.exists_insertNode (hnew n List.mem_cons_self)
    obtain ⟨hn, hdistinct⟩ := List.pairwise_cons.1 hdistinct
    have hnew₁ : ∀ n' ∈ ns, g₁.index? n'.id = none := by
      intro n' hn'
      rw [index?_insertNode h₁, if_neg (hn n' hn').symm]
      exact hnew n' (List.mem_cons_of_mem _ hn')
    obtain ⟨g', h', hg', hnodes, hedges⟩ := ih (hg.insertNode h₁) hnew₁ hdistinct
    refine ⟨g', ?_, hg', ?_, fun head tail => ?_⟩
    · rw [insertNodes, List.foldlM_cons, h₁]
      exact h'
    · rw [hnodes, hg.nodes_insertNode h₁, List.append_assoc]
      rfl
    · rw [hedges, edge?_insertNode h₁]

/-! ## Lists of links -/

end Indexed

theorem locate?_eq_some_iff {head tail : Nat} {link : Link} {l : Located} :
    g.locate? head tail link = some l ↔ l.head = head ∧ l.tail = tail ∧ l.link = link ∧
      g.node? head = some l.source ∧ g.node? tail = some l.target := by
  constructor
  · intro h
    obtain ⟨source, hsource, h⟩ := Option.bind_eq_some_iff.1 h
    obtain ⟨target, htarget, h⟩ := Option.bind_eq_some_iff.1 h
    cases h
    exact ⟨rfl, rfl, rfl, hsource, htarget⟩
  · rintro ⟨rfl, rfl, rfl, hsource, htarget⟩
    exact Option.bind_eq_some_iff.2 ⟨_, hsource, Option.bind_eq_some_iff.2 ⟨_, htarget, rfl⟩⟩

theorem mem_linksFrom_iff {index : Nat} {l : Located} :
    l ∈ g.linksFrom index ↔ l.head = index ∧ g.graph.edge? l.head l.tail = some l.link ∧
      g.node? l.head = some l.source ∧ g.node? l.tail = some l.target := by
  rw [linksFrom, List.mem_filterMap]
  constructor
  · rintro ⟨⟨tail, link⟩, hmem, hlocate⟩
    obtain ⟨rfl, rfl, rfl, hsource, htarget⟩ := locate?_eq_some_iff.1 hlocate
    exact ⟨rfl, Digraph.mem_edgesOut_iff.1 hmem, hsource, htarget⟩
  · rintro ⟨rfl, hedge, hsource, htarget⟩
    exact ⟨(l.tail, l.link), Digraph.mem_edgesOut_iff.2 hedge,
      locate?_eq_some_iff.2 ⟨rfl, rfl, rfl, hsource, htarget⟩⟩

theorem mem_links_iff {l : Located} :
    l ∈ g.links ↔ g.graph.edge? l.head l.tail = some l.link ∧
      g.node? l.head = some l.source ∧ g.node? l.tail = some l.target := by
  rw [links, List.mem_filterMap]
  constructor
  · rintro ⟨⟨head, tail, link⟩, hmem, hlocate⟩
    obtain ⟨rfl, rfl, rfl, hsource, htarget⟩ := locate?_eq_some_iff.1 hlocate
    exact ⟨Digraph.mem_edges_iff.1 hmem, hsource, htarget⟩
  · rintro ⟨hedge, hsource, htarget⟩
    exact ⟨(l.head, l.tail, l.link), Digraph.mem_edges_iff.2 hedge,
      locate?_eq_some_iff.2 ⟨rfl, rfl, rfl, hsource, htarget⟩⟩

/-- Two links differ in an end. -/
def Located.Apart (a b : Located) : Prop := (a.head, a.tail) ≠ (b.head, b.tail)

/-- Links are listed by the number of the node they leave, then by that of the node they enter. -/
theorem pairwise_links_lt (g : SpecGraph) :
    g.links.Pairwise fun a b => toLex (a.head, a.tail) < toLex (b.head, b.tail) := by
  refine List.Pairwise.filterMap _ ?_ g.graph.pairwise_edges_lt
  intro a b hlt l hl l' hl'
  obtain ⟨hhead, htail, -⟩ := locate?_eq_some_iff.1 hl
  obtain ⟨hhead', htail', -⟩ := locate?_eq_some_iff.1 hl'
  rw [hhead, htail, hhead', htail']
  exact hlt

theorem pairwise_links (g : SpecGraph) : g.links.Pairwise Located.Apart :=
  g.pairwise_links_lt.imp fun hlt heq => hlt.ne (congrArg toLex heq)

namespace Indexed

/-- A link between nodes that have none can be added. -/
theorem exists_insertEdge (hg : g.Indexed) {l : Located} (hsource : g.node? l.head = some l.source)
    (htarget : g.node? l.tail = some l.target) (hnew : g.graph.edge? l.head l.tail = none) :
    ∃ g', g.insertEdge l.edge = .ok g' ∧ ∀ head tail, g'.graph.edge? head tail =
      if head = l.head ∧ tail = l.tail then some l.link else g.graph.edge? head tail := by
  have hhead : (g.node? l.head).isSome := (hg.numbered _).2 (hg.lt hsource)
  have htail : (g.node? l.tail).isSome := (hg.numbered _).2 (hg.lt htarget)
  obtain ⟨graph, hgraph⟩ := Digraph.exists_insertEdge hnew hhead htail l.link
  exact ⟨⟨graph, g.ids⟩, insertEdge_eq_ok_iff.2
    ⟨l.head, l.tail, hg.index?_id hsource, hg.index?_id htarget, hgraph, rfl⟩,
    Digraph.edge?_insertEdge hgraph⟩

/-- New links between nodes can be added. -/
theorem exists_insertEdges (hg : g.Indexed) {ls : List Located}
    (hends : ∀ l ∈ ls, g.node? l.head = some l.source ∧ g.node? l.tail = some l.target)
    (hnew : ∀ l ∈ ls, g.graph.edge? l.head l.tail = none) (hapart : ls.Pairwise Located.Apart) :
    ∃ g', g.insertEdges (ls.map Located.edge) = .ok g' ∧ g'.Indexed ∧
      (∀ i, g'.node? i = g.node? i) ∧
      ∀ head tail link, g'.graph.edge? head tail = some link ↔
        g.graph.edge? head tail = some link ∨
          ∃ l ∈ ls, l.head = head ∧ l.tail = tail ∧ l.link = link := by
  induction ls generalizing g with
  | nil => exact ⟨g, rfl, hg, fun _ => rfl, by simp⟩
  | cons l ls ih =>
    obtain ⟨hsource, htarget⟩ := hends l List.mem_cons_self
    obtain ⟨g₁, h₁, hedge₁⟩ := hg.exists_insertEdge hsource htarget (hnew l List.mem_cons_self)
    obtain ⟨hl, hapart⟩ := List.pairwise_cons.1 hapart
    have hnew₁ : ∀ l' ∈ ls, g₁.graph.edge? l'.head l'.tail = none := by
      intro l' hl'
      rw [hedge₁, if_neg]
      · exact hnew l' (List.mem_cons_of_mem _ hl')
      · rintro ⟨hhead, htail⟩
        exact hl l' hl' (Prod.ext hhead.symm htail.symm)
    have hends₁ : ∀ l' ∈ ls, g₁.node? l'.head = some l'.source ∧
        g₁.node? l'.tail = some l'.target := by
      intro l' hl'
      rw [node?_insertEdge h₁, node?_insertEdge h₁]
      exact hends l' (List.mem_cons_of_mem _ hl')
    obtain ⟨g', h', hg', hnodes, hedges⟩ := ih (hg.insertEdge h₁) hends₁ hnew₁ hapart
    refine ⟨g', ?_, hg', fun i => ?_, fun head tail link => ?_⟩
    · rw [insertEdges, List.map_cons, List.foldlM_cons, h₁]
      exact h'
    · rw [hnodes, node?_insertEdge h₁]
    · rw [hedges, hedge₁]
      have hfree := hnew l List.mem_cons_self
      by_cases heq : head = l.head ∧ tail = l.tail
      · obtain ⟨rfl, rfl⟩ := heq
        simp only [and_self, if_true, Option.some.injEq, hfree, reduceCtorEq, false_or,
          List.mem_cons, exists_eq_or_imp, true_and]
      · simp only [if_neg heq, List.mem_cons, exists_eq_or_imp]
        refine or_congr_right ⟨.inr, fun h => h.resolve_left ?_⟩
        rintro ⟨hhead, htail, -⟩
        exact heq ⟨hhead.symm, htail.symm⟩

theorem mem_edges_iff (hg : g.Indexed) :
    e ∈ g.edges ↔ ∃ head tail, g.index? e.source = some head ∧ g.index? e.target = some tail ∧
      g.graph.edge? head tail = some e.link := by
  rw [edges, List.mem_map]
  constructor
  · rintro ⟨l, hl, rfl⟩
    obtain ⟨hedge, hsource, htarget⟩ := mem_links_iff.1 hl
    exact ⟨l.head, l.tail, hg.index?_id hsource, hg.index?_id htarget, hedge⟩
  · rintro ⟨head, tail, hhead, htail, hedge⟩
    obtain ⟨source, hsource, hid⟩ := (hg.named _ _).1 hhead
    obtain ⟨target, htarget, hid'⟩ := (hg.named _ _).1 htail
    refine ⟨⟨head, source, tail, target, e.link⟩, mem_links_iff.2 ⟨hedge, hsource, htarget⟩, ?_⟩
    rw [Located.edge, hid, hid']

/-- Nodes that have a link have an edge, and only one. -/
theorem pairwise_edges (hg : g.Indexed) :
    g.edges.Pairwise fun e e' => (e.source, e.target) ≠ (e'.source, e'.target) := by
  refine List.pairwise_map.2 (g.pairwise_links.imp_of_mem fun {l l'} hl hl' hapart heq => ?_)
  obtain ⟨-, hsource, htarget⟩ := mem_links_iff.1 hl
  obtain ⟨-, hsource', htarget'⟩ := mem_links_iff.1 hl'
  obtain ⟨hid, hid'⟩ := Prod.mk.inj heq
  exact hapart (Prod.ext (hg.eq_of_id hsource hsource' hid) (hg.eq_of_id htarget htarget' hid'))

theorem pairwise_nodes (hg : g.Indexed) : g.nodes.Pairwise fun a b => a.id ≠ b.id := by
  rw [List.pairwise_iff_getElem]
  intro i j hi hj hlt hid
  have hni := hg.getElem?_nodes i
  have hnj := hg.getElem?_nodes j
  rw [List.getElem?_eq_getElem hi] at hni
  rw [List.getElem?_eq_getElem hj] at hnj
  exact hlt.ne (hg.eq_of_id hni.symm hnj.symm hid)

theorem nodup_ids (hg : g.Indexed) : (g.nodes.map Node.id).Nodup :=
  List.pairwise_map.2 hg.pairwise_nodes

theorem mem_ids_iff (hg : g.Indexed) {id : String} :
    id ∈ g.nodes.map Node.id ↔ ∃ i, g.index? id = some i := by
  simp only [List.mem_map, hg.mem_nodes_iff, hg.named]
  constructor
  · rintro ⟨n, ⟨i, hn⟩, hid⟩
    exact ⟨i, n, hn, hid⟩
  · rintro ⟨i, n, hn, hid⟩
    exact ⟨n, ⟨i, hn⟩, hid⟩

theorem hasNode_iff (hg : g.Indexed) {id : String} :
    g.hasNode id = true ↔ id ∈ g.nodes.map Node.id := by
  rw [hasNode, Option.isSome_iff_exists, hg.mem_ids_iff]

/-- What is there after nodes have been added. -/
theorem of_insertNodes (hg : g.Indexed) {ns : List Node} (h : g.insertNodes ns = .ok g') :
    g'.Indexed ∧ g'.nodes = g.nodes ++ ns ∧
      ∀ head tail, g'.graph.edge? head tail = g.graph.edge? head tail := by
  induction ns generalizing g with
  | nil =>
    cases h
    exact ⟨hg, (List.append_nil _).symm, fun _ _ => rfl⟩
  | cons n ns ih =>
    rw [insertNodes, List.foldlM_cons] at h
    obtain ⟨g₁, h₁, h⟩ := bind_eq_ok_iff.1 h
    obtain ⟨hg', hnodes, hedges⟩ := ih (hg.insertNode h₁) h
    refine ⟨hg', ?_, fun head tail => ?_⟩
    · rw [hnodes, hg.nodes_insertNode h₁, List.append_assoc]
      rfl
    · rw [hedges, edge?_insertNode h₁]

/-- A graph is put together again of its nodes, by their numbers, and of its links. -/
theorem exists_insert_all (hg : g.Indexed) {ls : List Located} (hls : ∀ l, l ∈ ls ↔ l ∈ g.links)
    (hapart : ls.Pairwise Located.Apart) :
    ∃ g₁, SpecGraph.empty.insertNodes g.nodes = .ok g₁ ∧
      g₁.insertEdges (ls.map Located.edge) = .ok g := by
  have hids : ∀ n ∈ g.nodes, SpecGraph.empty.index? n.id = none := fun n _ => by
    simp [index?, SpecGraph.empty]
  obtain ⟨g₁, h₁, hg₁, hnodes₁, hedges₁⟩ := empty.exists_insertNodes hids hg.pairwise_nodes
  have hnode₁ : ∀ i, g₁.node? i = g.node? i := by
    intro i
    rw [← hg₁.getElem?_nodes, ← hg.getElem?_nodes, hnodes₁]
    rfl
  have hnone₁ : ∀ head tail, g₁.graph.edge? head tail = none := hedges₁
  have hends : ∀ l ∈ ls, g₁.node? l.head = some l.source ∧ g₁.node? l.tail = some l.target := by
    intro l hl
    rw [hnode₁, hnode₁]
    exact (mem_links_iff.1 ((hls l).1 hl)).2
  obtain ⟨g₂, h₂, hg₂, hnode₂, hedge₂⟩ := hg₁.exists_insertEdges hends
    (fun l _ => hnone₁ l.head l.tail) hapart
  have heq : g₂ = g := by
    refine hg₂.ext hg (fun i => (hnode₂ i).trans (hnode₁ i)) fun head tail =>
      Option.ext fun link => ?_
    rw [hedge₂, hnone₁]
    simp only [reduceCtorEq, false_or, hls]
    constructor
    · rintro ⟨l, hl, rfl, rfl, rfl⟩
      exact (mem_links_iff.1 hl).1
    · intro hedge
      obtain ⟨hhead, htail⟩ := hg.joined head tail link hedge
      obtain ⟨source, hsource⟩ := hg.exists_node hhead
      obtain ⟨target, htarget⟩ := hg.exists_node htail
      exact ⟨⟨head, source, tail, target, link⟩, mem_links_iff.2 ⟨hedge, hsource, htarget⟩,
        rfl, rfl, rfl⟩
  exact ⟨g₁, h₁, h₂.trans (congrArg _ heq)⟩

end Indexed

/-- Of nodes alone comes a graph without links. -/
theorem lists_of_insertNodes {ns : List Node} (h : empty.insertNodes ns = .ok g) :
    g.Indexed ∧ g.nodes = ns ∧ g.edges = [] := by
  obtain ⟨hg, hnodes, hedges⟩ := Indexed.empty.of_insertNodes h
  refine ⟨hg, hnodes, List.eq_nil_iff_forall_not_mem.2 fun e he => ?_⟩
  obtain ⟨head, tail, -, -, hedge⟩ := hg.mem_edges_iff.1 he
  rw [hedges] at hedge
  cases hedge

end SpecGraph

end Mispredict
