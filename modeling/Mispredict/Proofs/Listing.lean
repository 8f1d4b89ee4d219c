/-
  Graphs that are given by lists.

  A graph is written as the list of its nodes and the list of its links, and it is read by
  adding first the nodes and then the links. Nodes can be added exactly if they and those that
  are there have different ids (`exists_insertNodes_iff`), and links exactly if their ends are
  nodes and no two of them have the same ends (`exists_insertEdges_iff`). Together with the
  rule for rollbacks these are all the conditions: lists that meet them (`WellFormed`) are
  accepted, and no others.

  What is read is in normal form. The graph lists its nodes in the order in which they were
  given. It lists the links that were given by the places of their ends, whatever their order
  was (`Indexed.pairwise_place`).
-/
import Mispredict.Proofs.ReadBack
import Mispredict.Proofs.Representation

namespace Mispredict

/-- The ids of the two ends of a link. -/
def Edge.ends (e : Edge) : String × String := (e.source, e.target)

/-- The place of the node with this id in a list of nodes. -/
def Node.position (ns : List Node) (id : String) : Nat := (ns.map Node.id).idxOf id

/-- The place of a link: that of the node it leaves, then that of the node it enters. -/
def Edge.place (ns : List Node) (e : Edge) : Lex (Nat × Nat) :=
  toLex (Node.position ns e.source, Node.position ns e.target)

namespace SpecGraph

variable {g g' : SpecGraph} {n : Node} {e : Edge} {ns : List Node} {es : List Edge}

/-! ## Nodes -/

namespace Indexed

/-- Nodes can be added if they and those that are there have different ids. -/
theorem exists_insertNodes_iff (hg : g.Indexed) :
    (∃ g', g.insertNodes ns = .ok g') ↔ ((g.nodes ++ ns).map Node.id).Nodup := by
  constructor
  · rintro ⟨g', h⟩
    obtain ⟨hg', hnodes, -⟩ := hg.of_insertNodes h
    exact hnodes ▸ hg'.nodup_ids
  · intro hnodup
    rw [List.map_append, List.nodup_append'] at hnodup
    obtain ⟨-, hdistinct, hdisjoint⟩ := hnodup
    have hnew : ∀ n ∈ ns, g.index? n.id = none := by
      intro n hn
      rw [← Option.not_isSome_iff_eq_none, Option.isSome_iff_exists, ← hg.mem_ids_iff]
      exact fun hmem => hdisjoint hmem (List.mem_map_of_mem hn)
    obtain ⟨g', h, -⟩ := hg.exists_insertNodes hnew (List.pairwise_map.1 hdistinct)
    exact ⟨g', h⟩

/-! ## Links -/

theorem nodup_ends (hg : g.Indexed) : (g.edges.map Edge.ends).Nodup :=
  List.pairwise_map.2 hg.pairwise_edges

/-- A graph lists the link that was added, and those that it had. -/
theorem edges_insertEdge (hg : g.Indexed) (h : g.insertEdge e = .ok g') :
    g'.edges.Perm (e :: g.edges) := by
  obtain ⟨head, tail, hhead, htail, hgraph, -⟩ := insertEdge_eq_ok_iff.1 h
  have hfree : g.graph.edge? head tail = none := (Digraph.insertEdge_eq_ok_iff.1 hgraph).1
  have hg' := hg.insertEdge h
  have hnew : e ∉ g.edges := by
    intro hmem
    obtain ⟨head', tail', hhead', htail', hedge⟩ := hg.mem_edges_iff.1 hmem
    cases hhead.symm.trans hhead'
    cases htail.symm.trans htail'
    rw [hfree] at hedge
    cases hedge
  refine (List.perm_ext_iff_of_nodup (hg'.nodup_ends.of_map _)
    (List.nodup_cons.2 ⟨hnew, hg.nodup_ends.of_map _⟩)).2 fun e' => ?_
  rw [List.mem_cons, hg.mem_edges_iff, hg'.mem_edges_iff]
  simp only [index?_insertEdge h, Digraph.edge?_insertEdge hgraph]
  constructor
  · rintro ⟨head', tail', hhead', htail', hedge⟩
    split at hedge
    -- nodes are known by their numbers, so a link between these two nodes is the new one
    · next heq =>
      obtain ⟨rfl, rfl⟩ := heq
      obtain ⟨source, target, link⟩ := e
      obtain ⟨source', target', link'⟩ := e'
      cases hg.id_unique hhead hhead'
      cases hg.id_unique htail htail'
      cases hedge
      exact .inl rfl
    · exact .inr ⟨head', tail', hhead', htail', hedge⟩
  · rintro (rfl | ⟨head', tail', hhead', htail', hedge⟩)
    · exact ⟨head, tail, hhead, htail, if_pos ⟨rfl, rfl⟩⟩
    · refine ⟨head', tail', hhead', htail', ?_⟩
      rw [if_neg, hedge]
      rintro ⟨rfl, rfl⟩
      rw [hfree] at hedge
      cases hedge

theorem ends_of_insertEdge (hg : g.Indexed) (h : g.insertEdge e = .ok g') :
    e.source ∈ g.nodes.map Node.id ∧ e.target ∈ g.nodes.map Node.id := by
  obtain ⟨head, tail, hhead, htail, -⟩ := insertEdge_eq_ok_iff.1 h
  exact ⟨hg.mem_ids_iff.2 ⟨head, hhead⟩, hg.mem_ids_iff.2 ⟨tail, htail⟩⟩

/-- A link can be added between nodes that have none. -/
theorem exists_insertEdge_of_ends (hg : g.Indexed) (hsource : e.source ∈ g.nodes.map Node.id)
    (htarget : e.target ∈ g.nodes.map Node.id) (hnew : e.ends ∉ g.edges.map Edge.ends) :
    ∃ g', g.insertEdge e = .ok g' := by
  obtain ⟨head, hhead⟩ := hg.mem_ids_iff.1 hsource
  obtain ⟨tail, htail⟩ := hg.mem_ids_iff.1 htarget
  cases h : g.insertEdge e with
  | ok g' => exact ⟨g', rfl⟩
  | error err =>
    cases hg.insertEdge_eq_error_iff.1 h with
    | noSource source => cases source.symm.trans hhead
    | noTarget source target => cases target.symm.trans htail
    | @duplicate head tail link source target stored =>
      have hmem : ⟨e.source, e.target, link⟩ ∈ g.edges :=
        hg.mem_edges_iff.2 ⟨head, tail, source, target, stored⟩
      exact absurd (List.mem_map.2 ⟨_, hmem, rfl⟩) hnew

theorem of_insertEdges (hg : g.Indexed) (h : g.insertEdges es = .ok g') :
    g'.Indexed ∧ g'.nodes = g.nodes ∧ g'.edges.Perm (g.edges ++ es) ∧
      ∀ e ∈ es, e.source ∈ g.nodes.map Node.id ∧ e.target ∈ g.nodes.map Node.id := by
  induction es generalizing g with
  | nil =>
    cases h
    exact ⟨hg, rfl, by simp, by simp⟩
  | cons e es ih =>
    rw [insertEdges, List.foldlM_cons] at h
    obtain ⟨g₁, h₁, h⟩ := bind_eq_ok_iff.1 h
    obtain ⟨hg', hnodes, hedges, hends⟩ := ih (hg.insertEdge h₁) h
    rw [hg.nodes_insertEdge h₁] at hnodes hends
    have hmoved : (g₁.edges ++ es).Perm (g.edges ++ e :: es) :=
      ((hg.edges_insertEdge h₁).append_right es).trans List.perm_middle.symm
    exact ⟨hg', hnodes, hedges.trans hmoved,
      List.forall_mem_cons.2 ⟨hg.ends_of_insertEdge h₁, hends⟩⟩

/-- Links can be added if their ends are nodes, and if no two of them or of those that are there
    have the same ends. -/
theorem exists_insertEdges_iff (hg : g.Indexed) :
    (∃ g', g.insertEdges es = .ok g') ↔
      (∀ e ∈ es, e.source ∈ g.nodes.map Node.id ∧ e.target ∈ g.nodes.map Node.id) ∧
        ((g.edges ++ es).map Edge.ends).Nodup := by
  constructor
  · rintro ⟨g', h⟩
    obtain ⟨hg', -, hedges, hends⟩ := hg.of_insertEdges h
    exact ⟨hends, (hedges.map Edge.ends).nodup_iff.1 hg'.nodup_ends⟩
  · rintro ⟨hends, hnodup⟩
    induction es generalizing g with
    | nil => exact ⟨g, rfl⟩
    | cons e es ih =>
      obtain ⟨⟨hsource, htarget⟩, hends⟩ := List.forall_mem_cons.1 hends
      -- the first link goes from the list to the graph, which leaves the ends in both the same
      have hnodup := (List.perm_middle.map Edge.ends).nodup_iff.1 hnodup
      have hnew : e.ends ∉ g.edges.map Edge.ends := by
        rw [List.map_cons, List.nodup_cons, List.map_append] at hnodup
        exact fun hmem => hnodup.1 (List.mem_append_left _ hmem)
      obtain ⟨g₁, h₁⟩ := hg.exists_insertEdge_of_ends hsource htarget hnew
      have hperm := ((hg.edges_insertEdge h₁).append_right es).map Edge.ends
      obtain ⟨g', h'⟩ := ih (hg.insertEdge h₁) (hg.nodes_insertEdge h₁ ▸ hends)
        (hperm.nodup_iff.2 hnodup)
      refine ⟨g', ?_⟩
      rw [insertEdges, List.foldlM_cons, h₁]
      exact h'

end Indexed

/-! ## The order of links -/

namespace Indexed

theorem position_id (hg : g.Indexed) {i : Nat} (h : g.node? i = some n) :
    Node.position g.nodes n.id = i := by
  rw [← hg.getElem?_nodes] at h
  obtain ⟨hi, rfl⟩ := List.getElem?_eq_some_iff.1 h
  have hlt : i < (g.nodes.map Node.id).length := by rwa [List.length_map]
  have hget : (g.nodes.map Node.id)[i] = g.nodes[i].id := List.getElem_map ..
  rw [Node.position, ← hget]
  exact hg.nodup_ids.idxOf_getElem i hlt

/-- A graph lists its links by the places of their ends. -/
theorem pairwise_place (hg : g.Indexed) :
    g.edges.Pairwise fun a b => a.place g.nodes < b.place g.nodes := by
  have hplace : ∀ l ∈ g.links, l.edge.place g.nodes = toLex (l.head, l.tail) := by
    intro l hl
    obtain ⟨-, hsource, htarget⟩ := mem_links_iff.1 hl
    rw [Edge.place, Located.edge, hg.position_id hsource, hg.position_id htarget]
  refine List.pairwise_map.2 (g.pairwise_links_lt.imp_of_mem fun {l l'} hl hl' hlt => ?_)
  rwa [hplace l hl, hplace l' hl']

end Indexed

/-! ## Lists that describe a graph -/

/-- Rollbacks lead from speculative to committed nodes. -/
def RollbacksPlaced (ns : List Node) (es : List Edge) : Prop :=
  ∀ e ∈ es, e.link.kind = .rollback → ∀ n ∈ ns,
    (n.id = e.source → n.kind = .speculative) ∧ (n.id = e.target → n.kind = .committed)

/-- What a list of nodes and a list of links have to meet to be those of a graph. -/
structure WellFormed (ns : List Node) (es : List Edge) : Prop where
  /-- No two nodes have the same id. -/
  ids : (ns.map Node.id).Nodup
  /-- Links join nodes. -/
  ends : ∀ e ∈ es, e.source ∈ ns.map Node.id ∧ e.target ∈ ns.map Node.id
  /-- No two links have the same source and the same target. -/
  apart : (es.map Edge.ends).Nodup
  rollbacks : RollbacksPlaced ns es

instance (ns : List Node) (es : List Edge) : Decidable (RollbacksPlaced ns es) :=
  inferInstanceAs (Decidable (∀ e ∈ es, e.link.kind = .rollback → ∀ n ∈ ns,
    (n.id = e.source → n.kind = .speculative) ∧ (n.id = e.target → n.kind = .committed)))

instance (ns : List Node) (es : List Edge) : Decidable (WellFormed ns es) :=
  decidable_of_iff ((ns.map Node.id).Nodup ∧
      (∀ e ∈ es, e.source ∈ ns.map Node.id ∧ e.target ∈ ns.map Node.id) ∧
      (es.map Edge.ends).Nodup ∧ RollbacksPlaced ns es)
    ⟨fun ⟨ids, ends, apart, rollbacks⟩ => ⟨ids, ends, apart, rollbacks⟩,
      fun h => ⟨h.ids, h.ends, h.apart, h.rollbacks⟩⟩

theorem RollbacksPlaced.perm {es' : List Edge} (h : RollbacksPlaced ns es) (hes : es.Perm es') :
    RollbacksPlaced ns es' := fun e he => h e (hes.mem_iff.2 he)

/-- A graph is valid if its rollbacks are placed as they should be. -/
theorem Indexed.validate_iff (hg : g.Indexed) :
    g.validate = .ok () ↔ RollbacksPlaced g.nodes g.edges := by
  rw [validate_eq_ok_iff]
  constructor
  · intro hplaced e he hkind n hn
    obtain ⟨l, hl, rfl⟩ := List.mem_map.1 he
    obtain ⟨-, hsource, htarget⟩ := mem_links_iff.1 hl
    have hends : l.source.kind = .speculative ∧ l.target.kind = .committed := by
      by_contra hends
      have hbad := l.isPlaced_eq_false_iff.2 ⟨hkind, hends⟩
      rw [hplaced l hl] at hbad
      cases hbad
    refine ⟨fun hid => ?_, fun hid => ?_⟩
    · rw [List.inj_on_of_nodup_map hg.nodup_ids hn (hg.mem_nodes_iff.2 ⟨_, hsource⟩) hid]
      exact hends.1
    · rw [List.inj_on_of_nodup_map hg.nodup_ids hn (hg.mem_nodes_iff.2 ⟨_, htarget⟩) hid]
      exact hends.2
  · intro hrollbacks l hl
    obtain ⟨-, hsource, htarget⟩ := mem_links_iff.1 hl
    rw [← Bool.not_eq_false, l.isPlaced_eq_false_iff]
    rintro ⟨hkind, hends⟩
    have hplaced := hrollbacks l.edge (List.mem_map_of_mem hl) hkind
    exact hends ⟨(hplaced _ (hg.mem_nodes_iff.2 ⟨_, hsource⟩)).1 rfl,
      (hplaced _ (hg.mem_nodes_iff.2 ⟨_, htarget⟩)).2 rfl⟩

/-- The graph of lists has the nodes and the links of the lists. -/
theorem lists_of_ofLists (h : ofLists ns es = .ok g) :
    g.Indexed ∧ g.nodes = ns ∧ g.edges.Perm es := by
  obtain ⟨g₁, h₁, h₂, -⟩ := ofLists_eq_ok_iff.1 h
  obtain ⟨hg₁, rfl, hedges₁⟩ := lists_of_insertNodes h₁
  obtain ⟨hg, hnodes, hedges, -⟩ := hg₁.of_insertEdges h₂
  rw [hedges₁] at hedges
  exact ⟨hg, hnodes, hedges⟩

theorem WellFormed.exists_ofLists (h : WellFormed ns es) : ∃ g, ofLists ns es = .ok g := by
  obtain ⟨g₁, h₁⟩ := Indexed.empty.exists_insertNodes_iff.2 h.ids
  obtain ⟨hg₁, rfl, hedges₁⟩ := lists_of_insertNodes h₁
  obtain ⟨g, h₂⟩ := hg₁.exists_insertEdges_iff.2 ⟨h.ends, hedges₁ ▸ h.apart⟩
  obtain ⟨hg, hnodes, hedges, -⟩ := hg₁.of_insertEdges h₂
  rw [hedges₁] at hedges
  have hvalid : g.validate = .ok () := by
    rw [hg.validate_iff, hnodes]
    exact h.rollbacks.perm hedges.symm
  exact ⟨g, ofLists_eq_ok_iff.2 ⟨g₁, h₁, h₂, hvalid⟩⟩

theorem wellFormed_of_ofLists (h : ofLists ns es = .ok g) : WellFormed ns es := by
  obtain ⟨g₁, h₁, h₂, hvalid⟩ := ofLists_eq_ok_iff.1 h
  obtain ⟨hg, hnodes, hedges⟩ := lists_of_ofLists h
  obtain ⟨hg₁, rfl, -⟩ := lists_of_insertNodes h₁
  obtain ⟨-, -, -, hends⟩ := hg₁.of_insertEdges h₂
  rw [hg.validate_iff, hnodes] at hvalid
  exact ⟨hg₁.nodup_ids, hends, (hedges.map Edge.ends).nodup_iff.1 hg.nodup_ends,
    hvalid.perm hedges⟩

/-- Lists are read as a graph exactly if they describe one. The graph has the nodes in the order
    of the list, and the links by the places of their ends; so it is written again. A valid graph,
    however it was put together, is read again from what it lists. Lists that are written as JSON
    are read alike. -/
theorem ofLists_normalises (ns : List Node) (es : List Edge) :
    ((∃ g, ofLists ns es = .ok g) ↔ WellFormed ns es) ∧
      (∀ g, ofLists ns es = .ok g →
        g.nodes = ns ∧ g.edges.Perm es ∧ (g.edges.Pairwise fun a b => a.place ns < b.place ns) ∧
          g.toJson = listsJson ns g.edges) ∧
      (∀ calls g, ofInsertions calls = g → g.validate = .ok () →
        ofLists g.nodes g.edges = .ok g) ∧
      ((∀ n ∈ ns, ∀ w ∈ n.words, w < UInt64.size) →
        ofJson (listsJson ns es) =
          match ofLists ns es with
          | .ok g => .ok g
          | .error e => .error (.rejected e.message)) := by
  refine ⟨⟨?_, WellFormed.exists_ofLists⟩, ?_, ?_, fun hwords => ofJson_listsJson hwords es⟩
  · rintro ⟨g, h⟩
    exact wellFormed_of_ofLists h
  · intro g h
    obtain ⟨hg, rfl, hedges⟩ := lists_of_ofLists h
    exact ⟨rfl, hedges, hg.pairwise_place, rfl⟩
  · rintro calls g rfl hvalid
    exact (indexed_ofInsertions calls).ofLists_self hvalid

def scatteredNodes : List Node :=
  [{ id := "n0", pc := 0, kind := .committed }, { id := "s0", pc := 1, kind := .speculative },
    { id := "n1", pc := 1, kind := .committed }]

/-- Links in an order that is not that of their ends. -/
def scatteredEdges : List Edge :=
  [⟨"s0", "n0", { kind := .rollback }⟩, ⟨"n0", "n1", { kind := .committed }⟩,
    ⟨"n0", "s0", { kind := .speculative, label := some "mispredict" }⟩]

theorem ofLists_normalises_scattered :
    WellFormed scatteredNodes scatteredEdges ∧
      ∃ g, ofLists scatteredNodes scatteredEdges = .ok g ∧ g.nodes = scatteredNodes ∧
        g.edges = scatteredEdges.reverse ∧ ofLists g.nodes g.edges = .ok g ∧
        ofJson (listsJson scatteredNodes scatteredEdges) = .ok g := by
  obtain ⟨haccepted, hnormal, hagain, hread⟩ := ofLists_normalises scatteredNodes scatteredEdges
  have hwell : WellFormed scatteredNodes scatteredEdges := by decide
  have hcalls : (ofLists scatteredNodes scatteredEdges).toOption =
      some (ofInsertions (scatteredNodes.map .node ++ scatteredEdges.map .edge)) := by
    decide +kernel
  obtain ⟨g, hg⟩ := haccepted.2 hwell
  obtain ⟨hnodes, hperm, hsorted, -⟩ := hnormal g hg
  have hedges : g.edges = scatteredEdges.reverse :=
    (hperm.trans scatteredEdges.reverse_perm.symm).eq_of_pairwise
      (fun a b _ _ hab hba => absurd hba hab.asymm) hsorted (by decide)
  rw [hg] at hcalls hread
  exact ⟨hwell, g, hg, hnodes, hedges,
    hagain _ g (Option.some.inj hcalls).symm (ofLists_eq_ok_iff.1 hg).choose_spec.2.2,
    hread (by decide)⟩

end SpecGraph

end Mispredict
