/-
  A graph in flat tables.

  The tables know nothing of one another: the numbers of nodes by their ids, the nodes by
  number, the edges by the numbers of their two ends, and for each number those that follow it.
  A call changes one table after another, and what it has changed before it fails stays changed.
  A look-up along the followers of a node relies on the edges being there.

  The tables stand for a graph (`Tables.Holds`). A call fails on them if and only if it fails on
  the graph, and then with the same error and before anything is changed; otherwise it leads to
  tables that stand for the new graph (`Holds.follows`). So tables and graph stay together
  however many calls are made (`holds_ofInsertions`), they give the same answers
  (`Holds.edgesOut_eq`, `Holds.validate_eq`), and what calls have put into the graph is
  found in the tables (`Tables.InStep`).
-/
import Mispredict.Proofs.Representation

namespace Mispredict

namespace SpecGraph

/-- The numbers of the two ends of an edge. -/
structure Ends where
  head : Nat
  tail : Nat
  deriving DecidableEq, Repr

/-- Ends by the node that is left, then by the node that is entered. -/
instance : Ord Ends := ⟨compareLex (compareOn Ends.head) (compareOn Ends.tail)⟩

instance : Std.TransOrd Ends :=
  inferInstanceAs (Std.TransCmp (compareLex (compareOn Ends.head) (compareOn Ends.tail)))

instance : Std.LawfulEqOrd Ends where
  eq_of_compare {a b} h := by
    obtain ⟨hhead, htail⟩ := Ordering.then_eq_eq.1 h
    have hhead := compareOn_eq_eq.1 hhead
    have htail := compareOn_eq_eq.1 htail
    cases a; cases b; simp_all

def Located.ends (l : Located) : Ends := ⟨l.head, l.tail⟩

/-- The tables of a graph. -/
structure Tables where
  /-- The numbers of the nodes by their ids. -/
  ids : Std.ExtTreeMap String Nat
  nodes : Std.ExtTreeMap Nat Node
  edges : Std.ExtTreeMap Ends Edge
  /-- The numbers of the nodes to which edges lead. -/
  followers : Std.ExtTreeMap Nat (Std.ExtTreeSet Nat)

/-- An edge is told by its link and by the numbers of its ends. -/
theorem Indexed.edge_ext {g : SpecGraph} (hg : g.Indexed) {e e' : Edge} {head tail : Nat}
    (hsource : g.index? e.source = some head) (hsource' : g.index? e'.source = some head)
    (htarget : g.index? e.target = some tail) (htarget' : g.index? e'.target = some tail)
    (hlink : e.link = e'.link) : e = e' := by
  obtain ⟨source, target, link⟩ := e
  cases hg.id_unique hsource hsource'
  cases hg.id_unique htarget htarget'
  cases hlink
  rfl

namespace Tables

def empty : Tables := ⟨∅, ∅, ∅, ∅⟩

/-! ## Changes in place -/

/-- Enters a node under a new number. -/
def insertVertex (t : Tables) (index : Nat) (n : Node) : Tables × Option Error :=
  if t.nodes.contains index then (t, some (.graph (.duplicateVertex index)))
  else
    let t := { t with followers := t.followers.insert index ∅ }
    ({ t with nodes := t.nodes.insert index n }, none)

/-- Enters a node under the next number, its id first. -/
def insertNode (t : Tables) (n : Node) : Tables × Option Error :=
  if t.ids.contains n.id then (t, some (.graph (.duplicateNode n.id)))
  else
    let index := t.nodes.size
    let t := { t with ids := t.ids.insert n.id index }
    t.insertVertex index n

/-- Enters an edge under its ends. -/
def insertBetween (t : Tables) (ends : Ends) (e : Edge) : Tables × Option Error :=
  if t.edges.contains ends then (t, some (.graph (.duplicateEdge ends.head ends.tail)))
  else if !t.nodes.contains ends.head then (t, some (.vertexNotFound ends.head))
  else if !t.nodes.contains ends.tail then (t, some (.vertexNotFound ends.tail))
  else
    let next := t.followers.getD ends.head ∅
    let t := { t with followers := t.followers.insert ends.head (next.insert ends.tail) }
    ({ t with edges := t.edges.insert ends e }, none)

/-- Enters an edge under the numbers of the ids of its ends. -/
def insertEdge (t : Tables) (e : Edge) : Tables × Option Error :=
  match t.ids[e.source]? with
  | none => (t, some (.graph (.missingNode e.source)))
  | some head =>
    match t.ids[e.target]? with
    | none => (t, some (.graph (.missingNode e.target)))
    | some tail => t.insertBetween ⟨head, tail⟩ e

/-- The tables after a call, and the error with which it fails. -/
def perform (t : Tables) : Insertion → Tables × Option Error
  | .node n => t.insertNode n
  | .edge e => t.insertEdge e

/-- The tables that come of a sequence of calls. -/
def ofInsertions (calls : List Insertion) : Tables :=
  calls.foldl (fun t call => (t.perform call).1) .empty

/-! ## Look-ups -/

/-- The edges that leave the node with this id. There is no list of them if one that the
    followers of the node tell of is not among the edges. -/
def edgesOut (t : Tables) (id : String) : Except Error (Option (List Edge)) :=
  match t.ids[id]? with
  | none => .error (.graph (.missingNode id))
  | some head =>
    match t.followers[head]? with
    | none => .error (.vertexNotFound head)
    | some next => .ok (next.toList.mapM fun tail => t.edges[(⟨head, tail⟩ : Ends)]?)

/-- What is wrong with an edge. -/
def fault? (t : Tables) (ends : Ends) (e : Edge) : Option Error :=
  match t.nodes[ends.head]? with
  | none => some (.vertexNotFound ends.head)
  | some source =>
    match t.nodes[ends.tail]? with
    | none => some (.vertexNotFound ends.tail)
    | some target =>
      if source.id != e.source || target.id != e.target then
        some (.graph (.note
          ("edge " ++ e.source ++ " -> " ++ e.target ++ " does not match its endpoints")))
      else if e.link.kind == .rollback &&
          (source.kind != .speculative || target.kind != .committed) then
        some (.graph (.misplacedRollback e.source e.target))
      else none

/-- Checks the edges in order of their ends; what is wrong with the first bad one is the error. -/
def validate (t : Tables) : Except Error Unit :=
  match t.edges.toList.findSome? fun (ends, e) => t.fault? ends e with
  | some err => .error err
  | none => .ok ()

/-! ## The graph that tables hold -/

variable {t : Tables} {g g' : SpecGraph} {n : Node} {e : Edge} {ends : Ends}

/-- The tables hold this graph. -/
structure Holds (t : Tables) (g : SpecGraph) : Prop where
  ids : t.ids = g.ids
  nodes : ∀ i, t.nodes[i]? = g.node? i
  edges : ∀ head tail,
    t.edges[(⟨head, tail⟩ : Ends)]?.map (·.link) = g.graph.edge? head tail
  /-- Edges are under the numbers of the ids of their ends. -/
  named : ∀ (ends : Ends) (e : Edge), t.edges[ends]? = some e →
    t.ids[e.source]? = some ends.head ∧ t.ids[e.target]? = some ends.tail
  tracked : ∀ i, i ∈ t.followers ↔ i ∈ t.nodes
  followed : ∀ head next, t.followers[head]? = some next →
    ∀ tail, tail ∈ next ↔ (⟨head, tail⟩ : Ends) ∈ t.edges

/-- A call has made of the tables `t` what it has made of the graph that they hold. -/
def Follows (t : Tables) (after : Tables × Option Error) : Except Error SpecGraph → Prop
  | .ok g => after.2 = none ∧ after.1.Holds g
  | .error err => after = (t, some err)

theorem holds_empty : empty.Holds .empty where
  ids := rfl
  nodes := by simp [empty, node?, SpecGraph.empty, Digraph.vertex?, Digraph.empty]
  edges := by simp [empty, SpecGraph.empty, Digraph.edge?, Digraph.empty]
  named := by simp [empty]
  tracked := by simp [empty]
  followed := by simp [empty]

namespace Holds

theorem nodes_eq (h : t.Holds g) : t.nodes = g.graph.slots.map fun _ slot => slot.value := by
  refine Std.ExtTreeMap.ext_getElem? fun i => ?_
  rw [h.nodes, node?, Digraph.vertex?, Std.ExtTreeMap.getElem?_map]

theorem size_nodes (h : t.Holds g) : t.nodes.size = g.numNodes := by
  rw [h.nodes_eq, Std.ExtTreeMap.size_map]
  rfl

theorem toList_nodes (h : t.Holds g) : t.nodes.toList = g.indexedNodes := by
  rw [h.nodes_eq, Std.ExtTreeMap.toList_map]
  rfl

theorem index? (h : t.Holds g) (id : String) : t.ids[id]? = g.index? id := by
  rw [h.ids]
  rfl

theorem mem_nodes_iff (h : t.Holds g) (hg : g.Indexed) {i : Nat} :
    i ∈ t.nodes ↔ i < g.numNodes := by
  rw [← Std.ExtTreeMap.isSome_getElem?_iff_mem, h.nodes, hg.numbered]

theorem mem_edges_iff (h : t.Holds g) {head tail : Nat} :
    (⟨head, tail⟩ : Ends) ∈ t.edges ↔ (g.graph.edge? head tail).isSome := by
  rw [← Std.ExtTreeMap.isSome_getElem?_iff_mem, ← h.edges, Option.isSome_map]

theorem exists_followers (h : t.Holds g) {head : Nat} (hhead : head ∈ t.nodes) :
    ∃ next, t.followers[head]? = some next ∧ ∀ tail, tail ∈ next ↔
      (⟨head, tail⟩ : Ends) ∈ t.edges := by
  obtain ⟨next, hnext⟩ := Option.isSome_iff_exists.1
    (Std.ExtTreeMap.isSome_getElem?_iff_mem.2 ((h.tracked head).2 hhead))
  exact ⟨next, hnext, h.followed head next hnext⟩

theorem mem_followers_iff (h : t.Holds g) {head tail : Nat} (hhead : head ∈ t.nodes) :
    tail ∈ t.followers.getD head ∅ ↔ (⟨head, tail⟩ : Ends) ∈ t.edges := by
  obtain ⟨next, hnext, hmem⟩ := h.exists_followers hhead
  rw [Std.ExtTreeMap.getD_eq_getD_getElem?, hnext]
  exact hmem tail

theorem insertNode_eq (h : t.Holds g) (hg : g.Indexed) (hnew : g.index? n.id = none) :
    t.insertNode n = (⟨t.ids.insert n.id g.numNodes, t.nodes.insert g.numNodes n, t.edges,
      t.followers.insert g.numNodes ∅⟩, none) := by
  have hid : t.ids.contains n.id = false := by
    rw [← Std.ExtTreeMap.isSome_getElem?_eq_contains, h.index?, hnew]
    rfl
  have hfree : t.nodes.contains g.numNodes = false := by
    rw [Bool.eq_false_iff, ne_eq, Std.ExtTreeMap.contains_iff_mem, h.mem_nodes_iff hg]
    exact Nat.lt_irrefl _
  simp only [Tables.insertNode, Tables.insertVertex, hid, h.size_nodes, hfree]
  rfl

theorem insertEdge_eq (h : t.Holds g) (hg : g.Indexed) {head tail : Nat}
    (hsource : g.index? e.source = some head) (htarget : g.index? e.target = some tail)
    (hnew : g.graph.edge? head tail = none) :
    t.insertEdge e = (⟨t.ids, t.nodes, t.edges.insert ⟨head, tail⟩ e,
      t.followers.insert head ((t.followers.getD head ∅).insert tail)⟩, none) := by
  have hfree : t.edges.contains (⟨head, tail⟩ : Ends) = false := by
    rw [Bool.eq_false_iff, ne_eq, Std.ExtTreeMap.contains_iff_mem, h.mem_edges_iff, hnew]
    simp
  have hhead : t.nodes.contains head = true :=
    Std.ExtTreeMap.contains_iff_mem.2 ((h.mem_nodes_iff hg).2 (hg.lt_of_index? hsource))
  have htail : t.nodes.contains tail = true :=
    Std.ExtTreeMap.contains_iff_mem.2 ((h.mem_nodes_iff hg).2 (hg.lt_of_index? htarget))
  simp only [Tables.insertEdge, h.index?, hsource, htarget, Tables.insertBetween, hfree, hhead,
    htail]
  rfl

theorem insertNode (h : t.Holds g) (hg : g.Indexed) (hcall : g.insertNode n = .ok g') :
    (t.insertNode n).1.Holds g' := by
  obtain ⟨hnew, -, hids⟩ := insertNode_eq_ok_iff.1 hcall
  rw [h.insertNode_eq hg hnew]
  -- the id is new, so the numbers of the other ids stay
  have hkeeps : ∀ {id : String} {i : Nat}, t.ids[id]? = some i →
      (t.ids.insert n.id g.numNodes)[id]? = some i := by
    intro id i hid
    have hne : n.id ≠ id := by
      rintro rfl
      cases hnew.symm.trans ((h.index? _).symm.trans hid)
    rw [Std.ExtTreeMap.getElem?_insert, if_neg (by simpa using hne), hid]
  constructor
  case ids => rw [hids, h.ids]
  case nodes =>
    intro i
    rw [node?_insertNode hcall, Std.ExtTreeMap.getElem?_insert, h.nodes]
    simp only [Std.LawfulEqOrd.compare_eq_iff_eq, eq_comm (a := g.numNodes)]
  case edges =>
    intro head tail
    rw [edge?_insertNode hcall]
    exact h.edges head tail
  case named =>
    intro ends e he
    obtain ⟨hsource, htarget⟩ := h.named ends e he
    exact ⟨hkeeps hsource, hkeeps htarget⟩
  case tracked =>
    intro i
    simp only [Std.ExtTreeMap.mem_insert, h.tracked]
  case followed =>
    intro head next hnext tail
    rw [Std.ExtTreeMap.getElem?_insert] at hnext
    split at hnext
    · next heq =>
      -- no edges leave the new node
      cases Std.LawfulEqOrd.compare_eq_iff_eq.1 heq
      cases hnext
      have hnone : ¬ (g.graph.edge? g.numNodes tail).isSome := by
        intro hsome
        obtain ⟨link, hlink⟩ := Option.isSome_iff_exists.1 hsome
        exact Nat.lt_irrefl _ (hg.joined _ _ _ hlink).1
      simpa [h.mem_edges_iff] using hnone
    · exact h.followed head next hnext tail

theorem insertEdge (h : t.Holds g) (hg : g.Indexed) (hcall : g.insertEdge e = .ok g') :
    (t.insertEdge e).1.Holds g' := by
  obtain ⟨head, tail, hsource, htarget, hgraph, hids⟩ := insertEdge_eq_ok_iff.1 hcall
  have hnew := (Digraph.insertEdge_eq_ok_iff.1 hgraph).1
  rw [h.insertEdge_eq hg hsource htarget hnew]
  constructor
  case ids => rw [hids, h.ids]
  case nodes =>
    intro i
    rw [node?_insertEdge hcall]
    exact h.nodes i
  case edges =>
    intro head' tail'
    rw [Digraph.edge?_insertEdge hgraph, ← h.edges, Std.ExtTreeMap.getElem?_insert]
    by_cases heq : head' = head ∧ tail' = tail
    · obtain ⟨rfl, rfl⟩ := heq
      simp
    · have hne : (⟨head, tail⟩ : Ends) ≠ ⟨head', tail'⟩ := by
        rintro ⟨⟩
        exact heq ⟨rfl, rfl⟩
      rw [if_neg heq, if_neg (by simpa using hne)]
  case named =>
    intro ends e' he'
    rw [Std.ExtTreeMap.getElem?_insert] at he'
    split at he'
    · next heq =>
      cases Std.LawfulEqOrd.compare_eq_iff_eq.1 heq
      cases he'
      exact ⟨(h.index? _).trans hsource, (h.index? _).trans htarget⟩
    · exact h.named ends e' he'
  case tracked =>
    intro i
    have hhead : head ∈ t.nodes := (h.mem_nodes_iff hg).2 (hg.lt_of_index? hsource)
    rw [Std.ExtTreeMap.mem_insert, h.tracked, Std.LawfulEqOrd.compare_eq_iff_eq]
    refine ⟨?_, .inr⟩
    rintro (rfl | hi)
    · exact hhead
    · exact hi
  case followed =>
    intro head' next hnext tail'
    rw [Std.ExtTreeMap.getElem?_insert] at hnext
    rw [Std.ExtTreeMap.mem_insert, Std.LawfulEqOrd.compare_eq_iff_eq, Ends.mk.injEq]
    split at hnext
    · next heq =>
      cases Std.LawfulEqOrd.compare_eq_iff_eq.1 heq
      cases hnext
      rw [Std.ExtTreeSet.mem_insert, Std.LawfulEqOrd.compare_eq_iff_eq,
        h.mem_followers_iff ((h.mem_nodes_iff hg).2 (hg.lt_of_index? hsource))]
      simp
    · next hne =>
      have hne : head ≠ head' := by simpa using hne
      rw [h.followed head' next hnext]
      simp [hne]

/-- A call does to the tables what it does to the graph. -/
theorem follows (h : t.Holds g) (hg : g.Indexed) (call : Insertion) :
    t.Follows (t.perform call) (call.perform g) := by
  cases call with
  | node n =>
    change t.Follows (t.insertNode n) (g.insertNode n)
    cases hcall : g.insertNode n with
    | ok g' =>
      refine ⟨?_, h.insertNode hg hcall⟩
      rw [h.insertNode_eq hg (insertNode_eq_ok_iff.1 hcall).1]
    | error err =>
      obtain ⟨hnode, rfl⟩ := hg.insertNode_eq_error_iff.1 hcall
      have hid : t.ids.contains n.id = true := by
        rw [← Std.ExtTreeMap.isSome_getElem?_eq_contains, h.index?]
        exact hnode
      rw [Follows, Tables.insertNode, if_pos hid]
  | edge e =>
    change t.Follows (t.insertEdge e) (g.insertEdge e)
    cases hcall : g.insertEdge e with
    | ok g' =>
      obtain ⟨head, tail, hsource, htarget, hgraph, -⟩ := insertEdge_eq_ok_iff.1 hcall
      refine ⟨?_, h.insertEdge hg hcall⟩
      rw [h.insertEdge_eq hg hsource htarget (Digraph.insertEdge_eq_ok_iff.1 hgraph).1]
    | error err =>
      rw [Follows, Tables.insertEdge]
      simp only [h.index?]
      cases hg.insertEdge_eq_error_iff.1 hcall with
      | noSource source => rw [source]
      | noTarget source target =>
        simp only [source]
        rw [target]
      | @duplicate head tail link source target stored =>
        have hstored : t.edges.contains (⟨head, tail⟩ : Ends) = true := by
          rw [Std.ExtTreeMap.contains_iff_mem, h.mem_edges_iff, stored]
          rfl
        simp only [source, target]
        rw [insertBetween, if_pos hstored]

end Holds

theorem holds_ofInsertions (calls : List Insertion) :
    (ofInsertions calls).Holds (SpecGraph.ofInsertions calls) := by
  induction calls using List.reverseRecOn with
  | nil => exact holds_empty
  | append_singleton calls call ih =>
    have hfold : ofInsertions (calls ++ [call]) = ((ofInsertions calls).perform call).1 := by
      rw [ofInsertions, List.foldl_append]
      rfl
    have hfollows := ih.follows (indexed_ofInsertions calls) call
    rw [hfold, ofInsertions_concat]
    cases hcall : call.perform (SpecGraph.ofInsertions calls) with
    | ok g =>
      rw [hcall] at hfollows
      exact hfollows.2
    | error err =>
      rw [hcall, Follows] at hfollows
      rw [hfollows]
      exact ih

/-! ## Look-ups give the same answers -/

namespace Holds

theorem getElem?_edges_iff (h : t.Holds g) (hg : g.Indexed) :
    t.edges[ends]? = some e ↔ g.graph.edge? ends.head ends.tail = some e.link ∧
      g.index? e.source = some ends.head ∧ g.index? e.target = some ends.tail := by
  rw [← h.edges, ← h.index?, ← h.index?]
  constructor
  · intro he
    refine ⟨?_, h.named ends e he⟩
    rw [he]
    rfl
  · rintro ⟨hlink, hsource, htarget⟩
    obtain ⟨e', he', hlink⟩ := Option.map_eq_some_iff.1 hlink
    obtain ⟨hsource', htarget'⟩ := h.named _ _ he'
    rw [h.index?] at hsource htarget hsource' htarget'
    cases hg.edge_ext hsource' hsource htarget' htarget hlink
    exact he'

theorem getElem?_edges_of_mem (h : t.Holds g) (hg : g.Indexed) {l : Located} (hl : l ∈ g.links) :
    t.edges[l.ends]? = some l.edge := by
  obtain ⟨hlink, hsource, htarget⟩ := mem_links_iff.1 hl
  exact (h.getElem?_edges_iff hg).2 ⟨hlink, hg.index?_id hsource, hg.index?_id htarget⟩

theorem exists_link (h : t.Holds g) (hg : g.Indexed) (he : t.edges[ends]? = some e) :
    ∃ l ∈ g.links, l.ends = ends ∧ l.edge = e := by
  obtain ⟨hlink, hhead, htail⟩ := (h.getElem?_edges_iff hg).1 he
  obtain ⟨source, hsource, hs⟩ := (hg.named _ _).1 hhead
  obtain ⟨target, htarget, ht⟩ := (hg.named _ _).1 htail
  refine ⟨⟨ends.head, source, ends.tail, target, e.link⟩,
    mem_links_iff.2 ⟨hlink, hsource, htarget⟩, rfl, ?_⟩
  rw [Located.edge, hs, ht]

/-- The followers of a node are the nodes that its links enter, in order. -/
theorem toList_followers (h : t.Holds g) (hg : g.Indexed) {head : Nat}
    {next : Std.ExtTreeSet Nat} (hnext : t.followers[head]? = some next) :
    next.toList = (g.linksFrom head).map (·.tail) := by
  refine List.Pairwise.eq_of_mem_iff (r := (· < ·)) ?_ ?_ fun tail => ?_
  · exact Std.ExtTreeSet.ordered_toList.imp Nat.compare_eq_lt.1
  · exact List.pairwise_map.2 (g.pairwise_linksFrom head)
  · have hout : (g.linksFrom head).map (·.tail) = (g.graph.edgesOut head).map Prod.fst := by
      rw [← hg.map_linksFrom, List.map_map]
      rfl
    rw [Std.ExtTreeSet.mem_toList, h.followed head next hnext, h.mem_edges_iff, hout,
      Option.isSome_iff_exists]
    simp only [List.mem_map, Prod.exists, exists_and_right, exists_eq_right,
      Digraph.mem_edgesOut_iff]

theorem mapM_edges (h : t.Holds g) (hg : g.Indexed) {head : Nat} {ls : List Located}
    (hls : ∀ l ∈ ls, l ∈ g.linksFrom head) :
    ((ls.map (·.tail)).mapM fun tail => t.edges[(⟨head, tail⟩ : Ends)]?) =
      some (ls.map Located.edge) := by
  induction ls with
  | nil => rfl
  | cons l ls ih =>
    obtain ⟨hl, hls⟩ := List.forall_mem_cons.1 hls
    obtain ⟨rfl, hlink⟩ := mem_linksFrom_iff.1 hl
    have he := h.getElem?_edges_of_mem hg (mem_links_iff.2 hlink)
    rw [Located.ends] at he
    rw [List.map_cons, List.mapM_cons, he, ih hls]
    rfl

theorem edgesOut_eq (h : t.Holds g) (hg : g.Indexed) (id : String) :
    t.edgesOut id = (g.linksOut id).map fun ls => some (ls.map Located.edge) := by
  rw [Tables.edgesOut, linksOut, indexOf, h.index?]
  cases hid : g.index? id with
  | none => rfl
  | some head =>
    obtain ⟨next, hnext, -⟩ := h.exists_followers ((h.mem_nodes_iff hg).2 (hg.lt_of_index? hid))
    dsimp only
    rw [hnext]
    dsimp only
    rw [h.toList_followers hg hnext, h.mapM_edges hg fun l hl => hl]
    rfl

/-- Edges and links come in the same order. -/
theorem toList_edges (h : t.Holds g) (hg : g.Indexed) :
    t.edges.toList = g.links.map fun l => (l.ends, l.edge) := by
  have : Std.Irrefl fun a b : Ends × Edge => compare a.1 b.1 = .lt :=
    ⟨fun a => by simp⟩
  have : Std.Antisymm fun a b : Ends × Edge => compare a.1 b.1 = .lt :=
    ⟨fun a b hab hba => absurd (Std.TransCmp.lt_trans hab hba) (by simp)⟩
  refine Std.ExtTreeMap.ordered_keys_toList.eq_of_mem_iff ?_ fun (ends, e) => ?_
  · refine List.pairwise_map.2 (g.pairwise_links_lt.imp fun {a b} hlt => ?_)
    refine Ordering.then_eq_lt.2 ?_
    rcases Prod.Lex.toLex_lt_toLex.1 hlt with hlt | ⟨heq, hlt⟩
    · exact .inl (Nat.compare_eq_lt.2 hlt)
    · exact .inr ⟨Nat.compare_eq_eq.2 heq, Nat.compare_eq_lt.2 hlt⟩
  · rw [Std.ExtTreeMap.mem_toList_iff_getElem?_eq_some, List.mem_map]
    constructor
    · intro he
      obtain ⟨l, hl, rfl, rfl⟩ := h.exists_link hg he
      exact ⟨l, hl, rfl⟩
    · rintro ⟨l, hl, heq⟩
      cases heq
      exact h.getElem?_edges_of_mem hg hl

theorem fault?_eq (h : t.Holds g) {l : Located} (hl : l ∈ g.links) :
    t.fault? l.ends l.edge =
      if l.isPlaced then none
      else some (.graph (.misplacedRollback l.source.id l.target.id)) := by
  obtain ⟨-, hsource, htarget⟩ := mem_links_iff.1 hl
  have hbad : (l.link.kind == .rollback &&
      (l.source.kind != .speculative || l.target.kind != .committed)) = !l.isPlaced := by
    simp [Located.isPlaced, bne]
  simp only [fault?, Located.ends, h.nodes, hsource, htarget, Located.edge, hbad,
    bne_self_eq_false, Bool.or_self, Bool.false_eq_true, if_false]
  cases l.isPlaced <;> rfl

theorem findSome?_fault? (h : t.Holds g) {ls : List Located} (hls : ∀ l ∈ ls, l ∈ g.links) :
    ((ls.map fun l => (l.ends, l.edge)).findSome? fun (ends, e) => t.fault? ends e) =
      (ls.find? (!·.isPlaced)).map fun l =>
        .graph (.misplacedRollback l.source.id l.target.id) := by
  induction ls with
  | nil => rfl
  | cons l ls ih =>
    obtain ⟨hl, hls⟩ := List.forall_mem_cons.1 hls
    rw [List.map_cons, List.findSome?_cons, List.find?_cons]
    dsimp only
    rw [h.fault?_eq hl]
    cases l.isPlaced with
    | true => exact ih hls
    | false => rfl

theorem validate_eq (h : t.Holds g) (hg : g.Indexed) : t.validate = g.validate := by
  rw [Tables.validate, SpecGraph.validate, h.toList_edges hg, h.findSome?_fault? fun l hl => hl]
  cases g.links.find? (!·.isPlaced) <;> rfl

/-- The edges out of a node are all found, in the order of the nodes that they enter. -/
theorem exists_edgesOut (h : t.Holds g) (hg : g.Indexed) {id : String} {head : Nat}
    (hid : t.ids[id]? = some head) :
    ∃ es, t.edgesOut id = .ok (some es) ∧
      (∀ e : Edge, e ∈ es ↔ e.source = id ∧ ∃ ends : Ends, t.edges[ends]? = some e) ∧
      es.Pairwise fun a b =>
        ∃ i j, t.ids[a.target]? = some i ∧ t.ids[b.target]? = some j ∧ i < j := by
  rw [h.index?] at hid
  refine ⟨(g.linksFrom head).map Located.edge, ?_, fun e => ?_, ?_⟩
  · rw [h.edgesOut_eq hg, linksOut, indexOf_eq_ok_iff.2 hid]
    rfl
  · rw [List.mem_map]
    constructor
    · rintro ⟨l, hl, rfl⟩
      obtain ⟨rfl, hlink⟩ := mem_linksFrom_iff.1 hl
      exact ⟨hg.id_unique (hg.index?_id hlink.2.1) hid, l.ends,
        h.getElem?_edges_of_mem hg (mem_links_iff.2 hlink)⟩
    · rintro ⟨rfl, ends, he⟩
      obtain ⟨l, hl, rfl, rfl⟩ := h.exists_link hg he
      have hlink := mem_links_iff.1 hl
      have hhead : some l.head = some head := (hg.index?_id hlink.2.1).symm.trans hid
      exact ⟨l, mem_linksFrom_iff.2 ⟨Option.some.inj hhead, hlink⟩, rfl⟩
  · refine List.pairwise_map.2 ((g.pairwise_linksFrom head).imp_of_mem ?_)
    intro a b ha hb hlt
    refine ⟨a.tail, b.tail, ?_, ?_, hlt⟩
    · exact (h.index? _).trans (hg.index?_id (mem_linksFrom_iff.1 ha).2.2.2)
    · exact (h.index? _).trans (hg.index?_id (mem_linksFrom_iff.1 hb).2.2.2)

theorem validate_fails_iff (h : t.Holds g) (hg : g.Indexed) :
    (∃ err, t.validate = .error err) ↔
      ∃ (ends : Ends) (e : Edge) (source target : Node), t.edges[ends]? = some e ∧
        e.link.kind = .rollback ∧ t.nodes[ends.head]? = some source ∧
        t.nodes[ends.tail]? = some target ∧
        ¬ (source.kind = .speculative ∧ target.kind = .committed) := by
  rw [h.validate_eq hg, SpecGraph.validate_fails_iff]
  constructor
  · rintro ⟨l, hl, hbad⟩
    obtain ⟨-, hsource, htarget⟩ := mem_links_iff.1 hl
    obtain ⟨hkind, hplace⟩ := l.isPlaced_eq_false_iff.1 hbad
    exact ⟨l.ends, l.edge, l.source, l.target, h.getElem?_edges_of_mem hg hl, hkind,
      (h.nodes _).trans hsource, (h.nodes _).trans htarget, hplace⟩
  · rintro ⟨ends, e, source, target, he, hkind, hsource, htarget, hplace⟩
    obtain ⟨l, hl, rfl, rfl⟩ := h.exists_link hg he
    obtain ⟨-, hs, ht⟩ := mem_links_iff.1 hl
    cases hs.symm.trans ((h.nodes _).symm.trans hsource)
    cases ht.symm.trans ((h.nodes _).symm.trans htarget)
    exact ⟨l, hl, l.isPlaced_eq_false_iff.2 ⟨hkind, hplace⟩⟩

end Holds

/-! ## Sequences of calls -/

/-- The tables give the answers that the graph gives. -/
structure Answers (t : Tables) (g : SpecGraph) : Prop where
  /-- Nodes and edges come in the same order. -/
  nodes : t.nodes.toList = g.indexedNodes
  edges : t.edges.toList = g.links.map fun l => (l.ends, l.edge)
  /-- A call fails alike, and then leaves the tables unchanged. -/
  calls : ∀ call : Insertion, t.Follows (t.perform call) (call.perform g)
  /-- A node can be added unless its id is in use. -/
  nodeFails : ∀ n err, g.insertNode n = .error err ↔
    g.hasNode n.id = true ∧ err = .graph (.duplicateNode n.id)
  /-- An edge can be added unless one of its ends is missing or they are linked. -/
  edgeFails : ∀ e err, g.insertEdge e = .error err ↔ g.Refuses e err
  edgesOut : ∀ id, t.edgesOut id = (g.linksOut id).map fun ls => some (ls.map Located.edge)
  validate : t.validate = g.validate

/-- What the tables hold after a sequence of calls, and what is found in them. -/
structure InStep (calls : List Insertion) (t : Tables) : Prop where
  /-- Nodes are numbered from zero in the order of the calls that added them. -/
  numbered : t.nodes.toList = (insertedNodes calls).mapIdx Prod.mk
  /-- The ids are those of nodes, with their numbers. -/
  named : ∀ (id : String) (i : Nat),
    t.ids[id]? = some i ↔ ∃ n, t.nodes[i]? = some n ∧ n.id = id
  /-- An edge is under the numbers of the ids of its ends exactly if it was added. -/
  stored : ∀ (ends : Ends) (e : Edge), t.edges[ends]? = some e ↔
    Inserted calls e ∧ t.ids[e.source]? = some ends.head ∧ t.ids[e.target]? = some ends.tail
  /-- An edge joins nodes. -/
  joined : ∀ ends : Ends, ends ∈ t.edges → ends.head ∈ t.nodes ∧ ends.tail ∈ t.nodes
  /-- Nodes have followers, and nothing else has. -/
  tracked : ∀ i : Nat, i ∈ t.followers ↔ i ∈ t.nodes
  /-- A node is followed by those to which edges are stored. -/
  followed : ∀ (head : Nat) (next : Std.ExtTreeSet Nat), t.followers[head]? = some next →
    ∀ tail, tail ∈ next ↔ (⟨head, tail⟩ : Ends) ∈ t.edges
  /-- A call that fails leaves the tables unchanged. -/
  unchanged : ∀ call err, (t.perform call).2 = some err → (t.perform call).1 = t
  /-- The edges out of a node are all found, in the order of the nodes that they enter. -/
  edgesOut : ∀ (id : String) (head : Nat), t.ids[id]? = some head →
    ∃ es, t.edgesOut id = .ok (some es) ∧
      (∀ e : Edge, e ∈ es ↔ e.source = id ∧ ∃ ends : Ends, t.edges[ends]? = some e) ∧
      es.Pairwise fun a b =>
        ∃ i j, t.ids[a.target]? = some i ∧ t.ids[b.target]? = some j ∧ i < j
  /-- Without a node there is nothing to look up. -/
  noEdgesOut : ∀ id : String, t.ids[id]? = none →
    t.edgesOut id = .error (.graph (.missingNode id))
  /-- What makes the edges invalid is a rollback that does not lead out of speculation. -/
  invalid : (∃ err, t.validate = .error err) ↔
    ∃ (ends : Ends) (e : Edge) (source target : Node), t.edges[ends]? = some e ∧
      e.link.kind = .rollback ∧ t.nodes[ends.head]? = some source ∧
      t.nodes[ends.tail]? = some target ∧
      ¬ (source.kind = .speculative ∧ target.kind = .committed)

theorem Follows.unchanged {after : Tables × Option Error} {r : Except Error SpecGraph} {err : Error}
    (h : t.Follows after r) (hfails : after.2 = some err) : after.1 = t := by
  cases r with
  | ok g => cases h.1.symm.trans hfails
  | error err' =>
    rw [Follows] at h
    rw [h]

theorem Holds.answers (h : t.Holds g) (hg : g.Indexed) : t.Answers g where
  nodes := h.toList_nodes
  edges := h.toList_edges hg
  calls := h.follows hg
  nodeFails _ _ := hg.insertNode_eq_error_iff
  edgeFails _ _ := hg.insertEdge_eq_error_iff
  edgesOut := h.edgesOut_eq hg
  validate := h.validate_eq hg

theorem getElem?_ofInsertions_iff (calls : List Insertion) :
    (ofInsertions calls).edges[ends]? = some e ↔ Inserted calls e ∧
      (ofInsertions calls).ids[e.source]? = some ends.head ∧
      (ofInsertions calls).ids[e.target]? = some ends.tail := by
  have h := holds_ofInsertions calls
  have hg := indexed_ofInsertions calls
  rw [h.getElem?_edges_iff hg, edge?_ofInsertions_iff, h.index?, h.index?]
  refine and_congr_left fun ⟨hsource, htarget⟩ => ⟨?_, fun he => ⟨e, he, rfl, hsource, htarget⟩⟩
  rintro ⟨e', he', hlink, hsource', htarget'⟩
  cases hg.edge_ext hsource' hsource htarget' htarget hlink
  exact he'

/-- After any sequence of calls the tables hold the graph that comes of the calls, answer as it
    does, and are in step. -/
theorem inStep_ofInsertions (calls : List Insertion) :
    (ofInsertions calls).Holds (SpecGraph.ofInsertions calls) ∧
      (ofInsertions calls).Answers (SpecGraph.ofInsertions calls) ∧
      InStep calls (ofInsertions calls) := by
  have h := holds_ofInsertions calls
  have hg := indexed_ofInsertions calls
  refine ⟨h, h.answers hg, ?_⟩
  constructor
  case numbered => rw [h.toList_nodes, hg.indexedNodes_eq, nodes_ofInsertions]
  case named =>
    intro id i
    simp only [h.index?, h.nodes]
    exact hg.named id i
  case stored => exact fun ends e => getElem?_ofInsertions_iff calls
  case joined =>
    intro ends hends
    obtain ⟨link, hlink⟩ := Option.isSome_iff_exists.1 (h.mem_edges_iff.1 hends)
    obtain ⟨hhead, htail⟩ := hg.joined _ _ _ hlink
    exact ⟨(h.mem_nodes_iff hg).2 hhead, (h.mem_nodes_iff hg).2 htail⟩
  case tracked => exact h.tracked
  case followed => exact h.followed
  case unchanged => exact fun call err hfails => (h.follows hg call).unchanged hfails
  case edgesOut => exact fun id head hid => h.exists_edgesOut hg hid
  case noEdgesOut =>
    intro id hid
    rw [Tables.edgesOut, hid]
  case invalid => exact h.validate_fails_iff hg

end Tables

end SpecGraph

end Mispredict
