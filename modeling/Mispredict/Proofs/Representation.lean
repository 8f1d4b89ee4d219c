/-
  What a graph holds after any sequence of calls.

  Calls come in any order and may fail. A call fails for what the caller can see: an id that is in
  use, an end that is missing, or a link that is there already (`Indexed.insertNode_eq_error_iff`,
  `Indexed.insertEdge_eq_error_iff`). Nodes are numbered in the order of the calls that added them
  (`nodes_ofInsertions`), and a link is stored under the numbers of its ends exactly if a call that
  was to add it has succeeded (`edge?_ofInsertions_iff`). So whatever is looked up along a link is
  there (`Indexed.map_linksFrom`).
-/
import Mispredict.Proofs.Failures
import Mispredict.Proofs.Restriction

namespace Mispredict

namespace SpecGraph

variable {g g' : SpecGraph} {n : Node} {e : Edge} {err : Error}

/-! ## When a call fails -/

/-- The reasons for which a link cannot be added. -/
inductive Refuses (g : SpecGraph) (e : Edge) : Error → Prop where
  | noSource (source : g.index? e.source = none) : Refuses g e (.graph (.missingNode e.source))
  | noTarget {head : Nat} (source : g.index? e.source = some head)
      (target : g.index? e.target = none) : Refuses g e (.graph (.missingNode e.target))
  | duplicate {head tail : Nat} {link : Link} (source : g.index? e.source = some head)
      (target : g.index? e.target = some tail) (stored : g.graph.edge? head tail = some link) :
      Refuses g e (.graph (.duplicateEdge head tail))

theorem Refuses.insertEdge_eq (h : g.Refuses e err) : g.insertEdge e = .error err := by
  unfold insertEdge indexOf
  cases h with
  | noSource source =>
    rw [source]
    rfl
  | noTarget source target =>
    rw [source, target]
    rfl
  | duplicate source target stored =>
    rw [source, target]
    dsimp only [bind, Except.bind]
    rw [Digraph.insertEdge, Digraph.hasEdge, stored]
    rfl

namespace Indexed

theorem insertEdge_eq_error_iff (hg : g.Indexed) :
    g.insertEdge e = .error err ↔ g.Refuses e err := by
  refine ⟨fun h => ?_, Refuses.insertEdge_eq⟩
  have hrefuses : ∀ err', g.Refuses e err' → g.Refuses e err := by
    intro err' h'
    cases h.symm.trans h'.insertEdge_eq
    exact h'
  cases hsource : g.index? e.source with
  | none => exact hrefuses _ (.noSource hsource)
  | some head =>
    cases htarget : g.index? e.target with
    | none => exact hrefuses _ (.noTarget hsource htarget)
    | some tail =>
      cases hstored : g.graph.edge? head tail with
      | some link => exact hrefuses _ (.duplicate hsource htarget hstored)
      | none =>
        obtain ⟨source, hn, -⟩ := (hg.named _ _).1 hsource
        obtain ⟨target, hn', -⟩ := (hg.named _ _).1 htarget
        obtain ⟨graph, hgraph⟩ := Digraph.exists_insertEdge hstored
          ((hg.numbered _).2 (hg.lt hn)) ((hg.numbered _).2 (hg.lt hn')) e.link
        have hok : g.insertEdge e = .ok ⟨graph, g.ids⟩ :=
          insertEdge_eq_ok_iff.2 ⟨head, tail, hsource, htarget, hgraph, rfl⟩
        cases hok.symm.trans h

theorem insertNode_eq_error_iff (hg : g.Indexed) :
    g.insertNode n = .error err ↔
      g.hasNode n.id = true ∧ err = .graph (.duplicateNode n.id) := by
  rw [hasNode]
  cases hid : g.index? n.id with
  | none =>
    obtain ⟨g', hg'⟩ := hg.exists_insertNode hid
    rw [hg']
    simp
  | some i =>
    rw [SpecGraph.insertNode, hasNode, hid]
    simp [eq_comm]

end Indexed

/-! ## Sequences of calls -/

theorem ofInsertions_concat (calls : List Insertion) (call : Insertion) :
    ofInsertions (calls ++ [call]) =
      (call.perform (ofInsertions calls)).toOption.getD (ofInsertions calls) := by
  rw [ofInsertions, List.foldl_append]
  rfl

theorem grows_ofInsertions_append (calls later : List Insertion) :
    Grows (fun _ => True) (fun _ => True) (ofInsertions calls) (ofInsertions (calls ++ later)) := by
  rw [ofInsertions, ofInsertions, List.foldl_append]
  exact grows_foldl_perform later _

/-- The node that a call is to add. -/
def Insertion.node? : Insertion → Option Node
  | .node n => some n
  | .edge _ => none

def sameId (n n' : Node) : Bool := n.id == n'.id

/-- The nodes that come of a sequence of calls: of the calls with one id the first. -/
def insertedNodes (calls : List Insertion) : List Node :=
  (calls.filterMap Insertion.node?).eraseDupsBy sameId

theorem Indexed.nodes_insertEdge (hg : g.Indexed) (h : g.insertEdge e = .ok g') :
    g'.nodes = g.nodes :=
  Grows.nodes_eq_self (E := fun _ => True) (.edge .refl trivial h) hg

theorem Indexed.nodes_foldl_perform (hg : g.Indexed) (calls : List Insertion) :
    (calls.foldl (fun g call => (call.perform g).toOption.getD g) g).nodes =
      g.nodes ++ ((calls.filterMap Insertion.node?).filter
        fun n => (g.index? n.id).isNone).eraseDupsBy sameId := by
  induction calls generalizing g with
  | nil => exact (List.append_nil _).symm
  | cons call calls ih =>
    rw [List.foldl_cons]
    cases call with
    | edge e =>
      rw [List.filterMap_cons_none rfl]
      cases hcall : Insertion.perform g (.edge e) with
      | error err => exact ih hg
      | ok g' =>
        have hsame := fun n : Node => index?_insertEdge hcall n.id
        rw [Except.toOption, Option.getD_some, ih (hg.insertEdge hcall), hg.nodes_insertEdge hcall]
        simp only [hsame]
    | node n =>
      have hnode : (Insertion.node n).node? = some n := rfl
      rw [List.filterMap_cons_some hnode]
      cases hid : g.index? n.id with
      | some i =>
        have hfails : Insertion.perform g (.node n) = .error (.graph (.duplicateNode n.id)) := by
          refine hg.insertNode_eq_error_iff.2 ⟨?_, rfl⟩
          rw [hasNode, hid]
          rfl
        rw [hfails, List.filter_cons_of_neg (by simp [hid])]
        exact ih hg
      | none =>
        obtain ⟨g', hcall⟩ := hg.exists_insertNode hid
        have hperform : Insertion.perform g (.node n) = .ok g' := hcall
        -- what is new to the larger graph is new to the smaller one and has another id
        have hnew : ∀ n' : Node, (g'.index? n'.id).isNone =
            (decide (sameId n' n = false) && (g.index? n'.id).isNone) := by
          intro n'
          rw [index?_insertNode hcall]
          by_cases h : n'.id = n.id <;> simp [sameId, h]
        rw [hperform, List.filter_cons_of_pos (by simp [hid]), List.eraseDupsBy_cons,
          List.filter_filter, Except.toOption, Option.getD_some, ih (hg.insertNode hcall),
          hg.nodes_insertNode hcall, List.append_assoc, List.singleton_append]
        simp only [hnew]

/-- Nodes come in the order of the calls that added them. -/
theorem nodes_ofInsertions (calls : List Insertion) :
    (ofInsertions calls).nodes = insertedNodes calls := by
  have hempty : ∀ n : Node, (empty.index? n.id).isNone = true := by
    intro n
    simp [index?, empty]
  rw [ofInsertions, Indexed.empty.nodes_foldl_perform, insertedNodes]
  simp only [hempty, List.filter_true]
  rfl

/-- A call was to add the link, and it succeeded. -/
def Inserted (calls : List Insertion) (e : Edge) : Prop :=
  ∃ before later g', calls = before ++ .edge e :: later ∧
    (ofInsertions before).insertEdge e = .ok g'

variable {calls : List Insertion}

theorem Inserted.concat (h : Inserted calls e) (call : Insertion) :
    Inserted (calls ++ [call]) e := by
  obtain ⟨before, later, g', rfl, hcall⟩ := h
  refine ⟨before, later ++ [call], g', ?_, hcall⟩
  rw [List.append_assoc, List.cons_append]

theorem ofInsertions_concat_of_ok {call : Insertion}
    (h : call.perform (ofInsertions calls) = .ok g) : ofInsertions (calls ++ [call]) = g := by
  rw [ofInsertions_concat, h]
  rfl

/-- A link that was added is found under the numbers of its ends. -/
theorem Inserted.edge? (h : Inserted calls e) :
    ∃ head tail, (ofInsertions calls).index? e.source = some head ∧
      (ofInsertions calls).index? e.target = some tail ∧
      (ofInsertions calls).graph.edge? head tail = some e.link := by
  obtain ⟨before, later, g', rfl, hcall⟩ := h
  obtain ⟨head, tail, hsource, htarget, hgraph, -⟩ := insertEdge_eq_ok_iff.1 hcall
  have hperform : Insertion.perform (ofInsertions before) (.edge e) = .ok g' := hcall
  -- the later calls keep the numbers of its ends, and the link
  have hgrows := grows_ofInsertions_append (before ++ [.edge e]) later
  rw [List.append_assoc, List.singleton_append, ofInsertions_concat_of_ok hperform] at hgrows
  have hindexed := (indexed_ofInsertions before).insertEdge hcall
  refine ⟨head, tail, hgrows.index?_of_some hindexed ?_, hgrows.index?_of_some hindexed ?_,
    hgrows.edge?_of_some ?_⟩
  · rw [index?_insertEdge hcall, hsource]
  · rw [index?_insertEdge hcall, htarget]
  · rw [Digraph.edge?_insertEdge hgraph, if_pos ⟨rfl, rfl⟩]

theorem grows_inserted (calls : List Insertion) :
    Grows (fun _ => True) (Inserted calls) .empty (ofInsertions calls) := by
  induction calls using List.reverseRecOn with
  | nil => exact .refl
  | append_singleton calls call ih =>
    have hbefore := ih.mono (fun _ h => h) fun e h => Inserted.concat h call
    cases hcall : call.perform (ofInsertions calls) with
    | error err =>
      rw [ofInsertions_concat, hcall]
      exact hbefore
    | ok g' =>
      rw [ofInsertions_concat_of_ok hcall]
      cases call with
      | node n => exact hbefore.node trivial hcall
      | edge e => exact hbefore.edge ⟨calls, [], g', rfl, hcall⟩ hcall

/-- A link is stored under the numbers of its ends if a call that was to add it has succeeded, and
    no other links are. -/
theorem edge?_ofInsertions_iff {head tail : Nat} {link : Link} :
    (ofInsertions calls).graph.edge? head tail = some link ↔
      ∃ e, Inserted calls e ∧ e.link = link ∧
        (ofInsertions calls).index? e.source = some head ∧
        (ofInsertions calls).index? e.target = some tail := by
  constructor
  · intro h
    rcases (grows_inserted calls).edge?_cases .empty h with hempty | hadded
    · cases hempty
    · exact hadded
  · rintro ⟨e, he, rfl, hsource, htarget⟩
    obtain ⟨head', tail', hsource', htarget', hedge⟩ := he.edge?
    cases hsource.symm.trans hsource'
    cases htarget.symm.trans htarget'
    exact hedge

/-! ## Lookups -/

namespace Indexed

theorem indexedNodes_eq (hg : g.Indexed) : g.indexedNodes = g.nodes.mapIdx Prod.mk := by
  refine List.ext_getElem? fun i => ?_
  rw [hg.getElem?_indexedNodes, List.getElem?_mapIdx, hg.getElem?_nodes]

/-- No link is lost for want of its ends. -/
theorem map_linksFrom (hg : g.Indexed) (head : Nat) :
    (g.linksFrom head).map (fun l => (l.tail, l.link)) = g.graph.edgesOut head := by
  rw [linksFrom, List.map_filterMap]
  refine (List.filterMap_congr fun out hout => ?_).trans List.filterMap_some
  obtain ⟨tail, link⟩ := out
  obtain ⟨hhead, htail⟩ := hg.joined _ _ _ (Digraph.mem_edgesOut_iff.1 hout)
  obtain ⟨source, hsource⟩ := hg.exists_node hhead
  obtain ⟨target, htarget⟩ := hg.exists_node htail
  have hlocate : g.locate? head tail link = some ⟨head, source, tail, target, link⟩ :=
    locate?_eq_some_iff.2 ⟨rfl, rfl, rfl, hsource, htarget⟩
  dsimp only
  rw [hlocate]
  rfl

end Indexed

theorem Located.isPlaced_eq_false_iff (l : Located) :
    l.isPlaced = false ↔ l.link.kind = .rollback ∧
      ¬ (l.source.kind = .speculative ∧ l.target.kind = .committed) := by
  rw [isPlaced, Bool.or_eq_false_iff, bne_eq_false_iff_eq, ← Bool.not_eq_true, Bool.and_eq_true,
    beq_iff_eq, beq_iff_eq]

theorem validate_fails_iff :
    (∃ err, g.validate = .error err) ↔ ∃ l ∈ g.links, l.isPlaced = false := by
  have hok : (∃ err, g.validate = .error err) ↔ g.validate ≠ .ok () := by
    cases g.validate <;> simp
  rw [hok, ne_eq, validate_eq_ok_iff]
  simp only [not_forall, Bool.not_eq_true, exists_prop]

end SpecGraph

end Mispredict
