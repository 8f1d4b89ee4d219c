/-
  The committed part of any graph.

  Committed and speculative nodes may be added in any order, and links of every kind between
  them. Whatever graph comes of it, it has a committed part: the lists of its committed nodes
  and of the committed links between them describe a graph (`Indexed.wellFormed_committed`).
  There nodes have new numbers, but they stand in the same order as before, so that links are
  listed in the same order as well (`Indexed.edges_eq_filter`). The committed part is valid, since
  it has no rollbacks, and it is its own committed part (`IsFlow.committedPart_self`).
-/
import Mispredict.Proofs.Listing

namespace Mispredict

/-! ## Places among some of the nodes -/

section Sublist

variable {ns ns' : List Node} (hsub : ns'.Sublist ns) (hids : (ns.map Node.id).Nodup)

include hsub hids

/-- Of two nodes the same comes first in a list and among some nodes of the list. -/
theorem Node.position_lt_of_sublist {x y : String} (hx : x ∈ ns'.map Node.id)
    (hy : y ∈ ns'.map Node.id) (hlt : position ns' x < position ns' y) :
    position ns x < position ns y := by
  have hordered : (ns.map Node.id).Pairwise fun x y => position ns x < position ns y := by
    refine List.pairwise_iff_getElem.2 fun i j hi hj hij => ?_
    rwa [position, position, hids.idxOf_getElem i hi, hids.idxOf_getElem j hj]
  have hkept := List.pairwise_iff_getElem.1 (hordered.sublist (hsub.map Node.id))
  have hx := List.idxOf_lt_length_iff.2 hx
  have hy := List.idxOf_lt_length_iff.2 hy
  have hlt := hkept _ _ hx hy hlt
  rwa [List.getElem_idxOf hx, List.getElem_idxOf hy] at hlt

theorem Edge.place_lt_of_sublist {a b : Edge}
    (ha : a.source ∈ ns'.map Node.id ∧ a.target ∈ ns'.map Node.id)
    (hb : b.source ∈ ns'.map Node.id ∧ b.target ∈ ns'.map Node.id)
    (hlt : a.place ns' < b.place ns') : a.place ns < b.place ns := by
  rcases Prod.Lex.toLex_lt_toLex.1 hlt with hsource | ⟨hsource, htarget⟩
  · exact Prod.Lex.toLex_lt_toLex.2
      (.inl (Node.position_lt_of_sublist hsub hids ha.1 hb.1 hsource))
  · have hsame : a.source = b.source := (List.idxOf_inj ha.1).1 hsource
    exact Prod.Lex.toLex_lt_toLex.2 (.inr ⟨congrArg (Node.position ns) hsame,
      Node.position_lt_of_sublist hsub hids ha.2 hb.2 htarget⟩)

end Sublist

namespace SpecGraph

variable {g c : SpecGraph} {n : Node} {e : Edge}

/-! ## Committed nodes and links -/

namespace Indexed

/-- The committed nodes and the committed links between them describe a graph. -/
theorem wellFormed_committed (hg : g.Indexed) :
    WellFormed g.committedNodes (g.edges.filter g.joinsCommitted) where
  ids := hg.nodup_ids.sublist (List.filter_sublist.map Node.id)
  ends e he := (joinsCommitted_iff.1 (List.mem_filter.1 he).2).2
  apart := hg.nodup_ends.sublist (List.filter_sublist.map Edge.ends)
  rollbacks e he hkind := by
    rw [(joinsCommitted_iff.1 (List.mem_filter.1 he).2).1] at hkind
    cases hkind

/-- Links keep their order if only some nodes are left. -/
theorem edges_eq_filter (hg : g.Indexed) (hc : c.Indexed) (hnodes : c.nodes = g.committedNodes)
    (hedges : c.edges.Perm (g.edges.filter g.joinsCommitted)) :
    c.edges = g.edges.filter g.joinsCommitted := by
  have hsub : c.nodes.Sublist g.nodes := hnodes ▸ List.filter_sublist
  have hends : ∀ e ∈ c.edges, e.source ∈ c.nodes.map Node.id ∧ e.target ∈ c.nodes.map Node.id := by
    intro e he
    rw [hnodes]
    exact hg.wellFormed_committed.ends e (hedges.mem_iff.1 he)
  -- by their places in the whole graph the links of both lists are in order
  have hsorted : c.edges.Pairwise fun a b => a.place g.nodes < b.place g.nodes :=
    hc.pairwise_place.imp_of_mem fun {a b} ha hb =>
      Edge.place_lt_of_sublist hsub hg.nodup_ids (hends a ha) (hends b hb)
  exact hedges.eq_of_pairwise (fun a b _ _ hab hba => absurd hba hab.asymm) hsorted
    (hg.pairwise_place.filter _)

end Indexed

/-! ## The committed part -/

/-- `c` is what is left of `g` when all speculation is dropped. -/
structure IsProjection (g c : SpecGraph) : Prop where
  /-- The committed nodes are numbered anew, in the same order. -/
  numbered : c.indexedNodes = g.committedNodes.mapIdx Prod.mk
  /-- The committed links between them are kept, in the same order. -/
  edges : c.edges = g.edges.filter g.joinsCommitted
  valid : c.validate = .ok ()
  /-- To drop speculation once more changes nothing. -/
  again : c.committedPart = .ok c

theorem Indexed.isFlow_of_lists (hc : c.Indexed) (hnodes : ∀ n ∈ c.nodes, n.kind = .committed)
    (hedges : ∀ e ∈ c.edges, e.link.kind = .committed) : c.IsFlow where
  indexed := hc
  node i n hn := hnodes n (hc.mem_nodes_iff.2 ⟨i, hn⟩)
  edge head tail link hedge := by
    obtain ⟨hhead, htail⟩ := hc.joined head tail link hedge
    obtain ⟨source, hsource⟩ := hc.exists_node hhead
    obtain ⟨target, htarget⟩ := hc.exists_node htail
    exact hedges ⟨source.id, target.id, link⟩ (hc.mem_edges_iff.2
      ⟨head, tail, hc.index?_id hsource, hc.index?_id htarget, hedge⟩)

/-- A graph of committed control flow is its own committed part. -/
theorem IsFlow.committedPart_self (hc : c.IsFlow) : c.committedPart = .ok c :=
  committedPart_eq hc (N := fun _ => False) (E := fun _ => False) ⟨nofun, nofun⟩ .refl

/-- Every graph that can be put together has a committed part. -/
theorem exists_isProjection (calls : List Insertion) :
    ∃ c, (ofInsertions calls).committedPart = .ok c ∧ IsProjection (ofInsertions calls) c := by
  have hg := indexed_ofInsertions calls
  generalize ofInsertions calls = g at hg
  obtain ⟨c, h⟩ := hg.wellFormed_committed.exists_ofLists
  obtain ⟨g₁, h₁, h₂, hvalid⟩ := ofLists_eq_ok_iff.1 h
  obtain ⟨hc, hnodes, hperm⟩ := lists_of_ofLists h
  have hedges := hg.edges_eq_filter hc hnodes hperm
  have hflow : c.IsFlow := by
    refine hc.isFlow_of_lists (fun n hn => ?_) fun e he => ?_
    · rw [hnodes] at hn
      exact beq_iff_eq.1 (List.mem_filter.1 hn).2
    · rw [hedges] at he
      exact (joinsCommitted_iff.1 (List.mem_filter.1 he).2).1
  refine ⟨c, ?_, ?_, hedges, hvalid, hflow.committedPart_self⟩
  · exact bind_eq_ok_iff.2 ⟨g₁, h₁, filter_hasNode_eq h₁ ▸ h₂⟩
  · rw [hc.indexedNodes_eq, hnodes]

end SpecGraph

end Mispredict
