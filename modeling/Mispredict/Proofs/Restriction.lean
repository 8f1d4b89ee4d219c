/-
  The analysis of the committed part of a graph.

  The analysis of a graph and that of its committed part start in the same state
  (`IsCore.initial_eq`) at the same point (`IsCore.entryKey_eq`). What follows a committed
  point in the committed part is what follows it in the whole graph, in the same order, less
  what is speculative (`IsCore.moves_eq`).
-/
import Mispredict.Proofs.CommittedPart
import Mispredict.Proofs.Move

namespace Mispredict

/-- The state at the start depends only on which registers are named. -/
theorem State.seeded_congr {policy : Policy} {l l' : List String} (h : ∀ r, r ∈ l ↔ r ∈ l') :
    State.seeded policy l = State.seeded policy l' := by
  have hbase : l.foldl (fun (m : SortedMap String Value) r => m.insert r .low) .empty =
      l'.foldl (fun (m : SortedMap String Value) r => m.insert r .low) .empty := by
    refine SortedMap.ext_get? fun k => ?_
    rw [SortedMap.get?_foldl_insert (fun _ => Value.low), SortedMap.get?_foldl_insert
      (fun _ => Value.low)]
    simp only [h]
  rw [seeded, seeded, hbase]

/-- The entry is a committed node, if one is asked for. -/
def Options.EntersCommitted (o : Options) (g : SpecGraph) : Prop :=
  ∀ id, o.entryNode = some id → ∃ i n, g.find? id = some (i, n) ∧ n.kind = .committed

namespace SpecGraph

variable {c g : SpecGraph} {o : Options} {i : Nat} {n : Node} {k : Key}

/-! ## Links -/

theorem pairwise_linksFrom (g : SpecGraph) (i : Nat) :
    (g.linksFrom i).Pairwise fun a b => a.tail < b.tail := by
  have hout : (g.graph.edgesOut i).Pairwise fun a b => a.1 < b.1 := by
    rw [Digraph.edgesOut]
    cases g.graph.slots[i]? with
    | none => exact List.Pairwise.nil
    | some slot => exact slot.out.increasing.imp fun hlt => Nat.compare_eq_lt.1 hlt
  refine List.Pairwise.filterMap _ ?_ hout
  intro a b hlt l hl l' hl'
  rw [(locate?_eq_some_iff.1 hl).2.1, (locate?_eq_some_iff.1 hl').2.1]
  exact hlt

namespace IsCore

variable (h : c.IsCore g)

include h

theorem linksFrom_eq (i : Nat) :
    c.linksFrom i = (g.linksFrom i).filter (·.link.kind == .committed) := by
  have : Std.Irrefl fun a b : Located => a.tail < b.tail := ⟨fun a => lt_irrefl a.tail⟩
  refine (c.pairwise_linksFrom i).eq_of_mem_iff ((g.pairwise_linksFrom i).filter _) fun l => ?_
  rw [List.mem_filter, mem_linksFrom_iff, mem_linksFrom_iff, beq_iff_eq]
  constructor
  · rintro ⟨hhead, hedge, hsource, htarget⟩
    obtain ⟨hedge, hkind⟩ := h.edge.1 hedge
    exact ⟨⟨hhead, hedge, (h.node.1 hsource).1, (h.node.1 htarget).1⟩, hkind⟩
  · rintro ⟨⟨hhead, hedge, hsource, htarget⟩, hkind⟩
    have hedge := h.edge.2 ⟨hedge, hkind⟩
    obtain ⟨hlt, hlt'⟩ := h.flow.indexed.joined _ _ _ hedge
    obtain ⟨source, hs⟩ := h.flow.indexed.exists_node hlt
    obtain ⟨target, ht⟩ := h.flow.indexed.exists_node hlt'
    cases hsource.symm.trans (h.node.1 hs).1
    cases htarget.symm.trans (h.node.1 ht).1
    exact ⟨hhead, hedge, hs, ht⟩

theorem mem_linksFrom {l : Located} (hl : l ∈ g.linksFrom i) (hkind : l.link.kind = .committed) :
    l ∈ c.linksFrom i := by
  rw [h.linksFrom_eq, List.mem_filter, hkind]
  exact ⟨hl, rfl⟩

theorem validate_eq (hg : g.NoRollback) : g.validate = .ok () ∧ c.validate = .ok () := by
  have hvalid : ∀ {g : SpecGraph}, g.NoRollback → g.validate = .ok () := by
    intro g hg
    have hnone : g.links.find? (!·.isPlaced) = none := by
      refine List.find?_eq_none.2 fun l hl => ?_
      have hkind := hg _ _ _ (mem_links_iff.1 hl).1
      simp [Located.isPlaced, hkind]
    rw [validate, hnone]
  refine ⟨hvalid hg, hvalid fun head tail link hedge => ?_⟩
  exact hg head tail link (h.edge.1 hedge).1

/-! ## The start -/

theorem mem_trackedRegisters_iff {r : String} :
    r ∈ Setup.trackedRegisters g o ↔ r ∈ Setup.trackedRegisters c o := by
  simp only [Setup.trackedRegisters, List.mem_append, List.mem_flatMap,
    h.indexed.mem_nodes_iff, h.flow.indexed.mem_nodes_iff]
  refine or_congr_right ⟨?_, ?_⟩
  · rintro ⟨n, ⟨i, hn⟩, hr⟩
    cases hkind : n.kind with
    | committed => exact ⟨n, ⟨i, h.node.2 ⟨hn, hkind⟩⟩, hr⟩
    | speculative =>
      rcases h.executes hn hkind with hexecutes | ⟨j, n', hn', hexecutes⟩
      · rw [hexecutes] at hr
        cases hr
      · rw [← hexecutes] at hr
        exact ⟨n', ⟨j, hn'⟩, hr⟩
  · rintro ⟨n, ⟨i, hn⟩, hr⟩
    exact ⟨n, ⟨i, (h.node.1 hn).1⟩, hr⟩

theorem initial_eq (o : Options) : (Setup.of c o).initial = (Setup.of g o).initial :=
  State.seeded_congr fun _ => h.mem_trackedRegisters_iff.symm

theorem find?_eq_some_iff {id : String} :
    c.find? id = some (i, n) ↔ g.find? id = some (i, n) ∧ n.kind = .committed := by
  rw [h.flow.indexed.find?_eq_some_iff, h.indexed.find?_eq_some_iff, h.node, and_right_comm]

theorem entry?_eq : c.entry? = g.entry? := by
  unfold entry?
  cases hg : g.find? "n0" with
  | some found =>
    obtain ⟨i, n⟩ := found
    have hkind : n.kind = .committed := by
      obtain ⟨hn, hid⟩ := h.indexed.find?_eq_some_iff.1 hg
      cases hkind : n.kind with
      | committed => rfl
      | speculative => exact absurd hid (h.entry hn hkind)
    rw [h.find?_eq_some_iff.2 ⟨hg, hkind⟩]
  | none =>
    have hc : c.find? "n0" = none := by
      cases hc : c.find? "n0" with
      | none => rfl
      | some found =>
        rw [(h.find?_eq_some_iff.1 hc).1] at hg
        cases hg
    rw [hc]
    dsimp only
    rw [List.head?_eq_getElem?, List.head?_eq_getElem?, h.flow.indexed.getElem?_indexedNodes,
      h.indexed.getElem?_indexedNodes]
    cases hn : c.node? 0 with
    | some n => rw [(h.node.1 hn).1]
    | none =>
      -- without a committed node there is none at all
      have hempty : ¬ 0 < g.numNodes := by
        intro hpos
        obtain ⟨n, hn'⟩ := h.flow.indexed.exists_node (h.nonempty hpos)
        rw [hn] at hn'
        cases hn'
      have hnone : g.node? 0 = none := by
        rw [← Option.not_isSome_iff_eq_none, h.indexed.numbered]
        exact hempty
      rw [hnone]

/-- Analysis starts at a committed node. -/
theorem exists_node_of_entryKey (hk : (Setup.of c o).entryKey = .ok (some k)) :
    k.mode = .committed ∧ k.frames = [] ∧ ∃ n, c.node? k.node = some n := by
  obtain ⟨i, n, hn, ⟨hspec, -⟩ | ⟨-, rfl⟩⟩ := Setup.entryKey_cases hk
  · rw [Node.isSpeculative, h.flow.node i n hn] at hspec
    cases hspec
  · exact ⟨rfl, rfl, n, hn⟩

theorem entryKey_eq (ho : o.EntersCommitted g) :
    (Setup.of c o).entryKey = (Setup.of g o).entryKey := by
  unfold Setup.entryKey
  cases hentry : o.entryNode with
  | none =>
    have heq : (Setup.of c o).graph.entry? = (Setup.of g o).graph.entry? := h.entry?_eq
    simp only [Setup.of, hentry] at heq ⊢
    rw [heq]
    rfl
  | some id =>
    obtain ⟨i, n, hfind, hkind⟩ := ho id hentry
    have hfind' := h.find?_eq_some_iff.2 ⟨hfind, hkind⟩
    simp only [Setup.of, hentry, hfind, hfind']
    rfl

theorem checkedEntry_eq (hg : g.NoRollback) (ho : o.EntersCommitted g) :
    (Setup.of c o).checkedEntry = (Setup.of g o).checkedEntry := by
  obtain ⟨hvalid, hvalid'⟩ := h.validate_eq hg
  have hg' : (Setup.of g o).graph.validate = .ok () := hvalid
  have hc' : (Setup.of c o).graph.validate = .ok () := hvalid'
  unfold Setup.checkedEntry
  rw [hg', hc', h.entryKey_eq ho]
  rfl

end IsCore

end SpecGraph

/-! ## Moves -/

namespace Setup

variable {s : Setup} {k : Key} {n : Node} {l : SpecGraph.Located} {frames : List Frame}

theorem moves_of_error (hn : s.graph.node? k.node = some n) {e : Error}
    (he : n.executes = .error e) : s.moves k = [] := by
  rw [moves, routes, hn]
  dsimp only
  rw [he]
  rfl

/-- Nothing ends at a committed point: every link out of its node is a way on. -/
theorem moves_of_committed (hmode : k.mode = .committed) (hn : s.graph.node? k.node = some n)
    {i : Option MuAsm.Instr} (hi : n.executes = .ok i) :
    s.moves k =
      (s.graph.linksFrom k.node).filterMap fun l => (s.routeOf k k.frames l).move? := by
  have hmust : mustEnd k n i (s.graph.linksFrom k.node) = false := by
    simp [mustEnd, hmode]
  rw [moves, routes, hn]
  dsimp only
  rw [hi]
  dsimp only
  rw [routesFrom, hmust, framesAfter_of_committed hmode, if_neg (by simp), List.filterMap_map]
  rfl

theorem move?_routeOf_committed (hkind : l.link.kind = .committed)
    (hend : l.target.endsContext = false) :
    (s.routeOf k frames l).move? = some (⟨l.tail, k.mode, frames⟩, .full) := by
  have hthrough : s.through k frames l = .ok (⟨l.tail, k.mode, frames⟩, .full) := by
    rw [through, hkind]
  rw [routeOf, hthrough]
  dsimp only
  rw [if_neg (by simp [hend])]
  rfl

theorem mode_of_move?_routeOf (hkind : l.link.kind = .speculative) {move : Key × Payload}
    (h : (s.routeOf k frames l).move? = some move) : move.1.mode = .speculative := by
  obtain ⟨target, payload⟩ := move
  cases ofLink_of_through (through_of_move? h) with
  | committed kind => cases hkind.symm.trans kind
  | speculative => rfl
  | rollback kind => cases hkind.symm.trans kind

theorem node_of_move?_routeOf {move : Key × Payload}
    (h : (s.routeOf k frames l).move? = some move) : move.1.node = l.tail := by
  obtain ⟨target, payload⟩ := move
  cases ofLink_of_through (through_of_move? h) <;> rfl

/-- A committed point passes its state on in the order of the nodes. -/
theorem pairwise_moves (hmode : k.mode = .committed) :
    (s.moves k).Pairwise fun a b => a.1.node < b.1.node := by
  cases hn : s.graph.node? k.node with
  | none =>
    rw [moves, routes, hn]
    exact List.Pairwise.nil
  | some n =>
    cases hi : n.executes with
    | error e =>
      rw [moves_of_error hn hi]
      exact List.Pairwise.nil
    | ok i =>
      rw [moves_of_committed hmode hn hi]
      refine List.Pairwise.filterMap _ ?_ (s.graph.pairwise_linksFrom k.node)
      intro l l' hlt move hmove move' hmove'
      rw [node_of_move?_routeOf hmove, node_of_move?_routeOf hmove']
      exact hlt

end Setup

/-- What follows a committed point in the committed part is what of its followers in the whole graph
    is committed. -/
theorem SpecGraph.IsCore.moves_eq {c g : SpecGraph} (h : c.IsCore g) {o : Options} {k : Key}
    {n : Node} (hmode : k.mode = .committed) (hn : c.node? k.node = some n)
    (hrollback : ∀ l ∈ g.linksFrom k.node, l.link.kind ≠ .rollback) :
    (Setup.of c o).moves k = ((Setup.of g o).moves k).filter (·.1.mode == .committed) := by
  have hnc : (Setup.of c o).graph.node? k.node = some n := hn
  have hng : (Setup.of g o).graph.node? k.node = some n := (h.node.1 hn).1
  cases hi : n.executes with
  | error e =>
    rw [Setup.moves_of_error hnc hi, Setup.moves_of_error hng hi]
    rfl
  | ok i =>
    have hlinks : (Setup.of c o).graph.linksFrom k.node =
        (g.linksFrom k.node).filter (·.link.kind == .committed) := h.linksFrom_eq k.node
    rw [Setup.moves_of_committed hmode hnc hi, Setup.moves_of_committed hmode hng hi, hlinks,
      List.filter_filterMap, List.filterMap_filter]
    refine List.filterMap_congr fun l hl => ?_
    have hlink : l ∈ g.linksFrom k.node := hl
    cases hkind : l.link.kind with
    | committed =>
      have htarget : l.target.endsContext = false := by
        have hmem := h.mem_linksFrom hlink hkind
        rw [Node.endsContext, h.unmarked (mem_linksFrom_iff.1 hmem).2.2.2]
      rw [Setup.move?_routeOf_committed hkind htarget, Setup.move?_routeOf_committed hkind htarget,
        Option.filter_some, hmode]
      rfl
    | speculative =>
      rw [if_neg (by decide), eq_comm, Option.filter_eq_none_iff]
      intro move hmove
      rw [Setup.mode_of_move?_routeOf hkind hmove]
      decide
    | rollback => exact absurd hkind (hrollback l hlink)

end Mispredict
