/-
  Graphs without their instructions.

  A node may have no instruction, but a text that shows one, and then executes what can be
  read of the text. Take the instructions away from a graph, and leave the texts
  (`SpecGraph.withoutInstrs`). Nodes keep their numbers, and links their ends. If each text gives
  the instruction again, but for the place to which its target is bound (`Node.Rereads`),
  then an analysis starts with the same state, at the same point (`initial_withoutInstrs`,
  `checkedEntry_withoutInstrs`), and goes the same ways (`routes_withoutInstrs`).
-/
import Mispredict.Proofs.Step
import Mispredict.Proofs.Unbound

namespace Mispredict

open MuAsm (Instr)

/-! ## Graphs without instructions -/

namespace Digraph

variable {ν ν' ε : Type}

/-- The graph with other data at its vertices. -/
def mapVertices (f : ν → ν') (g : Digraph ν ε) : Digraph ν' ε :=
  ⟨g.slots.map fun _ slot => ⟨f slot.value, slot.out⟩⟩

variable (f : ν → ν') (g : Digraph ν ε)

theorem vertex?_mapVertices (i : Nat) : (g.mapVertices f).vertex? i = (g.vertex? i).map f := by
  rw [vertex?, vertex?, mapVertices, Std.ExtTreeMap.getElem?_map, Option.map_map, Option.map_map]
  rfl

theorem vertices_mapVertices :
    (g.mapVertices f).vertices = g.vertices.map fun (i, v) => (i, f v) := by
  rw [vertices, vertices, mapVertices, Std.ExtTreeMap.toList_map, List.map_map, List.map_map]
  rfl

theorem edgesOut_mapVertices (i : Nat) : (g.mapVertices f).edgesOut i = g.edgesOut i := by
  rw [edgesOut, edgesOut, mapVertices, Std.ExtTreeMap.getElem?_map, Option.map_map]
  rfl

theorem edges_mapVertices : (g.mapVertices f).edges = g.edges := by
  rw [edges, edges, mapVertices, Std.ExtTreeMap.toList_map, List.flatMap_map]

end Digraph

/-- The node without its instruction, which its text still shows. -/
def Node.bare (n : Node) : Node := { n with instr := none }

namespace SpecGraph

/-- The graph whose nodes have no instructions, but still their texts. -/
def withoutInstrs (g : SpecGraph) : SpecGraph := ⟨g.graph.mapVertices Node.bare, g.ids⟩

def Located.bare (l : Located) : Located :=
  { l with source := l.source.bare, target := l.target.bare }

variable (g : SpecGraph)

theorem node?_withoutInstrs (i : Nat) :
    g.withoutInstrs.node? i = (g.node? i).map Node.bare :=
  Digraph.vertex?_mapVertices ..

theorem indexedNodes_withoutInstrs :
    g.withoutInstrs.indexedNodes = g.indexedNodes.map fun (i, n) => (i, n.bare) :=
  Digraph.vertices_mapVertices ..

theorem nodes_withoutInstrs : g.withoutInstrs.nodes = g.nodes.map Node.bare := by
  rw [nodes, nodes, indexedNodes_withoutInstrs, List.map_map, List.map_map]
  rfl

theorem find?_withoutInstrs (id : String) :
    g.withoutInstrs.find? id = (g.find? id).map fun (i, n) => (i, n.bare) := by
  unfold find?
  rw [show g.withoutInstrs.index? id = g.index? id from rfl]
  cases g.index? id with
  | none => rfl
  | some i =>
    dsimp only [Option.bind_eq_bind, Option.bind_some]
    rw [node?_withoutInstrs]
    cases g.node? i <;> rfl

theorem entry?_withoutInstrs :
    g.withoutInstrs.entry? = g.entry?.map fun (i, n) => (i, n.bare) := by
  unfold entry?
  rw [find?_withoutInstrs]
  cases g.find? "n0" with
  | none =>
    dsimp only [Option.map_none]
    rw [indexedNodes_withoutInstrs, List.head?_map]
  | some found => rfl

theorem locate?_withoutInstrs (head tail : Nat) (link : Link) :
    g.withoutInstrs.locate? head tail link = (g.locate? head tail link).map Located.bare := by
  unfold locate?
  rw [node?_withoutInstrs, node?_withoutInstrs]
  cases g.node? head <;> cases g.node? tail <;> rfl

theorem linksFrom_withoutInstrs (i : Nat) :
    g.withoutInstrs.linksFrom i = (g.linksFrom i).map Located.bare := by
  rw [linksFrom, linksFrom, List.map_filterMap]
  simp only [locate?_withoutInstrs]
  rw [withoutInstrs, Digraph.edgesOut_mapVertices]

theorem links_withoutInstrs : g.withoutInstrs.links = g.links.map Located.bare := by
  rw [links, links, List.map_filterMap]
  simp only [locate?_withoutInstrs]
  rw [withoutInstrs, Digraph.edges_mapVertices]

theorem contextEnds_withoutInstrs :
    g.withoutInstrs.contextEnds = g.contextEnds.map fun (i, n) => (i, n.bare) := by
  rw [contextEnds, contextEnds, indexedNodes_withoutInstrs, List.filter_map]
  rfl

theorem validate_withoutInstrs : g.withoutInstrs.validate = g.validate := by
  unfold validate
  rw [links_withoutInstrs, List.find?_map]
  have hplaced : (fun l : Located => !l.isPlaced) ∘ Located.bare = fun l => !l.isPlaced := rfl
  rw [hplaced]
  cases g.links.find? fun l => !l.isPlaced <;> rfl

end SpecGraph

/-! ## Setups -/

/-- The text of a node stands for its instruction, but for what its target is bound to. -/
structure Node.Rereads (n : Node) : Prop where
  executes : n.executes = .ok n.instr
  bare : n.bare.executes = .ok (n.instr.map Instr.unbound)
  bound : ∀ i, n.instr = some i → i.IsBound

/-- The texts of all nodes stand for their instructions. -/
def SpecGraph.Rereads (g : SpecGraph) : Prop := ∀ i n, g.node? i = some n → n.Rereads

namespace Setup

variable {g : SpecGraph} (o : Options)

theorem entryKey_withoutInstrs :
    (Setup.of g.withoutInstrs o).entryKey = (Setup.of g o).entryKey := by
  unfold entryKey
  dsimp only [Setup.of]
  rw [SpecGraph.entry?_withoutInstrs]
  cases o.entryNode with
  | none => cases g.entry? <;> rfl
  | some id =>
    dsimp only
    rw [SpecGraph.find?_withoutInstrs]
    cases g.find? id <;> rfl

theorem checkedEntry_withoutInstrs :
    (Setup.of g.withoutInstrs o).checkedEntry = (Setup.of g o).checkedEntry := by
  unfold checkedEntry
  rw [entryKey_withoutInstrs]
  dsimp only [Setup.of]
  rw [SpecGraph.validate_withoutInstrs]
  rfl

theorem contextEnd?_withoutInstrs (i : Nat) (frames : List Frame) :
    (Setup.of g.withoutInstrs o).contextEnd? i frames =
      ((Setup.of g o).contextEnd? i frames).map fun (j, n) => (j, n.bare) := by
  unfold contextEnd?
  split
  · dsimp only [Setup.of]
    rw [SpecGraph.contextEnds_withoutInstrs, SpecGraph.endOf?, SpecGraph.endOf?, List.find?_map]
    have hcontext : ∀ context : Nat,
        (fun e : Nat × Node => e.2.marker.map (·.context) == some context) ∘
          (fun e : Nat × Node => (e.1, e.2.bare)) =
        fun e => e.2.marker.map (·.context) == some context := fun _ => rfl
    rw [hcontext]
    cases g.contextEnds.find? _ with
    | none => rfl
    | some e =>
      rw [Option.map_some, Option.filter_some, Option.filter_some]
      dsimp only
      split <;> rfl
  · rfl

theorem mustEnd_bare (k : Key) (n : Node) (i : Option Instr) (links : List SpecGraph.Located) :
    mustEnd k n.bare (i.map Instr.unbound) (links.map SpecGraph.Located.bare) =
      mustEnd k n i links := by
  have hbarrier : (i.map Instr.unbound).any (·.isBarrier) = i.any (·.isBarrier) := by
    cases i with
    | none => rfl
    | some i => exact i.isBarrier_unbound
  rw [mustEnd, mustEnd, hbarrier, List.isEmpty_map]
  rfl

theorem routesFrom_withoutInstrs (k : Key) (n : Node) (i : Option Instr) :
    (Setup.of g.withoutInstrs o).routesFrom k n.bare (i.map Instr.unbound) =
      (Setup.of g o).routesFrom k n i := by
  have hlinks : (Setup.of g.withoutInstrs o).graph.linksFrom k.node =
      ((Setup.of g o).graph.linksFrom k.node).map SpecGraph.Located.bare :=
    g.linksFrom_withoutInstrs k.node
  unfold routesFrom
  dsimp only
  rw [hlinks, mustEnd_bare, contextEnd?_withoutInstrs,
    show framesAfter k n.bare = framesAfter k n from rfl]
  split
  · cases (Setup.of g o).contextEnd? k.node (framesAfter k n) with
    | none =>
      dsimp only [Option.map_none]
      rw [List.filter_map, List.map_map]
      rfl
    | some e => rfl
  · rw [List.map_map]
    rfl

variable (hg : g.Rereads)

include hg

theorem trackedRegisters_withoutInstrs :
    trackedRegisters g.withoutInstrs o = trackedRegisters g o := by
  rw [trackedRegisters, trackedRegisters, SpecGraph.nodes_withoutInstrs, List.flatMap_map]
  congr 1
  refine List.flatMap_congr fun n hn => ?_
  obtain ⟨⟨j, _⟩, hmem, rfl⟩ := List.mem_map.1 hn
  have hn := hg j _ (SpecGraph.node?_of_mem_indexedNodes hmem)
  rw [hn.executes, hn.bare]
  cases hi : Node.instr _ with
  | none => rfl
  | some i => exact Instr.registers_unbound (hn.bound i hi)

theorem initial_withoutInstrs :
    (Setup.of g.withoutInstrs o).initial = (Setup.of g o).initial := by
  dsimp only [Setup.of]
  rw [trackedRegisters_withoutInstrs o hg]

theorem routes_withoutInstrs (k : Key) :
    (Setup.of g.withoutInstrs o).routes k = (Setup.of g o).routes k := by
  have hnode : (Setup.of g.withoutInstrs o).graph.node? k.node =
      ((Setup.of g o).graph.node? k.node).map Node.bare := g.node?_withoutInstrs k.node
  unfold routes
  rw [hnode]
  cases hn : (Setup.of g o).graph.node? k.node with
  | none => rfl
  | some n =>
    have hn := hg k.node n hn
    dsimp only [Option.map_some]
    rw [hn.executes, hn.bare]
    exact routesFrom_withoutInstrs o k n n.instr

end Setup

end Mispredict
