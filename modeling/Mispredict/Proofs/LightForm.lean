/-
  The light graph of a program in full.

  The nodes of a light graph are those of the instructions, followed by the two markers of
  each branch in the order of the branches (`nodes_light`). Its links are those of
  committed control flow and, for each branch, those from and to its markers; `LightLink` lists
  them. A link is not added where there is one already, but that never matters, for the
  ends of a link tell its kind: there is one between instructions exactly if it is committed, and
  markers of different branches have different ids. The window plays no part in
  any of it.
-/
import Mispredict.Proofs.LightMoves

namespace Mispredict

open MuAsm (Program Entry)

namespace SpecGraph

open Draft

/-! ## Nodes -/

namespace Draft

variable {p : Program} {mode : SpeculationMode} {d d' : Draft}

theorem nodes_addNode {n : Node} (hd : d.graph.Indexed) (h : d.addNode n = .ok d') :
    d'.graph.Indexed ∧ d'.graph.nodes = d.graph.nodes ++ [n] := by
  obtain ⟨g, hg, h⟩ := bind_eq_ok_iff.1 h
  cases h
  exact ⟨hd.insertNode hg, hd.nodes_insertNode hg⟩

/-- A branch gets two nodes. -/
theorem nodes_addMarkers {pc : Nat} (hd : d.graph.Indexed) (h : d.addMarkers p mode pc = .ok d') :
    d'.graph.Indexed ∧ d'.contexts = d.contexts + 1 ∧
      d'.graph.nodes = d.graph.nodes ++ [beginNode pc d.contexts, endNode pc d.contexts] := by
  unfold addMarkers at h
  obtain ⟨d₁, h₁, h⟩ := bind_eq_ok_iff.1 h
  obtain ⟨d₂, h₂, h⟩ := bind_eq_ok_iff.1 h
  obtain ⟨d₃, h₃, h⟩ := bind_eq_ok_iff.1 h
  obtain ⟨taken, -, h⟩ := bind_eq_ok_iff.1 h
  obtain ⟨d₄, h₄, h⟩ := bind_eq_ok_iff.1 h
  obtain ⟨d₅, h₅, h⟩ := bind_eq_ok_iff.1 h
  obtain ⟨d₆, h₆, h⟩ := bind_eq_ok_iff.1 h
  have hlast : Adds (fun _ => False) (fun _ => True) d₆ d' := by
    cases mode with
    | discard =>
      cases h
      exact .refl
    | stackGuard => exact adds_connect trivial h
  have hlinks : Adds (fun _ => False) (fun _ => True) d₂ d' :=
    (adds_connect trivial h₃).trans <| (adds_connectPc (fun _ _ => trivial) h₄).trans <|
      (adds_connectPc (fun _ _ => trivial) h₅).trans <| (adds_connect trivial h₆).trans hlast
  have hadds : Adds (fun _ => True) (fun _ => True) ⟨d.graph, d.contexts + 1⟩ d₂ :=
    (adds_addNode trivial h₁).trans (adds_addNode trivial h₂)
  obtain ⟨hd₁, hnodes₁⟩ := nodes_addNode (d := ⟨d.graph, d.contexts + 1⟩) hd h₁
  obtain ⟨hd₂, hnodes₂⟩ := nodes_addNode hd₁ h₂
  refine ⟨hlinks.graph.indexed hd₂, hlinks.contexts.trans hadds.contexts, ?_⟩
  rw [hlinks.graph.nodes_eq_self hd₂, hnodes₂, hnodes₁, List.append_assoc]
  rfl

/-- The markers of branches, the first of which has the given context. -/
def markers (branches : List Nat) (context : Nat) : List Node :=
  (branches.zipIdx context).flatMap fun b => [beginNode b.1 b.2, endNode b.1 b.2]

theorem nodes_light {rest : List Nat} (hd : d.graph.Indexed)
    (h : rest.foldlM (fun d pc => d.addMarkers p mode pc) d = .ok d') :
    d'.graph.nodes = d.graph.nodes ++ markers rest d.contexts := by
  induction rest generalizing d with
  | nil =>
    cases h
    exact (List.append_nil _).symm
  | cons pc rest ih =>
    rw [List.foldlM_cons] at h
    obtain ⟨d₁, h₁, h⟩ := bind_eq_ok_iff.1 h
    obtain ⟨hd₁, hcontexts, hnodes⟩ := nodes_addMarkers hd h₁
    rw [ih hd₁ h, hnodes, hcontexts, List.append_assoc]
    rfl

end Draft

theorem pairwise_branches {p : Program} (hp : p.Numbered) : (branches p).Pairwise (· < ·) := by
  refine List.pairwise_map.2 (List.Pairwise.filter _ (List.pairwise_iff_getElem.2 ?_))
  intro i j hi hj hlt
  have hpc := hp i _ (List.getElem?_eq_getElem hi)
  have hpc' := hp j _ (List.getElem?_eq_getElem hj)
  omega

/-- The program counters of markers, as numbers. -/
theorem toInt_markers {p : Program} {context pc : Nat} (hfits : p.Fits)
    (hb : BranchOf p context pc) :
    (beginNode pc context).pc.toInt = -(2 * context + 1) ∧
      (endNode pc context).pc.toInt = -(2 * context + 2) := by
  have hmax : Int64.maxValue.toInt = 9223372036854775807 := by decide
  have hlt := hb.lt
  unfold Program.Fits at hfits
  have htoInt : (Int64.ofNat context).toInt = context := Int64.toInt_ofNat_of_lt (by omega)
  constructor
  · show (-(2 * Int64.ofNat context + 1)).toInt = _
    rw [Int64.toInt_neg, Int64.toInt_add, Int64.toInt_mul, htoInt]
    simp [Int.bmod]
    omega
  · show (-(2 * Int64.ofNat context + 2)).toInt = _
    rw [Int64.toInt_neg, Int64.toInt_add, Int64.toInt_mul, htoInt]
    simp [Int.bmod]
    omega

/-! ## Links -/

/-- The links of a light graph, by the ids of their ends and by their kinds. -/
inductive LightLink (p : Program) (mode : SpeculationMode) :
    (source target : String) → (kind : LinkKind) → Prop where
  | committed {i j : Nat} (follows : j ∈ p.successors i) :
      LightLink p mode (committedId i) (committedId j) .committed
  | mispredict {context b : Nat} (branch : BranchOf p context b) :
      LightLink p mode (committedId b) (beginId context) .speculative
  | direction {context b x : Nat} (branch : BranchOf p context b) (follows : x ∈ p.successors b) :
      LightLink p mode (beginId context) (committedId x) .speculative
  | squash {context b : Nat} (branch : BranchOf p context b) :
      LightLink p mode (beginId context) (endId context) .speculative
  | rollback {context b : Nat} (branch : BranchOf p context b) (guarded : mode = .stackGuard) :
      LightLink p mode (endId context) (committedId b) .rollback

theorem Draft.LightEdge.lightLink {p : Program} {mode : SpeculationMode} {e : Edge}
    (h : LightEdge p mode e) : LightLink p mode e.source e.target e.link.kind := by
  cases h with
  | mispredict branch => exact .mispredict branch
  | direction branch target follows =>
    exact .direction branch ((Program.mem_successors_of_branchTarget target).2 follows)
  | squash branch => exact .squash branch
  | rollback branch guarded => exact .rollback branch guarded

namespace Stages

variable {p : Program} {mode : SpeculationMode} {c g : SpecGraph}
  (h : Stages p (LightNode p) (LightEdge p mode) c g) (hflow : c.FlowOf p)

include h hflow

/-- A link is one between instructions, or it was added with the markers. -/
theorem light_cases {e : Edge} (he : e ∈ g.edges) :
    (∃ i j, j ∈ p.successors i ∧ e.source = committedId i ∧ e.target = committedId j ∧
        e.link.kind = .committed) ∨ LightEdge p mode e := by
  have hg := h.core.indexed
  obtain ⟨head, tail, hhead, htail, hedge⟩ := hg.mem_edges_iff.1 he
  rcases h.grows.edge?_cases h.core.flow.indexed hedge with hedge | ⟨e', he', hlink, hs, ht⟩
  · have hsucc := (hflow.edge head tail).1 ⟨_, hedge⟩
    obtain ⟨hlt, hlt'⟩ := Program.lt_of_mem_successors hsucc
    exact .inl ⟨head, tail, hsucc, hg.id_unique hhead (h.index?_committedId hflow hlt),
      hg.id_unique htail (h.index?_committedId hflow hlt'), (h.core.edge.1 hedge).2⟩
  · have heq : e' = e := by
      obtain ⟨source, target, link⟩ := e
      obtain ⟨source', target', link'⟩ := e'
      cases hg.id_unique hhead hs
      cases hg.id_unique htail ht
      cases hlink
      rfl
    exact .inr (heq ▸ he')

theorem lightLink_of_mem {e : Edge} (he : e ∈ g.edges) :
    LightLink p mode e.source e.target e.link.kind := by
  rcases h.light_cases hflow he with ⟨i, j, hsucc, hsource, htarget, hkind⟩ | hedge
  · rw [hsource, htarget, hkind]
    exact .committed hsucc
  · exact hedge.lightLink

omit hflow in
theorem exists_mem_edges {source target : String} (hlinked : g.Linked source target) :
    ∃ link, ⟨source, target, link⟩ ∈ g.edges := by
  obtain ⟨head, tail, link, hhead, htail, hedge⟩ := hlinked
  exact ⟨link, h.core.indexed.mem_edges_iff.2 ⟨head, tail, hhead, htail, hedge⟩⟩

/-- All links of the description are there. -/
theorem exists_mem_of_lightLink
    (hmarked : ∀ context pc, BranchOf p context pc → Marked p mode g context pc)
    {source target : String} {kind : LinkKind} (hlink : LightLink p mode source target kind) :
    ∃ label, ⟨source, target, ⟨kind, label⟩⟩ ∈ g.edges := by
  -- a link that has an end at a marker is not committed, so that its source tells its kind
  have hmarker : ∀ {source target : String} {kind : LinkKind}, g.Linked source target →
      (∀ i j, ¬ (source = committedId i ∧ target = committedId j)) →
      (∀ link, LightEdge p mode ⟨source, target, link⟩ → link.kind = kind) →
      ∃ label, ⟨source, target, ⟨kind, label⟩⟩ ∈ g.edges := by
    intro source target kind hlinked hend hkind
    obtain ⟨⟨kind', label⟩, hmem⟩ := h.exists_mem_edges hlinked
    refine ⟨label, ?_⟩
    rcases h.light_cases hflow hmem with ⟨i, j, -, hsource, htarget, -⟩ | hedge
    · exact absurd ⟨hsource, htarget⟩ (hend i j)
    · cases hkind _ hedge
      exact hmem
  cases hlink with
  | @committed i j follows =>
    obtain ⟨hlt, hlt'⟩ := Program.lt_of_mem_successors follows
    obtain ⟨⟨kind, label⟩, hedge⟩ := (hflow.edge i j).2 follows
    obtain ⟨hedge, hkind⟩ := h.core.edge.1 hedge
    cases hkind
    exact ⟨label, h.core.indexed.mem_edges_iff.2
      ⟨i, j, h.index?_committedId hflow hlt, h.index?_committedId hflow hlt', hedge⟩⟩
  | @mispredict context b branch =>
    refine hmarker (hmarked context b branch).mispredict ?_ fun link hedge => hedge.of_committed.1
    rintro i j ⟨-, htarget⟩
    exact committedId_ne (by simp [beginId]) htarget.symm
  | @direction context b x branch follows =>
    refine hmarker ((hmarked context b branch).direction x follows) ?_ fun link hedge =>
      hedge.of_begin.1
    rintro i j ⟨hsource, -⟩
    exact committedId_ne (by simp [beginId]) hsource.symm
  | @squash context b branch =>
    refine hmarker (hmarked context b branch).squash ?_ fun link hedge => hedge.of_begin.1
    rintro i j ⟨hsource, -⟩
    exact committedId_ne (by simp [beginId]) hsource.symm
  | @rollback context b branch guarded =>
    refine hmarker ((hmarked context b branch).rollback guarded) ?_ fun link hedge =>
      hedge.of_end.1
    rintro i j ⟨hsource, -⟩
    exact committedId_ne (by simp [endId]) hsource.symm

end Stages

/-! ## The whole graph -/

/-- The window plays no part in the light layout. -/
theorem buildSource_windowSize {source : String} {o : BuildOptions} {w : Int}
    (ho : o.layout = .light) (hpos : 0 < o.windowSize) (hw : 0 < w) :
    buildSource source { o with windowSize := w } = buildSource source o := by
  have hadd : ∀ p, addSpeculation p { o with windowSize := w } = addSpeculation p o := by
    intro p
    funext d pc
    rw [addSpeculation, addSpeculation, ho]
  have hdraft : ∀ p, Draft.ofProgram p { o with windowSize := w } = Draft.ofProgram p o := by
    intro p
    rw [Draft.ofProgram, Draft.ofProgram, hadd, if_neg (not_le.2 hpos)]
    exact if_neg (not_le.2 hw)
  have hbuild : ∀ p, build p { o with windowSize := w } = build p o := by
    intro p
    rw [build, build, hdraft]
    rfl
  rw [buildSource, buildSource]
  simp only [hbuild]

/-- The light graph of a program, with its nodes by number and its links by their ends. -/
structure IsLightForm (source : String) (p : Program) (o : BuildOptions) (g : SpecGraph) :
    Prop where
  /-- Branches are listed in the order of the program. -/
  increasing : (branches p).Pairwise (· < ·)
  complete : ∀ b, b ∈ branches p ↔ p.IsBranchAt b
  /-- The instructions come first, and then the markers, two for each branch. -/
  nodes : g.nodes = p.entries.map committedNode ++ markers (branches p) 0
  instruction : ∀ i e, p.entry? i = some e →
    (committedNode e).id = "n" ++ toString i ∧
      (MuAsm.Addressable source → (committedNode e).pc.toInt = i)
  marker : ∀ context b, BranchOf p context b →
    (beginNode b context).id = "spec_begin_" ++ toString context ∧
      (endNode b context).id = "spec_end_" ++ toString context ∧
      (beginNode b context).origin = some ⟨b, context⟩ ∧
      (endNode b context).origin = some ⟨b, context⟩ ∧
      (MuAsm.Addressable source → (beginNode b context).pc.toInt = -(2 * context + 1) ∧
        (endNode b context).pc.toInt = -(2 * context + 2))
  /-- The links are those of the description. -/
  edges : ∀ id id' kind, (∃ label, ⟨id, id', ⟨kind, label⟩⟩ ∈ g.edges) ↔
    LightLink p o.speculation id id' kind
  /-- No two links have the same ends. -/
  once : g.edges.Pairwise fun e e' => (e.source, e.target) ≠ (e'.source, e'.target)
  /-- Another window gives the same graph. -/
  window : ∀ w, 0 < w → buildSource source { o with windowSize := w } = buildSource source o

/-- Every source that can be built has a light graph of this form. -/
theorem isLightForm_of_buildSource {source : String} {p : Program} {o : BuildOptions}
    {g : SpecGraph} (hp : Program.parse source = .ok p) (ho : o.layout = .light)
    (hg : (buildSource source o).result = .ok g) : IsLightForm source p o g := by
  have hnumbered := Program.numbered_of_parse hp
  have hpos : 0 < o.windowSize := by
    obtain ⟨d, hd, -⟩ := exists_draft_of_parse hp hg
    exact windowSize_pos hd
  obtain ⟨d₀, d, hd₀, hd, rfl⟩ := exists_light_drafts hp ho hg
  obtain ⟨hstages, hmarked⟩ := light_stages hd₀ hd
  have hflow := flowOf_committed hnumbered hd₀
  refine ⟨pairwise_branches hnumbered, fun b => mem_branches_iff hnumbered, ?_, ?_, ?_, ?_,
    hstages.core.indexed.pairwise_edges, fun w hw => buildSource_windowSize ho hpos hw⟩
  · rw [nodes_light hstages.core.flow.indexed hd, nodes_committed hd₀,
      show d₀.contexts = 0 from (adds_committed hd₀).contexts]
  · intro i e he
    have hpc := hnumbered i e he
    refine ⟨congrArg committedId hpc, fun hsource => ?_⟩
    show (Int64.ofNat e.pc).toInt = i
    rw [hpc]
    exact toInt_ofNat_of_le ((Program.fits_of_parse hp hsource).pc_le
      (List.getElem?_eq_some_iff.1 he).1)
  · intro context b hb
    exact ⟨rfl, rfl, rfl, rfl, fun hsource => toInt_markers (Program.fits_of_parse hp hsource) hb⟩
  · intro id id' kind
    refine ⟨?_, hstages.exists_mem_of_lightLink hflow hmarked⟩
    rintro ⟨label, hmem⟩
    exact hstages.lightLink_of_mem hflow hmem

/-- A branch to itself, one to the next instruction, and one to just past the end. -/
def looped : String := "A: beqz a, A\nbeqz b, B\nB: beqz c, E\nE:"

def loopedProgram : Program := (Program.parse looped).toOption.getD ⟨[], ∅⟩

def loopedGraph : SpecGraph :=
  (buildSource looped { speculation := .stackGuard }).result.toOption.getD .empty

theorem isLightForm_looped :
    IsLightForm looped loopedProgram { speculation := .stackGuard } loopedGraph ∧
      branches loopedProgram = [0, 1, 2] ∧ loopedProgram.successors 0 = [0, 1] ∧
      loopedProgram.successors 1 = [2, 2] ∧ loopedProgram.successors 2 = [] := by
  refine ⟨isLightForm_of_buildSource (Program.parse_eq_ok (by decide +kernel)) rfl
    (buildSource_eq_ok (by decide +kernel)), ?_, ?_, ?_, ?_⟩
  all_goals decide +kernel

end SpecGraph

end Mispredict
