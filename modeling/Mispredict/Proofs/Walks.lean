/-
  Walks along mispredicted paths.

  In an unrolled graph the speculative links lead into contexts, from the nodes from which paths
  come into them (`IsCharted.specLinked_iff`). So a walk stays in its context after a plain
  instruction, and goes over into a context of its own after a branch
  (`IsCharted.contextStep`).

  Within the window, the walks of speculative links from a branch are the mispredicted paths
  of the program, instruction by instruction (`specWalk_iff_isChain`): links follow the control
  flow of the program and stop at barriers, and a node has links to all that can follow as
  long as its budget lasts.
-/
import Mispredict.Proofs.Contexts
import Mispredict.Proofs.UnrolledMoves

namespace Mispredict

open MuAsm (Instr Program Entry)

namespace SpecGraph

/-! ## Speculative links -/

/-- A speculative link leads from one node to the other, by their numbers. -/
def SpecLinked (g : SpecGraph) (i j : Nat) : Prop :=
  (g.graph.edge? i j).map (·.kind) = some .speculative

instance (g : SpecGraph) : DecidableRel g.SpecLinked := fun i j =>
  inferInstanceAs (Decidable ((g.graph.edge? i j).map (·.kind) = some .speculative))

/-- The context to which the node with this number belongs. -/
def contextAt (g : SpecGraph) (i : Nat) : Option Nat := (g.node? i).bind (·.context?)

/-- Whether the node with this number executes a branch. -/
def branchesAt (g : SpecGraph) (i : Nat) : Bool := ((g.node? i).bind (·.instr)).any (·.isBranch)

theorem branchesAt_iff {g : SpecGraph} {p : Program} {i pc : Nat} {n : Node} {e : Entry}
    (hn : g.node? i = some n) (hinstr : n.instr = some e.instr) (he : p.entry? pc = some e) :
    g.branchesAt i = true ↔ p.IsBranchAt pc := by
  have hpc : p.instr? pc = some e.instr := Program.instr?_eq_some he
  rw [branchesAt, hn, Option.bind_some, hinstr, Option.any_some]
  constructor
  · intro hbranch
    exact ⟨e.instr, hpc, hbranch⟩
  · rintro ⟨instr, hi, hbranch⟩
    cases hpc.symm.trans hi
    exact hbranch

/-- The node `i` belongs to no later context than `j`, or to none. -/
def NoLater (g : SpecGraph) (i j : Nat) : Prop :=
  ∀ context, g.contextAt i = some context → ∃ context', g.contextAt j = some context' ∧
    context ≤ context'

theorem NoLater.trans {g : SpecGraph} {i j k : Nat} (hij : g.NoLater i j) (hjk : g.NoLater j k) :
    g.NoLater i k := by
  intro context hi
  obtain ⟨context', hj, hle⟩ := hij context hi
  obtain ⟨context'', hk, hle'⟩ := hjk context' hj
  exact ⟨context'', hk, hle.trans hle'⟩

/-- The draft `d` is an unrolled graph on the control flow `c` of a program, and `openings` and
    `budget` say how its contexts were opened and how its nodes were laid. -/
structure IsCharted (p : Program) (mode : SpeculationMode) (window : Nat)
    (forks : List Draft.Fork) (openings : List Draft.Opening) (budget : Nat → Nat → Nat)
    (c : SpecGraph) (d : Draft) : Prop where
  numbered : p.Numbered
  stages : Stages p (Draft.UnrolledNode p) (Draft.UnrolledEdge p mode forks) c d.graph
  charts : Draft.Charts p mode window c openings budget d []

theorem exists_isCharted {source : String} {o : BuildOptions} {g : SpecGraph} {p : Program}
    (hp : Program.parse source = .ok p) (ho : o.layout = .unrolled)
    (hg : (buildSource source o).result = .ok g) :
    ∃ forks openings budget c d, d.graph = g ∧
      IsCharted p o.speculation o.windowSize.toNat forks openings budget c d := by
  obtain ⟨d, hd, rfl⟩ := exists_draft_of_parse hp hg
  obtain ⟨d₀, openings, budget, hd₀, hcharts⟩ := Draft.exists_charts ho hd
  obtain ⟨d₁, forks, hd₁, hgrows⟩ := Draft.exists_stages hd
  cases hd₀.symm.trans hd₁
  have hcore := Draft.isCore_of_stages hd₀ hgrows
  rw [ho] at hgrows
  exact ⟨forks, openings, budget, d₀.graph, d, rfl, Program.numbered_of_parse hp,
    ⟨⟨d₀, hd₀, rfl⟩, hgrows, hcore⟩, hcharts⟩

namespace IsCharted

variable {p : Program} {mode : SpeculationMode} {window : Nat} {forks : List Draft.Fork}
  {openings : List Draft.Opening} {budget : Nat → Nat → Nat} {c : SpecGraph} {d : Draft}
  {i j k l context pc x : Nat} (h : IsCharted p mode window forks openings budget c d)

include h

theorem indexed : d.graph.Indexed := h.stages.core.indexed

theorem node_of_path (hi : d.graph.index? (unrolledId context x) = some i) :
    ∃ e w, p.entry? x = some e ∧ w.context = context ∧
      d.graph.node? i = some (Draft.unrolledNode e x w) := by
  obtain ⟨n, hn, hid⟩ := (h.indexed.named _ _).1 hi
  rcases h.stages.node_cases hn with hc | ⟨pc, e, w, he, rfl⟩
  · obtain ⟨e, -, rfl⟩ := h.stages.exists_entry hc
    exact absurd hid (committedId_ne_unrolledId _ _ _)
  · obtain ⟨rfl, rfl⟩ := unrolledId_inj.1 hid
    exact ⟨e, w, he, rfl, hn⟩

theorem node_of_committed (hi : d.graph.index? (committedId pc) = some i) :
    ∃ e, p.entry? pc = some e ∧ d.graph.node? i = some (Draft.committedNode e) := by
  obtain ⟨n, hn, hid⟩ := (h.indexed.named _ _).1 hi
  rcases h.stages.node_cases hn with hc | ⟨pc', e, w, he, rfl⟩
  · obtain ⟨e, hmem, rfl⟩ := h.stages.exists_entry hc
    cases committedId_inj.1 hid
    exact ⟨e, h.numbered.entry? hmem, hn⟩
  · exact absurd hid.symm (committedId_ne_unrolledId _ _ _)

/-- A node is a committed one, or one of a mispredicted path. -/
theorem index?_cases {n : Node} (hn : d.graph.node? i = some n) :
    (n.kind = .committed ∧ ∃ pc, d.graph.index? (committedId pc) = some i) ∨
      n.kind = .speculative ∧ ∃ context x, d.graph.index? (unrolledId context x) = some i := by
  have hid := h.indexed.index?_id hn
  rcases h.stages.node_cases hn with hc | ⟨pc, e, w, he, rfl⟩
  · obtain ⟨e, -, rfl⟩ := h.stages.exists_entry hc
    exact .inl ⟨rfl, e.pc, hid⟩
  · exact .inr ⟨rfl, w.context, pc, hid⟩

/-- A link that was added leads into a context if it is speculative, and else back. -/
theorem added_of_edge? {link : Link} (hedge : d.graph.graph.edge? i j = some link)
    (hkind : link.kind ≠ .committed) :
    (link.kind = .speculative ∧ ∃ context x, d.graph.index? (unrolledId context x) = some j) ∨
      link.kind = .rollback ∧ ∃ pc, d.graph.index? (committedId pc) = some j := by
  rcases h.stages.grows.edge?_cases h.stages.core.flow.indexed hedge with hc | ⟨e, he, rfl, -, hj⟩
  · exact absurd (h.stages.core.flow.edge _ _ _ hc) hkind
  · cases he with
    | path => exact .inl ⟨rfl, _, _, hj⟩
    | rollback => exact .inr ⟨rfl, _, hj⟩

/-- A link from or to a node of a mispredicted path is not committed. -/
theorem ne_committed {link : Link} (hedge : d.graph.graph.edge? i j = some link)
    (hpath : d.graph.index? (unrolledId context x) = some i ∨
      d.graph.index? (unrolledId context x) = some j) : link.kind ≠ .committed := by
  intro hkind
  obtain ⟨hi, hj⟩ := h.stages.core.flow.indexed.joined _ _ _ (h.stages.core.edge.2 ⟨hedge, hkind⟩)
  have hnot : ∀ {k}, k < c.numNodes → d.graph.index? (unrolledId context x) ≠ some k := by
    intro k hk hindex
    obtain ⟨e, w, -, -, hn⟩ := h.node_of_path hindex
    obtain ⟨n, hn'⟩ := h.stages.core.flow.indexed.exists_node hk
    obtain ⟨hsame, hcommitted⟩ := h.stages.core.node.1 hn'
    rw [← Option.some.inj (hn.symm.trans hsame)] at hcommitted
    cases hcommitted
  exact hpath.elim (hnot hi) (hnot hj)

/-- The speculative links are those that lead into contexts. -/
theorem specLinked_iff : d.graph.SpecLinked i j ↔ ∃ source context x,
    d.graph.index? source = some i ∧ d.graph.index? (unrolledId context x) = some j ∧
      d.graph.Linked source (unrolledId context x) := by
  constructor
  · intro hlinked
    obtain ⟨link, hedge, hkind⟩ := Option.map_eq_some_iff.1 hlinked
    obtain ⟨n, hn⟩ := h.indexed.exists_node (h.indexed.joined _ _ _ hedge).1
    have hi := h.indexed.index?_id hn
    rcases h.added_of_edge? hedge (by simp [hkind]) with ⟨-, context, x, hj⟩ | ⟨hrollback, -⟩
    · exact ⟨n.id, context, x, hi, hj, i, j, link, hi, hj, hedge⟩
    · cases hkind.symm.trans hrollback
  · rintro ⟨source, context, x, hi, hj, head, tail, link, hhead, htail, hedge⟩
    cases hi.symm.trans hhead
    cases hj.symm.trans htail
    rcases h.added_of_edge? hedge (h.ne_committed hedge (.inr hj)) with ⟨hkind, -⟩ | ⟨-, pc, hj'⟩
    · exact Option.map_eq_some_iff.2 ⟨link, hedge, hkind⟩
    · exact absurd (h.indexed.id_unique hj' hj) (committedId_ne_unrolledId _ _ _)

theorem specLinked_of_linked {source : String} (hi : d.graph.index? source = some i)
    (hlinked : d.graph.Linked source (unrolledId context x)) :
    ∃ j, d.graph.index? (unrolledId context x) = some j ∧ d.graph.SpecLinked i j := by
  obtain ⟨j, hj⟩ := Option.isSome_iff_exists.1 (Draft.hasNode_of_linked hlinked)
  exact ⟨j, hj, h.specLinked_iff.2 ⟨source, context, x, hi, hj, hlinked⟩⟩

/-- The nodes of a speculative link, by their ids. -/
theorem linked_of_specLinked {source : String} (hlinked : d.graph.SpecLinked i j)
    (hi : d.graph.index? source = some i) : ∃ context x,
      d.graph.index? (unrolledId context x) = some j ∧
        d.graph.Linked source (unrolledId context x) := by
  obtain ⟨source', context, x, hi', hj, hlinked⟩ := h.specLinked_iff.1 hlinked
  rw [h.indexed.id_unique hi' hi] at hlinked
  exact ⟨context, x, hj, hlinked⟩

/-! ## Contexts along walks -/

theorem contextAt_of_path (hi : d.graph.index? (unrolledId context x) = some i) :
    d.graph.contextAt i = some context ∧ (d.graph.branchesAt i = true ↔ p.IsBranchAt x) := by
  obtain ⟨e, w, he, rfl, hn⟩ := h.node_of_path hi
  exact ⟨by rw [contextAt, hn]; rfl, branchesAt_iff hn rfl he⟩

theorem contextAt_of_committed (hi : d.graph.index? (committedId pc) = some i) :
    d.graph.contextAt i = none ∧ (d.graph.branchesAt i = true ↔ p.IsBranchAt pc) := by
  obtain ⟨e, he, hn⟩ := h.node_of_committed hi
  exact ⟨by rw [contextAt, hn]; rfl, branchesAt_iff hn rfl he⟩

/-- A speculative link stays in the context of a plain instruction, and leads from a branch into a
    later context that was opened there. -/
theorem context_cases (hlinked : d.graph.SpecLinked i j) :
    ∃ context, d.graph.contextAt j = some context ∧
      ((d.graph.branchesAt i = false ∧ d.graph.contextAt i = some context) ∨
        d.graph.branchesAt i = true ∧
          (∀ outer, d.graph.contextAt i = some outer → outer < context) ∧
          ∃ o, openings[context]? = some o ∧ d.graph.index? o.source = some i) := by
  obtain ⟨source, context, x, hi, hj, hlinked⟩ := h.specLinked_iff.1 hlinked
  refine ⟨context, (h.contextAt_of_path hj).1, ?_⟩
  have hopened := h.charts.opened
  cases hopened.link _ _ _ hlinked with
  | within laid plain =>
    obtain ⟨hcontext, hbranch⟩ := h.contextAt_of_path hi
    exact .inl ⟨Bool.eq_false_iff.2 (mt hbranch.1 plain), hcontext⟩
  | @opens _ o opened =>
    right
    have hfork := hopened.fork o (List.mem_of_getElem? opened)
    cases hopened.opening context o opened with
    | committed =>
      obtain ⟨hnone, hbranch⟩ := h.contextAt_of_committed hi
      refine ⟨hbranch.2 ((mem_branches_iff h.numbered).1 hfork.branch), fun outer houter => ?_,
        _, opened, hi⟩
      cases hnone.symm.trans houter
    | path earlier outer laid branch =>
      obtain ⟨hcontext, hbranch⟩ := h.contextAt_of_path hi
      refine ⟨hbranch.2 branch, fun outer houter => ?_, _, opened, hi⟩
      cases hcontext.symm.trans houter
      exact earlier

theorem noLater_of_specLinked (hlinked : d.graph.SpecLinked i j) : d.graph.NoLater i j := by
  intro context hi
  obtain ⟨context', hj, ⟨-, hsame⟩ | ⟨-, hlater, -⟩⟩ := h.context_cases hlinked
  · cases hi.symm.trans hsame
    exact ⟨context, hj, le_rfl⟩
  · exact ⟨context', hj, (hlater context hi).le⟩

/-- Contexts only get later along a walk. -/
theorem pairwise_noLater {is : List Nat} (hchain : is.IsChain d.graph.SpecLinked) :
    is.Pairwise d.graph.NoLater := by
  have : IsTrans Nat d.graph.NoLater := ⟨fun _ _ _ => NoLater.trans⟩
  exact List.isChain_iff_pairwise.1 (hchain.imp fun _ _ => h.noLater_of_specLinked)

theorem ascends : d.graph.Ascends := by
  intro context q context' x hlinked
  generalize hsource : unrolledId context q = source at hlinked
  cases h.charts.opened.link _ _ _ hlinked with
  | within => exact (unrolledId_inj.1 hsource).1.le
  | opens opened => exact (h.charts.opened.outer opened hsource.symm).1.le

end IsCharted

/-- How contexts change from the node `k` of a walk to the next one, `l`, after the nodes `before`:
    not at all after a plain instruction, while a branch is followed in a new context, which no
    other branch leads to. -/
structure ContextStep (g : SpecGraph) (before : List Nat) (k l : Nat) : Prop where
  plain : g.branchesAt k = false → g.contextAt l = g.contextAt k
  fresh : g.branchesAt k = true → ∀ i ∈ before ++ [k], g.contextAt i ≠ g.contextAt l
  alone : g.branchesAt k = true → ∀ i j, g.SpecLinked i j → g.branchesAt i = true →
    g.contextAt j = g.contextAt l → i = k

theorem IsCharted.contextStep {p : Program} {mode : SpeculationMode} {window : Nat}
    {forks : List Draft.Fork} {openings : List Draft.Opening} {budget : Nat → Nat → Nat}
    {c : SpecGraph} {d : Draft} (h : IsCharted p mode window forks openings budget c d)
    {before after : List Nat} {k l : Nat}
    (hchain : (before ++ k :: l :: after).IsChain d.graph.SpecLinked) :
    d.graph.ContextStep before k l := by
  have hkl : d.graph.SpecLinked k l :=
    (List.isChain_cons_cons.1 (List.isChain_append.1 hchain).2.1).1
  obtain ⟨context, hl, hcases⟩ := h.context_cases hkl
  refine ⟨fun hplain => ?_, fun hbranch i hi heq => ?_, fun hbranch i j hij hi heq => ?_⟩
  · obtain ⟨-, hk⟩ := hcases.resolve_right fun hother => by simp [hplain] at hother
    rw [hl, hk]
  · obtain ⟨-, hlater, -⟩ := hcases.resolve_left fun hother => by simp [hbranch] at hother
    -- the nodes so far belong to contexts up to that of `k`, and that of `l` is later
    have hik : d.graph.NoLater i k := by
      rcases List.mem_append.1 hi with hi | hi
      · exact (List.pairwise_append.1 (h.pairwise_noLater hchain)).2.2 i hi k List.mem_cons_self
      · cases List.mem_singleton.1 hi
        exact fun context hk => ⟨context, hk, le_rfl⟩
    obtain ⟨context', hk, hle⟩ := hik context (heq.trans hl)
    exact absurd (hlater context' hk) (not_lt.2 hle)
  · obtain ⟨-, -, o, ho, hk⟩ := hcases.resolve_left fun hother => by simp [hbranch] at hother
    obtain ⟨context', hj, ⟨hplain, -⟩ | ⟨-, -, o', ho', hi'⟩⟩ := h.context_cases hij
    · cases hi.symm.trans hplain
    · cases hj.symm.trans (heq.trans hl)
      cases ho.symm.trans ho'
      exact Option.some.inj (hi'.symm.trans hk)

/-! ## The paths of a program -/

/-- The speculative node with this number is at the program counter `q`. -/
def SpecAt (g : SpecGraph) (i q : Nat) : Prop :=
  ∃ n ∈ g.node? i, n.kind = .speculative ∧ n.pc.toInt = q

instance (g : SpecGraph) : DecidableRel g.SpecAt := fun i q =>
  inferInstanceAs (Decidable (∃ n ∈ g.node? i, n.kind = .speculative ∧ n.pc.toInt = q))

/-- The node with this number carries the instruction of the program at `q`. -/
def Carries (g : SpecGraph) (p : Program) (i q : Nat) : Prop :=
  ∃ n instr, g.node? i = some n ∧ n.instr = some instr ∧ p.instr? q = some instr

/-- A walk of speculative links from the committed node of the instruction at `b`, which has the
    number `start`, through the speculative nodes `is` with program counters `qs`. -/
structure SpecWalk (g : SpecGraph) (b start : Nat) (is qs : List Nat) : Prop where
  branch : g.index? (committedId b) = some start
  chain : (start :: is).IsChain g.SpecLinked
  nodes : List.Forall₂ g.SpecAt is qs

namespace IsUnrolled

variable {p : Program} {window : Nat} {budget : Nat → Nat → Nat} {c g : SpecGraph}
  {context context' q x : Nat} (hu : IsUnrolled p window budget c g)

include hu

/-- A link into a context is one of a mispredicted path. -/
theorem pathEdge_of_linked {source : String} (h : g.Linked source (unrolledId context x)) :
    ∃ link, Draft.PathEdge p ⟨source, unrolledId context x, link⟩ := by
  obtain ⟨d₀, hd₀, rfl⟩ := hu.stages.flow
  refine (h.cases_of_grows hu.stages.core.flow.indexed hu.stages.grows).resolve_left fun hc => ?_
  obtain ⟨pc, hpc⟩ := Draft.exists_committedId_of_hasNode hd₀ (Draft.hasNode_of_linked hc)
  exact committedId_ne_unrolledId _ _ _ hpc.symm

theorem passes_of_linked (h : g.Linked (unrolledId context q) (unrolledId context' x)) :
    p.Passes q x := by
  obtain ⟨link, hedge⟩ := hu.pathEdge_of_linked h
  rcases hedge.of_path with ⟨-, pc, hid⟩ | ⟨-, context'', x', hpass, hid⟩
  · exact absurd hid.symm (committedId_ne_unrolledId _ _ _)
  · obtain ⟨-, rfl⟩ := unrolledId_inj.1 hid
    exact hpass

theorem mem_successors_of_linked (h : g.Linked (committedId q) (unrolledId context x)) :
    x ∈ p.successors q := by
  obtain ⟨link, hedge⟩ := hu.pathEdge_of_linked h
  rcases hedge.of_committed with ⟨-, pc, hid⟩ | ⟨-, -, context'', x', hx, hid⟩
  · exact absurd hid.symm (committedId_ne_unrolledId _ _ _)
  · obtain ⟨-, rfl⟩ := unrolledId_inj.1 hid
    exact hx

end IsUnrolled

section Paths

variable {p : Program} {mode : SpeculationMode} {window window' : Nat} {forks : List Draft.Fork}
  {openings : List Draft.Opening} {budget budget' : Nat → Nat → Nat} {c c' : SpecGraph} {d : Draft}
  {i j q x context : Nat} {is qs : List Nat}

theorem IsCharted.specAt_iff (h : IsCharted p mode window forks openings budget c d)
    (hp : p.Fits) :
    d.graph.SpecAt i q ↔ ∃ context, d.graph.index? (unrolledId context q) = some i := by
  have hpc : ∀ {pc e}, p.entry? pc = some e → (Int64.ofNat pc).toInt = pc := fun he =>
    toInt_ofNat_of_le (hp.pc_le (List.getElem?_eq_some_iff.1 he).1)
  constructor
  · rintro ⟨n, hn, hkind, hq⟩
    rcases h.index?_cases hn with ⟨hcommitted, -⟩ | ⟨-, context, x, hi⟩
    · cases hkind.symm.trans hcommitted
    · obtain ⟨e, w, he, rfl, hn'⟩ := h.node_of_path hi
      cases hn.symm.trans hn'
      cases Int.ofNat.inj ((hpc he).symm.trans hq)
      exact ⟨w.context, hi⟩
  · rintro ⟨context, hi⟩
    obtain ⟨e, w, he, -, hn⟩ := h.node_of_path hi
    exact ⟨_, hn, rfl, hpc he⟩

theorem IsCharted.carries (h : IsCharted p mode window forks openings budget c d)
    (hi : d.graph.index? (unrolledId context q) = some i) : d.graph.Carries p i q := by
  obtain ⟨e, w, he, -, hn⟩ := h.node_of_path hi
  exact ⟨_, e.instr, hn, rfl, Program.instr?_eq_some he⟩

/-- Within its budget a node has walks to all that can follow. -/
theorem IsCharted.exists_walk (h : IsCharted p mode window forks openings budget c d)
    (hu : IsUnrolled p window' budget' c' d.graph)
    (hi : d.graph.index? (unrolledId context q) = some i) (hqs : (q :: qs).IsChain p.Passes)
    (hbudget : qs.length < budget' context q) :
    ∃ is, (i :: is).IsChain d.graph.SpecLinked ∧ List.Forall₂ d.graph.SpecAt is qs := by
  induction qs generalizing context q i with
  | nil => exact ⟨[], .singleton i, .nil⟩
  | cons x qs ih =>
    obtain ⟨hpass, hqs⟩ := List.isChain_cons_cons.1 hqs
    rw [List.length_cons] at hbudget
    obtain ⟨b, hb⟩ : ∃ b, budget' context q = b + 1 := ⟨_, (Nat.sub_add_cancel (by omega)).symm⟩
    have hnode : d.graph.hasNode (unrolledId context q) = true := by rw [hasNode, hi]; rfl
    obtain ⟨context', hlinked, hle⟩ := hu.goesOn context q x b hnode hpass hb (by omega)
    obtain ⟨j, hj, hij⟩ := h.specLinked_of_linked hi hlinked
    obtain ⟨is, hchain, hnodes⟩ := ih hj hqs (by omega)
    exact ⟨j :: is, .cons_cons hij hchain, .cons ((h.specAt_iff hu.fits).2 ⟨context', hj⟩) hnodes⟩

/-- Walks follow the control flow of the program, past no barrier. -/
theorem IsCharted.isChain_passes (h : IsCharted p mode window forks openings budget c d)
    (hu : IsUnrolled p window' budget' c' d.graph)
    (hfirst : ∀ j x, d.graph.SpecLinked i j → d.graph.SpecAt j x → p.Passes q x)
    (hchain : (i :: is).IsChain d.graph.SpecLinked) (hnodes : List.Forall₂ d.graph.SpecAt is qs) :
    (q :: qs).IsChain p.Passes := by
  induction hnodes generalizing i q with
  | nil => exact .singleton q
  | @cons j x is qs hj hnodes ih =>
    obtain ⟨hij, hchain⟩ := List.isChain_cons_cons.1 hchain
    refine .cons_cons (hfirst j x hij hj) (ih (fun l y hjl hl => ?_) hchain)
    obtain ⟨context, hj⟩ := (h.specAt_iff hu.fits).1 hj
    obtain ⟨context', hl⟩ := (h.specAt_iff hu.fits).1 hl
    obtain ⟨context'', y', hl', hlinked⟩ := h.linked_of_specLinked hjl hj
    obtain ⟨-, rfl⟩ := unrolledId_inj.1 (h.indexed.id_unique hl' hl)
    exact hu.passes_of_linked hlinked

end Paths

/-- Up to the window, the walks of speculative links from a branch of an unrolled graph are those
    of the program: along successors, and not past barriers. Their nodes carry the instructions
    of the program, and every branch on them is followed in a new context. -/
theorem specWalk_iff_isChain {source : String} {p : Program} {o : BuildOptions} {g : SpecGraph}
    {b : Nat} (hsource : MuAsm.Addressable source) (hp : Program.parse source = .ok p)
    (ho : o.layout = .unrolled) (hg : (buildSource source o).result = .ok g)
    (hb : p.IsBranchAt b) :
    (∀ qs : List Nat, (qs.length : Int) ≤ o.windowSize →
      ((∃ start is, g.SpecWalk b start is qs) ↔ (b :: qs).IsChain p.Passes)) ∧
      ∀ start is qs, g.SpecWalk b start is qs →
        List.Forall₂ (g.Carries p) (start :: is) (b :: qs) ∧
          ∀ before k l after, start :: is = before ++ k :: l :: after →
            g.ContextStep before k l := by
  obtain ⟨budget', c', hu⟩ := exists_isUnrolled hsource hp ho hg
  obtain ⟨forks, openings, budget, c, d, rfl, h⟩ := exists_isCharted hp ho hg
  have hstart : d.graph.index? (committedId b) = some b := by
    obtain ⟨instr, hinstr, -⟩ := hb
    exact hu.stages.index?_committedId hu.flow (Program.lt_of_instr? hinstr)
  refine ⟨fun qs hlen => ⟨?_, fun hqs => ?_⟩, fun start is qs hwalk => ⟨?_, ?_⟩⟩
  · rintro ⟨start, is, hwalk⟩
    refine h.isChain_passes hu (fun j x hj hx => ?_) hwalk.chain hwalk.nodes
    obtain ⟨context, x', hx', hlinked⟩ := h.linked_of_specLinked hj hwalk.branch
    obtain ⟨context', hx⟩ := (h.specAt_iff hu.fits).1 hx
    obtain ⟨-, rfl⟩ := unrolledId_inj.1 (h.indexed.id_unique hx' hx)
    exact ⟨hu.mem_successors_of_linked hlinked, hb.passable⟩
  · cases qs with
    | nil => exact ⟨b, [], hstart, .singleton b, .nil⟩
    | cons x qs =>
      obtain ⟨hpass, hqs⟩ := List.isChain_cons_cons.1 hqs
      obtain ⟨context, hlinked, hwindow⟩ := hu.leaves b x hb hpass.1
      obtain ⟨j, hj, hbj⟩ := h.specLinked_of_linked hstart hlinked
      rw [List.length_cons] at hlen
      obtain ⟨is, hchain, hnodes⟩ := h.exists_walk hu hj hqs (by omega)
      exact ⟨b, j :: is, hstart, .cons_cons hbj hchain,
        .cons ((h.specAt_iff hu.fits).2 ⟨context, hj⟩) hnodes⟩
  · obtain ⟨e, he, hn⟩ := h.node_of_committed hwalk.branch
    refine .cons ⟨_, e.instr, hn, rfl, Program.instr?_eq_some he⟩
      (hwalk.nodes.imp fun i q hi => ?_)
    obtain ⟨context, hi⟩ := (h.specAt_iff hu.fits).1 hi
    exact h.carries hi
  · intro before k l after heq
    exact h.contextStep (heq ▸ hwalk.chain)

/-- Branches on mispredicted paths, one of them to itself, with a barrier on one way. -/
def meandering : String := "A: beqz a, A\nbeqz b, C\nspbarr\nC: jmp A"

def meanderingProgram : Program := (Program.parse meandering).toOption.getD ⟨[], ∅⟩

/-- There is a walk round the loop to the barrier, and none past it. -/
theorem specWalk_meandering : ∃ g,
    (buildSource meandering ⟨4, .unrolled, .stackGuard⟩).result = .ok g ∧
      (∃ start is, g.SpecWalk 1 start is [3, 0, 1, 2]) ∧
      ¬ ∃ start is, g.SpecWalk 1 start is [2, 3] := by
  have hp : Program.parse meandering = .ok meanderingProgram :=
    Program.parse_eq_ok (by decide +kernel)
  have hg : (buildSource meandering ⟨4, .unrolled, .stackGuard⟩).result = .ok _ :=
    buildSource_eq_ok (by decide +kernel)
  have hbranch : (meanderingProgram.instr? 1).any (·.isBranch) = true := by decide +kernel
  obtain ⟨hiff, -⟩ := specWalk_iff_isChain (by decide +kernel) hp rfl hg
    ((Option.any_eq_true _ _).1 hbranch)
  refine ⟨_, hg, (hiff _ (by decide)).2 (by decide +kernel), fun hwalk => ?_⟩
  have hchain := (hiff [2, 3] (by decide)).1 hwalk
  exact absurd hchain (by decide +kernel)

end SpecGraph

end Mispredict
