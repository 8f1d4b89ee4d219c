/-
  Where analysis goes in a light graph, in terms of the program.

  A point of a light graph is at an instruction, or at one of the two markers of a branch. From
  an instruction execution goes on to its successors, whatever the mode, and from a branch
  to its begin marker as well. From the begin marker speculation goes to the successors of the
  branch, and from the end marker it rolls back to the branch. `LightMove` lists all these
  moves, and `lightMove_of_mem` says that there are no others. Conversely, a graph that is
  built has the links that mispredicted paths need (`Marked`).
-/
import Mispredict.Proofs.ControlFlow

namespace Mispredict

open MuAsm (Program Entry)

namespace SpecGraph

open Draft

/-- The contexts of a light graph are numbered in the order of the branches. -/
def BranchOf (p : Program) (context pc : Nat) : Prop := (branches p)[context]? = some pc

theorem BranchOf.unique {p : Program} {context pc pc' : Nat} (h : BranchOf p context pc)
    (h' : BranchOf p context pc') : pc = pc' := Option.some.inj (h.symm.trans h')

theorem BranchOf.mem {p : Program} {context pc : Nat} (h : BranchOf p context pc) :
    pc ∈ branches p := List.mem_of_getElem? h

/-- There are no more branches than instructions. -/
theorem BranchOf.lt {p : Program} {context pc : Nat} (h : BranchOf p context pc) :
    context < p.length := by
  have hlt := (List.getElem?_eq_some_iff.1 h).1
  rw [branches, List.length_map] at hlt
  exact hlt.trans_le (List.length_filter_le ..)

/-- A marker tells its branch and its context. -/
theorem beginNode_inj {q q' context context' : Nat}
    (h : beginNode q context = beginNode q' context') : q = q' ∧ context = context' := by
  have horigin : some (⟨q, context⟩ : Origin) = some ⟨q', context'⟩ := congrArg Node.origin h
  cases horigin
  exact ⟨rfl, rfl⟩

theorem endNode_inj {q q' context context' : Nat}
    (h : endNode q context = endNode q' context') : q = q' ∧ context = context' := by
  have horigin : some (⟨q, context⟩ : Origin) = some ⟨q', context'⟩ := congrArg Node.origin h
  cases horigin
  exact ⟨rfl, rfl⟩

/-! ## Links by their sources -/

namespace Draft.LightEdge

variable {p : Program} {mode : SpeculationMode} {target : String} {link : Link}
  {context pc : Nat}

theorem of_committed (h : LightEdge p mode ⟨committedId pc, target, link⟩) :
    link.kind = .speculative ∧ ∃ context, BranchOf p context pc ∧ target = beginId context := by
  generalize he : (⟨committedId pc, target, link⟩ : Edge) = e at h
  cases h with
  | @mispredict context pc' label branch =>
    obtain ⟨hid, rfl, rfl⟩ := Edge.mk.inj he
    cases committedId_inj.1 hid
    exact ⟨rfl, context, branch, rfl⟩
  | direction => exact absurd (Edge.mk.inj he).1 (committedId_ne (by simp [beginId]))
  | squash => exact absurd (Edge.mk.inj he).1 (committedId_ne (by simp [beginId]))
  | rollback => exact absurd (Edge.mk.inj he).1 (committedId_ne (by simp [endId]))

theorem of_begin (h : LightEdge p mode ⟨beginId context, target, link⟩) :
    link.kind = .speculative ∧ ∃ pc, BranchOf p context pc ∧
      ((∃ x ∈ p.successors pc, target = committedId x) ∨ target = endId context) := by
  generalize he : (⟨beginId context, target, link⟩ : Edge) = e at h
  cases h with
  | mispredict => exact absurd (Edge.mk.inj he).1.symm (committedId_ne (by simp [beginId]))
  | @direction context' pc taken x label branch htaken follows =>
    obtain ⟨hid, rfl, rfl⟩ := Edge.mk.inj he
    cases beginId_inj.1 hid
    exact ⟨rfl, pc, branch,
      .inl ⟨x, (Program.mem_successors_of_branchTarget htaken).2 follows, rfl⟩⟩
  | @squash context' pc label branch =>
    obtain ⟨hid, rfl, rfl⟩ := Edge.mk.inj he
    cases beginId_inj.1 hid
    exact ⟨rfl, pc, branch, .inr rfl⟩
  | rollback => exact absurd (Edge.mk.inj he).1 (beginId_ne_endId _ _)

theorem of_end (h : LightEdge p mode ⟨endId context, target, link⟩) :
    link.kind = .rollback ∧ ∃ pc, BranchOf p context pc ∧ target = committedId pc := by
  generalize he : (⟨endId context, target, link⟩ : Edge) = e at h
  cases h with
  | mispredict => exact absurd (Edge.mk.inj he).1.symm (committedId_ne (by simp [endId]))
  | direction => exact absurd (Edge.mk.inj he).1.symm (beginId_ne_endId _ _)
  | squash => exact absurd (Edge.mk.inj he).1.symm (beginId_ne_endId _ _)
  | @rollback context' pc label branch guarded =>
    obtain ⟨hid, rfl, rfl⟩ := Edge.mk.inj he
    cases endId_inj.1 hid
    exact ⟨rfl, pc, branch, rfl⟩

end Draft.LightEdge

/-! ## Links that are there -/

namespace Draft

variable {p : Program} {mode : SpeculationMode} {d d' : Draft}

/-- A branch has a link to its begin marker, which has links to the successors of the branch and to
    the end marker; under the stack guard that one has a link back to the branch. -/
structure Marked (p : Program) (mode : SpeculationMode) (g : SpecGraph) (context pc : Nat) :
    Prop where
  mispredict : g.Linked (committedId pc) (beginId context)
  direction : ∀ x ∈ p.successors pc, g.Linked (beginId context) (committedId x)
  squash : g.Linked (beginId context) (endId context)
  rollback : mode = .stackGuard → g.Linked (endId context) (committedId pc)

theorem Marked.of_grows {N : Node → Prop} {E : Edge → Prop} {g g' : SpecGraph} {context pc : Nat}
    (h : Marked p mode g context pc) (hg : g.Indexed) (hgrows : Grows N E g g') :
    Marked p mode g' context pc :=
  ⟨h.mispredict.of_grows hg hgrows, fun x hx => (h.direction x hx).of_grows hg hgrows,
    h.squash.of_grows hg hgrows, fun hmode => (h.rollback hmode).of_grows hg hgrows⟩

theorem marked_addMarkers {pc : Nat} (hd : d.graph.Indexed)
    (hpc : (branches p)[d.contexts]? = some pc) (h : d.addMarkers p mode pc = .ok d') :
    Marked p mode d'.graph d.contexts pc := by
  unfold addMarkers at h
  obtain ⟨d₁, h₁, h⟩ := bind_eq_ok_iff.1 h
  have hadds₁ : Adds (LightNode p) (LightEdge p mode) ⟨d.graph, d.contexts + 1⟩ d₁ :=
    adds_addNode (.begins hpc) h₁
  obtain ⟨d₂, h₂, h⟩ := bind_eq_ok_iff.1 h
  have hadds₂ := hadds₁.trans (adds_addNode (.ends hpc) h₂)
  obtain ⟨d₃, h₃, h⟩ := bind_eq_ok_iff.1 h
  have hadds₃ := hadds₂.trans (adds_connect (.mispredict hpc) h₃)
  obtain ⟨taken, htaken, h⟩ := bind_eq_ok_iff.1 h
  obtain ⟨d₄, h₄, h⟩ := bind_eq_ok_iff.1 h
  have hadd₄ : Adds (LightNode p) (LightEdge p mode) d₃ d₄ :=
    adds_connectPc (fun x hx => .direction hpc htaken (.inl hx)) h₄
  obtain ⟨d₅, h₅, h⟩ := bind_eq_ok_iff.1 h
  have hadd₅ : Adds (LightNode p) (LightEdge p mode) d₄ d₅ :=
    adds_connectPc (fun x hx => .direction hpc htaken (.inr hx)) h₅
  obtain ⟨d₆, h₆, h⟩ := bind_eq_ok_iff.1 h
  have hadd₆ : Adds (LightNode p) (LightEdge p mode) d₅ d₆ := adds_connect (.squash hpc) h₆
  have hadd : Adds (LightNode p) (LightEdge p mode) d₆ d' := by
    cases mode with
    | discard =>
      cases h
      exact .refl
    | stackGuard => exact adds_connect (.rollback hpc rfl) h
  have hd₃ := hadds₃.graph.indexed hd
  have hd₄ := hadd₄.graph.indexed hd₃
  have hd₅ := hadd₅.graph.indexed hd₄
  refine ⟨(linked_of_connect h₃).of_grows hd₃ (hadd₄.trans (hadd₅.trans (hadd₆.trans hadd))).graph,
    fun x hx => ?_, (linked_of_connect h₆).of_grows (hadd₆.graph.indexed hd₅) hadd.graph, ?_⟩
  · rcases (Program.mem_successors_of_branchTarget htaken).1 hx with hx | hx
    · exact (linked_of_connectPc h₄ hx).of_grows hd₄ (hadd₅.trans (hadd₆.trans hadd)).graph
    · exact (linked_of_connectPc h₅ hx).of_grows hd₅ (hadd₆.trans hadd).graph
  · rintro rfl
    exact linked_of_connect h

/-- All branches that remain get their markers. -/
theorem marked_light {rest : List Nat} (hd : d.graph.Indexed)
    (hrest : (branches p).drop d.contexts = rest)
    (h : rest.foldlM (fun d pc => d.addMarkers p mode pc) d = .ok d') {context pc : Nat}
    (hcontext : d.contexts ≤ context) (hpc : BranchOf p context pc) :
    Marked p mode d'.graph context pc := by
  induction rest generalizing d with
  | nil =>
    have hlt := (List.getElem?_eq_some_iff.1 hpc).1
    have hle := List.drop_eq_nil_iff.1 hrest
    omega
  | cons pc' rest ih =>
    rw [List.foldlM_cons] at h
    obtain ⟨d₁, h₁, hfold⟩ := bind_eq_ok_iff.1 h
    have hpc' : (branches p)[d.contexts]? = some pc' := by
      rw [← List.head?_drop, hrest]
      rfl
    obtain ⟨hgrows₁, hcontexts⟩ := grows_addMarkers hpc' h₁
    have hrest₁ : (branches p).drop d₁.contexts = rest := by
      rw [hcontexts, ← List.tail_drop, hrest]
      rfl
    have hd₁ := hgrows₁.indexed hd
    rcases Nat.eq_or_lt_of_le hcontext with rfl | hlt
    · rw [hpc.unique hpc']
      exact (marked_addMarkers hd hpc' h₁).of_grows hd₁ (grows_light hrest₁ hfold)
    · exact ih hd₁ hrest₁ hfold (by omega)

end Draft

/-- The graph `g` is the light layout of a program, on its control flow `c`. -/
structure IsLight (p : Program) (mode : SpeculationMode) (c g : SpecGraph) : Prop where
  fits : p.Fits
  flow : c.FlowOf p
  stages : Stages p (LightNode p) (LightEdge p mode) c g
  marked : ∀ context pc, BranchOf p context pc → Marked p mode g context pc

/-- A light graph is built by adding markers to the control flow, branch by branch. -/
theorem exists_light_drafts {source : String} {o : BuildOptions} {g : SpecGraph} {p : Program}
    (hp : Program.parse source = .ok p) (ho : o.layout = .light)
    (h : (buildSource source o).result = .ok g) :
    ∃ d₀ d, committed p = .ok d₀ ∧
      (branches p).foldlM (fun d pc => d.addMarkers p o.speculation pc) d₀ = .ok d ∧
        d.graph = g := by
  obtain ⟨d, hd, rfl⟩ := exists_draft_of_parse hp h
  have hadd : addSpeculation p o = fun d pc => d.addMarkers p o.speculation pc := by
    funext d pc
    rw [addSpeculation, ho]
  unfold Draft.ofProgram at hd
  split at hd
  · cases hd
  · obtain ⟨d₀, hd₀, hd⟩ := bind_eq_ok_iff.1 hd
    rw [hadd] at hd
    exact ⟨d₀, d, hd₀, hd, rfl⟩

theorem light_stages {p : Program} {mode : SpeculationMode} {d₀ d : Draft}
    (hd₀ : committed p = .ok d₀)
    (hd : (branches p).foldlM (fun d pc => d.addMarkers p mode pc) d₀ = .ok d) :
    Stages p (LightNode p) (LightEdge p mode) d₀.graph d.graph ∧
      ∀ context pc, BranchOf p context pc → Marked p mode d.graph context pc := by
  have hcontexts : d₀.contexts = 0 := (adds_committed hd₀).contexts
  have hdrop : (branches p).drop d₀.contexts = branches p := by
    rw [hcontexts]
    rfl
  have hgrows := grows_light hdrop hd
  have hspec : Grows (SpecNode p .light) (SpecEdge p mode [] .light) d₀.graph d.graph := hgrows
  exact ⟨⟨⟨d₀, hd₀, rfl⟩, hgrows, isCore_of_stages (o := ⟨1, .light, mode⟩) hd₀ hspec⟩,
    fun context pc hpc =>
      marked_light (isFlow_committed hd₀).indexed hdrop hd (by omega) hpc⟩

theorem exists_isLight {source : String} {o : BuildOptions} {g : SpecGraph} {p : Program}
    (hsource : MuAsm.Addressable source) (hp : Program.parse source = .ok p)
    (ho : o.layout = .light) (h : (buildSource source o).result = .ok g) :
    ∃ c, IsLight p o.speculation c g := by
  obtain ⟨d₀, d, hd₀, hd, rfl⟩ := exists_light_drafts hp ho h
  obtain ⟨hstages, hmarked⟩ := light_stages hd₀ hd
  exact ⟨d₀.graph, Program.fits_of_parse hp hsource,
    flowOf_committed (Program.numbered_of_parse hp) hd₀, hstages, hmarked⟩

end SpecGraph

/-! ## Moves -/

open SpecGraph Draft

namespace Setup

/-- Markers come after the instructions. -/
theorem not_lt_of_marker {p : Program} {mode : SpeculationMode} {c : SpecGraph} {s : Setup}
    {i : Nat} {n : Node} (hlight : IsLight p mode c s.graph) (hn : s.graph.node? i = some n)
    (hkind : n.kind = .speculative) : ¬ i < p.length := by
  intro hi
  obtain ⟨e, -, hn'⟩ := hlight.stages.exists_node hlight.flow hi
  cases hn.symm.trans hn'
  cases hkind

/-- The moves in a light graph, by the places in the program that they connect. -/
inductive LightMove (p : Program) (s : Setup) : (k target : Key) → Payload → Prop where
  /-- Committed execution goes on to a successor. -/
  | commits {q x : Nat} (follows : x ∈ p.successors q) :
      LightMove p s ⟨q, .committed, []⟩ ⟨x, .committed, []⟩ .full
  /-- Speculation on a branch begins. -/
  | mispredicts {q context i : Nat} (branch : BranchOf p context q)
      (node : s.graph.node? i = some (beginNode q context)) :
      LightMove p s ⟨q, .committed, []⟩ ⟨i, .speculative, [⟨some context, s.window⟩]⟩ .full
  /-- A mispredicted path starts at a successor of the branch. -/
  | starts {q context i x : Nat} {frames : List Frame} (branch : BranchOf p context q)
      (node : s.graph.node? i = some (beginNode q context)) (follows : x ∈ p.successors q) :
      LightMove p s ⟨i, .speculative, frames⟩ ⟨x, .speculative, frames⟩ .full
  /-- A mispredicted path goes on to a successor, at the cost of one instruction. -/
  | passes {q x : Nat} {frames : List Frame} (passes : p.Passes q x)
      (left : exhausted (spend frames) = false) :
      LightMove p s ⟨q, .speculative, frames⟩ ⟨x, .speculative, spend frames⟩ .full
  /-- Speculation on a branch begins on a mispredicted path. -/
  | nests {q context i : Nat} {frames inner : List Frame} (branch : BranchOf p context q)
      (node : s.graph.node? i = some (beginNode q context))
      (left : exhausted (spend frames) = false)
      (enters : s.enter? .speculative (spend frames) (beginNode q context) = some inner) :
      LightMove p s ⟨q, .speculative, frames⟩ ⟨i, .speculative, inner⟩ .full
  /-- A mispredicted path ends where its innermost context does. -/
  | squashes {x j q context remaining : Nat} {frames rest : List Frame} (instr : x < p.length)
      (branch : BranchOf p context q) (node : s.graph.node? j = some (endNode q context))
      (innermost : spend frames = ⟨some context, remaining⟩ :: rest) :
      LightMove p s ⟨x, .speculative, frames⟩ ⟨j, .speculative, spend frames⟩ .full
  /-- Speculation on a branch ends as soon as it has begun. -/
  | skips {i j q context : Nat} {frames inner : List Frame} (branch : BranchOf p context q)
      (begins : s.graph.node? i = some (beginNode q context))
      (node : s.graph.node? j = some (endNode q context)) :
      LightMove p s ⟨i, .speculative, frames⟩ ⟨j, .speculative, inner⟩ .full
  /-- The end of a speculation rolls back to its branch. -/
  | returns {i q context : Nat} {mode : Mode} {frames : List Frame} (branch : BranchOf p context q)
      (node : s.graph.node? i = some (endNode q context)) :
      LightMove p s ⟨i, mode, frames⟩ ⟨q, .committed, []⟩ .observations

end Setup

namespace SpecGraph.IsLight

open Setup

variable {p : Program} {mode : SpeculationMode} {c : SpecGraph} {s : Setup} {i q context : Nat}
  {n : Node} {e : Entry} {target : Key} {payload : Payload} {frames : List Frame}
  (h : IsLight p mode c s.graph)

include h

theorem lt_length (hb : BranchOf p context q) : q < p.length := by
  obtain ⟨i, hi, -⟩ := (mem_branches_iff h.flow.numbered).1 hb.mem
  exact Program.lt_of_instr? hi

theorem node_of_beginId (hb : BranchOf p context q) (hn : s.graph.node? i = some n)
    (hid : n.id = beginId context) : n = beginNode q context := by
  rcases h.stages.node_cases hn with hn | hn
  · obtain ⟨e, -, rfl⟩ := h.stages.exists_entry hn
    exact absurd hid (committedId_ne (by simp [beginId]))
  · cases hn with
    | begins branch =>
      cases beginId_inj.1 hid
      rw [hb.unique branch]
    | ends => exact absurd hid.symm (beginId_ne_endId _ _)

theorem node_of_endId (hb : BranchOf p context q) (hn : s.graph.node? i = some n)
    (hid : n.id = endId context) : n = endNode q context := by
  rcases h.stages.node_cases hn with hn | hn
  · obtain ⟨e, -, rfl⟩ := h.stages.exists_entry hn
    exact absurd hid (committedId_ne (by simp [endId]))
  · cases hn with
    | begins => exact absurd hid (beginId_ne_endId _ _)
    | ends branch =>
      cases endId_inj.1 hid
      rw [hb.unique branch]

theorem isMarker (hb : BranchOf p context q) :
    (beginNode q context).isMarker = true ∧ (endNode q context).isMarker = true := by
  have hlt := hb.lt
  have hfits := h.fits
  unfold Program.Fits at hfits
  obtain ⟨hbegin, hend⟩ := neg_ofNat_lt_zero (n := context) (by omega)
  exact ⟨decide_eq_true hbegin, decide_eq_true hend⟩

theorem not_isMarker (he : p.entry? q = some e) : (committedNode e).isMarker = false := by
  have hlt := (List.getElem?_eq_some_iff.1 he).1
  have hpc := h.flow.numbered q e he
  exact decide_eq_false (not_ofNat_lt_zero (hpc ▸ h.fits.pc_le hlt))

/-- The link out of a node that is not committed is one of the light layout. -/
theorem edge_of_link {l : Located} (hl : l ∈ s.graph.linksFrom i) (hn : s.graph.node? i = some n)
    (hkind : l.link.kind ≠ .committed) :
    LightEdge p mode ⟨n.id, l.target.id, l.link⟩ ∧ s.graph.node? l.tail = some l.target := by
  obtain ⟨rfl, -, hsource, htarget⟩ := mem_linksFrom_iff.1 hl
  cases hn.symm.trans hsource
  exact ⟨h.stages.mem_of_link hl hkind, htarget⟩

/-- Only instructions have committed links. -/
theorem exists_entry_of_link {l : Located} (hl : l ∈ s.graph.linksFrom i)
    (hkind : l.link.kind = .committed) (hn : s.graph.node? i = some n) :
    ∃ e, n = committedNode e := by
  obtain ⟨rfl, -, hsource, -⟩ := mem_linksFrom_iff.1 (h.stages.core.mem_linksFrom hl hkind)
  cases hn.symm.trans (h.stages.core.node.1 hsource).1
  obtain ⟨e, -, heq⟩ := h.stages.exists_entry hsource
  exact ⟨e, heq⟩

/-- The end of a context is the end marker of a branch. -/
theorem exists_endNode {index : Nat} (hend : s.contextEnd? i frames = some (index, n)) :
    ∃ context remaining rest q, BranchOf p context q ∧ frames = ⟨some context, remaining⟩ :: rest ∧
      s.graph.node? index = some (endNode q context) := by
  obtain ⟨context, remaining, rest, hframes, hn, hmarker⟩ :=
    node_of_contextEnd? hend
  rcases h.stages.node_cases hn with hc | hspec
  · rw [h.stages.core.unmarked hc] at hmarker
    cases hmarker
  · cases hspec with
    | begins => cases hmarker
    | @ends _ q branch =>
      cases hmarker
      exact ⟨context, remaining, rest, q, branch, hframes, hn⟩

/-- The other links out of an instruction begin the contexts of its branch. -/
theorem begins_of_link {l : Located} {e : Entry} (he : p.entry? q = some e)
    (hn : s.graph.node? q = some (committedNode e)) (hl : l ∈ s.graph.linksFrom q)
    (hkind : l.link.kind ≠ .committed) :
    l.link.kind = .speculative ∧ ∃ context, BranchOf p context q ∧
      l.target = beginNode q context ∧ s.graph.node? l.tail = some (beginNode q context) := by
  have hid : (committedNode e).id = committedId q := by rw [← h.flow.numbered q e he]; rfl
  obtain ⟨hedge, htarget⟩ := h.edge_of_link hl hn hkind
  rw [hid] at hedge
  obtain ⟨hspec, context, hb, hbegin⟩ := hedge.of_committed
  have heq := h.node_of_beginId hb htarget hbegin
  exact ⟨hspec, context, hb, heq, heq ▸ htarget⟩

theorem lightMove_of_committed (hq : q < p.length)
    (hmove : (target, payload) ∈ s.moves ⟨q, .committed, []⟩) :
    LightMove p s ⟨q, .committed, []⟩ target payload := by
  obtain ⟨e, he, hn⟩ := h.stages.exists_node h.flow hq
  have hframes : framesAfter ⟨q, .committed, []⟩ (committedNode e) = [] :=
    framesAfter_of_committed rfl _
  rcases moves_cases_of_node (i := some e.instr) hn rfl hmove with
    ⟨hmust, -⟩ | ⟨l, hl, hlink, -⟩
  · simp [mustEnd] at hmust
  · rw [hframes] at hlink
    cases hlink with
    | committed kind => exact .commits (h.stages.mem_successors_of_link h.flow hl kind)
    | speculative kind enters =>
      obtain ⟨-, context, hb, heq, hbegin⟩ := h.begins_of_link he hn hl (by simp [kind])
      rw [heq] at enters
      cases enters
      exact .mispredicts hb hbegin
    | rollback kind => cases kind.symm.trans (h.begins_of_link he hn hl (by simp [kind])).1

theorem lightMove_of_instr (hq : q < p.length)
    (hmove : (target, payload) ∈ s.moves ⟨q, .speculative, frames⟩) :
    LightMove p s ⟨q, .speculative, frames⟩ target payload := by
  obtain ⟨e, he, hn⟩ := h.stages.exists_node h.flow hq
  have hinstr : p.instr? q = some e.instr := Program.instr?_eq_some he
  have hmarker := h.not_isMarker he
  have hframes : framesAfter ⟨q, .speculative, frames⟩ (committedNode e) = spend frames := by
    rw [framesAfter, if_pos ⟨rfl, by simp [hmarker]⟩]
  rcases moves_cases_of_node (i := some e.instr) hn rfl hmove with
    ⟨-, rfl, index, n, hend, rfl⟩ | ⟨l, hl, hlink, hgoes⟩
  · rw [hframes] at hend ⊢
    obtain ⟨context, remaining, rest, q', hb, hinner, hnode⟩ := h.exists_endNode hend
    exact .squashes hq hb hnode hinner
  · -- speculation goes on, so that instructions are left and this one is no barrier
    have hleft : l.link.kind ≠ .rollback →
        exhausted (spend frames) = false ∧ p.instr? q ≠ some .spbarr := by
      intro hkind
      have hmust := hgoes.resolve_left hkind
      rw [mustEnd, hframes, hmarker] at hmust
      simp only [beq_self_eq_true, Bool.not_false, Bool.true_and, Bool.or_eq_false_iff,
        Option.any_some] at hmust
      refine ⟨hmust.1.1, ?_⟩
      rw [hinstr]
      intro hbarr
      rw [Option.some.inj hbarr] at hmust
      cases hmust.1.2
    rw [hframes] at hlink
    cases hlink with
    | committed kind =>
      obtain ⟨hleft, hpass⟩ := hleft (by simp [kind])
      exact .passes ⟨h.stages.mem_successors_of_link h.flow hl kind, hpass⟩ hleft
    | speculative kind enters =>
      obtain ⟨-, context, hb, heq, hbegin⟩ := h.begins_of_link he hn hl (by simp [kind])
      rw [heq] at enters
      exact .nests hb hbegin (hleft (by simp [kind])).1 enters
    | rollback kind => cases kind.symm.trans (h.begins_of_link he hn hl (by simp [kind])).1

/-- Speculation does not end at a begin marker, where it costs nothing. -/
theorem goes_on_from_begin (hb : BranchOf p context q)
    (hn : s.graph.node? i = some (beginNode q context)) (frames : List Frame) :
    framesAfter ⟨i, .speculative, frames⟩ (beginNode q context) = frames ∧
      mustEnd ⟨i, .speculative, frames⟩ (beginNode q context) none (s.graph.linksFrom i) =
        false := by
  have hframes : framesAfter ⟨i, .speculative, frames⟩ (beginNode q context) = frames := by
    rw [framesAfter, if_neg (by simp [(h.isMarker hb).1])]
  obtain ⟨l, hl, -⟩ := exists_link_of_linked h.stages.core.indexed (h.marked context q hb).squash
    (h.stages.core.indexed.index?_id hn)
  have hsome : (s.graph.linksFrom i).isEmpty = false := by
    rw [List.isEmpty_eq_false_iff]
    exact List.ne_nil_of_mem hl
  refine ⟨hframes, ?_⟩
  rw [mustEnd, hframes, (h.isMarker hb).1, hsome]
  rfl

theorem lightMove_of_begin (hb : BranchOf p context q)
    (hn : s.graph.node? i = some (beginNode q context))
    (hmove : (target, payload) ∈ s.moves ⟨i, .speculative, frames⟩) :
    LightMove p s ⟨i, .speculative, frames⟩ target payload := by
  obtain ⟨hframes, hgoes⟩ := h.goes_on_from_begin hb hn frames
  rcases moves_cases_of_node (i := none) hn rfl hmove with ⟨hmust, -⟩ | ⟨l, hl, hlink, -⟩
  · cases hgoes.symm.trans hmust
  · rw [hframes] at hlink
    cases hlink with
    | committed kind =>
      obtain ⟨e, heq⟩ := h.exists_entry_of_link hl kind hn
      cases heq
    | speculative kind enters =>
      obtain ⟨hedge, htarget⟩ := h.edge_of_link hl hn (by simp [kind])
      obtain ⟨-, q', hb', ⟨x, hx, hid⟩ | hid⟩ := LightEdge.of_begin hedge
      · obtain rfl := hb.unique hb'
        obtain ⟨-, hlt⟩ := Program.lt_of_mem_successors hx
        obtain ⟨e, he, hnx⟩ := h.stages.exists_node h.flow hlt
        have htail := h.stages.eq_of_committedId h.flow hlt htarget hid
        rw [htail] at htarget ⊢
        rw [Option.some.inj (htarget.symm.trans hnx)] at enters
        cases enters
        exact .starts hb hn hx
      · have heq := h.node_of_endId hb htarget hid
        rw [heq] at htarget
        exact .skips hb hn htarget
    | rollback kind =>
      obtain ⟨hedge, -⟩ := h.edge_of_link hl hn (by simp [kind])
      cases kind.symm.trans (LightEdge.of_begin hedge).1

theorem lightMove_of_end (hb : BranchOf p context q)
    (hn : s.graph.node? i = some (endNode q context)) {frames : List Frame} {m : Mode}
    (hmove : (target, payload) ∈ s.moves ⟨i, m, frames⟩) :
    LightMove p s ⟨i, m, frames⟩ target payload := by
  rcases moves_cases_of_node (i := none) hn rfl hmove with
    ⟨hmust, -⟩ | ⟨l, hl, hlink, -⟩
  · have hend : (endNode q context).endsContext = true := rfl
    simp [mustEnd, (h.isMarker hb).2, hend] at hmust
  · have hkind : l.link.kind = .rollback ∧ l.target.id = committedId q := by
      by_cases hcommitted : l.link.kind = .committed
      · obtain ⟨e, heq⟩ := h.exists_entry_of_link hl hcommitted hn
        cases heq
      · obtain ⟨hkind, q', hb', hid⟩ := LightEdge.of_end (h.edge_of_link hl hn hcommitted).1
        exact ⟨hkind, hb.unique hb' ▸ hid⟩
    obtain ⟨hkind, hid⟩ := hkind
    obtain ⟨-, htarget⟩ := h.edge_of_link hl hn (by simp [hkind])
    have htail := h.stages.eq_of_committedId h.flow (h.lt_length hb) htarget hid
    cases hlink with
    | committed kind => cases hkind.symm.trans kind
    | speculative kind => cases hkind.symm.trans kind
    | rollback =>
      rw [htail]
      exact .returns hb hn

/-- There are no other moves. -/
theorem lightMove_of_mem {k : Key} (hk : k.mode = .committed → k.frames = [] ∧ k.node < p.length)
    (hmove : (target, payload) ∈ s.moves k) : LightMove p s k target payload := by
  obtain ⟨i, m, frames⟩ := k
  cases m with
  | committed =>
    obtain ⟨hframes, hlt⟩ := hk rfl
    cases hframes
    exact h.lightMove_of_committed hlt hmove
  | speculative =>
    obtain ⟨n, -, hn, -⟩ := moves_cases hmove
    rcases h.stages.node_cases hn with hc | hspec
    · rw [h.flow.node] at hc
      obtain ⟨e, he, -⟩ := Option.map_eq_some_iff.1 hc
      exact h.lightMove_of_instr (List.getElem?_eq_some_iff.1 he).1 hmove
    · cases hspec with
      | begins branch => exact h.lightMove_of_begin branch hn hmove
      | ends branch => exact h.lightMove_of_end branch hn hmove

/-! ## Moves that are there -/

theorem exists_begin (hb : BranchOf p context q) :
    ∃ i, s.graph.node? i = some (beginNode q context) ∧ ∃ l ∈ s.graph.linksFrom q,
      l.link.kind = .speculative ∧ l.tail = i ∧ l.target = beginNode q context := by
  have hq := h.lt_length hb
  obtain ⟨e, he, hn⟩ := h.stages.exists_node h.flow hq
  have hid : (committedNode e).id = committedId q := by rw [← h.flow.numbered q e he]; rfl
  obtain ⟨l, hl, hlid⟩ := exists_link_of_linked h.stages.core.indexed
    (h.marked context q hb).mispredict (h.stages.index?_committedId h.flow hq)
  obtain ⟨-, -, -, htarget⟩ := mem_linksFrom_iff.1 hl
  have heq := h.node_of_beginId hb htarget hlid
  refine ⟨l.tail, heq ▸ htarget, l, hl, ?_, rfl, heq⟩
  by_cases hkind : l.link.kind = .committed
  · obtain ⟨-, -, -, hcore⟩ := mem_linksFrom_iff.1 (h.stages.core.mem_linksFrom hl hkind)
    obtain ⟨e', -, hcommitted⟩ := h.stages.exists_entry hcore
    cases heq.symm.trans hcommitted
  · have hedge := (h.edge_of_link hl hn hkind).1
    rw [hid] at hedge
    exact hedge.of_committed.1

theorem mem_moves_mispredicts (hb : BranchOf p context q) :
    ∃ i, s.graph.node? i = some (beginNode q context) ∧
      (⟨i, .speculative, [⟨some context, s.window⟩]⟩, .full) ∈ s.moves ⟨q, .committed, []⟩ := by
  obtain ⟨i, hi, l, hl, hkind, rfl, htarget⟩ := h.exists_begin hb
  obtain ⟨e, -, hn⟩ := h.stages.exists_node h.flow (h.lt_length hb)
  refine ⟨l.tail, hi, ?_⟩
  rw [moves_of_committed (i := some e.instr) rfl hn rfl, List.mem_filterMap]
  refine ⟨l, hl, move?_routeOf_speculative hkind ?_ (by rw [htarget]; rfl)⟩
  rw [htarget]
  rfl

theorem mem_moves_starts {x : Nat} (hb : BranchOf p context q)
    (hn : s.graph.node? i = some (beginNode q context)) (hx : x ∈ p.successors q) :
    (⟨x, .speculative, frames⟩, .full) ∈ s.moves ⟨i, .speculative, frames⟩ := by
  obtain ⟨-, hlt⟩ := Program.lt_of_mem_successors hx
  have hi := h.stages.core.indexed.index?_id hn
  obtain ⟨l, hl, hid⟩ := exists_link_of_linked h.stages.core.indexed
    ((h.marked context q hb).direction x hx) hi
  obtain ⟨-, -, -, htarget⟩ := mem_linksFrom_iff.1 hl
  have htail := h.stages.eq_of_committedId h.flow hlt htarget hid
  obtain ⟨e, -, hnx⟩ := h.stages.exists_node h.flow hlt
  rw [htail] at htarget
  have heq := Option.some.inj (htarget.symm.trans hnx)
  have hkind : l.link.kind = .speculative := by
    by_cases hkind : l.link.kind = .committed
    · obtain ⟨e, heq⟩ := h.exists_entry_of_link hl hkind hn
      cases heq
    · exact (LightEdge.of_begin (h.edge_of_link hl hn hkind).1).1
  obtain ⟨hframes, hmust⟩ := h.goes_on_from_begin hb hn frames
  rw [moves_of_node (i := none) hn rfl, if_neg (by simp [hmust]), hframes, List.mem_filterMap]
  refine ⟨l, hl, ?_⟩
  rw [← htail]
  refine move?_routeOf_speculative hkind ?_ (by rw [heq]; rfl)
  rw [heq]
  rfl

theorem mem_moves_passes {x : Nat} (hx : p.Passes q x) (hleft : exhausted (spend frames) = false) :
    (⟨x, .speculative, spend frames⟩, .full) ∈ s.moves ⟨q, .speculative, frames⟩ := by
  obtain ⟨hq, -⟩ := Program.lt_of_mem_successors hx.1
  obtain ⟨e, he, hn⟩ := h.stages.exists_node h.flow hq
  obtain ⟨l, hl, hkind, rfl, hend⟩ := h.stages.exists_link h.flow hx.1
  have hmarker := h.not_isMarker he
  have hframes : framesAfter ⟨q, .speculative, frames⟩ (committedNode e) = spend frames := by
    rw [framesAfter, if_pos ⟨rfl, by simp [hmarker]⟩]
  have hmust : mustEnd ⟨q, .speculative, frames⟩ (committedNode e) (some e.instr)
      (s.graph.linksFrom q) = false :=
    mustEnd_eq_false hl (hframes ▸ hleft) (hx.isBarrier he)
  rw [moves_of_node (i := some e.instr) hn rfl, if_neg (by simp [hmust]), hframes,
    List.mem_filterMap]
  exact ⟨l, hl, move?_routeOf_committed hkind hend⟩

end SpecGraph.IsLight

end Mispredict
