/-
  Where analysis goes in an unrolled graph, in terms of the program.

  Committed points of an unrolled graph are at instructions, and speculative points at nodes of
  mispredicted paths, each of which stands for an instruction too. `PathMove` lists the moves
  between them by these instructions, and `pathMove_of_mem` says that there are no others. A
  node does not tell where else its instruction has been laid, but within its budget all
  successors of the instruction can be reached from it (`exists_move_goesOn`). The stack guard
  does not stop a path: links lead into the context that is innermost or into later ones, and
  these are not open yet (`Ascending`).
-/
import Mispredict.Proofs.Unrolling

namespace Mispredict

open MuAsm (Program Entry)

open SpecGraph Draft

/-! ## Links by their sources -/

namespace SpecGraph.Draft.PathEdge

variable {p : Program} {target : String} {link : Link} {context pc : Nat}

theorem of_committed (h : PathEdge p ⟨committedId pc, target, link⟩) :
    (link.kind = .rollback ∧ ∃ x, target = committedId x) ∨
      link.kind = .speculative ∧ pc ∈ branches p ∧
        ∃ context, ∃ x ∈ p.successors pc, target = unrolledId context x := by
  generalize he : (⟨committedId pc, target, link⟩ : Edge) = e at h
  cases h with
  | @leaves pc' context x label branch follows =>
    obtain ⟨hid, rfl, rfl⟩ := Edge.mk.inj he
    cases committedId_inj.1 hid
    exact .inr ⟨rfl, branch, context, x, follows, rfl⟩
  | goesOn => exact absurd (Edge.mk.inj he).1 (committedId_ne_unrolledId _ _ _)
  | returns =>
    obtain ⟨-, rfl, rfl⟩ := Edge.mk.inj he
    exact .inl ⟨rfl, _, rfl⟩

theorem of_path (h : PathEdge p ⟨unrolledId context pc, target, link⟩) :
    (link.kind = .rollback ∧ ∃ x, target = committedId x) ∨ link.kind = .speculative ∧
      ∃ context' x, p.Passes pc x ∧ target = unrolledId context' x := by
  generalize he : (⟨unrolledId context pc, target, link⟩ : Edge) = e at h
  cases h with
  | leaves => exact absurd (Edge.mk.inj he).1.symm (committedId_ne_unrolledId _ _ _)
  | @goesOn context₁ pc₁ context' x label passable follows =>
    obtain ⟨hid, rfl, rfl⟩ := Edge.mk.inj he
    obtain ⟨rfl, rfl⟩ := unrolledId_inj.1 hid
    exact .inr ⟨rfl, context', x, ⟨follows, passable⟩, rfl⟩
  | returns =>
    obtain ⟨-, rfl, rfl⟩ := Edge.mk.inj he
    exact .inl ⟨rfl, _, rfl⟩

end SpecGraph.Draft.PathEdge

theorem SpecGraph.linked_of_mem_linksFrom {g : SpecGraph} (hg : g.Indexed) {l : Located} {i : Nat}
    {n : Node} (hl : l ∈ g.linksFrom i) (hn : g.node? i = some n) :
    g.Linked n.id l.target.id := by
  obtain ⟨rfl, hedge, -, htarget⟩ := mem_linksFrom_iff.1 hl
  exact ⟨l.head, l.tail, l.link, hg.index?_id hn, hg.index?_id htarget, hedge⟩

/-- No link between nodes of mispredicted paths leads into an earlier context. -/
def SpecGraph.Ascends (g : SpecGraph) : Prop :=
  ∀ context q context' x, g.Linked (unrolledId context q) (unrolledId context' x) →
    context ≤ context'

/-! ## Moves -/

namespace Setup

/-- The node with number `i` has been laid for the instruction at `q` in the context. -/
def LaidAt (p : Program) (s : Setup) (context q i : Nat) : Prop :=
  ∃ e w, p.entry? q = some e ∧ w.context = context ∧ s.graph.node? i = some (unrolledNode e q w)

theorem LaidAt.context_eq {p : Program} {s : Setup} {context q i : Nat} {n : Node}
    (hi : LaidAt p s context q i) (hn : s.graph.node? i = some n) :
    n.context? = some context ∧ n.endsContext = false := by
  obtain ⟨e, w, -, rfl, hn'⟩ := hi
  cases hn.symm.trans hn'
  exact ⟨rfl, rfl⟩

theorem LaidAt.unique {p : Program} {s : Setup} {context context' q q' i : Nat}
    (h : LaidAt p s context q i) (h' : LaidAt p s context' q' i) : context = context' ∧ q = q' := by
  obtain ⟨e, w, -, rfl, hn⟩ := h
  obtain ⟨e', w', -, rfl, hn'⟩ := h'
  exact unrolledId_inj.1 (congrArg Node.id (Option.some.inj (hn.symm.trans hn')))

/-- The moves in an unrolled graph, by the places in the program that they connect. -/
inductive PathMove (p : Program) (s : Setup) : (k target : Key) → Payload → Prop where
  /-- Committed execution goes on to a successor. -/
  | commits {q x : Nat} (follows : x ∈ p.successors q) :
      PathMove p s ⟨q, .committed, []⟩ ⟨x, .committed, []⟩ .full
  /-- A mispredicted path starts at a successor of a branch. -/
  | leaves {q x context i : Nat} (branch : p.IsBranchAt q) (follows : x ∈ p.successors q)
      (node : LaidAt p s context x i)
      (opens : s.graph.Linked (committedId q) (unrolledId context x)) :
      PathMove p s ⟨q, .committed, []⟩ ⟨i, .speculative, [⟨some context, s.window⟩]⟩ .full
  /-- A mispredicted path goes on to a successor, at the cost of one instruction. -/
  | goesOn {q x context context' i j : Nat} {frames inner : List Frame} {n : Node}
      (source : LaidAt p s context q i) (passes : p.Passes q x)
      (left : exhausted (spend frames) = false) (node : LaidAt p s context' x j)
      (target : s.graph.node? j = some n)
      (enters : s.enter? .speculative (spend frames) n = some inner) :
      PathMove p s ⟨i, .speculative, frames⟩ ⟨j, .speculative, inner⟩ .full
  /-- A mispredicted path rolls back. -/
  | returns {k : Key} {q : Nat} : PathMove p s k ⟨q, .committed, []⟩ .observations

/-- The innermost frame is that of the context, and the frames around it are of earlier ones. -/
structure Ascending (context : Nat) (frames : List Frame) : Prop where
  top : innermost? frames = some (some context)
  around : ∀ f ∈ frames.tail, ∀ outer, f.context = some outer → outer < context

theorem Ascending.spend {context : Nat} {frames : List Frame} (h : Ascending context frames) :
    Ascending context (spend frames) := by
  cases frames with
  | nil => cases h.top
  | cons f rest => exact ⟨h.top, h.around⟩

/-- A later context is not open yet, so that even under the stack guard it may be entered. -/
theorem Ascending.exists_enter? {s : Setup} {context context' : Nat} {frames : List Frame}
    {n : Node} (h : Ascending context frames) (hle : context ≤ context')
    (hn : n.context? = some context') :
    ∃ inner, s.enter? .speculative frames n = some inner ∧ Ascending context' inner := by
  cases frames with
  | nil => cases h.top
  | cons f rest =>
    have hf : f.context = some context := Option.some.inj h.top
    unfold enter?
    dsimp only
    rw [hn]
    dsimp only
    rcases Nat.eq_or_lt_of_le hle with rfl | hlt
    · exact ⟨_, if_pos hf, h⟩
    · have hne : f.context ≠ some context' := by
        rw [hf]
        exact fun heq => hlt.ne (Option.some.inj heq)
      have hclosed : ¬ rest.any (·.context == some context') = true := by
        rw [List.any_eq_true]
        rintro ⟨f', hf', hcontext⟩
        exact (h.around f' hf' context' (beq_iff_eq.1 hcontext)).not_ge hle
      refine ⟨_, by rw [if_neg hne, if_neg hclosed], rfl, fun f' hf' outer houter => ?_⟩
      rcases List.mem_cons.1 hf' with rfl | hf'
      · cases hf.symm.trans houter
        exact hlt
      · exact (h.around f' hf' outer houter).trans hlt

/-- A committed point is at an instruction, a speculative one at a node of a mispredicted path. -/
structure PathSpot (p : Program) (s : Setup) (k : Key) : Prop where
  committed : k.mode = .committed → k.frames = [] ∧ k.node < p.length
  speculative : k.mode = .speculative → ∃ context q, LaidAt p s context q k.node

end Setup

namespace SpecGraph.IsUnrolled

open Setup

variable {p : Program} {window : Nat} {budget : Nat → Nat → Nat} {c : SpecGraph} {s : Setup}
  {i q x context : Nat} {n : Node} {e : Entry} {k target : Key} {payload : Payload}
  {frames : List Frame} (h : IsUnrolled p window budget c s.graph)

include h

theorem laidAt_of_id (hn : s.graph.node? i = some n) (hid : n.id = unrolledId context q) :
    LaidAt p s context q i := by
  rcases h.stages.node_cases hn with hc | ⟨pc, e, w, he, rfl⟩
  · obtain ⟨e, -, rfl⟩ := h.stages.exists_entry hc
    exact absurd hid (committedId_ne_unrolledId _ _ _)
  · obtain ⟨rfl, rfl⟩ := unrolledId_inj.1 hid
    exact ⟨e, w, he, rfl, hn⟩

theorem edge_of_link {l : Located} (hl : l ∈ s.graph.linksFrom i) (hn : s.graph.node? i = some n)
    (hkind : l.link.kind ≠ .committed) :
    PathEdge p ⟨n.id, l.target.id, l.link⟩ ∧ s.graph.node? l.tail = some l.target := by
  obtain ⟨rfl, -, hsource, htarget⟩ := mem_linksFrom_iff.1 hl
  cases hn.symm.trans hsource
  exact ⟨h.stages.mem_of_link hl hkind, htarget⟩

theorem pathMove_of_committed (hq : q < p.length)
    (hmove : (target, payload) ∈ s.moves ⟨q, .committed, []⟩) :
    PathMove p s ⟨q, .committed, []⟩ target payload := by
  obtain ⟨e, he, hn⟩ := h.stages.exists_node h.flow hq
  have hid : (committedNode e).id = committedId q := by rw [← h.flow.numbered q e he]; rfl
  have hframes : framesAfter ⟨q, .committed, []⟩ (committedNode e) = [] :=
    framesAfter_of_committed rfl _
  rcases moves_cases_of_node (i := some e.instr) hn rfl hmove with ⟨hmust, -⟩ | ⟨l, hl, hlink, -⟩
  · simp [mustEnd] at hmust
  · rw [hframes] at hlink
    cases hlink with
    | committed kind => exact .commits (h.stages.mem_successors_of_link h.flow hl kind)
    | speculative kind enters =>
      obtain ⟨hedge, htarget⟩ := h.edge_of_link hl hn (by simp [kind])
      rw [hid] at hedge
      rcases hedge.of_committed with ⟨hrollback, -⟩ | ⟨-, hb, context, x, hx, hlid⟩
      · cases kind.symm.trans hrollback
      · have hopens := linked_of_mem_linksFrom h.stages.core.indexed hl hn
        rw [hid, hlid] at hopens
        obtain ⟨e', w, he', rfl, hn'⟩ := h.laidAt_of_id htarget hlid
        rw [Option.some.inj (htarget.symm.trans hn')] at enters
        cases enters
        exact .leaves ((mem_branches_iff h.flow.numbered).1 hb) hx ⟨e', w, he', rfl, hn'⟩ hopens
    | rollback => exact .returns

theorem not_isMarker {w : Pending} (he : p.entry? q = some e) :
    (unrolledNode e q w).isMarker = false :=
  decide_eq_false (not_ofNat_lt_zero (h.fits.pc_le (List.getElem?_eq_some_iff.1 he).1))

/-- A node of a mispredicted path costs an instruction, and has no end of its context to go to. -/
theorem framesAfter_eq {w : Pending} (he : p.entry? q = some e) (frames : List Frame) :
    framesAfter ⟨i, .speculative, frames⟩ (unrolledNode e q w) = spend frames ∧
      s.contextEnd? i (spend frames) = none := by
  refine ⟨by rw [framesAfter, if_pos ⟨rfl, by simp [h.not_isMarker he]⟩], ?_⟩
  cases hend : s.contextEnd? i (spend frames) with
  | none => rfl
  | some found =>
    obtain ⟨context, remaining, rest, -, hn, hmarker⟩ :=
      node_of_contextEnd? hend
    rcases h.stages.node_cases hn with hc | ⟨pc, e', w', -, heq⟩
    · rw [h.stages.core.unmarked hc] at hmarker
      cases hmarker
    · rw [heq] at hmarker
      cases hmarker

theorem pathMove_of_path (hi : LaidAt p s context q i)
    (hmove : (target, payload) ∈ s.moves ⟨i, .speculative, frames⟩) :
    PathMove p s ⟨i, .speculative, frames⟩ target payload := by
  obtain ⟨e, w, he, rfl, hn⟩ := hi
  have hinstr : p.instr? q = some e.instr := Program.instr?_eq_some he
  obtain ⟨hframes, hnone⟩ := h.framesAfter_eq (i := i) (w := w) he frames
  rcases moves_cases_of_node (i := some e.instr) hn rfl hmove with
    ⟨-, -, index, n, hend, -⟩ | ⟨l, hl, hlink, hgoes⟩
  · rw [hframes, hnone] at hend
    cases hend
  · rw [hframes] at hlink
    cases hlink with
    | committed kind =>
      obtain ⟨rfl, -, hsource, -⟩ := mem_linksFrom_iff.1 (h.stages.core.mem_linksFrom hl kind)
      obtain ⟨hsource, hcommitted⟩ := h.stages.core.node.1 hsource
      rw [← Option.some.inj (hn.symm.trans hsource)] at hcommitted
      cases hcommitted
    | speculative kind enters =>
      -- speculation goes on, so that instructions are left
      have hmust := hgoes.resolve_left (by simp [kind])
      have hleft : exhausted (spend frames) = false := by
        rw [mustEnd, hframes, h.not_isMarker he] at hmust
        simp only [beq_self_eq_true, Bool.not_false, Bool.true_and, Bool.or_eq_false_iff] at hmust
        exact hmust.1.1
      obtain ⟨hedge, htarget⟩ := h.edge_of_link hl hn (by simp [kind])
      rcases PathEdge.of_path hedge with ⟨hrollback, -⟩ | ⟨-, context', x, hx, hid⟩
      · cases kind.symm.trans hrollback
      · exact .goesOn ⟨e, w, he, rfl, hn⟩ hx hleft (h.laidAt_of_id htarget hid) htarget enters
    | rollback => exact .returns

/-- There are no other moves. -/
theorem pathMove_of_mem (hk : PathSpot p s k) (hmove : (target, payload) ∈ s.moves k) :
    PathMove p s k target payload := by
  obtain ⟨i, m, frames⟩ := k
  cases m with
  | committed =>
    obtain ⟨hframes, hlt⟩ := hk.committed rfl
    cases hframes
    exact h.pathMove_of_committed hlt hmove
  | speculative =>
    obtain ⟨context, q, hi⟩ := hk.speculative rfl
    exact h.pathMove_of_path hi hmove

/-! ## Moves that are there -/

/-- A link into a node of a mispredicted path is speculative. -/
theorem exists_link_of_unrolledId {source : String} (hi : s.graph.index? source = some i)
    (hlinked : s.graph.Linked source (unrolledId context x)) :
    ∃ l ∈ s.graph.linksFrom i, l.link.kind = .speculative ∧ LaidAt p s context x l.tail ∧
      s.graph.node? l.tail = some l.target := by
  obtain ⟨l, hl, hid⟩ := exists_link_of_linked h.stages.core.indexed hlinked hi
  obtain ⟨rfl, -, hsource, htarget⟩ := mem_linksFrom_iff.1 hl
  refine ⟨l, hl, ?_, h.laidAt_of_id htarget hid, htarget⟩
  by_cases hkind : l.link.kind = .committed
  · obtain ⟨-, -, -, hcore⟩ := mem_linksFrom_iff.1 (h.stages.core.mem_linksFrom hl hkind)
    obtain ⟨e, -, heq⟩ := h.stages.exists_entry hcore
    rw [heq] at hid
    exact absurd hid (committedId_ne_unrolledId _ _ _)
  · have hedge := (h.edge_of_link hl hsource hkind).1
    rw [hid] at hedge
    generalize he : (⟨l.source.id, unrolledId context x, l.link⟩ : Edge) = e at hedge
    have hlink : e.link = l.link := by rw [← he]
    cases hedge with
    | leaves | goesOn => exact hlink ▸ rfl
    | returns => exact absurd (Edge.mk.inj he).2.1.symm (committedId_ne_unrolledId _ _ _)

/-- A direction of a branch is followed in the context that is opened for it. -/
theorem mem_moves_leaves (hq : q < p.length)
    (hopens : s.graph.Linked (committedId q) (unrolledId context x)) :
    ∃ i, LaidAt p s context x i ∧
      (⟨i, .speculative, [⟨some context, s.window⟩]⟩, .full) ∈ s.moves ⟨q, .committed, []⟩ := by
  obtain ⟨l, hl, hkind, hlaid, htarget⟩ :=
    h.exists_link_of_unrolledId (h.stages.index?_committedId h.flow hq) hopens
  obtain ⟨hcontext, hend⟩ := hlaid.context_eq htarget
  obtain ⟨e, -, hn⟩ := h.stages.exists_node h.flow hq
  refine ⟨l.tail, hlaid, ?_⟩
  rw [moves_of_committed (i := some e.instr) rfl hn rfl, List.mem_filterMap]
  refine ⟨l, hl, move?_routeOf_speculative hkind ?_ hend⟩
  rw [← hcontext]
  rfl

/-- Within its budget a path can go on to all successors of its last instruction. -/
theorem exists_move_goesOn {b : Nat} (hascends : s.graph.Ascends) (hi : LaidAt p s context q i)
    (hstack : Ascending context frames) (hx : p.Passes q x) (hbudget : b < budget context q)
    (hb : 0 < b) (hleft : exhausted (spend frames) = false) :
    ∃ context' j inner n, LaidAt p s context' x j ∧ b ≤ budget context' x ∧
      s.graph.node? j = some n ∧ s.enter? .speculative (spend frames) n = some inner ∧
      Ascending context' inner ∧
      (⟨j, .speculative, inner⟩, .full) ∈ s.moves ⟨i, .speculative, frames⟩ := by
  obtain ⟨e, w, he, rfl, hn⟩ := hi
  have hindex := h.stages.core.indexed.index?_id hn
  have hid : (unrolledNode e q w).id = unrolledId w.context q := rfl
  rw [hid] at hindex
  obtain ⟨b', hb'⟩ : ∃ b', budget w.context q = b' + 1 := ⟨_, (Nat.sub_add_cancel (by omega)).symm⟩
  obtain ⟨context', hlinked, hle⟩ := h.goesOn w.context q x b'
    (by rw [hasNode, hindex]; rfl) hx hb' (by omega)
  obtain ⟨l, hl, hkind, hlaid, htarget⟩ := h.exists_link_of_unrolledId hindex hlinked
  obtain ⟨hcontext, hend⟩ := hlaid.context_eq htarget
  obtain ⟨inner, henter, hinner⟩ :=
    hstack.spend.exists_enter? (s := s) (hascends _ _ _ _ hlinked) hcontext
  refine ⟨context', l.tail, inner, l.target, hlaid, by omega, htarget, henter, hinner, ?_⟩
  obtain ⟨hframes, -⟩ := h.framesAfter_eq (i := i) (w := w) he frames
  have hmust : mustEnd ⟨i, .speculative, frames⟩ (unrolledNode e q w) (some e.instr)
      (s.graph.linksFrom i) = false :=
    mustEnd_eq_false hl (hframes ▸ hleft) (hx.isBarrier he)
  rw [moves_of_node (i := some e.instr) hn rfl, if_neg (by simp [hmust]), hframes,
    List.mem_filterMap]
  exact ⟨l, hl, move?_routeOf_speculative hkind henter hend⟩

end SpecGraph.IsUnrolled

/-- Whatever order points are visited in, they are at instructions and at nodes of mispredicted
    paths. -/
theorem Setup.Stores.pathSpot {p : Program} {window : Nat} {budget : Nat → Nat → Nat}
    {c g : SpecGraph} {o : Options} {entry k : Key} {st : State}
    (h : IsUnrolled p window budget c g) (hvalid : g.validate = .ok ())
    (hentry : (Setup.of c o).entryKey = .ok (some entry))
    (hst : (Setup.of g o).Stores entry k st) : PathSpot p (Setup.of g o) k := by
  refine ⟨h.stages.instr_of_stores h.flow hvalid hentry hst, fun hmode => ?_⟩
  induction hst with
  | start =>
    obtain ⟨hcommitted, -⟩ := h.stages.core.exists_node_of_entryKey hentry
    cases hmode.symm.trans hcommitted
  | @pass k target st out payload old visited after violation move held ih ihheld =>
    have hspot : PathSpot p (Setup.of g o) k :=
      ⟨h.stages.instr_of_stores h.flow hvalid hentry visited, ih⟩
    cases SpecGraph.IsUnrolled.pathMove_of_mem (s := Setup.of g o) h hspot move with
    | commits => cases hmode
    | leaves branch follows node => exact ⟨_, _, node⟩
    | goesOn source passes left node => exact ⟨_, _, node⟩
    | returns => cases hmode

end Mispredict
