/-
  Rollbacks in light graphs.

  In the light layout a mispredicted path runs over the committed nodes, in speculative mode,
  and a rollback leads from the end of a context to its branch. Every node has an anchor among
  the committed nodes: a committed node is its own anchor, and that of a marker is the branch
  of its context. A speculative point has no way to get ahead of its anchor if points are
  visited first in, first out: where the speculative point goes, the anchor has gone before
  (`Anchored`). So a rollback finds its branch reached, and nothing is invented
  (`Stages.not_invents_light`). Last in, first out, this does not hold.
-/
import Mispredict.Proofs.Flow
import Mispredict.Proofs.Invention

namespace Mispredict

open MuAsm (Program)

namespace Setup

variable {s : Setup} {k : Key} {n : Node} {frames inner : List Frame} {f : Frame}

/-- The contexts that are open after a node were open before it. -/
theorem exists_frame_of_framesAfter (hf : f ∈ framesAfter k n) :
    ∃ f' ∈ k.frames, f'.context = f.context := by
  unfold framesAfter at hf
  split at hf
  · unfold spend at hf
    split at hf
    · cases hf
    · next f' rest hframes =>
      rw [hframes]
      rcases List.mem_cons.1 hf with rfl | hf
      · exact ⟨f', List.mem_cons_self, rfl⟩
      · exact ⟨f, List.mem_cons_of_mem _ hf, rfl⟩
  · exact ⟨f, hf, rfl⟩

/-- A speculative link opens no context but that of the node to which it leads. -/
theorem frame_of_enter? {mode : Mode} (h : s.enter? mode frames n = some inner) (hf : f ∈ inner) :
    f ∈ frames ∨ f.context = n.context? := by
  unfold enter? at h
  split at h
  · cases h
    cases List.mem_singleton.1 hf
    exact .inr rfl
  · split at h
    · cases h
      exact .inl hf
    · next context hcontext =>
      rw [hcontext]
      split at h
      · cases h
        cases List.mem_singleton.1 hf
        exact .inr rfl
      · split at h
        · cases h
          exact .inl hf
        · split at h
          · split at h
            · cases h
            · cases h
              exact .inl hf
          · cases h
            rcases List.mem_cons.1 hf with rfl | hf
            · exact .inr rfl
            · exact .inl hf

end Setup

namespace SpecGraph

open Draft Machine

/-! ## Anchors -/

/-- The anchor of a node, by their ids. -/
inductive Anchor (p : Program) : (id anchor : String) → Prop where
  | flow {pc : Nat} : Anchor p (committedId pc) (committedId pc)
  | begins {context pc : Nat} (branch : (branches p)[context]? = some pc) :
      Anchor p (beginId context) (committedId pc)
  | ends {context pc : Nat} (branch : (branches p)[context]? = some pc) :
      Anchor p (endId context) (committedId pc)

section Anchor

variable {p : Program} {context pc : Nat} {id : String}

theorem head?_beginId (context : Nat) : (beginId context).toList.head? = some 's' := by
  simp [beginId]

theorem head?_endId (context : Nat) : (endId context).toList.head? = some 's' := by
  simp [endId]

theorem Anchor.eq_of_committed (h : Anchor p (committedId pc) id) : id = committedId pc := by
  generalize hid : committedId pc = id' at h
  cases h with
  | flow => rfl
  | begins => exact absurd hid (committedId_ne (head?_beginId _))
  | ends => exact absurd hid (committedId_ne (head?_endId _))

theorem Anchor.eq_of_begin (h : Anchor p (beginId context) id)
    (branch : (branches p)[context]? = some pc) : id = committedId pc := by
  generalize hid : beginId context = id' at h
  cases h with
  | flow => exact absurd hid.symm (committedId_ne (head?_beginId _))
  | begins branch' =>
    cases beginId_inj.1 hid
    cases branch.symm.trans branch'
    rfl
  | ends => exact absurd hid (beginId_ne_endId _ _)

theorem Anchor.eq_of_end (h : Anchor p (endId context) id)
    (branch : (branches p)[context]? = some pc) : id = committedId pc := by
  generalize hid : endId context = id' at h
  cases h with
  | flow => exact absurd hid.symm (committedId_ne (head?_endId _))
  | begins => exact absurd hid.symm (beginId_ne_endId _ _)
  | ends branch' =>
    cases endId_inj.1 hid
    cases branch.symm.trans branch'
    rfl

end Anchor

/-- A rollback leads from the end of a context to its branch. -/
theorem Draft.LightEdge.of_rollback {p : Program} {mode : SpeculationMode} {e : Edge}
    (h : LightEdge p mode e) (hkind : e.link.kind = .rollback) :
    ∃ context pc, (branches p)[context]? = some pc ∧ e.source = endId context ∧
      e.target = committedId pc := by
  cases h with
  | rollback branch => exact ⟨_, _, branch, rfl, rfl⟩
  | mispredict | direction | squash => cases hkind

/-- The committed point at the anchor of the node of a speculative point. -/
def AnchorOf (p : Program) (c g : SpecGraph) (q a : Key) : Prop :=
  q.mode = .speculative ∧ ∃ n id j, g.node? q.node = some n ∧ Anchor p n.id id ∧
    c.index? id = some j ∧ a = ⟨j, .committed, []⟩

variable {p : Program} {mode : SpeculationMode} {c g : SpecGraph} {o : Options}
  {cap : Option Nat} {entry k target : Key} {m : Machine} {out : State} {payload : Payload}
  {rest : List (Key × Payload)}

theorem AnchorOf.of_id {n : Node} {id id' : String} {j : Nat} (hk : k.mode = .speculative)
    (hn : g.node? k.node = some n) (hid : n.id = id) (hanchor : Anchor p id id')
    (hj : c.index? id' = some j) : AnchorOf p c g k ⟨j, .committed, []⟩ :=
  ⟨hk, n, id', j, hn, hid ▸ hanchor, hj, rfl⟩

/-- The machine when the result of a visit of `k` is still to be passed on to `rest`: what
    speculation has reached is anchored at points that were reached, and these points are visited
    first. -/
structure Anchored (p : Program) (c g : SpecGraph) (o : Options) (m : Machine) (k : Key)
    (rest : List (Key × Payload)) : Prop where
  points : ∀ q a, m.Reached q → AnchorOf p c g q a → m.Reached a
  /-- The branches of open contexts have been reached. -/
  frames : ∀ q, m.Reached q → ∀ f ∈ q.frames, ∀ context pc j, f.context = some context →
    (branches p)[context]? = some pc → c.index? (committedId pc) = some j →
    m.Reached ⟨j, .committed, []⟩
  ahead : Ahead (Setup.of g o) (AnchorOf p c g) m k
  spread : rest ≠ [] → ∀ a, AnchorOf p c g k a → Spread (Setup.of g o) m a

namespace Stages

variable (h : Stages p (LightNode p) (LightEdge p mode) c g)

include h

/-- A node with a context is a marker, anchored at the branch of its context. -/
theorem anchor_of_context {i context pc : Nat} {n : Node} (hn : g.node? i = some n)
    (hcontext : n.context? = some context) (branch : (branches p)[context]? = some pc) :
    Anchor p n.id (committedId pc) := by
  rcases h.node_cases hn with hn | hn
  · obtain ⟨e, -, rfl⟩ := h.exists_entry hn
    cases hcontext
  · cases hn with
    | begins =>
      cases hcontext
      exact .begins branch
    | ends =>
      cases hcontext
      exact .ends branch

/-- A point that is visited leads on along committed links, so that what follows it has been
    reached. -/
theorem reached_of_linked {source target : String} {i j : Nat}
    (hspread : Spread (Setup.of g o) m ⟨i, .committed, []⟩) (hlinked : c.Linked source target)
    (hi : c.index? source = some i) (hj : c.index? target = some j) :
    m.Reached ⟨j, .committed, []⟩ :=
  hspread _ (h.mem_moves hlinked hi hj)

/-- The anchor of the end of the innermost context has been reached. -/
theorem reached_anchor_of_end (ha : Anchored p c g o m k rest) (hk : m.Reached k) {n e : Node}
    {i index : Nat} {a : Key}
    (hend : (Setup.of g o).contextEnd? i (Setup.framesAfter k n) = some (index, e))
    (htarget : AnchorOf p c g ⟨index, .speculative, Setup.framesAfter k n⟩ a) : m.Reached a := by
  obtain ⟨-, n', id, j, hn', hanchor, hj, rfl⟩ := htarget
  obtain ⟨context, remaining, outer, hframes, he, hmarker⟩ :=
    Setup.node_of_contextEnd? hend
  cases hn'.symm.trans he
  rcases h.node_cases he with he | he
  · rw [h.core.unmarked he] at hmarker
    cases hmarker
  · cases he with
    | begins => cases hmarker
    | @ends context' pc branch =>
      cases hmarker
      cases hanchor.eq_of_end branch
      obtain ⟨f, hf, hcontext⟩ := Setup.exists_frame_of_framesAfter (f := ⟨some context, remaining⟩)
        (hframes ▸ List.mem_cons_self)
      exact ha.frames k hk f hf context pc j hcontext branch hj

/-- Where a committed link leads, the anchor has been reached. -/
theorem reached_anchor_of_committed (ha : Anchored p c g o m k rest) (hrest : rest ≠ [])
    (hk : k.mode = .speculative) {l : Located} (hl : l ∈ c.linksFrom k.node) {frames : List Frame}
    {a : Key} (htarget : AnchorOf p c g ⟨l.tail, .speculative, frames⟩ a) : m.Reached a := by
  obtain ⟨-, n', id, j, hn', hanchor, hj, rfl⟩ := htarget
  obtain ⟨hhead, hedge, hsource, hnode⟩ := mem_linksFrom_iff.1 hl
  cases hn'.symm.trans (h.core.node.1 hnode).1
  obtain ⟨e, -, hs⟩ := h.exists_entry hsource
  obtain ⟨e', -, ht⟩ := h.exists_entry hnode
  have hsource' := h.core.flow.indexed.index?_id hsource
  have htarget' := h.core.flow.indexed.index?_id hnode
  have hid : id = l.target.id := by
    rw [ht] at hanchor ⊢
    exact hanchor.eq_of_committed
  rw [hid] at hj
  have hlinked : c.Linked l.source.id l.target.id :=
    ⟨l.head, l.tail, l.link, hsource', htarget', hedge⟩
  rw [hhead] at hsource hsource'
  rw [hs] at hlinked hsource'
  refine h.reached_of_linked (ha.spread hrest _ ?_) hlinked hsource' hj
  exact .of_id hk (h.core.node.1 hsource).1 (congrArg Node.id hs) .flow hsource'

/-- Where a speculative link leads, the anchor has been reached. -/
theorem reached_anchor_of_speculative (ha : Anchored p c g o m k rest) (hrest : rest ≠ [])
    (hk : m.Reached k)
    (hcommitted : k.mode = .committed → k = ⟨k.node, .committed, []⟩ ∧ ∃ n, c.node? k.node = some n)
    {l : Located} (hl : l ∈ g.linksFrom k.node) (hkind : l.link.kind = .speculative)
    {frames : List Frame} {a : Key} (htarget : AnchorOf p c g ⟨l.tail, .speculative, frames⟩ a) :
    m.Reached a := by
  obtain ⟨-, n', id, j, hn', hanchor, hj, rfl⟩ := htarget
  obtain ⟨hhead, hedge, hsource, hnode⟩ := mem_linksFrom_iff.1 hl
  cases hn'.symm.trans hnode
  rw [hhead] at hsource
  -- from the start of a context only speculation goes on
  have hbegin : ∀ {context}, l.source.id = beginId context → k.mode = .speculative := by
    intro context hid
    cases hmode : k.mode with
    | speculative => rfl
    | committed =>
      obtain ⟨-, n, hn⟩ := hcommitted hmode
      cases hsource.symm.trans (h.core.node.1 hn).1
      obtain ⟨e, -, he⟩ := h.exists_entry hn
      rw [he] at hid
      exact absurd hid (committedId_ne (head?_beginId _))
  have he := h.mem_of_link hl (by rw [hkind]; nofun)
  generalize hlink : l.edge = e at he
  cases he with
  | @mispredict context pc label branch =>
    obtain ⟨hs, ht, -⟩ := Edge.mk.inj hlink
    rw [ht] at hanchor
    cases hanchor.eq_of_begin branch
    -- the branch is the node of the point itself
    have hsame : j = k.node := by
      have hindex := h.core.indexed.index?_id hsource
      rw [hs, h.index?_of_some hj] at hindex
      exact Option.some.inj hindex
    subst hsame
    cases hmode : k.mode with
    | committed => exact (hcommitted hmode).1 ▸ hk
    | speculative => exact ha.points k _ hk (.of_id hmode hsource hs .flow hj)
  | @direction context pc taken x label branch target follows =>
    obtain ⟨hs, ht, -⟩ := Edge.mk.inj hlink
    rw [ht] at hanchor
    cases hanchor.eq_of_committed
    have hlinked := h.linked_branch (List.mem_of_getElem? branch) target follows
    have ⟨i, _, _, hi, _⟩ := hlinked
    refine h.reached_of_linked (ha.spread hrest _ ?_) hlinked hi hj
    exact .of_id (hbegin hs) hsource hs (.begins branch) hi
  | @squash context pc label branch =>
    obtain ⟨hs, ht, -⟩ := Edge.mk.inj hlink
    rw [ht] at hanchor
    cases hanchor.eq_of_end branch
    exact ha.points k _ hk (.of_id (hbegin hs) hsource hs (.begins branch) hj)
  | rollback =>
    obtain ⟨-, -, hlink⟩ := Edge.mk.inj hlink
    rw [hlink] at hkind
    cases hkind

/-- Wherever a point leads, the anchor has been reached. -/
theorem reached_anchor (hvalid : g.validate = .ok ())
    (hentry : (Setup.of c o).entryKey = .ok (some entry))
    (hm : Moment (Setup.of g o) cap entry m k out ((target, payload) :: rest))
    (ha : Anchored p c g o m k ((target, payload) :: rest)) {a : Key}
    (htarget : AnchorOf p c g target a) : m.Reached a := by
  have hmove := hm.accounted.2.moves _ List.mem_cons_self
  obtain ⟨n, i, -, -, ⟨-, -, -, index, e, hend, rfl⟩ | ⟨l, hl, hlink, -⟩⟩ :=
    Setup.moves_cases hmove
  · exact h.reached_anchor_of_end ha hm.reached_self hend htarget
  · cases hlink with
    | committed kind =>
      have hk : k.mode = .speculative := htarget.1
      rw [hk] at htarget
      exact h.reached_anchor_of_committed ha nofun hk (h.core.mem_linksFrom hl kind) htarget
    | speculative kind =>
      have hcommitted := h.core.committed_of_reached hvalid hentry hm hm.reached_self
      exact h.reached_anchor_of_speculative ha nofun hm.reached_self hcommitted hl kind htarget
    | rollback => cases htarget.1

/-- The contexts that are open where a point leads were open, or their branches have been
    reached. -/
theorem reached_branch (hvalid : g.validate = .ok ())
    (hentry : (Setup.of c o).entryKey = .ok (some entry))
    (hm : Moment (Setup.of g o) cap entry m k out ((target, payload) :: rest))
    (ha : Anchored p c g o m k ((target, payload) :: rest)) {f : Frame} (hf : f ∈ target.frames)
    {context pc j : Nat} (hcontext : f.context = some context)
    (branch : (branches p)[context]? = some pc) (hj : c.index? (committedId pc) = some j) :
    m.Reached ⟨j, .committed, []⟩ := by
  have hopen : ∀ {n : Node}, f ∈ Setup.framesAfter k n → m.Reached ⟨j, .committed, []⟩ := by
    intro n hf
    obtain ⟨f', hf', heq⟩ := Setup.exists_frame_of_framesAfter hf
    exact ha.frames k hm.reached_self f' hf' context pc j (heq.trans hcontext) branch hj
  have hmove := hm.accounted.2.moves _ List.mem_cons_self
  obtain ⟨n, i, -, -, ⟨-, -, -, index, e, -, rfl⟩ | ⟨l, hl, hlink, -⟩⟩ := Setup.moves_cases hmove
  · exact hopen hf
  · cases hlink with
    | committed => exact hopen hf
    | @speculative inner kind enters =>
      rcases Setup.frame_of_enter? enters hf with hf | heq
      · exact hopen hf
      · have htarget := (mem_linksFrom_iff.1 hl).2.2.2
        have hanchor := h.anchor_of_context htarget (heq.symm.trans hcontext) branch
        exact h.reached_anchor hvalid hentry hm ha (.of_id rfl htarget rfl hanchor hj)
    | rollback => cases hf

/-- First in, first out, speculation stays anchored. -/
theorem anchored (hvalid : g.validate = .ok ())
    (hentry : (Setup.of c o).entryKey = .ok (some entry)) (horder : o.traceMode = .breadthFirst)
    (hm : Moment (Setup.of g o) cap entry m k out rest) : Anchored p c g o m k rest := by
  obtain ⟨hcommitted, hframes, -⟩ := h.core.exists_node_of_entryKey hentry
  have hnone : ∀ a, ¬ AnchorOf p c g entry a := by
    rintro a ⟨hmode, -⟩
    cases hcommitted.symm.trans hmode
  induction hm with
  | start =>
    refine ⟨fun q a hq ha => ?_, fun q hq f hf => ?_, fun l₁ q l₂ hl a ha => ?_,
      fun hrest => absurd rfl hrest⟩
    · exact absurd (reached_start.1 hq ▸ ha) (hnone a)
    · rw [reached_start.1 hq, hframes] at hf
      cases hf
    · have hq : q ∈ [entry] := by
        rw [show [entry] = l₁ ++ q :: l₂ from hl]
        exact List.mem_append_right _ List.mem_cons_self
      exact absurd (List.mem_singleton.1 hq ▸ ha) (hnone a)
  | @visit m k₀ k out₀ st out queue n before visiting ih =>
    refine ⟨fun q a hq ha => ?_, fun q hq f hf context pc j hcontext branch hj => ?_,
      ih.ahead.visit before visiting, fun _ a ha => ?_⟩
    · exact reached_visited.2 (ih.points q a (reached_visited.1 hq) ha)
    · exact reached_visited.2
        (ih.frames q (reached_visited.1 hq) f hf context pc j hcontext branch hj)
    · have hk : k ≠ entry := by
        rintro rfl
        exact hnone a ha
      exact (ih.ahead.spread_of_next before visiting ha hk).mono fun _ => reached_visited.2
  | @pass m m' k target out payload rest before running ih =>
    have hstay : ∀ {q}, m.Reached q → m'.Reached q :=
      fun hq => (reached_iff_of_running running).2 (.inr hq)
    refine ⟨fun q a hq ha => hstay ?_, fun q hq f hf context pc j hcontext branch hj => hstay ?_,
      ih.ahead.pass horder before running fun a => h.reached_anchor hvalid hentry before ih,
      fun _ a ha => (ih.spread nofun a ha).of_running running⟩
    · rcases (reached_iff_of_running running).1 hq with rfl | hq
      · exact h.reached_anchor hvalid hentry before ih ha
      · exact ih.points q a hq ha
    · rcases (reached_iff_of_running running).1 hq with rfl | hq
      · exact h.reached_branch hvalid hentry before ih hf hcontext branch hj
      · exact ih.frames q hq f hf context pc j hcontext branch hj

/-- First in, first out, rollbacks invent nothing in light graphs. -/
theorem not_invents_light (hvalid : g.validate = .ok ())
    (hentry : (Setup.of c o).entryKey = .ok (some entry)) (horder : o.traceMode = .breadthFirst)
    (q : Key) : ¬ Invents (Setup.of g o) cap entry q := by
  intro hinvents
  obtain ⟨m, k, out, rest, l, hm, hk, hl, kind, htarget, rfl, hnone⟩ :=
    h.core.exists_rollback hvalid hentry hinvents
  obtain ⟨hhead, -, hsource, -⟩ := mem_linksFrom_iff.1 hl
  rw [hhead] at hsource
  obtain ⟨context, pc, branch, hs, ht⟩ :=
    (h.mem_of_link hl (by rw [kind]; nofun)).of_rollback kind
  refine hnone ((h.anchored hvalid hentry horder hm).points k _ hm.reached_self ?_)
  refine .of_id hk hsource hs (.ends branch) ?_
  rw [← show l.target.id = committedId pc from ht]
  exact h.core.flow.indexed.index?_id htarget

end Stages

end SpecGraph

end Mispredict
