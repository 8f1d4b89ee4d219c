/-
  What can follow a point.

  A move ends a speculation at the marker of its context, or goes along a link out of the
  point's node: a committed link keeps the mode, a speculative link leads into
  speculation, and a rollback leads out of it. `OfLink` and `moves_cases` say all that a
  move can be; proofs about moves take them apart and do not open their definition.
-/
import Mispredict.Proofs.Path

namespace Mispredict

namespace Setup

/-- The move along a link `l` out of the point `k`, when `frames` are the open contexts after its
    node. -/
inductive OfLink (s : Setup) (k : Key) (frames : List Frame) (l : SpecGraph.Located) :
    (target : Key) → (payload : Payload) → Prop where
  /-- Stays in the mode. -/
  | committed (kind : l.link.kind = .committed) : OfLink s k frames l ⟨l.tail, k.mode, frames⟩ .full
  /-- Follows a mispredicted path, perhaps into a new context. -/
  | speculative {inner : List Frame} (kind : l.link.kind = .speculative)
      (enters : s.enter? k.mode frames l.target = some inner) :
      OfLink s k frames l ⟨l.tail, .speculative, inner⟩ .full
  /-- Returns to committed execution with nothing but observations. -/
  | rollback (kind : l.link.kind = .rollback)
      (innermost : s.stackGuard = true → innermost? frames ≠ none →
        innermost? frames = some l.source.context?) :
      OfLink s k frames l ⟨l.tail, .committed, []⟩ .observations

variable {s : Setup} {k target : Key} {payload : Payload} {frames : List Frame}
  {l : SpecGraph.Located}

theorem ofLink_of_through (h : s.through k frames l = .ok (target, payload)) :
    s.OfLink k frames l target payload := by
  unfold through at h
  split at h
  · next kind =>
    cases h
    exact .committed kind
  · next kind =>
    split at h
    · next enters =>
      cases h
      exact .speculative kind enters
    · cases h
  · next kind =>
    split at h
    · cases h
    · next hinner =>
      cases h
      refine .rollback kind fun hguard hne => ?_
      by_contra hctx
      exact hinner ⟨hguard, hne, hctx⟩

/-- A move from a point, whose node is `n`, to another: the speculation ends, or the move is along a
    link. Under the stack guard, a link leads to the end of a context only if that context is the
    innermost. -/
theorem moves_cases (h : (target, payload) ∈ s.moves k) :
    ∃ n i, s.graph.node? k.node = some n ∧ n.executes = .ok i ∧
      ((k.mode = .speculative ∧ payload = .full ∧
          mustEnd k n i (s.graph.linksFrom k.node) = true ∧
          ∃ index e, s.contextEnd? k.node (framesAfter k n) = some (index, e) ∧
            target = ⟨index, .speculative, framesAfter k n⟩) ∨
        ∃ l ∈ s.graph.linksFrom k.node, s.OfLink k (framesAfter k n) l target payload ∧
          (s.stackGuard = true → l.target.endsContext = true →
            innermost? target.frames = some l.target.context?)) := by
  obtain ⟨r, hr, hmove⟩ := List.mem_filterMap.1 h
  unfold routes at hr
  split at hr
  · cases hr
  · next n hn =>
    split at hr
    · cases hr
    · next i hi =>
      refine ⟨n, i, hn, hi, ?_⟩
      have hlink : ∀ l ∈ s.graph.linksFrom k.node, r = s.routeOf k (framesAfter k n) l →
          s.OfLink k (framesAfter k n) l target payload ∧
            (s.stackGuard = true → l.target.endsContext = true →
              innermost? target.frames = some l.target.context?) := by
        rintro l hl rfl
        refine ⟨ofLink_of_through (through_of_move? hmove), fun hguard hend => ?_⟩
        by_contra hne
        have hthrough := through_of_move? hmove
        rw [routeOf, hthrough] at hmove
        dsimp only at hmove
        rw [if_pos ⟨hguard, hend, hne⟩] at hmove
        cases hmove
      unfold routesFrom at hr
      dsimp only at hr
      split at hr
      · next hmust =>
        split at hr
        · next index e hend =>
          cases List.mem_singleton.1 hr
          cases hmove
          have hmode : k.mode = .speculative := by
            rw [mustEnd, Bool.and_eq_true, beq_iff_eq] at hmust
            exact hmust.1
          exact .inl ⟨hmode, rfl, hmust, index, e, hend, rfl⟩
        · obtain ⟨l, hl, heq⟩ := List.mem_map.1 hr
          have hl := (List.mem_filter.1 hl).1
          exact .inr ⟨l, hl, hlink l hl heq.symm⟩
      · obtain ⟨l, hl, heq⟩ := List.mem_map.1 hr
        exact .inr ⟨l, hl, hlink l hl heq.symm⟩

/-- All moves from a point: if its speculation must end, that to the end of its context, or else its
    rollbacks; otherwise those along its links. -/
theorem moves_of_node {n : Node} {i : Option MuAsm.Instr} (hn : s.graph.node? k.node = some n)
    (hi : n.executes = .ok i) :
    s.moves k =
      if mustEnd k n i (s.graph.linksFrom k.node) then
        match s.contextEnd? k.node (framesAfter k n) with
        | some e => [(⟨e.1, .speculative, framesAfter k n⟩, .full)]
        | none => ((s.graph.linksFrom k.node).filter (·.link.kind == .rollback)).filterMap fun l =>
            (s.routeOf k (framesAfter k n) l).move?
      else (s.graph.linksFrom k.node).filterMap fun l =>
        (s.routeOf k (framesAfter k n) l).move? := by
  rw [moves, routes, hn]
  dsimp only
  rw [hi]
  dsimp only [routesFrom]
  split
  · cases s.contextEnd? k.node (framesAfter k n) with
    | none =>
      dsimp only
      rw [List.filterMap_map]
      rfl
    | some e => rfl
  · rw [List.filterMap_map]
    rfl

/-- A move is to the end of the context of a speculation that must end, or along a link; where a
    speculation must end, only along a rollback. -/
theorem moves_cases_of_node {n : Node} {i : Option MuAsm.Instr}
    (hn : s.graph.node? k.node = some n) (hi : n.executes = .ok i)
    (h : (target, payload) ∈ s.moves k) :
    (mustEnd k n i (s.graph.linksFrom k.node) = true ∧ payload = .full ∧
        ∃ index e, s.contextEnd? k.node (framesAfter k n) = some (index, e) ∧
          target = ⟨index, .speculative, framesAfter k n⟩) ∨
      ∃ l ∈ s.graph.linksFrom k.node, s.OfLink k (framesAfter k n) l target payload ∧
        (l.link.kind = .rollback ∨ mustEnd k n i (s.graph.linksFrom k.node) = false) := by
  rw [moves_of_node hn hi] at h
  split at h
  · next hmust =>
    split at h
    · next e hend =>
      cases List.mem_singleton.1 h
      exact .inl ⟨hmust, rfl, e.1, e.2, hend, rfl⟩
    · obtain ⟨l, hl, hmove⟩ := List.mem_filterMap.1 h
      obtain ⟨hl, hkind⟩ := List.mem_filter.1 hl
      exact .inr ⟨l, hl, ofLink_of_through (through_of_move? hmove), .inl (by simpa using hkind)⟩
  · next hmust =>
    obtain ⟨l, hl, hmove⟩ := List.mem_filterMap.1 h
    exact .inr ⟨l, hl, ofLink_of_through (through_of_move? hmove), .inr (by simpa using hmust)⟩

/-- A speculation goes on where it has instructions and a link left, unless it is at a barrier. -/
theorem mustEnd_eq_false {n : Node} {i : Option MuAsm.Instr} {links : List SpecGraph.Located}
    (hl : l ∈ links) (hleft : exhausted (framesAfter k n) = false)
    (hbarr : i.any (·.isBarrier) = false) : mustEnd k n i links = false := by
  have hsome : links.isEmpty = false := by
    rw [List.isEmpty_eq_false_iff]
    exact List.ne_nil_of_mem hl
  rw [mustEnd, hsome, hleft, hbarr]
  simp

/-- Where a speculation ends is the marker for the end of the innermost context. -/
theorem node_of_contextEnd? {i index : Nat} {e : Node}
    (h : s.contextEnd? i frames = some (index, e)) :
    ∃ context remaining rest, frames = ⟨some context, remaining⟩ :: rest ∧
      s.graph.node? index = some e ∧ e.marker = some ⟨context, .finish⟩ := by
  unfold contextEnd? at h
  split at h
  · next context remaining rest =>
    obtain ⟨hend, -⟩ := Option.filter_eq_some_iff.1 h
    have hmem := List.mem_of_find?_eq_some hend
    rw [s.ends_eq, SpecGraph.contextEnds, List.mem_filter] at hmem
    obtain ⟨hmem, hfinish⟩ := hmem
    refine ⟨context, remaining, rest, rfl, SpecGraph.node?_of_mem_indexedNodes hmem, ?_⟩
    have hcontext := List.find?_some hend
    simp only [Node.endsContext] at hfinish
    split at hfinish
    · next marker hmarker =>
      obtain ⟨context', phase⟩ := marker
      simp only [hmarker, Option.map_some, beq_iff_eq, Option.some.injEq] at hcontext hfinish
      rw [hmarker, hcontext, hfinish]
    · cases hfinish
  · cases h

/-! ## Committed points -/

theorem framesAfter_of_committed (h : k.mode = .committed) (n : Node) :
    framesAfter k n = k.frames := by
  rw [framesAfter, if_neg]
  rw [h]
  rintro ⟨hmode, -⟩
  cases hmode

/-- A committed point receives whole states from committed points only. -/
theorem mode_of_full_move (h : (target, .full) ∈ s.moves k) (hmode : target.mode = .committed) :
    k.mode = .committed := by
  obtain ⟨n, i, -, -, ⟨-, -, -, index, e, -, rfl⟩ | ⟨l, -, hlink, -⟩⟩ := moves_cases h
  · cases hmode
  · cases hlink with
    | committed => exact hmode
    | speculative => cases hmode

/-- Inside of a speculation a link stays in the contexts that are open, or it opens that of its
    target, with what is left of the window. -/
theorem enter?_cases {f : Frame} {rest inner : List Frame} {n : Node}
    (h : s.enter? .speculative (f :: rest) n = some inner) :
    (inner = f :: rest ∧
        ∀ context, n.context? = some context → ∃ f' ∈ f :: rest, f'.context = some context) ∨
      ∃ context, n.context? = some context ∧
        inner = ⟨some context, f.remaining⟩ :: f :: rest := by
  unfold enter? at h
  dsimp only at h
  split at h
  · next hnone =>
    cases h
    refine .inl ⟨rfl, fun context hcontext => ?_⟩
    cases hnone.symm.trans hcontext
  · next context hcontext =>
    split at h
    · next htop =>
      cases h
      refine .inl ⟨rfl, fun context' hcontext' => ⟨f, List.mem_cons_self, ?_⟩⟩
      rw [htop, ← hcontext, hcontext']
    · split at h
      · next hany =>
        split at h
        · cases h
        · cases h
          obtain ⟨f', hf', heq⟩ := List.any_eq_true.1 hany
          refine .inl ⟨rfl, fun context' hcontext' => ⟨f', List.mem_cons_of_mem _ hf', ?_⟩⟩
          rw [beq_iff_eq.1 heq, ← hcontext, hcontext']
      · cases h
        exact .inr ⟨context, hcontext, rfl⟩

/-- A context that is opened inside of another one gets what is left of its window. -/
theorem exists_remaining_of_enter? {f : Frame} {rest inner : List Frame} {n : Node}
    (h : s.enter? .speculative (f :: rest) n = some inner) :
    ∃ f' rest', inner = f' :: rest' ∧ f'.remaining = f.remaining := by
  rcases enter?_cases h with ⟨rfl, -⟩ | ⟨context, -, rfl⟩
  · exact ⟨f, rest, rfl, rfl⟩
  · exact ⟨_, _, rfl, rfl⟩

end Setup

end Mispredict
