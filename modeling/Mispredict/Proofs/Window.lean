/-
  Wider windows.

  Two analyses of a graph without rollbacks that differ only in the window go through the
  same visits as long as the narrower one lasts. A point of the narrower analysis stands for the
  point of the wider one that has the same contexts open with `d` more instructions left in each
  (`Key.widen`). The points that are left over on either side, those of the wider analysis
  at which `d` instructions or fewer remain and those of the narrower one at which none
  does, lead only to points of their kind (`not_outlasts_of_move`), and what follows the others
  is the same on both sides (`moves_widen`). So the two analyses are in step (`Wider.twins`).

  The narrower analysis executes nothing once the window is used up. Its violations are
  therefore found by the wider one as well (`verdict_eq_violation_of_wider`).
-/
import Mispredict.Proofs.Flow
import Mispredict.Proofs.Lockstep
import Mispredict.Proofs.VisitOrder

namespace Mispredict

/-- The context with `d` more instructions to execute. -/
def Frame.widen (d : Nat) (f : Frame) : Frame := { f with remaining := f.remaining + d }

/-- The point with `d` more instructions to execute in every open context. -/
def Key.widen (d : Nat) (k : Key) : Key := { k with frames := k.frames.map (Frame.widen d) }

/-- Whether more than `d` instructions of speculation may still be executed. Committed execution is
    not limited. -/
def Key.outlasts (d : Nat) (k : Key) : Bool :=
  k.mode == .committed || k.frames.head?.all (d < ·.remaining)

namespace Key

variable {d : Nat} {k k' : Key}

theorem widen_inj : k.widen d = k'.widen d ↔ k = k' := by
  refine ⟨fun h => ?_, congrArg _⟩
  have hframe : Function.Injective (Frame.widen d) := by
    rintro ⟨c, r⟩ ⟨c', r'⟩ h
    obtain ⟨rfl, hr⟩ : c = c' ∧ r + d = r' + d := Frame.mk.inj h
    rw [Nat.add_right_cancel hr]
  obtain ⟨n, m, fs⟩ := k
  obtain ⟨n', m', fs'⟩ := k'
  obtain ⟨rfl, rfl, hfs⟩ : n = n' ∧ m = m' ∧ fs.map (Frame.widen d) = fs'.map (Frame.widen d) :=
    Key.mk.inj h
  rw [List.map_injective_iff.2 hframe hfs]

theorem outlasts_widen (d : Nat) (k : Key) : (k.widen d).outlasts d = k.outlasts 0 := by
  obtain ⟨n, m, fs⟩ := k
  cases fs <;> simp [outlasts, widen, Frame.widen]

/-- Where speculation does not outlast `d` instructions, the innermost context has no more left. -/
theorem not_outlasts_iff : k.outlasts d = false ↔
    k.mode = .speculative ∧ ∃ f rest, k.frames = f :: rest ∧ f.remaining ≤ d := by
  obtain ⟨n, m, fs⟩ := k
  cases m <;> cases fs <;> simp [outlasts]

end Key

namespace Setup

variable {s t : Setup} {k target : Key} {payload : Payload} {n : Node} {d : Nat}

/-! ## Without rollbacks -/

/-- What follows a point in a graph without rollbacks: the end of its context, if the speculation
    must end, and otherwise what its links lead to. -/
theorem moves_of_noRollback (hg : s.graph.NoRollback) (hn : s.graph.node? k.node = some n)
    {i : Option MuAsm.Instr} (hi : n.executes = .ok i) :
    s.moves k =
      if mustEnd k n i (s.graph.linksFrom k.node) then
        ((s.contextEnd? k.node (framesAfter k n)).map fun e =>
          (⟨e.1, .speculative, framesAfter k n⟩, .full)).toList
      else (s.graph.linksFrom k.node).filterMap fun l =>
        (s.routeOf k (framesAfter k n) l).move? := by
  have hnone : (s.graph.linksFrom k.node).filter (·.link.kind == .rollback) = [] := by
    refine List.filter_eq_nil_iff.2 fun l hl => ?_
    simpa using hg.linksFrom hl
  rw [moves_of_node hn hi, hnone]
  cases s.contextEnd? k.node (framesAfter k n) <;> rfl

/-- From a point where `d` instructions or fewer remain after its node, no move leads to a point
    where more remain. -/
theorem not_outlasts_of_framesAfter (hg : s.graph.NoRollback) (hmode : k.mode = .speculative)
    (hn : s.graph.node? k.node = some n) {f : Frame} {rest : List Frame}
    (hframes : framesAfter k n = f :: rest) (hf : f.remaining ≤ d)
    (hmove : (target, payload) ∈ s.moves k) : target.outlasts d = false := by
  rw [Key.not_outlasts_iff]
  refine ⟨Machine.mode_of_move_of_speculative hg hmode hmove, ?_⟩
  obtain ⟨n', i, hn', -, ⟨-, -, -, index, e, -, rfl⟩ | ⟨l, hl, hlink, -⟩⟩ := moves_cases hmove
  · cases hn.symm.trans hn'
    exact ⟨f, rest, hframes, hf⟩
  · cases hn.symm.trans hn'
    cases hlink with
    | committed => exact ⟨f, rest, hframes, hf⟩
    | rollback kind => exact absurd kind (hg.linksFrom hl)
    | @speculative inner kind enters =>
      rw [hframes, hmode] at enters
      dsimp only [enter?] at enters
      split at enters
      · cases enters
        exact ⟨f, rest, rfl, hf⟩
      · split at enters
        · cases enters
          exact ⟨f, rest, rfl, hf⟩
        · split at enters
          · split at enters
            · cases enters
            · cases enters
              exact ⟨f, rest, rfl, hf⟩
          · cases enters
            exact ⟨_, _, rfl, hf⟩

theorem filter_outlasts_of_framesAfter (hg : s.graph.NoRollback) (hmode : k.mode = .speculative)
    (hn : s.graph.node? k.node = some n) {f : Frame} {rest : List Frame}
    (hframes : framesAfter k n = f :: rest) (hf : f.remaining ≤ d) :
    (s.moves k).filter (·.1.outlasts d) = [] := by
  refine List.filter_eq_nil_iff.2 fun move hmove => ?_
  rw [not_outlasts_of_framesAfter hg hmode hn hframes hf hmove]
  exact Bool.false_ne_true

theorem not_outlasts_of_move (hg : s.graph.NoRollback) (hk : k.outlasts d = false)
    (hmove : (target, payload) ∈ s.moves k) : target.outlasts d = false := by
  obtain ⟨hmode, f, rest, hframes, hf⟩ := Key.not_outlasts_iff.1 hk
  obtain ⟨n, i, hn, -⟩ := moves_cases hmove
  -- the node itself can only use up more of the window
  obtain ⟨f', hframes', hf'⟩ : ∃ f', framesAfter k n = f' :: rest ∧ f'.remaining ≤ d := by
    rw [framesAfter, hframes]
    split
    · exact ⟨_, rfl, (Nat.sub_le ..).trans hf⟩
    · exact ⟨f, rfl, hf⟩
  exact not_outlasts_of_framesAfter hg hmode hn hframes' hf' hmove

/-! ## The same point in a wider window -/

/-- The analysis `t` is the analysis `s` with a window that is wider by `d` instructions. -/
structure Wider (d : Nat) (s t : Setup) : Prop where
  graph : t.graph = s.graph
  initial : t.initial = s.initial
  entry : t.options.entryNode = s.options.entryNode
  order : t.options.traceMode = s.options.traceMode
  guard : t.stackGuard = s.stackGuard
  window : t.window = s.window + d

theorem framesAfter_widen (hk : k.outlasts 0 = true) (n : Node) :
    framesAfter (k.widen d) n = (framesAfter k n).map (Frame.widen d) := by
  obtain ⟨i, m, fs⟩ := k
  rw [framesAfter, framesAfter, apply_ite (List.map _)]
  refine ite_congr rfl (fun h => ?_) fun _ => rfl
  cases fs with
  | nil => rfl
  | cons f fs =>
    have hmode : m = .speculative := h.1
    have hpos : 0 < f.remaining := by simpa [Key.outlasts, hmode] using hk
    simp only [Key.widen, List.map_cons, spend, Frame.widen]
    rw [Nat.sub_add_comm hpos]

theorem innermost?_widen (frames : List Frame) :
    innermost? (frames.map (Frame.widen d)) = innermost? frames := by
  cases frames <;> rfl

namespace Wider

variable (h : Wider d s t)

include h

theorem contextEnd?_widen (i : Nat) (frames : List Frame) :
    t.contextEnd? i (frames.map (Frame.widen d)) = s.contextEnd? i frames := by
  have hends : t.ends = s.ends := by rw [t.ends_eq, s.ends_eq, h.graph]
  cases frames with
  | nil => rfl
  | cons f rest =>
    obtain ⟨context, remaining⟩ := f
    cases context with
    | none => rfl
    | some context => simp only [contextEnd?, List.map_cons, Frame.widen, hends]

theorem enter?_widen (mode : Mode) (frames : List Frame) (target : Node) :
    t.enter? mode (frames.map (Frame.widen d)) target =
      (s.enter? mode frames target).map (List.map (Frame.widen d)) := by
  cases mode with
  | committed => simp only [enter?, h.window, Option.map_some, List.map_cons, List.map_nil,
      Frame.widen]
  | speculative =>
    cases hcontext : target.context? with
    | none => simp only [enter?, hcontext, Option.map_some]
    | some context =>
      cases frames with
      | nil => simp only [enter?, hcontext, List.map_nil, h.window, Option.map_some, List.map_cons,
          Frame.widen]
      | cons f rest =>
        have hopen : (rest.map (Frame.widen d)).any (·.context == some context) =
            rest.any (·.context == some context) := by
          rw [List.any_map]
          rfl
        simp only [enter?, hcontext, List.map_cons, hopen, h.guard]
        by_cases htop : f.context = some context
        · simp [Frame.widen, htop]
        · by_cases hin : rest.any (·.context == some context)
          · cases s.stackGuard <;> simp [Frame.widen, htop, hin]
          · simp [Frame.widen, htop, hin]

theorem through_widen (k : Key) (frames : List Frame) (l : SpecGraph.Located) :
    t.through (k.widen d) (frames.map (Frame.widen d)) l =
      (s.through k frames l).map (Prod.map (Key.widen d) id) := by
  unfold through
  cases l.link.kind with
  | committed => rfl
  | speculative =>
    dsimp only
    rw [show (k.widen d).mode = k.mode from rfl, h.enter?_widen]
    cases s.enter? k.mode frames l.target <;> rfl
  | rollback =>
    dsimp only
    rw [innermost?_widen, h.guard]
    split <;> rfl

theorem move?_routeOf_widen (k : Key) (frames : List Frame) (l : SpecGraph.Located) :
    (t.routeOf (k.widen d) (frames.map (Frame.widen d)) l).move? =
      (s.routeOf k frames l).move?.map (Prod.map (Key.widen d) id) := by
  unfold routeOf
  rw [h.through_widen]
  cases s.through k frames l with
  | error cause => rfl
  | ok move =>
    obtain ⟨target, payload⟩ := move
    dsimp only [Except.map, Prod.map]
    rw [show (target.widen d).frames = target.frames.map (Frame.widen d) from rfl,
      innermost?_widen, h.guard]
    split <;> rfl

theorem entryKey_widen : t.entryKey = s.entryKey.map (Option.map (Key.widen d)) := by
  have hkey : ∀ found : Option (Nat × Node), found.map (fun x =>
        if x.2.isSpeculative then ⟨x.1, .speculative, [⟨x.2.context?, t.window⟩]⟩
        else ⟨x.1, .committed, []⟩) = (found.map (fun x =>
        if x.2.isSpeculative then ⟨x.1, .speculative, [⟨x.2.context?, s.window⟩]⟩
        else ⟨x.1, .committed, []⟩)).map (Key.widen d) := by
    intro found
    rw [Option.map_map, h.window]
    refine Option.map_congr fun x _ => ?_
    rw [Function.comp_apply]
    split <;> rfl
  unfold entryKey
  rw [h.entry, h.graph]
  dsimp only
  cases s.options.entryNode with
  | none => exact congrArg Except.ok (hkey _)
  | some id =>
    dsimp only
    cases s.graph.find? id with
    | none => rfl
    | some found => exact congrArg Except.ok (hkey (some found))

theorem after_widen (k : Key) (st : State) : t.after (k.widen d) st = s.after k st := by
  rw [Setup.after, Setup.after, h.graph]
  rfl

/-- A node that does not use up the narrower window ends speculation in both or in neither. -/
theorem mustEnd_widen (hk : k.outlasts 0 = true)
    (hused : ¬ (k.mode = .speculative ∧ exhausted (framesAfter k n) = true))
    (i : Option MuAsm.Instr) :
    mustEnd (k.widen d) n i (t.graph.linksFrom (k.widen d).node) =
      mustEnd k n i (s.graph.linksFrom k.node) := by
  have hmode : (k.widen d).mode = k.mode := rfl
  have hnode : (k.widen d).node = k.node := rfl
  cases hm : k.mode with
  | committed =>
    rw [mustEnd, mustEnd, hmode, hm]
    rfl
  | speculative =>
    have hleft : exhausted (framesAfter k n) = false := by
      simpa [hm] using hused
    have hleft' : exhausted (framesAfter (k.widen d) n) = false := by
      rw [framesAfter_widen hk]
      cases hafter : framesAfter k n with
      | nil => rfl
      | cons f rest =>
        rw [hafter, exhausted, beq_eq_false_iff_ne] at hleft
        simp [exhausted, Frame.widen, hleft]
    rw [mustEnd, mustEnd, hmode, hnode, hleft, hleft', h.graph]

/-- Of the points that follow a point, those that outlast the narrower window are the same. -/
theorem moves_widen (hg : s.graph.NoRollback) (hk : k.outlasts 0 = true) :
    (t.moves (k.widen d)).filter (·.1.outlasts d) =
      ((s.moves k).filter (·.1.outlasts 0)).map (Prod.map (Key.widen d) id) := by
  have hg' : t.graph.NoRollback := h.graph ▸ hg
  cases hn : s.graph.node? k.node with
  | none =>
    have hn' : t.graph.node? (k.widen d).node = none := by rw [h.graph]; exact hn
    rw [moves, moves, routes, routes, hn, hn']
    rfl
  | some n =>
    have hn' : t.graph.node? (k.widen d).node = some n := by rw [h.graph]; exact hn
    cases hi : n.executes with
    | error e =>
      rw [moves_of_error hn hi, moves_of_error hn' hi]
      rfl
    | ok i =>
      have hframes := framesAfter_widen (d := d) hk n
      by_cases hused : k.mode = .speculative ∧ exhausted (framesAfter k n) = true
      · -- the node uses up the narrower window: what follows on either side is left over
        obtain ⟨hmode, hused⟩ := hused
        cases hafter : framesAfter k n with
        | nil =>
          rw [hafter] at hused
          cases hused
        | cons f rest =>
          rw [hafter, exhausted, beq_iff_eq] at hused
          rw [hafter, List.map_cons] at hframes
          have hwide : (Frame.widen d f).remaining ≤ d := by simp [Frame.widen, hused]
          rw [filter_outlasts_of_framesAfter (k := k.widen d) hg' hmode hn' hframes hwide,
            filter_outlasts_of_framesAfter hg hmode hn hafter hused.le]
          rfl
      · rw [moves_of_noRollback hg hn hi, moves_of_noRollback hg' hn' hi,
          h.mustEnd_widen hk hused, hframes]
        split
        · rw [show (k.widen d).node = k.node from rfl, h.contextEnd?_widen]
          cases s.contextEnd? k.node (framesAfter k n) with
          | none => rfl
          | some e =>
            have hsame : Key.outlasts d
                ⟨e.1, .speculative, (framesAfter k n).map (Frame.widen d)⟩ =
                Key.outlasts 0 ⟨e.1, .speculative, framesAfter k n⟩ :=
              Key.outlasts_widen d ⟨e.1, .speculative, framesAfter k n⟩
            simp only [Option.map_some, Option.toList_some, List.filter_cons, List.filter_nil]
            rw [hsame]
            split <;> rfl
        · rw [show (k.widen d).node = k.node from rfl, h.graph, List.filter_filterMap,
            List.filter_filterMap, List.map_filterMap]
          refine List.filterMap_congr fun l _ => ?_
          rw [h.move?_routeOf_widen]
          cases (s.routeOf k (framesAfter k n) l).move? with
          | none => rfl
          | some move =>
            obtain ⟨target, payload⟩ := move
            simp only [Option.map_some, Option.filter_some, Prod.map, id_eq,
              Key.outlasts_widen]
            split <;> rfl

/-- The points that outlast the narrower window are the same, with `d` more instructions left. -/
theorem twins (hg : s.graph.NoRollback) {entry : Key} (hentry : entry.outlasts 0 = true) :
    s.Twins t entry (Key.outlasts 0) (Key.outlasts d) (Key.widen d) where
  initial := h.initial
  order := h.order
  starts := hentry
  maps k hk := by rw [Key.outlasts_widen, hk]
  inj _ _ _ _ := Key.widen_inj.1
  moves _ := h.moves_widen hg
  after k _ _ st := h.after_widen k st
  closed _ _ _ _ _ hk hmove := not_outlasts_of_move hg hk hmove
  closed' _ _ _ _ _ hk hmove := not_outlasts_of_move (h.graph ▸ hg) hk hmove

end Wider

end Setup

/-! ## Where the window is used up -/

namespace SpecGraph

/-- Nothing is executed where a context ends, and only rollbacks lead on from there. -/
theorem Stages.ends_quietly {p : MuAsm.Program} {mode : SpeculationMode} {layout : Layout}
    {forks : List Draft.Fork} {c g : SpecGraph}
    (h : Stages p (Draft.SpecNode p layout) (Draft.SpecEdge p mode forks layout) c g) {i : Nat}
    {n : Node} (hn : g.node? i = some n) (hend : n.endsContext = true) :
    n.executes = .ok none ∧ ∀ l ∈ g.linksFrom i, l.link.kind = .rollback := by
  have hnot : c.node? i ≠ some n := by
    intro hn
    rw [Node.endsContext, h.core.unmarked hn] at hend
    cases hend
  have hnode := (h.node_cases hn).resolve_left hnot
  cases layout with
  | unrolled =>
    obtain ⟨pc, e, w, -, rfl⟩ := hnode
    cases hend
  | light =>
    cases hnode with
    | begins => cases hend
    | @ends context pc branch =>
      refine ⟨rfl, fun l hl => ?_⟩
      have hsource : l.source = Draft.endNode pc context := by
        have hsource := (mem_linksFrom_iff.1 hl).2.2.1
        rw [(mem_linksFrom_iff.1 hl).1, hn] at hsource
        exact (Option.some.inj hsource).symm
      by_contra hkind
      by_cases hcommitted : l.link.kind = .committed
      · have hmem := mem_linksFrom_iff.1 (h.core.mem_linksFrom hl hcommitted)
        rw [hmem.1, hsource] at hmem
        exact hnot hmem.2.2.1
      · have hedge := h.mem_of_link hl hcommitted
        generalize he : l.edge = e at hedge
        have hid : e.source = endId context := by
          rw [← he, Located.edge, hsource]
          rfl
        have hlink : e.link = l.link := by rw [← he]; rfl
        cases hedge with
        | mispredict => exact committedId_ne (by simp [endId]) hid
        | direction => exact beginId_ne_endId _ _ hid
        | squash => exact beginId_ne_endId _ _ hid
        | rollback => exact hkind (hlink ▸ rfl)

end SpecGraph

namespace Setup

variable {s : Setup} {entry k target : Key} {payload : Payload} {n : Node} {st out : State}

theorem outlasts_of_not_exhausted (h : k.mode = .speculative → exhausted k.frames = false) :
    k.outlasts 0 = true := by
  obtain ⟨i, mode, frames⟩ := k
  cases mode with
  | committed => rfl
  | speculative =>
    cases frames with
    | nil => rfl
    | cons f rest => simpa [Key.outlasts, exhausted, Nat.pos_iff_ne_zero] using h rfl

theorem not_exhausted_of_outlasts (hmode : k.mode = .speculative) (h : k.outlasts 0 = true) :
    exhausted k.frames = false := by
  obtain ⟨i, mode, frames⟩ := k
  cases hmode
  cases frames with
  | nil => rfl
  | cons f rest => simpa [Key.outlasts, exhausted, Nat.pos_iff_ne_zero] using h

theorem window_pos {found : Option Key} (h : s.checkedEntry = .ok found) : 0 < s.window := by
  obtain ⟨_, -, h⟩ := bind_eq_ok_iff.1 h
  split at h
  · cases h
  · next hpos =>
    rw [window]
    omega

/-- An analysis starts with the whole window. -/
theorem outlasts_entry (h : s.checkedEntry = .ok (some entry)) : entry.outlasts 0 = true := by
  have hpos := window_pos h
  obtain ⟨i, n, -, ⟨-, rfl⟩ | ⟨-, rfl⟩⟩ := entryKey_cases (entryKey_of_checkedEntry h)
  · simpa [Key.outlasts] using hpos
  · rfl

/-- A link out of a point where speculation goes on leads to a point with instructions left. -/
theorem outlasts_of_link (hpos : 0 < s.window)
    (hleft : k.mode = .speculative → exhausted (framesAfter k n) = false)
    {l : SpecGraph.Located} (hlink : s.OfLink k (framesAfter k n) l target payload) :
    target.outlasts 0 = true := by
  cases hlink with
  | committed => exact outlasts_of_not_exhausted hleft
  | rollback => rfl
  | @speculative inner kind enters =>
    refine outlasts_of_not_exhausted fun _ => ?_
    have hwindow : ∀ context, exhausted [⟨context, s.window⟩] = false := fun _ => by
      simpa [exhausted, Nat.pos_iff_ne_zero] using hpos
    cases hmode : k.mode with
    | committed =>
      rw [hmode] at enters
      cases enters
      exact hwindow _
    | speculative =>
      have hleft := hleft hmode
      rw [hmode] at enters
      dsimp only [enter?] at enters
      split at enters
      · cases enters
        exact hleft
      · split at enters
        · cases enters
          exact hwindow _
        · next top rest heq =>
          split at enters
          · cases enters
            exact hleft
          · split at enters
            · split at enters
              · cases enters
              · cases enters
                exact hleft
            · cases enters
              rw [heq] at hleft
              exact hleft

/-- In a graph that is built to discard mispredicted paths, a window that is used up leaves nothing
    to visit but the end of a context. -/
theorem Stores.endsContext {p : MuAsm.Program} {mode : SpeculationMode} {layout : Layout}
    {forks : List SpecGraph.Draft.Fork} {c : SpecGraph}
    (h : SpecGraph.Stages p (SpecGraph.Draft.SpecNode p layout)
      (SpecGraph.Draft.SpecEdge p mode forks layout) c s.graph)
    (hg : s.graph.NoRollback) (hentry : s.checkedEntry = .ok (some entry))
    (hst : s.Stores entry k st) (hk : k.outlasts 0 = false) :
    ∃ n, s.graph.node? k.node = some n ∧ n.endsContext = true := by
  induction hst with
  | start =>
    rw [outlasts_entry hentry] at hk
    cases hk
  | @pass k target st out payload old visited after violation move held ih ihheld =>
    obtain ⟨n, i, hn, hi, -⟩ := moves_cases move
    have hmove := move
    rw [moves_of_noRollback hg hn hi] at hmove
    split at hmove
    · obtain ⟨⟨index, e⟩, he, heq⟩ := Option.map_eq_some_iff.1 (Option.mem_toList.1 hmove)
      cases heq
      obtain ⟨context, remaining, rest, -, he, hmarker⟩ := node_of_contextEnd? he
      refine ⟨e, he, ?_⟩
      rw [Node.endsContext, hmarker]
      rfl
    · next hgoes =>
      exfalso
      obtain ⟨l, hl, hroute⟩ := List.mem_filterMap.1 hmove
      cases hout : k.outlasts 0 with
      | false =>
        obtain ⟨n', hn', hends⟩ := ih hout
        exact hg.linksFrom hl ((h.ends_quietly hn' hends).2 l hl)
      | true =>
        have hlink := ofLink_of_through (through_of_move? hroute)
        rw [outlasts_of_link (window_pos hentry) (fun hmode => ?_) hlink] at hk
        · cases hk
        · cases hmarker : n.isMarker with
          | true =>
            rw [framesAfter, if_neg (by simp [hmarker])]
            exact not_exhausted_of_outlasts hmode hout
          | false =>
            rw [Bool.eq_false_iff]
            intro hused
            exact hgoes (by simp [mustEnd, hmode, hmarker, hused])

/-- No violation is found where the window is used up. -/
theorem Stores.quiet_of_not_outlasts {p : MuAsm.Program} {mode : SpeculationMode} {layout : Layout}
    {forks : List SpecGraph.Draft.Fork} {c : SpecGraph}
    (h : SpecGraph.Stages p (SpecGraph.Draft.SpecNode p layout)
      (SpecGraph.Draft.SpecEdge p mode forks layout) c s.graph)
    (hg : s.graph.NoRollback) (hi : s.initial.Harmless)
    (hentry : s.checkedEntry = .ok (some entry)) (hst : s.Stores entry k st)
    (hk : k.outlasts 0 = false) (hafter : s.after k st = .ok out) : out.hasViolation = false := by
  obtain ⟨n, hn, hend⟩ := hst.endsContext h hg hentry hk
  have hexecuted : s.executed? k = none := by
    rw [executed?, hn]
    dsimp only
    rw [(h.ends_quietly hn hend).1]
  rcases after_cases hafter with ⟨-, rfl⟩ | ⟨pc, i, hsome, -⟩
  · exact (hst.harmless hi).hasViolation
  · rw [hexecuted] at hsome
    cases hsome

end Setup

theorem Setup.Wider.violation {d : Nat} {s t : Setup} (h : Wider d s t) {p : MuAsm.Program}
    {mode : SpeculationMode} {layout : Layout} {forks : List SpecGraph.Draft.Fork} {c : SpecGraph}
    (hstages : SpecGraph.Stages p (SpecGraph.Draft.SpecNode p layout)
      (SpecGraph.Draft.SpecEdge p mode forks layout) c s.graph)
    (hg : s.graph.NoRollback) (hi : s.initial.Harmless) {v : Verdict}
    (hv : s.run.outcome = .ok .violation) (hok : t.run.outcome = .ok v) : v = .violation := by
  rcases s.run_cases with ⟨-, hnot⟩ | ⟨entry, hentry⟩
  · exact absurd hv hnot
  · have hkey : t.entryKey = .ok (some (entry.widen d)) := by
      rw [h.entryKey_widen, entryKey_of_checkedEntry hentry]
      rfl
    rw [run_of_entry hentry] at hv
    rw [run_of_entry (checkedEntry_of_outcome hkey hok)] at hok
    cases v with
    | violation => rfl
    | secure =>
      obtain ⟨k, st, out, hcomes, hafter, hviolation⟩ := Machine.exists_comesUp_of_violation hv
      cases hk : k.outlasts 0 with
      | false =>
        rw [(hcomes.stores .start).quiet_of_not_outlasts hstages hg hi hentry hk hafter]
          at hviolation
        cases hviolation
      | true =>
        have hcomes' := (h.twins hg (outlasts_entry hentry)).comesUp hok hk hcomes
        obtain ⟨out', hafter', hquiet⟩ := hcomes'.quiet hok
        rw [h.after_widen, hafter] at hafter'
        cases hafter'
        cases hviolation.symm.trans hquiet

/-- Of a source that is built to discard mispredicted paths, an analysis finds a violation if it
    finds one with a narrower window. -/
theorem verdict_eq_violation_of_wider (source : String) (b : BuildOptions) (o : Options)
    {w w' : Int} (hb : b.speculation = .discard) (hle : w ≤ w')
    (hv : (analyzeSource source b { o with specWindow := w }).result.verdict = .violation)
    (hok : (analyzeSource source b { o with specWindow := w' }).result.error = none) :
    (analyzeSource source b { o with specWindow := w' }).result.verdict = .violation := by
  obtain ⟨g, hg⟩ := exists_graph_of_error_eq_none hok
  rw [analyzeSource_of_build hg] at hv hok ⊢
  have hnone : g.NoRollback := SpecGraph.noRollback_of_buildSource hb hg
  obtain ⟨p, forks, c, -, hstages⟩ := SpecGraph.exists_stages hg
  have hv := SpecGraph.verdict_eq_violation_iff.1 hv
  have hok := SpecGraph.outcome_of_error_eq_none hok
  have hwider : Setup.Wider (w'.toNat - w.toNat) (Setup.of g { o with specWindow := w })
      (Setup.of g { o with specWindow := w' }) :=
    ⟨rfl, rfl, rfl, rfl, rfl, (Nat.add_sub_cancel' (Int.toNat_le_toNat hle)).symm⟩
  exact hwider.violation hstages hnone (State.harmless_seeded _ _) hv hok

/-- The load of the secret is the second instruction after the branch. -/
def peek : String := "beqz c, E\nskip\nload x, secret\nE: skip"

def peekBuild : BuildOptions := { layout := .unrolled, windowSize := 4 }

def peekOptions : Options :=
  { policy := Policy.empty.setCell "secret" .high, traceMode := .singlePath }

theorem verdict_peek_of_wider :
    (analyzeSource peek peekBuild { peekOptions with specWindow := 1 }).result.verdict = .secure ∧
      (analyzeSource peek peekBuild { peekOptions with specWindow := 2 }).result.verdict =
        .violation ∧
      (analyzeSource peek peekBuild { peekOptions with specWindow := 3 }).result.verdict =
        .violation := by
  have hnarrow : (analyzeSource peek peekBuild
      { peekOptions with specWindow := 2 }).result.verdict = .violation := by decide +kernel
  refine ⟨by decide +kernel, hnarrow, ?_⟩
  exact verdict_eq_violation_of_wider peek peekBuild peekOptions rfl (by decide) hnarrow
    (by decide +kernel)

end Mispredict
