/-
  Under the stack guard contexts close from the inside out.

  A point has a state only if it is the entry or if some move leads to it, and there are only
  two ways to the end of a context: a speculation that must end goes to the end of its innermost
  context, and a link to such an end is followed only if the context is the innermost.
  So whatever the graph, a point at the end of a context has that context on top of its stack
  (`innermost?_of_move`). A speculation in turn has at least one open context
  (`Stores.stands`), and it leaves its mode along a rollback out of the innermost one.

  In a light graph with rollbacks the end marker of a branch has one link, back to the branch
  (`IsLight.linksFrom_end`). That link is always followed, since the context of the marker is on
  top (`IsLight.routes_of_end`), and the branch is the only place from which the context is
  ever opened (`IsLight.node_of_opens`).
-/
import Mispredict.Proofs.Light
import Mispredict.Proofs.LightMoves

namespace Mispredict

open MuAsm (Program)
open Machine SpecGraph Draft

/-! ## Stacks of contexts -/

namespace Key

/-- The contexts that are open at a point, the innermost first. -/
def contexts (k : Key) : List (Option Nat) := k.frames.map (·.context)

/-- A move opens the context: it is open at the target and was not before. -/
def Opens (k target : Key) (context : Nat) : Prop :=
  some context ∉ k.contexts ∧ some context ∈ target.contexts

end Key

namespace Setup

variable {s : Setup} {entry k target : Key} {payload : Payload} {n : Node} {st : State}
  {frames inner : List Frame}

/-- A point that has a state after some number of steps of an analysis from `entry`. -/
def Enters (s : Setup) (entry k : Key) : Prop :=
  ∃ steps st, ((start s entry).run s (some s.options.iterationCap)
    (.maxStepsExceeded s.options.maxSteps) steps).machine.table[k]? = some st

theorem Enters.exists_stores (h : s.Enters entry k) : ∃ st, s.Stores entry k st := by
  obtain ⟨steps, st, hst⟩ := h
  exact ⟨st, (accounted_run ..).stored k st hst⟩

/-- A node may cost an instruction, but leaves the contexts as they are. -/
theorem contexts_framesAfter (k : Key) (n : Node) :
    (framesAfter k n).map (·.context) = k.contexts := by
  unfold framesAfter
  split
  · rw [Key.contexts]
    cases k.frames <;> rfl
  · rfl

theorem innermost?_eq_head? (frames : List Frame) :
    innermost? frames = (frames.map (·.context)).head? := by
  cases frames <;> rfl

theorem innermost?_framesAfter (k : Key) (n : Node) :
    innermost? (framesAfter k n) = innermost? k.frames := by
  rw [innermost?_eq_head?, contexts_framesAfter, innermost?_eq_head?, Key.contexts]

theorem exists_frame_of_innermost? {context : Option Nat} (h : innermost? frames = some context) :
    ∃ f rest, frames = f :: rest ∧ f.context = context := by
  cases frames with
  | nil => cases h
  | cons f rest => exact ⟨f, rest, rfl, Option.some.inj h⟩

/-- A speculative link leaves the context of its target open. -/
theorem mem_contexts_of_enter? {mode : Mode} {context : Nat}
    (h : s.enter? mode frames n = some inner) (hn : n.context? = some context) :
    some context ∈ inner.map (·.context) := by
  cases mode with
  | committed =>
    cases h
    exact List.mem_singleton.2 hn.symm
  | speculative =>
    cases frames with
    | nil =>
      simp only [enter?, hn] at h
      cases h
      exact List.mem_singleton.2 rfl
    | cons f rest =>
      rcases enter?_cases h with ⟨rfl, hopen⟩ | ⟨context', hcontext, rfl⟩
      · obtain ⟨f', hf', hcontext⟩ := hopen context hn
        exact List.mem_map.2 ⟨f', hf', hcontext⟩
      · rw [hn] at hcontext
        cases hcontext
        exact List.mem_cons_self

/-! ## Moves -/

/-- A move to the end of a context finds that context on top, whichever way it goes. -/
theorem innermost?_of_move (hguard : s.stackGuard = true) (hmove : (target, payload) ∈ s.moves k)
    (hn : s.graph.node? target.node = some n) (hend : n.endsContext = true) :
    innermost? target.frames = some n.context? := by
  obtain ⟨n', i, -, -, ⟨-, -, -, index, e, hsquash, rfl⟩ | ⟨l, hl, hlink, hchecked⟩⟩ :=
    moves_cases hmove
  · obtain ⟨context, remaining, rest, hframes, he, hmarker⟩ := node_of_contextEnd? hsquash
    cases hn.symm.trans he
    rw [hframes, Node.context?, hmarker]
    rfl
  · have htarget := (mem_linksFrom_iff.1 hl).2.2.2
    have htail : l.tail = target.node := by cases hlink <;> rfl
    rw [htail, hn] at htarget
    cases htarget
    exact hchecked hguard hend

/-- A speculation has an open context, and committed execution has none. -/
def Stands (k : Key) : Prop := k.mode = .speculative ↔ k.frames ≠ []

theorem stands_entry (h : s.entryKey = .ok (some entry)) : Stands entry := by
  obtain ⟨i, n, -, ⟨-, rfl⟩ | ⟨-, rfl⟩⟩ := entryKey_cases h
  · exact ⟨fun _ => List.cons_ne_nil _ _, fun _ => rfl⟩
  · exact ⟨fun h => (by cases h), fun h => absurd rfl h⟩

theorem framesAfter_ne_nil_iff : framesAfter k n ≠ [] ↔ k.frames ≠ [] := by
  have hcontexts := contexts_framesAfter k n
  rw [Key.contexts] at hcontexts
  rw [← not_iff_not, not_not, not_not, ← List.map_eq_nil_iff, hcontexts, List.map_eq_nil_iff]

theorem enter?_ne_nil {mode : Mode} (h : s.enter? mode frames n = some inner)
    (hframes : mode = .speculative → frames ≠ []) : inner ≠ [] := by
  cases mode with
  | committed =>
    cases h
    exact List.cons_ne_nil _ _
  | speculative =>
    obtain ⟨f, rest, rfl⟩ := List.exists_cons_of_ne_nil (hframes rfl)
    obtain ⟨f', rest', rfl, -⟩ := exists_remaining_of_enter? h
    exact List.cons_ne_nil _ _

theorem Stands.move (h : Stands k) (hmove : (target, payload) ∈ s.moves k) : Stands target := by
  obtain ⟨n, i, -, -, ⟨-, -, -, index, e, hsquash, rfl⟩ | ⟨l, -, hlink, -⟩⟩ := moves_cases hmove
  · obtain ⟨context, remaining, rest, hframes, -⟩ := node_of_contextEnd? hsquash
    refine ⟨fun _ => ?_, fun _ => rfl⟩
    rw [hframes]
    exact List.cons_ne_nil _ _
  · cases hlink with
    | committed => exact h.trans framesAfter_ne_nil_iff.symm
    | speculative kind enters =>
      exact ⟨fun _ => enter?_ne_nil enters fun hmode => framesAfter_ne_nil_iff.2 (h.1 hmode),
        fun _ => rfl⟩
    | rollback => exact ⟨fun h => (by cases h), fun h => absurd rfl h⟩

theorem Stores.stands (hentry : s.entryKey = .ok (some entry)) (h : s.Stores entry k st) :
    Stands k := by
  induction h with
  | start => exact stands_entry hentry
  | pass _ _ _ move _ ih _ => exact ih.move move

/-- An analysis that starts in speculation has the context of its entry on top. -/
theorem innermost?_entry (h : s.entryKey = .ok (some entry))
    (hn : s.graph.node? entry.node = some n) (hspec : n.isSpeculative = true) :
    innermost? entry.frames = some n.context? := by
  obtain ⟨i, n', hn', ⟨-, rfl⟩ | ⟨hcommitted, rfl⟩⟩ := entryKey_cases h
  · cases hn.symm.trans hn'
    rfl
  · cases hn.symm.trans hn'
    cases hspec.symm.trans hcommitted

/-- A point other than the entry that is at the end of a context has that context on top. -/
theorem Stores.innermost? (hguard : s.stackGuard = true) (h : s.Stores entry k st) (hk : k ≠ entry)
    (hn : s.graph.node? k.node = some n) (hend : n.endsContext = true) :
    innermost? k.frames = some n.context? := by
  cases h with
  | start => exact absurd rfl hk
  | pass _ _ _ move => exact innermost?_of_move hguard move hn hend

/-- A speculation is left along a rollback, and out of the innermost context only. -/
theorem Stands.rollback (h : Stands k) (hguard : s.stackGuard = true)
    (hmode : k.mode = .speculative) (hmove : (target, payload) ∈ s.moves k)
    (htarget : target.mode = .committed) :
    payload = .observations ∧ target.frames = [] ∧
      ∃ l ∈ s.graph.linksFrom k.node, l.link.kind = .rollback ∧ l.tail = target.node ∧
        Setup.innermost? k.frames = some l.source.context? := by
  obtain ⟨n, i, -, -, ⟨-, -, -, index, e, -, rfl⟩ | ⟨l, hl, hlink, -⟩⟩ := moves_cases hmove
  · cases htarget
  · cases hlink with
    | committed => cases hmode.symm.trans htarget
    | speculative => cases htarget
    | rollback kind inner =>
      refine ⟨rfl, rfl, l, hl, kind, rfl, ?_⟩
      rw [innermost?_framesAfter] at inner
      refine inner hguard ?_
      obtain ⟨f, rest, hframes⟩ := List.exists_cons_of_ne_nil (h.1 hmode)
      rw [hframes]
      exact Option.some_ne_none _

end Setup

/-! ## Light graphs -/

/-- A rollback of the light layout leads to an instruction. -/
theorem SpecGraph.Draft.LightEdge.target_of_rollback {p : Program} {mode : SpeculationMode}
    {e : Edge} (h : LightEdge p mode e) (hkind : e.link.kind = .rollback) :
    ∃ pc, e.target = committedId pc := by
  cases h with
  | rollback => exact ⟨_, rfl⟩
  | mispredict | direction | squash => cases hkind

namespace SpecGraph.IsLight

open Setup

variable {p : Program} {mode : SpeculationMode} {c : SpecGraph} {s : Setup} {entry k target : Key}
  {payload : Payload} {i q context : Nat} {n : Node} {st : State} (h : IsLight p mode c s.graph)

include h

/-- The nodes at which contexts end are the end markers of branches. -/
theorem exists_endNode_of_endsContext (hn : s.graph.node? i = some n)
    (hend : n.endsContext = true) : ∃ context q, BranchOf p context q ∧ n = endNode q context := by
  rcases h.stages.node_cases hn with hc | hspec
  · rw [Node.endsContext, h.stages.core.unmarked hc] at hend
    cases hend
  · cases hspec with
    | begins => cases hend
    | ends branch => exact ⟨_, _, branch, rfl⟩

/-- Under the stack guard an end marker has one link, which leads back to its branch. -/
theorem linksFrom_end (hmode : mode = .stackGuard) (hb : BranchOf p context q)
    (hn : s.graph.node? i = some (endNode q context)) :
    ∃ l, s.graph.linksFrom i = [l] ∧ l.source = endNode q context ∧ l.link.kind = .rollback ∧
      l.target.id = committedId q ∧ l.target.endsContext = false := by
  have honly : ∀ l ∈ s.graph.linksFrom i, l.link.kind = .rollback ∧ l.target.id = committedId q ∧
      l.tail = q := by
    intro l hl
    have hcommitted : l.link.kind ≠ .committed := by
      intro hcommitted
      obtain ⟨e, heq⟩ := h.exists_entry_of_link hl hcommitted hn
      cases heq
    obtain ⟨hkind, q', hb', hid⟩ := LightEdge.of_end (h.edge_of_link hl hn hcommitted).1
    cases hb.unique hb'
    exact ⟨hkind, hid, h.stages.eq_of_committedId h.flow (h.lt_length hb)
      (mem_linksFrom_iff.1 hl).2.2.2 hid⟩
  obtain ⟨l, hl, -⟩ := exists_link_of_linked h.stages.core.indexed
    ((h.marked context q hb).rollback hmode) (h.stages.core.indexed.index?_id hn)
  -- links are in the order of the nodes they enter, and both would enter the branch
  have hsingle : s.graph.linksFrom i = [l] := by
    have hsorted := s.graph.pairwise_linksFrom i
    cases hlinks : s.graph.linksFrom i with
    | nil =>
      rw [hlinks] at hl
      cases hl
    | cons a rest =>
      rw [hlinks] at hl hsorted honly
      have hrest : rest = [] := by
        refine List.eq_nil_iff_forall_not_mem.2 fun b hmem => ?_
        have hlt := List.rel_of_pairwise_cons hsorted hmem
        rw [(honly a List.mem_cons_self).2.2, (honly b (List.mem_cons_of_mem _ hmem)).2.2] at hlt
        exact lt_irrefl q hlt
      rw [hrest] at hl ⊢
      rw [List.mem_singleton.1 hl]
  obtain ⟨hkind, hid, htail⟩ := honly l hl
  obtain ⟨rfl, -, hsource, htarget⟩ := mem_linksFrom_iff.1 hl
  obtain ⟨e, -, he⟩ := h.stages.exists_node h.flow (h.lt_length hb)
  rw [htail, he] at htarget
  rw [hn] at hsource
  exact ⟨l, hsingle, (Option.some.inj hsource).symm, hkind, hid, by
    rw [← Option.some.inj htarget]; rfl⟩

/-- Where the context of an end marker is on top, the rollback is followed and nothing else. -/
theorem routes_of_end (hmode : mode = .stackGuard) (hb : BranchOf p context q)
    (hn : s.graph.node? k.node = some (endNode q context))
    (hinner : innermost? k.frames = some (some context)) :
    ∃ l ∈ s.graph.linksFrom k.node, l.link.kind = .rollback ∧ l.target.id = committedId q ∧
      s.routes k = [.follow ⟨l.tail, .committed, []⟩ .observations] := by
  obtain ⟨l, hlinks, hsource, hkind, hid, hend⟩ := h.linksFrom_end hmode hb hn
  refine ⟨l, by rw [hlinks]; exact List.mem_singleton_self l, hkind, hid, ?_⟩
  have hmust : mustEnd k (endNode q context) none [l] = false := by
    simp [mustEnd, (h.isMarker hb).2]
  have hthrough : s.through k (framesAfter k (endNode q context)) l =
      .ok (⟨l.tail, .committed, []⟩, .observations) := by
    rw [through, hkind]
    dsimp only
    rw [if_neg]
    rintro ⟨-, -, hne⟩
    rw [innermost?_framesAfter, hsource, hinner] at hne
    exact hne rfl
  have hroute : s.routeOf k (framesAfter k (endNode q context)) l =
      .follow ⟨l.tail, .committed, []⟩ .observations := by
    rw [routeOf, hthrough]
    dsimp only
    rw [if_neg]
    rintro ⟨-, hends, -⟩
    rw [hend] at hends
    cases hends
  have hroutes : s.routes k = s.routesFrom k (endNode q context) none := by
    rw [routes, hn]
    rfl
  rw [hroutes, routesFrom, hlinks, hmust]
  exact congrArg (fun r => [r]) hroute

/-- At a begin marker its context is open. -/
theorem mem_contexts_of_begin (hentry : s.entryKey = .ok (some entry)) (hst : s.Stores entry k st)
    (hn : s.graph.node? k.node = some (beginNode q context)) : some context ∈ k.contexts := by
  cases hst with
  | start =>
    obtain ⟨i, n, hn', ⟨-, rfl⟩ | ⟨hspec, rfl⟩⟩ := entryKey_cases hentry
    · cases hn.symm.trans hn'
      exact List.mem_singleton.2 rfl
    · cases hn.symm.trans hn'
      cases hspec
  | pass _ _ _ move =>
    obtain ⟨n, i, hsource, -, ⟨-, -, -, index, e, hsquash, rfl⟩ | ⟨l, hl, hlink, -⟩⟩ :=
      moves_cases move
    · obtain ⟨context', remaining, rest, -, he, hmarker⟩ := node_of_contextEnd? hsquash
      cases hn.symm.trans he
      cases hmarker
    · have htarget := (mem_linksFrom_iff.1 hl).2.2.2
      cases hlink with
      | committed kind =>
        obtain ⟨-, -, -, hcore⟩ := mem_linksFrom_iff.1 (h.stages.core.mem_linksFrom hl kind)
        obtain ⟨e, -, heq⟩ := h.stages.exists_entry hcore
        cases (Option.some.inj (hn.symm.trans htarget)).trans heq
      | speculative kind enters =>
        rw [← Option.some.inj (hn.symm.trans htarget)] at enters
        exact mem_contexts_of_enter? enters rfl
      | rollback kind =>
        have hedge := (h.edge_of_link hl hsource (by simp [kind])).1
        rw [← Option.some.inj (hn.symm.trans htarget)] at hedge
        obtain ⟨pc, hid⟩ := hedge.target_of_rollback kind
        exact absurd hid.symm (committedId_ne (by simp [beginId, beginNode]))

/-- Instructions belong to no context. -/
theorem context?_of_committedId (hn : s.graph.node? i = some n) (hid : n.id = committedId q) :
    n.context? = none := by
  rcases h.stages.node_cases hn with hc | hspec
  · obtain ⟨e, -, rfl⟩ := h.stages.exists_entry hc
    rfl
  · cases hspec with
    | begins => exact absurd hid.symm (committedId_ne (by simp [beginNode, beginId]))
    | ends => exact absurd hid.symm (committedId_ne (by simp [endNode, endId]))

/-- A context is opened at its branch, and nowhere else. -/
theorem node_of_opens (hentry : s.entryKey = .ok (some entry)) (hst : s.Stores entry k st)
    (hmove : (target, payload) ∈ s.moves k) (hopens : k.Opens target context)
    (hb : BranchOf p context q) : k.node = q := by
  obtain ⟨hclosed, hopen⟩ := hopens
  obtain ⟨n, i, hn, -, ⟨-, -, -, index, e, -, rfl⟩ | ⟨l, hl, hlink, -⟩⟩ := moves_cases hmove
  · rw [Key.contexts, contexts_framesAfter] at hopen
    exact absurd hopen hclosed
  · cases hlink with
    | committed =>
      rw [Key.contexts, contexts_framesAfter] at hopen
      exact absurd hopen hclosed
    | rollback => cases hopen
    | speculative kind enters =>
      obtain ⟨f, hf, hcontext⟩ := List.mem_map.1 hopen
      -- the context is that of the target, since it was not open before
      have htarget : l.target.context? = some context := by
        rcases frame_of_enter? enters hf with hmem | heq
        · refine absurd ?_ hclosed
          rw [← contexts_framesAfter k n]
          exact List.mem_map.2 ⟨f, hmem, hcontext⟩
        · rw [← heq, hcontext]
      obtain ⟨hedge, hnode⟩ := h.edge_of_link hl hn (by simp [kind])
      generalize he : (⟨n.id, l.target.id, l.link⟩ : Edge) = edge at hedge
      cases hedge with
      | @mispredict context' q' label branch =>
        obtain ⟨hsource, hid, -⟩ := Edge.mk.inj he
        rw [h.node_of_beginId branch hnode hid] at htarget
        cases htarget
        cases hb.unique branch
        exact h.stages.eq_of_committedId h.flow (h.lt_length hb) hn hsource
      | @direction context' q' taken x label branch taken' follows =>
        obtain ⟨-, hid, -⟩ := Edge.mk.inj he
        rw [h.context?_of_committedId hnode hid] at htarget
        cases htarget
      | @squash context' q' label branch =>
        obtain ⟨hsource, hid, -⟩ := Edge.mk.inj he
        rw [h.node_of_endId branch hnode hid] at htarget
        cases htarget
        rw [h.node_of_beginId branch hn hsource] at hn
        exact absurd (h.mem_contexts_of_begin hentry hst hn) hclosed
      | rollback =>
        rw [(Edge.mk.inj he).2.2] at kind
        cases kind

end SpecGraph.IsLight

/-- How contexts close at a point of an analysis from `entry`, whose node is `n`. -/
structure Setup.ClosesTop (s : Setup) (entry k : Key) (n : Node) : Prop where
  /-- The end of a context is come to with that context on top of the stack. -/
  onTop : k ≠ entry → n.endsContext = true →
    ∃ f rest, k.frames = f :: rest ∧ f.context = n.context?
  /-- Speculation is left only along a rollback out of the context on top. -/
  leaves : ∀ target payload, k.mode = .speculative → (target, payload) ∈ s.moves k →
    target.mode = .committed → payload = .observations ∧ target.frames = [] ∧
      (∃ l ∈ s.graph.linksFrom k.node, l.link.kind = .rollback ∧ l.tail = target.node) ∧
      ∃ f rest, k.frames = f :: rest ∧ f.context = n.context?

/-- A point at the end `n` of the context that is opened at the branch `pc`, in an analysis from
    `entry`. -/
structure Setup.ClosesAt (s : Setup) (p : Program) (entry k : Key) (n : Node) (context pc : Nat) :
    Prop where
  branch : BranchOf p context pc
  node : n = endNode pc context
  resumed : s.graph.index? (committedId pc) = some pc
  /-- The one way out is the rollback to the branch, and it is followed. -/
  leaves : ∃ l ∈ s.graph.linksFrom k.node, l.link.kind = .rollback ∧
    l.target.id = committedId pc ∧
    s.routes k = [.follow ⟨l.tail, .committed, []⟩ .observations]
  /-- The context is opened at the branch only. -/
  opened : ∀ k' target payload, s.Enters entry k' → (target, payload) ∈ s.moves k' →
    k'.Opens target context → k'.node = pc

/-- Under the stack guard contexts close from the inside out. Whatever the graph, a point other than
    the entry that is at the end of a context has that context on top of its stack, and speculation
    is left only along a rollback out of the context on top.

    In a graph with the light layout that is built for the stack guard, the end of a context has one
    way out, which is followed: the rollback to the branch at which alone the context is opened. -/
theorem closes_innermost_first :
    (∀ (g : SpecGraph) (o : Options) (entry k : Key) (n : Node), o.speculation = .stackGuard →
      (Setup.of g o).checkedEntry = .ok (some entry) → (Setup.of g o).Enters entry k →
      g.node? k.node = some n → (Setup.of g o).ClosesTop entry k n) ∧
      ∀ (source : String) (p : Program) (b : BuildOptions) (g : SpecGraph) (o : Options)
        (entry k : Key) (n : Node), MuAsm.Addressable source → Program.parse source = .ok p →
        b.layout = .light → b.speculation = .stackGuard → (buildSource source b).result = .ok g →
        o.speculation = .stackGuard → (Setup.of g o).checkedEntry = .ok (some entry) →
        (Setup.of g o).Enters entry k → g.node? k.node = some n → n.endsContext = true →
          ∃ context pc, (Setup.of g o).ClosesAt p entry k n context pc := by
  constructor
  · intro g o entry k n ho hchecked hk hn
    have hguard : (Setup.of g o).stackGuard = true := beq_iff_eq.2 ho
    have hentry := Setup.entryKey_of_checkedEntry hchecked
    obtain ⟨st, hst⟩ := hk.exists_stores
    refine ⟨fun hne hend => ?_, fun target payload hmode hmove htarget => ?_⟩
    · exact Setup.exists_frame_of_innermost? (hst.innermost? hguard hne hn hend)
    · obtain ⟨hpayload, hframes, l, hl, hkind, htail, hinner⟩ :=
        (hst.stands hentry).rollback hguard hmode hmove htarget
      obtain ⟨hhead, -, hsource, -⟩ := mem_linksFrom_iff.1 hl
      rw [hhead] at hsource
      cases hn.symm.trans hsource
      exact ⟨hpayload, hframes, ⟨l, hl, hkind, htail⟩, Setup.exists_frame_of_innermost? hinner⟩
  · intro source p b g o entry k n hsource hp hlayout hb hg ho hchecked hk hn hend
    have hguard : (Setup.of g o).stackGuard = true := beq_iff_eq.2 ho
    have hentry := Setup.entryKey_of_checkedEntry hchecked
    obtain ⟨c, hlight⟩ := exists_isLight hsource hp hlayout hg
    have hlight : IsLight p b.speculation c (Setup.of g o).graph := hlight
    obtain ⟨context, pc, hbranch, rfl⟩ := hlight.exists_endNode_of_endsContext hn hend
    obtain ⟨st, hst⟩ := hk.exists_stores
    have hinner : Setup.innermost? k.frames = some (some context) := by
      by_cases hne : k = entry
      · subst hne
        exact Setup.innermost?_entry hentry hn rfl
      · exact hst.innermost? hguard hne hn hend
    refine ⟨context, pc, hbranch, rfl,
      hlight.stages.index?_committedId hlight.flow (hlight.lt_length hbranch),
      hlight.routes_of_end hb hbranch hn hinner, ?_⟩
    intro k' target payload hk' hmove hopens
    obtain ⟨st', hst'⟩ := hk'.exists_stores
    exact hlight.node_of_opens hentry hst' hmove hopens hbranch

/-- The second branch is on the mispredicted path of the first one. -/
def nested : String := "beqz c, E\nbeqz d, E\nE: skip"

def nestedProgram : Program := (Program.parse nested).toOption.getD ⟨[], ∅⟩

def nestedGraph : SpecGraph :=
  (buildSource nested { speculation := .stackGuard }).result.toOption.getD .empty

def nestedOptions : Options := { speculation := .stackGuard, specWindow := 2 }

/-- The end of the inner one of two contexts, for want of instructions. -/
def nestedEnd : Key := ⟨6, .speculative, [⟨some 1, 0⟩, ⟨some 0, 1⟩]⟩

theorem closes_innermost_first_nested :
    (Setup.of nestedGraph nestedOptions).Enters ⟨0, .committed, []⟩ nestedEnd ∧
      (∃ f rest, nestedEnd.frames = f :: rest ∧ f.context = (endNode 1 1).context?) ∧
      ∃ l ∈ nestedGraph.linksFrom nestedEnd.node, l.link.kind = .rollback ∧
        l.target.id = "n1" ∧
        (Setup.of nestedGraph nestedOptions).routes nestedEnd =
          [.follow ⟨l.tail, .committed, []⟩ .observations] := by
  have hp : Program.parse nested = .ok nestedProgram := Program.parse_eq_ok (by decide +kernel)
  have hg : (buildSource nested { speculation := .stackGuard }).result = .ok nestedGraph :=
    buildSource_eq_ok (by decide +kernel)
  have hentry : (Setup.of nestedGraph nestedOptions).checkedEntry =
      .ok (some ⟨0, .committed, []⟩) := by decide +kernel
  have hnode : nestedGraph.node? nestedEnd.node = some (endNode 1 1) := by decide +kernel
  have henters : (Setup.of nestedGraph nestedOptions).Enters ⟨0, .committed, []⟩ nestedEnd :=
    ⟨30, Option.isSome_iff_exists.1 (by decide +kernel)⟩
  obtain ⟨hany, hlight⟩ := closes_innermost_first
  obtain ⟨context, pc, hcloses⟩ := hlight nested nestedProgram { speculation := .stackGuard }
    nestedGraph nestedOptions _ _ _ (by decide +kernel) hp rfl rfl hg rfl hentry henters hnode rfl
  obtain ⟨rfl, rfl⟩ := endNode_inj hcloses.node
  exact ⟨henters, (hany _ _ _ _ _ rfl hentry henters hnode).onTop (by decide) rfl, hcloses.leaves⟩

end Mispredict
