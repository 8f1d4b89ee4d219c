/-
  What a verdict says about the program.

  If rollbacks invent nothing and no leak of the program is masked, an analysis finds a violation
  exactly if some run of the program leaks within the window, whatever the layout of the graph
  and the order of visits (`verdict_eq_violation_iff_leaksFor`). So the order does not matter to
  a program without backward jumps (`verdict_eq_of_loopFree`).

  In general two orders give the same verdict exactly if neither analysis overlooks a leak of the
  other, and for this it is enough that no leak of the graph is masked
  (`verdict_eq_iff_not_overlooks`).
-/
import Mispredict.Proofs.LightRuns
import Mispredict.Proofs.UnrolledRuns
import Mispredict.Proofs.VisitOrder
import Mispredict.Proofs.Walks
import Mispredict.Proofs.Window

namespace Mispredict

open MuAsm (Program)

open SpecGraph Draft

/-! ## The start -/

/-- Analysis starts at the instruction at `x`. -/
def Options.StartsAt (o : Options) (x : Nat) : Prop :=
  o.entryNode.getD (committedId 0) = committedId x

namespace MuAsm.Program

/-- The state in which an analysis of the program starts. -/
def startState (p : Program) (o : Options) : State := .seeded o.policy (o.entryRegs ++ p.registers)

/-- Some run of the program leaks, under the policy and within the window of the analysis. -/
def LeaksFor (p : Program) (o : Options) : Prop :=
  ∃ x, o.StartsAt x ∧ p.Leaks x (p.startState o) o.specWindow.toNat

/-- No leak of the program is masked, under the policy and within the window of the analysis. -/
def UnmaskedFor (p : Program) (o : Options) : Prop :=
  ∀ x, o.StartsAt x → p.Unmasked x (p.startState o) o.specWindow.toNat

theorem mem_registers {p : Program} {r : String} :
    r ∈ p.registers ↔ ∃ e ∈ p.entries, r ∈ e.instr.registers := by
  rw [registers, Std.ExtTreeSet.mem_toList, Std.ExtTreeSet.mem_ofList, List.contains_iff_mem,
    List.mem_flatMap]

theorem Runs.lt {p : Program} {x q : Nat} {R σ : State} (h : p.Runs x R q σ) (hq : q < p.length) :
    x < p.length := by
  induction h with
  | start => exact hq
  | step _ follows ih => exact ih (lt_of_mem_successors follows).1

end MuAsm.Program

theorem Options.StartsAt.unique {o : Options} {x x' : Nat} (h : o.StartsAt x)
    (h' : o.StartsAt x') : x = x' := committedId_inj.1 (h.symm.trans h')

namespace SpecGraph.Stages

variable {p : Program} {N : Node → Prop} {E : Edge → Prop} {c g : SpecGraph} {o : Options}
  {entry : Key} {x : Nat} (h : Stages p N E c g)

include h

theorem initial_eq_startState : (Setup.of g o).initial = p.startState o := by
  rw [← h.core.initial_eq]
  refine State.seeded_congr fun r => ?_
  obtain ⟨d₀, hd₀, rfl⟩ := h.flow
  rw [Setup.trackedRegisters, nodes_committed hd₀, List.flatMap_map, List.mem_append,
    List.mem_append, Program.mem_registers, List.mem_flatMap]
  rfl

variable (hc : c.FlowOf p)

include hc

theorem entryKey_of_startsAt (ho : o.StartsAt x) (hx : x < p.length) :
    (Setup.of g o).entryKey = .ok (some ⟨x, .committed, []⟩) := by
  rw [Options.StartsAt] at ho
  cases hid : o.entryNode with
  | none =>
    rw [hid] at ho
    cases committedId_inj.1 ho
    exact h.entryKey_eq_first hc hid hx
  | some id =>
    rw [hid] at ho
    obtain ⟨e, he, hn⟩ := h.exists_node hc hx
    have hfind : g.find? id = some (x, committedNode e) := by
      refine h.core.indexed.find?_eq_some_iff.2 ⟨hn, ?_⟩
      rw [show id = committedId x from ho, ← hc.numbered x e he]
      rfl
    unfold Setup.entryKey
    simp only [Setup.of, hid, hfind]
    rfl

theorem exists_startsAt (henters : o.EntersCommitted g)
    (hentry : (Setup.of g o).entryKey = .ok (some entry)) :
    ∃ x < p.length, o.StartsAt x ∧ entry = ⟨x, .committed, []⟩ := by
  have hlt : ∀ {i n}, c.node? i = some n → ∃ e, p.entry? i = some e ∧ committedNode e = n := by
    intro i n hn
    rw [hc.node] at hn
    exact Option.map_eq_some_iff.1 hn
  obtain ⟨x, hx, hstarts⟩ : ∃ x < p.length, o.StartsAt x := by
    cases hid : o.entryNode with
    | none =>
      rw [← h.core.entryKey_eq henters] at hentry
      obtain ⟨-, -, n, hn⟩ := h.core.exists_node_of_entryKey hentry
      obtain ⟨e, he, -⟩ := hlt hn
      refine ⟨0, Nat.zero_lt_of_lt (List.getElem?_eq_some_iff.1 he).1, ?_⟩
      rw [Options.StartsAt, hid]
      rfl
    | some id =>
      obtain ⟨i, n, hfind, hkind⟩ := henters id hid
      obtain ⟨hn, hn'⟩ := h.core.indexed.find?_eq_some_iff.1 hfind
      obtain ⟨e, he, rfl⟩ := hlt (h.core.node.2 ⟨hn, hkind⟩)
      refine ⟨i, (List.getElem?_eq_some_iff.1 he).1, ?_⟩
      rw [Options.StartsAt, hid, ← hc.numbered i e he]
      exact hn'.symm
  rw [h.entryKey_of_startsAt hc hstarts hx] at hentry
  cases hentry
  exact ⟨x, hx, hstarts, rfl⟩

end SpecGraph.Stages

/-! ## Graphs that are built -/

namespace SpecGraph

variable {source : String} {p : Program} {b : BuildOptions} {o : Options} {g : SpecGraph}
  {entry : Key} {v : Verdict}

theorem exists_stages_of_parse (hp : Program.parse source = .ok p)
    (hg : (buildSource source b).result = .ok g) :
    ∃ forks c, Stages p (SpecNode p b.layout) (SpecEdge p b.speculation forks b.layout) c g ∧
      c.FlowOf p := by
  obtain ⟨d, hd, rfl⟩ := exists_draft_of_parse hp hg
  obtain ⟨d₀, forks, hd₀, hgrows⟩ := Draft.exists_stages hd
  exact ⟨forks, d₀.graph, ⟨⟨d₀, hd₀, rfl⟩, hgrows, isCore_of_stages hd₀ hgrows⟩,
    flowOf_committed (Program.numbered_of_parse hp) hd₀⟩

/-- Nothing is invented unless rollbacks meet a light graph that is visited last in, first out. -/
theorem not_invents_of_buildSource (hg : (buildSource source b).result = .ok g)
    (hentry : (Setup.of g o).checkedEntry = .ok (some entry))
    (hmode : b.speculation = .discard ∨
      (b.layout = .unrolled ∨ o.traceMode = .breadthFirst) ∧ o.EntersCommitted g)
    (cap : Option Nat) (q : Key) : ¬ Machine.Invents (Setup.of g o) cap entry q := by
  rcases hmode with hb | ⟨hmode, henters⟩
  · have hnone : (Setup.of g o).graph.NoRollback := noRollback_of_buildSource hb hg
    exact Machine.not_invents_of_noRollback hnone
  · obtain ⟨p, forks, c, -, hstages⟩ := exists_stages hg
    have hkey := Setup.entryKey_of_checkedEntry hentry
    rw [← hstages.core.entryKey_eq henters] at hkey
    exact not_invents_of_stages hstages hkey (validate_of_checkedEntry hentry) hmode cap q

/-- Whatever the layout, a graph renders its program. -/
theorem renders_of_buildSource (hsource : MuAsm.Addressable source)
    (hp : Program.parse source = .ok p) (hwindow : o.specWindow ≤ b.windowSize)
    (hg : (buildSource source b).result = .ok g) (henters : o.EntersCommitted g)
    (hentry : (Setup.of g o).checkedEntry = .ok (some entry)) :
    ∃ x, o.StartsAt x ∧ (Setup.of g o).Renders p entry x := by
  obtain ⟨forks, c, hstages, hflow⟩ := exists_stages_of_parse hp hg
  have hpos := Setup.window_pos hentry
  obtain ⟨x, hx, hstarts, rfl⟩ :=
    hstages.exists_startsAt hflow henters (Setup.entryKey_of_checkedEntry hentry)
  refine ⟨x, hstarts, ?_⟩
  cases hlayout : b.layout with
  | light =>
    obtain ⟨c', hlight⟩ := exists_isLight hsource hp hlayout hg
    exact Setup.renders_light hlight hpos hx
  | unrolled =>
    obtain ⟨budget, c', hunrolled⟩ := exists_isUnrolled hsource hp hlayout hg
    obtain ⟨_, _, _, _, d, rfl, hcharted⟩ := exists_isCharted hp hlayout hg
    rw [hlayout] at hstages
    -- there is but one control flow
    obtain ⟨d₀, hd₀, rfl⟩ := hstages.flow
    obtain ⟨d₁, hd₁, rfl⟩ := hunrolled.stages.flow
    cases hd₀.symm.trans hd₁
    exact Setup.renders_unrolled hunrolled hstages hpos hx hcharted.ascends
      (Int.toNat_le_toNat hwindow)

/-- If no leak of the program is masked, none is in its graphs. -/
theorem unmasked_of_buildSource (hsource : MuAsm.Addressable source)
    (hp : Program.parse source = .ok p) (hwindow : o.specWindow ≤ b.windowSize)
    (hg : (buildSource source b).result = .ok g) (henters : o.EntersCommitted g)
    (hclear : p.UnmaskedFor o) : (Setup.of g o).Unmasked := by
  intro entry hentry
  obtain ⟨forks, c, hstages, -⟩ := exists_stages_of_parse hp hg
  obtain ⟨x, hstarts, hrenders⟩ := renders_of_buildSource hsource hp hwindow hg henters hentry
  refine hrenders.hasCertainLeak ?_
  rw [hstages.initial_eq_startState]
  exact hclear x hstarts

/-- If no leak of the program is masked, an analysis without error says whether the program
    leaks. -/
theorem verdict_eq_violation_iff_leaksFor (hsource : MuAsm.Addressable source)
    (hp : Program.parse source = .ok p) (hwindow : o.specWindow ≤ b.windowSize)
    (hg : (buildSource source b).result = .ok g) (henters : o.EntersCommitted g)
    (hmode : b.speculation = .discard ∨ b.layout = .unrolled ∨ o.traceMode = .breadthFirst)
    (hpolicy : o.policy.Definite) (hclear : p.UnmaskedFor o)
    (hok : (g.analyze o).result.error = none) :
    (g.analyze o).result.verdict = .violation ↔ p.LeaksFor o := by
  obtain ⟨forks, c, hstages, hflow⟩ := exists_stages_of_parse hp hg
  have hinitial : (Setup.of g o).initial = p.startState o := hstages.initial_eq_startState
  have hrun := outcome_of_error_eq_none hok
  rw [Setup.verdict_eq_violation_iff_hasLeak
    (fun entry hentry => not_invents_of_buildSource hg hentry (hmode.imp_right (⟨·, henters⟩)) _)
    (State.harmless_seeded _ _) (State.definite_seeded hpolicy _)
    (State.not_hasBaseline_seeded _ _)
    (unmasked_of_buildSource hsource hp hwindow hg henters hclear) hrun]
  constructor
  · rintro ⟨entry, hentry, hleak⟩
    obtain ⟨x, hstarts, hrenders⟩ := renders_of_buildSource hsource hp hwindow hg henters hentry
    exact ⟨x, hstarts, hinitial ▸ hrenders.hasLeak_iff.1 hleak⟩
  · rintro ⟨x, hstarts, hleak⟩
    have hx : x < p.length := by
      obtain ⟨b, site, ⟨i, hi, -⟩, σ, -, -, -, -, hruns, -⟩ := hleak
      exact hruns.lt (Program.lt_of_instr? hi)
    have hentry := Setup.checkedEntry_of_outcome (hstages.entryKey_of_startsAt hflow hstarts hx) hrun
    obtain ⟨x', hstarts', hrenders⟩ :=
      renders_of_buildSource hsource hp hwindow hg henters hentry
    cases hstarts.unique hstarts'
    exact ⟨_, hentry, hrenders.hasLeak_iff.2 (hinitial ▸ hleak)⟩

/-! ## Two orders -/

/-- If nothing is invented in either order and no leak of the graph is masked, both orders give the
    same verdict. -/
theorem verdict_eq_of_buildSource {m m' : TraceMode}
    (hg : (buildSource source b).result = .ok g)
    (hmode : b.speculation = .discard ∨ b.layout = .unrolled ∧ o.EntersCommitted g)
    (hpolicy : o.policy.Definite) (hclear : (Setup.of g o).Unmasked)
    (h : (g.analyze { o with traceMode := m }).result.error = none)
    (h' : (g.analyze { o with traceMode := m' }).result.error = none) :
    (g.analyze { o with traceMode := m }).result.verdict =
      (g.analyze { o with traceMode := m' }).result.verdict := by
  refine verdict_eq_of_unmasked (fun m entry hentry => ?_) hpolicy hclear h h'
  exact not_invents_of_buildSource (o := { o with traceMode := m }) hg hentry
    (hmode.imp_right fun hmode => ⟨.inl hmode.1, hmode.2⟩)

/-- To a program without backward jumps the order does not matter. -/
theorem verdict_eq_of_loopFree {m m' : TraceMode} (hsource : MuAsm.Addressable source)
    (hp : Program.parse source = .ok p) (hfree : p.LoopFree) (hwindow : o.specWindow ≤ b.windowSize)
    (hg : (buildSource source b).result = .ok g) (henters : o.EntersCommitted g)
    (hmode : b.speculation = .discard ∨ b.layout = .unrolled) (hpolicy : o.policy.Definite)
    (h : (g.analyze { o with traceMode := m }).result.error = none)
    (h' : (g.analyze { o with traceMode := m' }).result.error = none) :
    (g.analyze { o with traceMode := m }).result.verdict =
      (g.analyze { o with traceMode := m' }).result.verdict := by
  have hfits := Program.fits_of_parse hp hsource
  exact verdict_eq_of_buildSource hg (hmode.imp_right (⟨·, henters⟩)) hpolicy
    (unmasked_of_buildSource hsource hp hwindow hg henters fun x _ =>
      Program.unmasked_of_loopFree hfits hfree x _ _) h h'

end SpecGraph

/-- Two orders of visits give the same verdict exactly if neither analysis overlooks a leak of the
    other. They do so in any case if mispredicted paths are discarded or unrolled, the policy is
    definite and no leak of the graph is masked. -/
theorem verdict_eq_iff_not_overlooks (source : String) (b : BuildOptions) (o : Options)
    (m m' : TraceMode)
    (h : (analyzeSource source b { o with traceMode := m }).result.error = none)
    (h' : (analyzeSource source b { o with traceMode := m' }).result.error = none) :
    ((analyzeSource source b { o with traceMode := m }).result.verdict =
        (analyzeSource source b { o with traceMode := m' }).result.verdict ↔
      ∃ g, (SpecGraph.buildSource source b).result = .ok g ∧
        ¬ (Setup.of g o).Overlooks (g.finalTable { o with traceMode := m' })
          (g.finalTable { o with traceMode := m }) ∧
        ¬ (Setup.of g o).Overlooks (g.finalTable { o with traceMode := m })
          (g.finalTable { o with traceMode := m' })) ∧
      ∀ g, (SpecGraph.buildSource source b).result = .ok g →
        (b.speculation = .discard ∨ b.layout = .unrolled ∧ o.EntersCommitted g) →
        o.policy.Definite → (Setup.of g o).Unmasked →
        (analyzeSource source b { o with traceMode := m }).result.verdict =
          (analyzeSource source b { o with traceMode := m' }).result.verdict := by
  obtain ⟨g, hg⟩ := exists_graph_of_error_eq_none h
  simp only [analyzeSource_of_build hg] at h h' ⊢
  refine ⟨(verdict_eq_iff h h').trans ?_, fun g' hg' hmode hpolicy hclear => ?_⟩
  · constructor
    · intro hno
      exact ⟨g, hg, hno⟩
    · rintro ⟨g', hg', hno⟩
      cases hg.symm.trans hg'
      exact hno
  · cases hg.symm.trans hg'
    exact verdict_eq_of_buildSource hg hmode hpolicy hclear h h'

/-- Speculation goes past the branch and loads from a secret place. -/
def lapse : String := "beqz c, E\nload x, secret\nE: skip"

/-- The graph of `lapse`. -/
def lapseGraph : SpecGraph := (SpecGraph.buildSource lapse {}).result.toOption.getD .empty

theorem buildSource_lapse : (SpecGraph.buildSource lapse {}).result = .ok lapseGraph :=
  SpecGraph.buildSource_eq_ok (by decide +kernel)

theorem unmaskedFor_lapse {p : Program} (hp : Program.parse lapse = .ok p) (o : Options) :
    p.UnmaskedFor o := by
  have hfree : ∀ p ∈ (Program.parse lapse).toOption, p.LoopFree := by decide +kernel
  have hfits := Program.fits_of_parse hp (by decide +kernel)
  exact fun x _ => Program.unmasked_of_loopFree hfits (hfree p (by rw [hp]; rfl)) x _ _

theorem unmasked_lapse : (Setup.of lapseGraph detourOptions).Unmasked := by
  obtain ⟨p, hp⟩ := exists_parse_of_buildSource buildSource_lapse
  exact unmasked_of_buildSource (by decide +kernel) hp (by decide) buildSource_lapse nofun
    (unmaskedFor_lapse hp _)

/-- In one order `detour` is found secure, in the other the path through `A` is found to leak. The
    leak is masked, while that of `lapse` is not. -/
theorem overlooks_detour :
    (analyzeSource detour {} { detourOptions with traceMode := .breadthFirst }).result.isSecure =
        true ∧
      (analyzeSource detour {} { detourOptions with traceMode := .singlePath }).result.verdict =
        .violation ∧
      ((Setup.of detourGraph detourOptions).Overlooks
          (detourGraph.finalTable { detourOptions with traceMode := .singlePath })
          (detourGraph.finalTable { detourOptions with traceMode := .breadthFirst }) ∨
        (Setup.of detourGraph detourOptions).Overlooks
          (detourGraph.finalTable { detourOptions with traceMode := .breadthFirst })
          (detourGraph.finalTable { detourOptions with traceMode := .singlePath })) ∧
      ¬ (Setup.of detourGraph detourOptions).Unmasked ∧
      (Setup.of lapseGraph detourOptions).Unmasked ∧
      (analyzeSource lapse {} { detourOptions with traceMode := .breadthFirst }).result.verdict =
        .violation ∧
      (analyzeSource lapse {} { detourOptions with traceMode := .singlePath }).result.verdict =
        .violation := by
  have hsecure : (analyzeSource detour {} { detourOptions with
      traceMode := .breadthFirst }).result.isSecure = true := by
    rw [analyzeSource_of_build buildSource_detour]
    exact isSecure_detour
  have hviolation : (analyzeSource detour {} { detourOptions with
      traceMode := .singlePath }).result.verdict = .violation := by decide +kernel
  obtain ⟨herror, hverdict⟩ := Report.isSecure_iff.1 hsecure
  have herror' : (analyzeSource detour {} { detourOptions with
      traceMode := .singlePath }).result.error = none := by
    rw [analyzeSource_of_build buildSource_detour] at hviolation ⊢
    exact SpecGraph.error_eq_none_of_violation hviolation
  have hpolicy : detourOptions.policy.Definite := by decide +kernel
  obtain ⟨hiff, hclear⟩ := verdict_eq_iff_not_overlooks detour {} detourOptions .breadthFirst
    .singlePath herror herror'
  rw [hverdict, hviolation] at hiff hclear
  have hlapse : (analyzeSource lapse {} { detourOptions with
      traceMode := .breadthFirst }).result.error = none ∧
      (analyzeSource lapse {} { detourOptions with
        traceMode := .breadthFirst }).result.verdict = .violation := by decide +kernel
  have hagree := (verdict_eq_iff_not_overlooks lapse {} detourOptions .breadthFirst .singlePath
    hlapse.1 (by decide +kernel)).2 lapseGraph buildSource_lapse (.inl rfl) hpolicy unmasked_lapse
  refine ⟨hsecure, hviolation, ?_, fun hunmasked => ?_, unmasked_lapse, hlapse.2,
    hagree.symm.trans hlapse.2⟩
  · by_contra hno
    cases hiff.2 ⟨detourGraph, buildSource_detour, not_or.1 hno⟩
  · cases hclear detourGraph buildSource_detour (.inl rfl) hpolicy hunmasked

end Mispredict
