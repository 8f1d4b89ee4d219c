/-
  Light graphs render their programs.

  Paths of the analysis run with committed execution and then walk behind a branch
  (`Conveys.lightArrives`), and all walks are paths. A rollback leads from the end of a context to
  its branch, so that baselines can come to a speculative point in many ways. But whichever way
  they come, the instruction of the point is covered, and so are the branches of all contexts
  that are open there (`Bears.lightCovered`).
-/
import Mispredict.Proofs.LightLayers
import Mispredict.Proofs.Runs

namespace Mispredict

open MuAsm (Program)

open SpecGraph Draft

namespace Setup

variable {p : Program} {mode : SpeculationMode} {c : SpecGraph} {s : Setup} {k target : Key}
  {payload : Payload} {b x q : Nat} {R σ : State} {site : Site}

/-! ## Paths -/

/-- Where paths from the instruction at `x` in the state `R` come to, and in what states. -/
inductive LightArrives (p : Program) (s : Setup) (x : Nat) (R : State) : Key → State → Prop where
  | committed {q : Nat} {σ : State} (lt : q < p.length) (runs : p.Runs x R q σ) :
      LightArrives p s x R ⟨q, .committed, []⟩ σ
  | speculative {b : Nat} {k : Key} {σ τ : State} (mode : k.mode = .speculative)
      (runs : p.Runs x R b σ) (branch : p.IsBranchAt b)
      (reaches : LightReach p s b (p.execute .committed b σ) k τ) : LightArrives p s x R k τ

theorem LightArrives.lightMove (hlight : IsLight p mode c s.graph) (h : LightArrives p s x R k σ)
    (hmove : (target, payload) ∈ s.moves k) : LightMove p s k target payload := by
  refine hlight.lightMove_of_mem (fun hmode => ?_) hmove
  cases h with
  | committed lt => exact ⟨rfl, lt⟩
  | speculative hspec => cases hspec.symm.trans hmode

theorem Conveys.lightArrives (hlight : IsLight p mode c s.graph) (hwindow : 0 < s.window)
    (hx : x < p.length) (h : s.Conveys ⟨x, .committed, []⟩ R k σ) :
    LightArrives p s x R k σ := by
  induction h with
  | start => exact .committed hx .start
  | @move k target σ before move ih =>
    have hmove := ih.lightMove hlight move
    cases ih with
    | @committed q _ lt runs =>
      rw [(executes_of_stages hlight.stages hlight.flow lt).advance_eq]
      cases hmove with
      | commits follows =>
        exact .committed (Program.lt_of_mem_successors follows).2 (runs.step follows)
      | mispredicts branch node =>
        exact .speculative rfl runs ((mem_branches_iff hlight.flow.numbered).1 branch.mem)
          (.begins node (fun y hy => ⟨y, hy, .start⟩) (Nat.zero_add _) hwindow)
    | speculative hspec runs branch reaches =>
      have htarget : target.mode = .speculative := by
        cases hmove with
        | commits | mispredicts => cases hspec
        | _ => rfl
      exact .speculative htarget runs branch (reaches.move hlight hmove htarget)

/-! ## Baselines -/

section Covered

variable {Covered : Nat → Prop} {frames : List Frame}

/-- The branches of the contexts of all frames are covered. -/
def FramesCovered (p : Program) (Covered : Nat → Prop) (frames : List Frame) : Prop :=
  ∀ f ∈ frames, ∀ context b, f.context = some context → BranchOf p context b → Covered b

theorem FramesCovered.spend (h : FramesCovered p Covered frames) :
    FramesCovered p Covered (spend frames) := by
  cases frames with
  | nil => exact h
  | cons f rest =>
    intro f' hf' context b hcontext hb
    rcases List.mem_cons.1 hf' with rfl | hf'
    · exact h f List.mem_cons_self context b hcontext hb
    · exact h f' (List.mem_cons_of_mem _ hf') context b hcontext hb

/-- The instruction or the branch of the point is covered, and so are the branches of the contexts
    that are open. At the end of a context these do not matter any more. -/
inductive LightCovered (p : Program) (s : Setup) (Covered : Nat → Prop) : Key → Prop where
  | committed {q : Nat} (lt : q < p.length) (covered : Covered q) :
      LightCovered p s Covered ⟨q, .committed, []⟩
  | instr {q : Nat} {frames : List Frame} (lt : q < p.length) (covered : Covered q)
      (opened : FramesCovered p Covered frames) : LightCovered p s Covered ⟨q, .speculative, frames⟩
  | begins {q context i : Nat} {frames : List Frame}
      (node : s.graph.node? i = some (beginNode q context)) (covered : Covered q)
      (opened : FramesCovered p Covered frames) : LightCovered p s Covered ⟨i, .speculative, frames⟩
  | ends {q context i : Nat} {frames : List Frame}
      (node : s.graph.node? i = some (endNode q context)) (covered : Covered q) :
      LightCovered p s Covered ⟨i, .speculative, frames⟩

theorem LightCovered.of_instr (hlight : IsLight p mode c s.graph)
    (h : LightCovered p s Covered ⟨q, .speculative, frames⟩) (hq : q < p.length) :
    Covered q ∧ FramesCovered p Covered frames := by
  cases h with
  | instr lt covered opened => exact ⟨covered, opened⟩
  | begins node => exact absurd hq (not_lt_of_marker hlight node rfl)
  | ends node => exact absurd hq (not_lt_of_marker hlight node rfl)

theorem LightCovered.of_begin {context i : Nat} (hlight : IsLight p mode c s.graph)
    (h : LightCovered p s Covered ⟨i, .speculative, frames⟩)
    (hn : s.graph.node? i = some (beginNode q context)) :
    Covered q ∧ FramesCovered p Covered frames := by
  cases h with
  | instr lt => exact absurd lt (not_lt_of_marker hlight hn rfl)
  | begins node covered opened =>
    obtain ⟨rfl, -⟩ := beginNode_inj (Option.some.inj (hn.symm.trans node))
    exact ⟨covered, opened⟩
  | ends node => cases hn.symm.trans node

theorem LightCovered.of_end {context i : Nat} {m : Mode} (hlight : IsLight p mode c s.graph)
    (h : LightCovered p s Covered ⟨i, m, frames⟩)
    (hn : s.graph.node? i = some (endNode q context)) : Covered q := by
  cases h with
  | committed lt => exact absurd lt (not_lt_of_marker hlight hn rfl)
  | instr lt => exact absurd lt (not_lt_of_marker hlight hn rfl)
  | begins node => cases hn.symm.trans node
  | ends node covered =>
    obtain ⟨rfl, -⟩ := endNode_inj (Option.some.inj (hn.symm.trans node))
    exact covered

/-- One case for each kind of move: what is covered stays so along the control flow, and a context
    is opened only at its branch. -/
theorem LightCovered.move (hlight : IsLight p mode c s.graph)
    (hclosed : ∀ q, Covered q → ∀ q' ∈ p.successors q, Covered q')
    (h : LightCovered p s Covered k) (hmove : LightMove p s k target payload) :
    LightCovered p s Covered target := by
  cases hmove with
  | commits follows =>
    cases h with
    | committed lt covered =>
      exact .committed (Program.lt_of_mem_successors follows).2 (hclosed _ covered _ follows)
  | mispredicts branch node =>
    cases h with
    | committed lt covered =>
      refine .begins node covered fun f hf context b hcontext hb => ?_
      cases List.mem_singleton.1 hf
      cases hcontext
      exact branch.unique hb ▸ covered
  | starts branch node follows =>
    obtain ⟨covered, opened⟩ := h.of_begin hlight node
    exact .instr (Program.lt_of_mem_successors follows).2 (hclosed _ covered _ follows) opened
  | passes passes left =>
    obtain ⟨hq, hx⟩ := Program.lt_of_mem_successors passes.1
    obtain ⟨covered, opened⟩ := h.of_instr hlight hq
    exact .instr hx (hclosed _ covered _ passes.1) opened.spend
  | nests branch node left enters =>
    obtain ⟨covered, opened⟩ := h.of_instr hlight (hlight.lt_length branch)
    refine .begins node covered fun f hf context b hcontext hb => ?_
    rcases frame_of_enter? enters hf with hf | heq
    · exact opened.spend f hf context b hcontext hb
    · cases hcontext.symm.trans heq
      exact branch.unique hb ▸ covered
  | squashes instr branch node innermost =>
    obtain ⟨-, opened⟩ := h.of_instr hlight instr
    exact .ends node (opened.spend _ (innermost ▸ List.mem_cons_self) _ _ rfl branch)
  | skips branch begins node => exact .ends node (h.of_begin hlight begins).1
  | returns branch node => exact .committed (hlight.lt_length branch) (h.of_end hlight node)

theorem LightCovered.follows (hlight : IsLight p mode c s.graph)
    (hclosed : ∀ q, Covered q → ∀ q' ∈ p.successors q, Covered q')
    (h : LightCovered p s Covered k) (hfollows : s.Follows k target) :
    LightCovered p s Covered target := by
  obtain ⟨payload, hmem⟩ := hfollows.exists_move
  refine h.move hlight hclosed (hlight.lightMove_of_mem (fun hmode => ?_) hmem)
  cases h with
  | committed lt => exact ⟨rfl, lt⟩
  | instr | begins | ends => cases hmode

end Covered

/-- Whichever way a baseline has come to a point, the program covers it. -/
theorem Bears.lightCovered (hlight : IsLight p mode c s.graph) (hwindow : 0 < s.window)
    (hx : x < p.length) (h : s.Bears ⟨x, .committed, []⟩ site k) :
    LightCovered p s (p.Covers x s.initial site) k := by
  refine h.spreads hlight.stages hlight.flow (fun k σ hσ hmode => ?_) (fun q => .committed)
    fun k target hk => hk.follows hlight fun _ covered _ => covered.passed
  cases hσ.lightArrives hlight hwindow hx with
  | @committed q _ lt runs => exact ⟨q, lt, rfl, runs⟩
  | speculative hspec => cases hspec.symm.trans hmode

/-- Light graphs render their programs. -/
theorem renders_light (hlight : IsLight p mode c s.graph) (hwindow : 0 < s.window)
    (hx : x < p.length) : s.Renders p ⟨x, .committed, []⟩ x := by
  refine ⟨fun k τ hτ hleak => ?_, fun b site => ?_⟩
  · cases hτ.lightArrives hlight hwindow hx with
    | committed => cases (leaks_iff.1 hleak).1
    | @speculative b _ σ _ _ runs branch reaches =>
      obtain ⟨y, hy, n, q, hn, hwalk, hleak'⟩ := reaches.exists_walk hlight hleak
      obtain ⟨site, hsite⟩ := Program.exists_siteAt?_of_leaksAt hleak'
      exact ⟨b, site, branch, σ, y, n, q, τ, runs, hy, hn, hwalk, hleak', hsite⟩
  · rintro ⟨hb, σ, y, n, q, τ, hruns, hy, hn, hwalk, hleak, hsite⟩
    obtain ⟨context, hcontext⟩ :=
      List.mem_iff_getElem?.1 ((mem_branches_iff hlight.flow.numbered).2 hb)
    obtain ⟨i, hi, hmove⟩ := hlight.mem_moves_mispredicts hcontext
    have hstands := standsFor_light hlight (hwalk.lt hy) [⟨some context, s.window - n⟩]
    have hopen := (conveys_of_runs hlight.stages hlight.flow hruns).move hmove
    rw [(executes_of_stages hlight.stages hlight.flow
      (Program.lt_of_mem_successors hy).1).advance_eq] at hopen
    refine ⟨_, τ, hopen.trans (climbs_light hlight hcontext hi hy hwalk hn).conveys,
      hstands.leaks_eq ▸ hleak, hstands.executes.site?_eq ▸ hsite, fun hbears => ?_⟩
    -- the context that the walk has open is that of the branch
    obtain ⟨-, opened⟩ := (hbears.lightCovered hlight hwindow hx).of_instr hlight (hwalk.lt hy)
    exact opened _ List.mem_cons_self context b rfl hcontext

end Setup

end Mispredict
