/-
  Unrolled graphs render their programs.

  Paths of the analysis run with committed execution and then walk behind a branch
  (`Conveys.unrolledArrives`), and all walks that fit into the window have been laid. A
  mispredicted path stays with the fork on which it has been opened, and it rolls back to where
  that fork resumes. So a baseline that has come to a node of a path is covered at the branch
  of its fork (`Bears.forkCovered`), and this is the branch behind which the path walks
  (`OnFork.conveys`).
-/
import Mispredict.Proofs.Runs
import Mispredict.Proofs.Unrolled
import Mispredict.Proofs.UnrolledLayers

namespace Mispredict

open MuAsm (Program)

open SpecGraph Draft

namespace Setup

variable {p : Program} {mode : SpeculationMode} {window : Nat} {budget : Nat → Nat → Nat}
  {forks : List Fork} {c c' : SpecGraph} {s : Setup} {r k target : Key} {payload : Payload}
  {b x q : Nat} {R σ : State} {site : Site} {f : Fork}

/-! ## Paths -/

/-- Where paths from the instruction at `x` in the state `R` come to, and in what states. -/
inductive UnrolledArrives (p : Program) (s : Setup) (x : Nat) (R : State) : Key → State → Prop where
  | committed {q : Nat} {σ : State} (lt : q < p.length) (runs : p.Runs x R q σ) :
      UnrolledArrives p s x R ⟨q, .committed, []⟩ σ
  | speculative {b y n q context i : Nat} {f : Frame} {rest : List Frame} {σ τ : State}
      (runs : p.Runs x R b σ) (branch : p.IsBranchAt b) (follows : y ∈ p.successors b)
      (walk : p.Walk y (p.execute .committed b σ) n q τ) (node : LaidAt p s context q i)
      (spent : n + f.remaining = s.window) (left : 0 < f.remaining) :
      UnrolledArrives p s x R ⟨i, .speculative, f :: rest⟩ τ

theorem Conveys.unrolledArrives (hunrolled : IsUnrolled p window budget c s.graph)
    (hwindow : 0 < s.window) (hx : x < p.length) (h : s.Conveys ⟨x, .committed, []⟩ R k σ) :
    UnrolledArrives p s x R k σ := by
  induction h with
  | start => exact .committed hx .start
  | @move k target σ before move ih =>
    cases ih with
    | @committed q _ lt runs =>
      rw [(executes_of_stages hunrolled.stages hunrolled.flow lt).advance_eq]
      cases hunrolled.pathMove_of_committed lt move with
      | commits follows =>
        exact .committed (Program.lt_of_mem_successors follows).2 (runs.step follows)
      | leaves branch follows node =>
        exact .speculative runs branch follows .start node (Nat.zero_add _) hwindow
    | @speculative b y n q context i f rest σ τ runs branch follows walk node spent left =>
      obtain ⟨q', context', j, f', rest', rfl, passes, node', left', hspent, -⟩ :=
        goesOn_of_move hunrolled node move
      rw [(standsFor_unrolled node _).advance_eq]
      exact .speculative runs branch follows (walk.step passes) node' (by omega) left'

/-! ## Forks -/

/-- The point is at a node of a mispredicted path on the fork. -/
def OnFork (s : Setup) (forks : List Fork) (f : Fork) (k : Key) : Prop :=
  ∃ n, s.graph.node? k.node = some n ∧ n.kind = .speculative ∧ f.Has forks n.id

/-- The branches of the forks of the point are covered, or the instruction of the point if it is a
    committed one. -/
inductive ForkCovered (p : Program) (s : Setup) (forks : List Fork) (Covered : Nat → Prop) :
    Key → Prop where
  | committed {q : Nat} (lt : q < p.length) (covered : Covered q) :
      ForkCovered p s forks Covered ⟨q, .committed, []⟩
  | path {i : Nat} {n : Node} {frames : List Frame} (node : s.graph.node? i = some n)
      (kind : n.kind = .speculative) (covered : ∀ f : Fork, f.Has forks n.id → Covered f.branch) :
      ForkCovered p s forks Covered ⟨i, .speculative, frames⟩

section Forks

variable {Covered : Nat → Prop} {n : Node} {l : Located}
  (hforked : Stages p (UnrolledNode p) (UnrolledEdge p mode forks) c s.graph)

include hforked

/-- Every move is along a link. -/
theorem exists_link_of_move (hmove : (target, payload) ∈ s.moves k) :
    ∃ n, s.graph.node? k.node = some n ∧ ∃ l ∈ s.graph.linksFrom k.node,
      l.source = n ∧ s.OfLink k (framesAfter k n) l target payload := by
  obtain ⟨n, i, hn, -, ⟨-, -, -, index, e, hend, -⟩ | ⟨l, hl, hlink, -⟩⟩ := moves_cases hmove
  · obtain ⟨context, -, -, -, he, hmarker⟩ := node_of_contextEnd? hend
    rw [hforked.marker_of_unrolled he] at hmarker
    cases hmarker
  · obtain ⟨hhead, -, hsource, -⟩ := mem_linksFrom_iff.1 hl
    rw [hhead] at hsource
    exact ⟨n, hn, l, hl, Option.some.inj (hsource.symm.trans hn), hlink⟩

theorem source_kind_of_committed {i : Nat} (hl : l ∈ s.graph.linksFrom i)
    (hkind : l.link.kind = .committed) : l.source.kind = .committed := by
  obtain ⟨-, -, hsource, -⟩ := mem_linksFrom_iff.1 (hforked.core.mem_linksFrom hl hkind)
  exact (hforked.core.node.1 hsource).2

/-- A speculative link leads to a node of a fork that has its source. -/
theorem exists_fork_of_speculative {i : Nat} (hl : l ∈ s.graph.linksFrom i)
    (hkind : l.link.kind = .speculative) : ∃ f : Fork, f.Has forks l.source.id ∧
      ∀ frames, s.OnFork forks f ⟨l.tail, .speculative, frames⟩ := by
  obtain ⟨f, context, pc, owner, start, hid⟩ :=
    (hforked.mem_of_link hl (by rw [hkind]; nofun)).of_speculative hkind
  have hid : l.target.id = unrolledId context pc := hid
  exact ⟨f, start, fun _ => ⟨l.target, (mem_linksFrom_iff.1 hl).2.2.2,
    (hforked.unrolled_of_speculative hl hkind).1, hid ▸ .path owner⟩⟩

/-- A mispredicted path stays with its fork. -/
theorem OnFork.move (h : s.OnFork forks f k) (hmove : (target, .full) ∈ s.moves k) :
    s.OnFork forks f target := by
  obtain ⟨n, hn, l, hl, rfl, hlink⟩ := exists_link_of_move hforked hmove
  obtain ⟨n', hn', hkind, hf⟩ := h
  cases hn.symm.trans hn'
  cases hlink with
  | committed kind => cases hkind.symm.trans (source_kind_of_committed hforked hl kind)
  | speculative kind =>
    obtain ⟨f', start, hfork⟩ := exists_fork_of_speculative hforked hl kind
    rcases hforked.node_cases hn with hc | ⟨pc, e, w, -, hnode⟩
    · cases hkind.symm.trans (hforked.core.node.1 hc).2
    · -- both forks own the context of the node
      rw [hnode] at hf start
      cases hf.owner.symm.trans start.owner
      exact hfork _

theorem OnFork.conveys (h : s.OnFork forks f r) (hσ : s.Conveys r R k σ) :
    s.OnFork forks f k := by
  induction hσ with
  | start => exact h
  | move _ move ih => exact ih.move hforked move

variable (hflow : c.FlowOf p)

include hflow

/-- From a branch a path leads off on a fork of this branch. -/
theorem exists_onFork_of_move (hb : b < p.length)
    (hmove : (target, .full) ∈ s.moves ⟨b, .committed, []⟩) (htarget : target.mode = .speculative) :
    ∃ f : Fork, f.branch = b ∧ s.OnFork forks f target := by
  obtain ⟨n, hn, l, hl, rfl, hlink⟩ := exists_link_of_move hforked hmove
  cases hlink with
  | committed => cases htarget
  | speculative kind =>
    obtain ⟨f, start, hfork⟩ := exists_fork_of_speculative hforked hl kind
    obtain ⟨e, he, hn'⟩ := hforked.exists_node hflow hb
    rw [Option.some.inj (hn.symm.trans hn')] at start
    have hstart : f.Has forks (committedId e.pc) := start
    rw [hflow.numbered b e he] at hstart
    exact ⟨f, hstart.eq_branch.symm, hfork _⟩

theorem ForkCovered.branch (h : ForkCovered p s forks Covered k)
    (hn : s.graph.node? k.node = some n) (hf : f.Has forks n.id) : Covered f.branch := by
  cases h with
  | @committed q lt covered =>
    obtain ⟨e, he, hn'⟩ := hforked.exists_node hflow lt
    cases hn.symm.trans hn'
    have hf : f.Has forks (committedId e.pc) := hf
    rw [hflow.numbered q e he] at hf
    exact hf.eq_branch ▸ covered
  | path node kind covered =>
    cases hn.symm.trans node
    exact covered f hf

/-- One case for each kind of link: a path stays with its fork, and a rollback leads to a successor
    of its branch. -/
theorem ForkCovered.move (hclosed : ∀ q, Covered q → ∀ q' ∈ p.successors q, Covered q')
    (h : ForkCovered p s forks Covered k) (hmove : (target, payload) ∈ s.moves k) :
    ForkCovered p s forks Covered target := by
  obtain ⟨n, hn, l, hl, rfl, hlink⟩ := exists_link_of_move hforked hmove
  obtain ⟨-, -, -, htarget⟩ := mem_linksFrom_iff.1 hl
  cases hlink with
  | committed kind =>
    cases h with
    | committed lt covered =>
      have hfollows := hforked.mem_successors_of_link hflow hl kind
      rw [framesAfter_of_committed rfl]
      exact .committed (Program.lt_of_mem_successors hfollows).2 (hclosed _ covered _ hfollows)
    | path node hkind =>
      cases hn.symm.trans node
      cases hkind.symm.trans (source_kind_of_committed hforked hl kind)
  | speculative kind =>
    obtain ⟨hkind, hforks⟩ := hforked.unrolled_of_speculative hl kind
    exact .path htarget hkind fun f hf => h.branch hforked hflow hn (hforks f hf)
  | rollback kind =>
    obtain ⟨f, x, hf, hhas, hx, hid⟩ :=
      (hforked.mem_of_link hl (by rw [kind]; nofun)).of_rollback kind
    obtain ⟨taken, htaken, hgoes⟩ := hf.resumes_at hx
    have hfollows := (Program.mem_successors_of_branchTarget htaken).2 hgoes
    have hlt := (Program.lt_of_mem_successors hfollows).2
    rw [hforked.eq_of_committedId hflow hlt htarget hid]
    exact .committed hlt (hclosed _ (h.branch hforked hflow hn hhas) _ hfollows)

theorem ForkCovered.follows (hclosed : ∀ q, Covered q → ∀ q' ∈ p.successors q, Covered q')
    (h : ForkCovered p s forks Covered k) (hfollows : s.Follows k target) :
    ForkCovered p s forks Covered target := by
  obtain ⟨payload, hmem⟩ := hfollows.exists_move
  exact h.move hforked hflow hclosed hmem

end Forks

/-! ## Baselines -/

section Renders

variable (hunrolled : IsUnrolled p window budget c s.graph)
  (hforked : Stages p (UnrolledNode p) (UnrolledEdge p mode forks) c s.graph)
  (hwindow : 0 < s.window) (hx : x < p.length)

include hunrolled hforked hwindow hx

/-- Whichever way a baseline has come to a point, the program covers it. -/
theorem Bears.forkCovered (h : s.Bears ⟨x, .committed, []⟩ site k) :
    ForkCovered p s forks (p.Covers x s.initial site) k := by
  refine h.spreads hunrolled.stages hunrolled.flow (fun k σ hσ hmode => ?_) (fun q => .committed)
    fun k target hk => hk.follows hforked hunrolled.flow fun _ covered _ => covered.passed
  cases hσ.unrolledArrives hunrolled hwindow hx with
  | @committed q _ lt runs => exact ⟨q, lt, rfl, runs⟩
  | speculative => cases hmode

/-- Unrolled graphs render their programs, if they have been unrolled for the window of the
    analysis. -/
theorem renders_unrolled (hascends : s.graph.Ascends) (hfits : s.window ≤ window) :
    s.Renders p ⟨x, .committed, []⟩ x := by
  refine ⟨fun k τ hτ hleak => ?_, fun b site => ?_⟩
  · cases hτ.unrolledArrives hunrolled hwindow hx with
    | committed => cases (leaks_iff.1 hleak).1
    | @speculative b y n q context i f rest σ _ runs branch follows walk node spent left =>
      rw [(standsFor_unrolled node _).leaks_eq] at hleak
      obtain ⟨site, hsite⟩ := Program.exists_siteAt?_of_leaksAt hleak
      exact ⟨b, site, branch, σ, y, n, q, τ, runs, follows, by omega, walk, hleak, hsite⟩
  · rintro ⟨hb, σ, y, n, q, τ, hruns, hy, hn, hwalk, hleak, hsite⟩
    have hlt := (Program.lt_of_mem_successors hy).1
    obtain ⟨context, hopened, hbudget⟩ := hunrolled.leaves b y hb hy
    obtain ⟨i, hi, hmove⟩ := hunrolled.mem_moves_leaves hlt hopened
    have hopen := (conveys_of_runs hunrolled.stages hunrolled.flow hruns).move hmove
    rw [(executes_of_stages hunrolled.stages hunrolled.flow hlt).advance_eq] at hopen
    obtain ⟨_, j, f, rest, hj, -, -, -, -, hclimb⟩ :=
      climbs_unrolled hunrolled hascends hi (hfits.trans hbudget) hwalk hn
    have hstands := standsFor_unrolled hj (f :: rest)
    refine ⟨_, τ, hopen.trans hclimb.conveys, hstands.leaks_eq ▸ hleak,
      hstands.executes.site?_eq ▸ hsite, fun hbears => ?_⟩
    -- the walk is still on a fork of its branch
    obtain ⟨f, rfl, hfork⟩ := exists_onFork_of_move hforked hunrolled.flow hlt hmove rfl
    obtain ⟨node, hnode, -, hhas⟩ := hfork.conveys hforked hclimb.conveys
    exact (hbears.forkCovered hunrolled hforked hwindow hx).branch hforked hunrolled.flow hnode hhas

end Renders

end Setup

end Mispredict
