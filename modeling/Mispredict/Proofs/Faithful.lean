/-
  Graphs that are faithful to a program.

  What speculation on a branch can execute is said in terms of the program: it walks from one of
  the successors of the branch through the program (`Program.Walk`), for as many instructions
  as fit into the window, and it leaks where an instruction leaks (`Program.leaksAt`).

  An analysis is faithful to the program if it has an opening for every branch, which follows
  upon that branch only (`Setup.Opening`), if whatever leaks behind an opening is a walk, and
  if all walks climb the layers of an opening (`Setup.Faithful`). Two faithful analyses visit
  committed points and openings in step (`Opening.twins`), and so what leaks in the one is
  found in the other (`Faithful.not_violation_of_secure`).
-/
import Mispredict.Proofs.Climb
import Mispredict.Proofs.ControlFlow
import Mispredict.Proofs.Definite

namespace Mispredict

open MuAsm (Program Instr)

open Machine SpecGraph

/-! ## Walks -/

namespace MuAsm.Program

/-- The instruction at `q`, with its program counter as text. -/
def executed? (p : Program) (q : Nat) : Option (String × Instr) :=
  (p.instr? q).map fun i => (toString (Int64.ofNat q).toInt, i)

/-- The state after the instruction at `q` has been executed. -/
def execute (p : Program) (mode : Mode) (q : Nat) (st : State) : State :=
  match p.executed? q with
  | some (pc, i) => st.apply i pc mode
  | none => st

/-- Where the instruction at `q` records what an observer sees of it. -/
def siteAt? (p : Program) (q : Nat) : Option Site :=
  match p.executed? q with
  | some (pc, i) => i.site? pc
  | none => none

/-- The level that the instruction at `q` shows. -/
def shownAt (p : Program) (mode : Mode) (q : Nat) (st : State) : Level :=
  match p.executed? q with
  | some (_, i) => (st.shown i).view mode
  | none => .low

/-- Whether speculation on the instruction at `q` shows a secret without baseline. -/
def leaksAt (p : Program) (q : Nat) (st : State) : Bool :=
  (p.shownAt .speculative q st).isSecret && (p.siteAt? q).any (st.seen · != .eqHigh)

/-- Speculation that starts at `x` in the state `R` comes to an instruction after `n` others, in
    some state. -/
inductive Walk (p : Program) (x : Nat) (R : State) : (n q : Nat) → State → Prop where
  | start : Walk p x R 0 x R
  | step {n q q' : Nat} {st : State} (before : Walk p x R n q st) (passes : p.Passes q q') :
      Walk p x R (n + 1) q' (p.execute .speculative q st)

theorem Walk.lt {p : Program} {b x n q : Nat} {R st : State} (h : p.Walk x R n q st)
    (hx : x ∈ p.successors b) : q < p.length := by
  cases h with
  | start => exact (lt_of_mem_successors hx).2
  | step before passes => exact (lt_of_mem_successors passes.1).2

end MuAsm.Program

namespace Setup

variable {p : Program} {s t : Setup} {entry r r' k : Key} {b q : Nat} {R st τ : State}

/-- At the point `k` the instruction at `q` is executed. -/
def Executes (p : Program) (s : Setup) (k : Key) (q : Nat) : Prop := s.executed? k = p.executed? q

theorem Executes.advance_eq (h : s.Executes p k q) : s.advance k st = p.execute k.mode q st := by
  rw [Executes] at h
  cases hq : p.executed? q <;> simp only [advance, Program.execute, h, hq]

theorem Executes.site?_eq (h : s.Executes p k q) : s.site? k = p.siteAt? q := by
  rw [Executes] at h
  cases hq : p.executed? q <;> simp only [site?, Program.siteAt?, h, hq]

theorem Executes.shown_eq (h : s.Executes p k q) : s.shown k st = p.shownAt k.mode q st := by
  rw [Executes] at h
  cases hq : p.executed? q <;> simp only [shown, Program.shownAt, h, hq]

/-- At the point `k` speculation executes the instruction at `q`. -/
structure StandsFor (p : Program) (s : Setup) (k : Key) (q : Nat) : Prop where
  speculative : k.mode = .speculative
  executes : s.Executes p k q

theorem StandsFor.advance_eq (h : StandsFor p s k q) :
    s.advance k st = p.execute .speculative q st := by
  rw [h.executes.advance_eq, h.speculative]

theorem StandsFor.leaks_eq (h : StandsFor p s k q) : s.leaks k st = p.leaksAt q st := by
  rw [leaks, h.executes.shown_eq, h.executes.site?_eq, Key.isSpeculative, h.speculative]
  rfl

theorem executes_of_node {e : MuAsm.Entry} {n : Node} (hn : s.graph.node? k.node = some n)
    (he : p.entry? q = some e) (hi : n.executes = .ok (some e.instr))
    (hpc : n.pc = Int64.ofNat q) : s.Executes p k q := by
  rw [Executes, executed?, hn, Program.executed?, Program.instr?, he]
  dsimp only
  rw [hi, hpc]
  rfl

/-- The points at the node of an instruction execute it, whatever the mode. -/
theorem executes_of_stages {N : Node → Prop} {E : Edge → Prop} {c : SpecGraph}
    (h : Stages p N E c s.graph) (hc : c.FlowOf p) (hk : k.node < p.length) :
    s.Executes p k k.node := by
  obtain ⟨e, he, hn⟩ := h.exists_node hc hk
  exact executes_of_node hn he rfl (congrArg Int64.ofNat (hc.numbered k.node e he))

/-! ## Openings -/

/-- The committed points at the instructions of the program, and one point more. -/
def guides (p : Program) (r k : Key) : Bool :=
  (k.mode == .committed && k.frames == [] && k.node < p.length) || k == r

theorem guides_iff : guides p r k = true ↔ (∃ q < p.length, k = ⟨q, .committed, []⟩) ∨ k = r := by
  obtain ⟨node, mode, frames⟩ := k
  simp only [guides, Bool.or_eq_true, Bool.and_eq_true, beq_iff_eq, decide_eq_true_eq, Key.mk.injEq]
  constructor
  · rintro (⟨⟨hmode, hframes⟩, hlt⟩ | h)
    · exact .inl ⟨node, hlt, rfl, hmode, hframes⟩
    · exact .inr h
  · rintro (⟨q, hlt, rfl, hmode, hframes⟩ | h)
    · exact .inl ⟨⟨hmode, hframes⟩, hlt⟩
    · exact .inr h

/-- Committed points are at the instructions of the program, and no rollback leads back to them. -/
structure OnFlow (p : Program) (s : Setup) (entry : Key) : Prop where
  noRollback : s.graph.NoRollback
  node : ∀ q < p.length, ∃ e, p.entry? q = some e ∧ s.graph.node? q = some (Draft.committedNode e)
  starts : ∃ q < p.length, entry = ⟨q, .committed, []⟩
  stored : ∀ k st, s.Stores entry k st → k.mode = .committed →
    ∃ q < p.length, k = ⟨q, .committed, []⟩

theorem onFlow_of_stages {N : Node → Prop} {E : Edge → Prop} {c g : SpecGraph} {o : Options}
    (h : Stages p N E c g) (hc : c.FlowOf p) (hg : g.NoRollback) (hvalid : g.validate = .ok ())
    (hentry : (Setup.of c o).entryKey = .ok (some entry)) : (Setup.of g o).OnFlow p entry := by
  have hstored : ∀ k st, (Setup.of g o).Stores entry k st → k.mode = .committed →
      ∃ q < p.length, k = ⟨q, .committed, []⟩ := by
    intro k st hst hmode
    obtain ⟨hframes, hlt⟩ := h.instr_of_stores hc hvalid hentry hst hmode
    exact ⟨k.node, hlt, by rw [← hmode, ← hframes]⟩
  exact ⟨hg, fun q hq => h.exists_node hc hq,
    hstored entry _ .start (h.core.exists_node_of_entryKey hentry).1, hstored⟩

/-- Speculation on the branch at `b`, and on no other, opens at the point `r`. -/
structure Opening (p : Program) (s : Setup) (entry : Key) (b : Nat) (r : Key) : Prop where
  speculative : r.mode = .speculative
  outside : p.length ≤ r.node
  moves : ∀ q < p.length, ∀ move, move ∈ s.moves ⟨q, .committed, []⟩ ∧ guides p r move.1 = true ↔
    (∃ x ∈ p.successors q, move = (⟨x, .committed, []⟩, .full)) ∨ q = b ∧ move = (r, .full)
  alone : ∀ k st, s.Stores entry k st → s.Follows k r → k.mode = .committed
  leaves : ¬ s.Follows r r

/-- The point for which a guide of the one analysis stands in the other. -/
def exchange (r r' k : Key) : Key := if k = r then r' else k

theorem exchange_self : exchange r r' r = r' := if_pos rfl

theorem exchange_committed (hr : r.mode = .speculative) (q : Nat) :
    exchange r r' ⟨q, .committed, []⟩ = ⟨q, .committed, []⟩ := by
  refine if_neg ?_
  rintro rfl
  cases hr

namespace Opening

/-- The guides among the moves from an instruction are its successors and then the opening. -/
theorem pairwise_exchange (h : s.Opening p entry b r) (h' : t.Opening p entry b r')
    (hq : q < p.length) :
    (((s.moves ⟨q, .committed, []⟩).filter fun move => guides p r move.1).map
      (Prod.map (exchange r r') id)).Pairwise fun x y => x.1.node < y.1.node := by
  rw [List.pairwise_map]
  refine ((pairwise_moves rfl).sublist List.filter_sublist).imp_of_mem ?_
  intro move move' hmove hmove' hlt
  have hcases := (h.moves q hq move).1 (List.mem_filter.1 hmove)
  rcases (h.moves q hq move').1 (List.mem_filter.1 hmove') with ⟨x', hx', rfl⟩ | ⟨-, rfl⟩
  · rcases hcases with ⟨x, -, rfl⟩ | ⟨-, rfl⟩
    · dsimp only [Prod.map]
      rw [exchange_committed h.speculative, exchange_committed h.speculative]
      exact hlt
    · have hlen := (Program.lt_of_mem_successors hx').2
      have hout := h.outside
      dsimp only at hlt
      omega
  · rcases hcases with ⟨x, hx, rfl⟩ | ⟨-, rfl⟩
    · have hlen := (Program.lt_of_mem_successors hx).2
      have hout := h'.outside
      dsimp only [Prod.map]
      rw [exchange_committed h.speculative, exchange_self]
      dsimp only
      omega
    · exact absurd hlt (lt_irrefl _)

theorem moves_eq (h : s.Opening p entry b r) (h' : t.Opening p entry b r') (hq : q < p.length) :
    (t.moves ⟨q, .committed, []⟩).filter (fun move => guides p r' move.1) =
      ((s.moves ⟨q, .committed, []⟩).filter fun move => guides p r move.1).map
        (Prod.map (exchange r r') id) := by
  have : Std.Irrefl fun x y : Key × Payload => x.1.node < y.1.node := ⟨fun _ => lt_irrefl _⟩
  have : Std.Antisymm fun x y : Key × Payload => x.1.node < y.1.node :=
    ⟨fun _ _ hlt hlt' => absurd hlt' (lt_asymm hlt)⟩
  refine ((pairwise_moves rfl).sublist List.filter_sublist).eq_of_mem_iff
    (pairwise_exchange h h' hq) fun move => ?_
  rw [List.mem_filter, h'.moves q hq, List.mem_map]
  constructor
  · rintro (⟨x, hx, rfl⟩ | ⟨hb, rfl⟩)
    · refine ⟨_, List.mem_filter.2 ((h.moves q hq _).2 (.inl ⟨x, hx, rfl⟩)), ?_⟩
      rw [Prod.map, exchange_committed h.speculative]
      rfl
    · refine ⟨_, List.mem_filter.2 ((h.moves q hq _).2 (.inr ⟨hb, rfl⟩)), ?_⟩
      rw [Prod.map, exchange_self]
      rfl
  · rintro ⟨move', hmove', rfl⟩
    rcases (h.moves q hq move').1 (List.mem_filter.1 hmove') with ⟨x, hx, rfl⟩ | ⟨hb, rfl⟩
    · refine .inl ⟨x, hx, ?_⟩
      rw [Prod.map, exchange_committed h.speculative]
      rfl
    · refine .inr ⟨hb, ?_⟩
      rw [Prod.map, exchange_self]
      rfl

/-- From an opening no guide follows. -/
theorem filter_moves_eq_nil (h : s.Opening p entry b r) (hg : s.graph.NoRollback) :
    (s.moves r).filter (fun move => guides p r move.1) = [] := by
  rw [List.filter_eq_nil_iff]
  rintro ⟨target, payload⟩ hmove hguides
  rcases guides_iff.1 hguides with ⟨q, -, rfl⟩ | rfl
  · cases mode_of_move_of_speculative hg h.speculative hmove
  · exact h.leaves (follows_of_move hmove)

/-- No other point that is reached leads to guides. -/
theorem closed (h : s.Opening p entry b r) (hs : s.OnFlow p entry) {target : Key}
    {payload : Payload} (hst : s.Stores entry k st) (hk : guides p r k = false)
    (hmove : (target, payload) ∈ s.moves k) : guides p r target = false := by
  have hmode : k.mode = .speculative := by
    cases hmode : k.mode with
    | speculative => rfl
    | committed =>
      rw [guides_iff.2 (.inl (hs.stored k st hst hmode))] at hk
      cases hk
  rw [← Bool.not_eq_true]
  intro htarget
  rcases guides_iff.1 htarget with ⟨q, -, rfl⟩ | rfl
  · cases mode_of_move_of_speculative hs.noRollback hmode hmove
  · cases (h.alone k st hst (follows_of_move hmove)).symm.trans hmode

/-- Two analyses visit committed points and openings for one branch in step. -/
theorem twins (h : s.Opening p entry b r) (h' : t.Opening p entry b r') (hs : s.OnFlow p entry)
    (ht : t.OnFlow p entry) (hinitial : t.initial = s.initial)
    (horder : t.options.traceMode = s.options.traceMode) :
    s.Twins t entry (guides p r) (guides p r') (exchange r r') := by
  obtain ⟨q₀, hq₀, hentry⟩ := hs.starts
  have hstart : exchange r r' entry = entry := by rw [hentry, exchange_committed h.speculative]
  refine ⟨hinitial, horder, guides_iff.2 (.inl ⟨q₀, hq₀, hentry⟩), fun k hk => ?_,
    fun k k' hk hk' heq => ?_, fun k hk => ?_, fun k hk hne st => ?_,
    fun k st target payload hst hk hmove => h.closed hs hst hk hmove,
    fun k st target payload hst hk hmove => h'.closed ht (hstart ▸ hst) hk hmove⟩
  · rcases guides_iff.1 hk with ⟨q, hq, rfl⟩ | rfl
    · rw [exchange_committed h.speculative]
      exact guides_iff.2 (.inl ⟨q, hq, rfl⟩)
    · rw [exchange_self]
      exact guides_iff.2 (.inr rfl)
  · rcases guides_iff.1 hk with ⟨q, hq, rfl⟩ | rfl
    · rw [exchange_committed h.speculative] at heq
      rcases guides_iff.1 hk' with ⟨q', hq', rfl⟩ | rfl
      · rwa [exchange_committed h.speculative] at heq
      · rw [exchange_self] at heq
        cases heq ▸ h'.speculative
    · rcases guides_iff.1 hk' with ⟨q', hq', rfl⟩ | rfl
      · rw [exchange_committed h.speculative, exchange_self] at heq
        cases heq ▸ h'.speculative
      · rfl
  · rcases guides_iff.1 hk with ⟨q, hq, rfl⟩ | rfl
    · rw [exchange_committed h.speculative]
      exact h.moves_eq h' hq
    · rw [exchange_self, h'.filter_moves_eq_nil ht.noRollback,
        h.filter_moves_eq_nil hs.noRollback]
      rfl
  · rcases guides_iff.1 hk with ⟨q, hq, rfl⟩ | rfl
    · obtain ⟨e, he, hn⟩ := hs.node q hq
      obtain ⟨e', he', hn'⟩ := ht.node q hq
      cases he.symm.trans he'
      rw [exchange_committed h.speculative, after_of_node hn', after_of_node hn]
    · exact absurd (h.filter_moves_eq_nil hs.noRollback) hne

end Opening

/-! ## Faithful analyses -/

/-- The analysis follows the walks of the program, and no others. -/
structure Faithful (p : Program) (s : Setup) (entry : Key) : Prop where
  flow : s.OnFlow p entry
  /-- What leaks behind an opening leaks on a walk. -/
  sound : ∀ r R k τ, s.Opens entry r → s.Trail r R k τ → s.leaks k τ = true →
    ∃ b x n q, p.IsBranchAt b ∧ x ∈ p.successors b ∧ s.Opening p entry b r ∧ n < s.window ∧
      p.Walk x R n q τ ∧ p.leaksAt q τ = true
  /-- Every walk that fits into the window climbs the layers of an opening. -/
  complete : ∀ b x, p.IsBranchAt b → x ∈ p.successors b → ∃ r layer Spare,
    s.Opening p entry b r ∧ s.Layered entry r layer Spare ∧
      ∀ R n q τ, p.Walk x R n q τ → n < s.window → ∃ k, s.StandsFor p k q ∧ s.Climbs layer r R k τ

/-- If one of two faithful analyses ends secure, the other one finds no violation. -/
theorem Faithful.not_violation_of_secure {cap cap' : Option Nat} {late late' : Error}
    {fuel fuel' : Nat} (hs : s.Faithful p entry) (ht : t.Faithful p entry)
    (hinitial : t.initial = s.initial) (horder : t.options.traceMode = s.options.traceMode)
    (hwindow : t.window = s.window) (hharmless : s.initial.Harmless)
    (hdefinite : s.initial.Definite)
    (hsecure : ((start t entry).run t cap' late' fuel').outcome = .ok .secure) :
    ((start s entry).run s cap late fuel).outcome ≠ .ok .violation := by
  intro hviolation
  obtain ⟨q₀, -, hentry⟩ := hs.flow.starts
  have hcommitted : entry.mode = .committed := hentry ▸ rfl
  obtain ⟨r, R, k, τ, hopens, hcomes, htrail, hleak⟩ :=
    exists_trail_of_violation hs.flow.noRollback hharmless hcommitted hviolation
  obtain ⟨b, x, n, q, hb, hx, hr, hn, hwalk, hleak'⟩ := hs.sound r R k τ hopens htrail hleak
  obtain ⟨r', layer, Spare, hr', hlayered, hclimbs⟩ := ht.complete b x hb hx
  obtain ⟨k', hk', hclimb⟩ := hclimbs R n q τ hwalk (hwindow.symm ▸ hn)
  -- the opening comes up in the same state
  have hstart : exchange r r' entry = entry := by rw [hentry, exchange_committed hr.speculative]
  have htwins := hr.twins hr' hs.flow ht.flow hinitial horder
  have hcomes' := htwins.comesUp (hstart.symm ▸ hsecure) (guides_iff.2 (.inr rfl)) hcomes
  rw [hstart, exchange_self] at hcomes'
  have hR : R.Definite := (hcomes.stores .start).definite hdefinite
  have hquiet := hlayered.leaks_eq_false ht.flow.noRollback (hinitial ▸ hharmless) hsecure hcomes'
    hclimb (shown_ne_bot (hclimb.trail.definite hR))
  rw [hk'.leaks_eq, hleak'] at hquiet
  cases hquiet

end Setup

end Mispredict
