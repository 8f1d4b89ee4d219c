/-
  What committed execution takes over from speculation.

  A rollback discards registers and memory. So the committed steps of an analysis should hold
  nothing that committed execution alone does not have at the same node. That is the case if
  the graph is unrolled or points are visited first in, first out. In a light graph that is
  visited last in, first out, a rollback can be the first to reach its branch, in a nested
  context. The state at the start is then invented there, and it may hold what committed
  execution has overwritten on its way (`holdsNoMore_iff_inventsNoMore`).
-/
import Mispredict.Proofs.Light
import Mispredict.Proofs.Unrolled

namespace Mispredict

namespace SpecGraph

open Draft Machine

/-- Nothing is invented in an unrolled graph, nor in any graph that is built if points are visited
    first in, first out. -/
theorem not_invents_of_stages {p : MuAsm.Program} {mode : SpeculationMode} {layout : Layout}
    {forks : List Fork} {c g : SpecGraph} {o : Options} {entry : Key}
    (h : Stages p (SpecNode p layout) (SpecEdge p mode forks layout) c g)
    (hentry : (Setup.of c o).entryKey = .ok (some entry)) (hvalid : g.validate = .ok ())
    (hmode : layout = .unrolled ∨ o.traceMode = .breadthFirst) (cap : Option Nat) (q : Key) :
    ¬ Invents (Setup.of g o) cap entry q := by
  cases layout with
  | light =>
    have horder : o.traceMode = .breadthFirst := hmode.resolve_left nofun
    exact Stages.not_invents_light h hvalid hentry horder q
  | unrolled => exact Stages.not_invents_unrolled h hvalid hentry q

end SpecGraph

open SpecGraph in
/-- The committed steps of an analysis of a graph that is built hold no more than the last steps at
    their nodes in the analysis of the committed part, exactly if this is so of the states that
    rollbacks invent. In an unrolled graph, and if points are visited first in, first out, it is
    always so. -/
theorem holdsNoMore_iff_inventsNoMore (source : String) (b : BuildOptions) (o : Options)
    (g : SpecGraph) (hg : (SpecGraph.buildSource source b).result = .ok g)
    (ho : o.EntersCommitted g) (hwhole : (g.analyze o).result.error = none) :
    ∃ c, g.committedPart = .ok c ∧ ((c.analyze o).result.error = none →
      (HoldsNoMore (g.analyze o).result.trace (c.analyze o).result.trace ↔
        (Setup.of g o).InventsNoMore (c.analyze o).result.trace) ∧
      (b.layout = .unrolled ∨ o.traceMode = .breadthFirst →
        HoldsNoMore (g.analyze o).result.trace (c.analyze o).result.trace)) := by
  obtain ⟨p, forks, c, hc, hstages⟩ := SpecGraph.exists_stages hg
  refine ⟨c, hc, fun hpart => ?_⟩
  rcases (Setup.of g o).run_cases with ⟨hmachine, -⟩ | ⟨entry, hentry⟩
  · -- an analysis that does not start has no steps
    have htrace : (g.analyze o).result.trace = [] := by
      simp only [analyze, Report.ofFinished, hmachine]
      rfl
    have hnone : HoldsNoMore (g.analyze o).result.trace (c.analyze o).result.trace := by
      rw [htrace]
      exact fun _ hstep => absurd hstep List.not_mem_nil
    refine ⟨⟨fun _ k n _ _ => ?_, fun _ => hnone⟩, fun _ => hnone⟩
    rintro ⟨step, hstep, -⟩
    rw [hmachine] at hstep
    cases hstep
  · have hkey : (Setup.of c o).entryKey = .ok (some entry) :=
      (hstages.core.entryKey_eq ho).trans (Setup.entryKey_of_checkedEntry hentry)
    have hpart := outcome_of_error_eq_none hpart
    have hentry' := Setup.checkedEntry_of_outcome hkey hpart
    have hiff := hstages.core.holdsNoMore_iff hentry' (hstages.core.secure_of_outcome hentry' hpart)
      hentry (outcome_of_error_eq_none hwhole)
    refine ⟨hiff, fun hmode => hiff.2 ?_⟩
    rintro k n ⟨entry', hentry'', hinvents⟩
    cases hentry.symm.trans hentry''
    exact absurd hinvents
      (not_invents_of_stages hstages hkey (validate_of_checkedEntry hentry) hmode _ k)

/-- The second branch is nested in the speculation on the first one. On the way to it committed
    execution overwrites the secret in `x`. -/
def overtaken : String := "beqz c, S\nS: x <- 0\ny <- h\nbeqz d, E\nE: skip"

def overtakenBuild : BuildOptions := { speculation := .stackGuard }

def overtakenGraph : SpecGraph :=
  (SpecGraph.buildSource overtaken overtakenBuild).result.toOption.getD .empty

def overtakenOptions (order : TraceMode) : Options :=
  { policy := (Policy.empty.setReg "x" .high).setReg "h" .high, speculation := .stackGuard,
    traceMode := order }

/-- Whether some committed step of a trace has a register at a higher level than the last step at
    its node in the other trace. -/
def someHigher (reg : String) (trace last : List Step) : Bool :=
  trace.any fun step => step.mode == .committed &&
    (lastAt? last step.nodeId).all fun step' =>
      (step'.state.reg reg).committed.height < (step.state.reg reg).committed.height

theorem not_holdsNoMore_of_someHigher {reg : String} {trace last : List Step}
    (h : someHigher reg trace last = true) : ¬ HoldsNoMore trace last := by
  intro hle
  obtain ⟨step, hstep, hhigher⟩ := List.any_eq_true.1 h
  rw [Bool.and_eq_true, beq_iff_eq] at hhigher
  obtain ⟨hmode, hhigher⟩ := hhigher
  obtain ⟨step', hlast, hle⟩ := hle step hstep hmode
  rw [hlast, Option.all_some, decide_eq_true_iff] at hhigher
  have hlevel := Level.le_iff_height_le.1 (Value.le_iff.1 (hle.reg reg)).1
  omega

/-- Last in, first out, the analysis of `overtaken` ends with the secret in `x` at the last
    instruction; first in, first out, it does not. -/
theorem not_inventsNoMore_overtaken :
    (SpecGraph.buildSource overtaken overtakenBuild).result = .ok overtakenGraph ∧
      ∃ c, overtakenGraph.committedPart = .ok c ∧
        (∀ order, (overtakenOptions order).EntersCommitted overtakenGraph ∧
          (overtakenGraph.analyze (overtakenOptions order)).result.error = none ∧
          (c.analyze (overtakenOptions order)).result.error = none) ∧
        ¬ HoldsNoMore (overtakenGraph.analyze (overtakenOptions .singlePath)).result.trace
          (c.analyze (overtakenOptions .singlePath)).result.trace ∧
        ¬ (Setup.of overtakenGraph (overtakenOptions .singlePath)).InventsNoMore
          (c.analyze (overtakenOptions .singlePath)).result.trace ∧
        HoldsNoMore (overtakenGraph.analyze (overtakenOptions .breadthFirst)).result.trace
          (c.analyze (overtakenOptions .breadthFirst)).result.trace := by
  have hg : (SpecGraph.buildSource overtaken overtakenBuild).result = .ok overtakenGraph :=
    SpecGraph.buildSource_eq_ok (by decide +kernel)
  have ho : ∀ order, (overtakenOptions order).EntersCommitted overtakenGraph := by
    rintro order id ⟨⟩
  have hends : ∀ order, (overtakenGraph.analyze (overtakenOptions order)).result.error = none ∧
      ((overtakenGraph.committedPart.toOption.getD .empty).analyze
        (overtakenOptions order)).result.error = none := by
    rintro (_ | _) <;> decide +kernel
  have hhigher : someHigher "x"
      (overtakenGraph.analyze (overtakenOptions .singlePath)).result.trace
      ((overtakenGraph.committedPart.toOption.getD .empty).analyze
        (overtakenOptions .singlePath)).result.trace = true := by decide +kernel
  obtain ⟨c, hc, hiff⟩ := holdsNoMore_iff_inventsNoMore overtaken overtakenBuild
    (overtakenOptions .singlePath) overtakenGraph hg (ho _) (hends _).1
  obtain ⟨c', hc', hfifo⟩ := holdsNoMore_iff_inventsNoMore overtaken overtakenBuild
    (overtakenOptions .breadthFirst) overtakenGraph hg (ho _) (hends _).1
  cases hc.symm.trans hc'
  rw [hc] at hends hhigher
  have hmore := not_holdsNoMore_of_someHigher hhigher
  exact ⟨hg, c, hc, fun order => ⟨ho order, hends order⟩, hmore,
    fun hinvents => hmore ((hiff (hends _).2).1.2 hinvents), (hfifo (hends _).2).2 (.inr rfl)⟩

end Mispredict
