/-
  Fences.

  If every branch is followed by barriers, in both directions, speculation comes no further than
  to a barrier: what it visits are markers and barriers only (`Stores.fenced_light`,
  `Stores.fenced_unrolled`). These show nothing to an observer. So no analysis of such a program
  finds a violation, whatever the layout, the mode, the windows, the policy and the order of
  visits (`verdict_ne_violation_of_fenced`).
-/
import Mispredict.Proofs.LightWindow
import Mispredict.Proofs.UnrolledMoves

namespace Mispredict

open MuAsm (Program)

open SpecGraph Draft

/-- Whatever instruction of the program can follow a branch is a barrier. -/
def MuAsm.Program.Fenced (p : Program) : Prop :=
  ∀ pc < p.length, (p.instr? pc).any (·.isBranch) = true →
    ∀ x ∈ p.successors pc, p.instr? x = some .spbarr

instance (p : Program) : Decidable p.Fenced :=
  inferInstanceAs (Decidable (∀ pc < p.length, (p.instr? pc).any (·.isBranch) = true →
    ∀ x ∈ p.successors pc, p.instr? x = some .spbarr))

theorem MuAsm.Program.Fenced.barrier {p : Program} (h : p.Fenced) {pc x : Nat}
    (hpc : p.IsBranchAt pc) (hx : x ∈ p.successors pc) : p.instr? x = some .spbarr :=
  h pc (lt_of_mem_successors hx).1 ((Option.any_eq_true _ _).2 hpc) x hx

namespace Setup

variable {p : Program} {c g : SpecGraph} {o : Options} {entry k : Key} {st : State}

/-- Nothing is shown where nothing is executed, nor at a barrier. -/
theorem site?_eq_none {s : Setup} {n : Node} {i : Option MuAsm.Instr}
    (hn : s.graph.node? k.node = some n) (hi : n.executes = .ok i)
    (hquiet : i = none ∨ i = some .spbarr) : s.site? k = none := by
  rw [site?, executed?, hn]
  dsimp only
  rw [hi]
  rcases hquiet with rfl | rfl <;> rfl

theorem Stores.fenced_light {mode : SpeculationMode} (hlight : IsLight p mode c g)
    (hfenced : p.Fenced) (hvalid : g.validate = .ok ())
    (hentry : (Setup.of c o).entryKey = .ok (some entry))
    (hst : (Setup.of g o).Stores entry k st) (hmode : k.mode = .speculative) :
    p.instr? k.node = some .spbarr ∨ ¬ k.node < p.length := by
  have hlight' : IsLight p mode c (Setup.of g o).graph := hlight
  induction hst with
  | start =>
    obtain ⟨hcommitted, -⟩ := hlight.stages.core.exists_node_of_entryKey hentry
    cases hmode.symm.trans hcommitted
  | @pass k target st out payload old visited after violation move held ih ihheld =>
    have hcommitted := hlight.stages.instr_of_stores hlight.flow hvalid hentry visited
    cases hlight'.lightMove_of_mem hcommitted move with
    | commits | returns => cases hmode
    | mispredicts branch node => exact .inr (not_lt_of_marker hlight' node rfl)
    | squashes instr branch node => exact .inr (not_lt_of_marker hlight' node rfl)
    | skips branch begins node => exact .inr (not_lt_of_marker hlight' node rfl)
    | nests branch node => exact .inr (not_lt_of_marker hlight' node rfl)
    | starts branch node follows =>
      have hbranch := (mem_branches_iff hlight.flow.numbered).1 branch.mem
      exact .inl (hfenced.barrier hbranch follows)
    | passes passes =>
      -- speculation does not pass a barrier
      rcases ih rfl with hbarr | hmarker
      · exact absurd hbarr passes.2
      · exact absurd (Program.lt_of_mem_successors passes.1).1 hmarker

theorem Stores.fenced_unrolled {window : Nat} {budget : Nat → Nat → Nat}
    (hunrolled : IsUnrolled p window budget c g) (hfenced : p.Fenced)
    (hvalid : g.validate = .ok ()) (hentry : (Setup.of c o).entryKey = .ok (some entry))
    (hst : (Setup.of g o).Stores entry k st) (hmode : k.mode = .speculative) :
    ∃ context q, LaidAt p (Setup.of g o) context q k.node ∧ p.instr? q = some .spbarr := by
  have hunrolled' : IsUnrolled p window budget c (Setup.of g o).graph := hunrolled
  induction hst with
  | start =>
    obtain ⟨hcommitted, -⟩ := hunrolled.stages.core.exists_node_of_entryKey hentry
    cases hmode.symm.trans hcommitted
  | @pass k target st out payload old visited after violation move held ih ihheld =>
    cases hunrolled'.pathMove_of_mem (visited.pathSpot hunrolled hvalid hentry) move with
    | commits | returns => cases hmode
    | leaves branch follows node => exact ⟨_, _, node, hfenced.barrier branch follows⟩
    | goesOn source passes =>
      obtain ⟨context, q, hlaid, hbarr⟩ := ih rfl
      obtain ⟨-, rfl⟩ := hlaid.unique source
      exact absurd hbarr passes.2

end Setup

/-- No analysis of a fenced program finds a violation. -/
theorem verdict_ne_violation_of_fenced {source : String} {p : Program} {b : BuildOptions}
    {o : Options} {g : SpecGraph} (hsource : MuAsm.Addressable source)
    (hp : Program.parse source = .ok p) (hfenced : p.Fenced)
    (hg : (SpecGraph.buildSource source b).result = .ok g) (ho : o.EntersCommitted g) :
    (g.analyze o).result.verdict ≠ .violation := by
  intro hviolation
  have houtcome := SpecGraph.verdict_eq_violation_iff.1 hviolation
  rcases (Setup.of g o).run_cases with ⟨-, hnot⟩ | ⟨entry, hentry⟩
  · exact hnot houtcome
  obtain ⟨k, st, out, hst, hafter, hv⟩ := Setup.exists_violation_of_outcome hentry houtcome
  have hstores := Setup.stores_of_mem_table hentry hst
  have hkey := Setup.entryKey_of_checkedEntry hentry
  have hvalid := validate_of_checkedEntry hentry
  rw [Setup.hasViolation_after (hstores.harmless (State.harmless_seeded _ _)) hafter] at hv
  obtain ⟨hmode, -, site, hsite, -⟩ := Setup.leaks_iff.1 hv
  cases hlayout : b.layout with
  | light =>
    obtain ⟨c, hlight⟩ := exists_isLight hsource hp hlayout hg
    rw [← hlight.stages.core.entryKey_eq ho] at hkey
    rcases hstores.fenced_light hlight hfenced hvalid hkey hmode with hbarr | hmarker
    · obtain ⟨e, he, hn⟩ := hlight.stages.exists_node hlight.flow (Program.lt_of_instr? hbarr)
      rw [Program.instr?, he, Option.map_some] at hbarr
      cases hsite.symm.trans (Setup.site?_eq_none hn rfl (.inr hbarr))
    · obtain ⟨n, hn, -⟩ := Setup.after_eq_ok_iff.1 hafter
      rcases hlight.stages.node_cases hn with hc | hspec
      · rw [hlight.flow.node] at hc
        obtain ⟨e, he, -⟩ := Option.map_eq_some_iff.1 hc
        exact hmarker (List.getElem?_eq_some_iff.1 he).1
      · have hexecutes : n.executes = .ok none := by cases hspec <;> rfl
        cases hsite.symm.trans (Setup.site?_eq_none hn hexecutes (.inl rfl))
  | unrolled =>
    obtain ⟨budget, c, hunrolled⟩ := exists_isUnrolled hsource hp hlayout hg
    rw [← hunrolled.stages.core.entryKey_eq ho] at hkey
    obtain ⟨context, q, ⟨e, w, he, -, hn⟩, hbarr⟩ :=
      hstores.fenced_unrolled hunrolled hfenced hvalid hkey hmode
    rw [Program.instr?, he, Option.map_some] at hbarr
    cases hsite.symm.trans (Setup.site?_eq_none hn rfl (.inr hbarr))

/-- Both directions of each branch come to a barrier before they load the secret; the second branch
    has only one direction inside of the program. -/
def guarded : String :=
  "beqz c, T\nspbarr\nload x, secret\nT: spbarr\nload y, secret + x\nbeqz y, E\nspbarr\nE:"

def guardedProgram : Program := (Program.parse guarded).toOption.getD ⟨[], ∅⟩

def guardedBuild : BuildOptions := { layout := .unrolled, speculation := .stackGuard }

def guardedGraph : SpecGraph :=
  (SpecGraph.buildSource guarded guardedBuild).result.toOption.getD .empty

def guardedOptions : Options :=
  { policy := Policy.empty.setCell "secret" .high, speculation := .stackGuard,
    entryNode := some "n0" }

theorem verdict_guarded :
    guardedProgram.Fenced ∧ (guardedGraph.analyze guardedOptions).result.error = none ∧
      (guardedGraph.analyze guardedOptions).result.verdict ≠ .violation := by
  have hp : Program.parse guarded = .ok guardedProgram :=
    Program.parse_eq_ok (by decide +kernel)
  have hg : (SpecGraph.buildSource guarded guardedBuild).result = .ok guardedGraph :=
    SpecGraph.buildSource_eq_ok (by decide +kernel)
  have hfenced : guardedProgram.Fenced := by decide +kernel
  have hentry : (guardedGraph.find? "n0").any (·.2.kind == .committed) = true := by decide +kernel
  refine ⟨hfenced, by decide +kernel,
    verdict_ne_violation_of_fenced (by decide +kernel) hp hfenced hg ?_⟩
  rintro id ⟨rfl⟩
  obtain ⟨⟨i, n⟩, hfind, hkind⟩ := (Option.any_eq_true _ _).1 hentry
  exact ⟨i, n, hfind, by simpa using hkind⟩

end Mispredict
