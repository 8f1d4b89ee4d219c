/-
  Two layouts of one program.

  Whatever the layout, the graph of a program that is built to discard mispredicted paths is
  faithful to the program, if it has been built for the window of the analysis
  (`faithful_of_buildSource`). So the two layouts give the same verdict. If mispredicted paths
  are rolled back, baselines can come to points of the one layout that they do not come to in
  the other. The verdicts are then still the same first in, first out, if no leak of the program
  is masked, since both say whether the program leaks (`verdict_light_eq_verdict_unrolled`).

  This needs a definite policy. The light layout has one point for all walks that come to an
  instruction in one context with the same part of the window left, where the unrolled layout
  may have several, and a register of level `bot` counts as a secret on one of these walks and
  as public at the point where they meet.
-/
import Mispredict.Proofs.Verdicts

namespace Mispredict

open MuAsm (Program)

open SpecGraph Draft

/-! ## Built graphs -/

namespace SpecGraph

variable {source : String} {p : Program} {b b' : BuildOptions} {o : Options} {g g' : SpecGraph}
  {entry : Key}

/-- Whatever the layout, a graph is faithful to its program. -/
theorem faithful_of_buildSource (hsource : MuAsm.Addressable source)
    (hp : Program.parse source = .ok p) (hb : b.speculation = .discard)
    (hwindow : o.specWindow ≤ b.windowSize)
    (hg : (buildSource source b).result = .ok g) (henters : o.EntersCommitted g)
    (hentry : (Setup.of g o).checkedEntry = .ok (some entry)) :
    (Setup.of g o).Faithful p entry := by
  have hnone : g.NoRollback := noRollback_of_buildSource hb hg
  have hvalid := validate_of_checkedEntry hentry
  have hkey := Setup.entryKey_of_checkedEntry hentry
  have hpos := Setup.window_pos hentry
  cases hlayout : b.layout with
  | light =>
    obtain ⟨c, hlight⟩ := exists_isLight hsource hp hlayout hg
    rw [← hlight.stages.core.entryKey_eq henters] at hkey
    exact Setup.faithful_light hlight
      (Setup.onFlow_of_stages hlight.stages hlight.flow hnone hvalid hkey) hpos
  | unrolled =>
    obtain ⟨budget, c, hunrolled⟩ := exists_isUnrolled hsource hp hlayout hg
    rw [← hunrolled.stages.core.entryKey_eq henters] at hkey
    obtain ⟨_, _, _, _, d, rfl, hcharted⟩ := exists_isCharted hp hlayout hg
    exact Setup.faithful_unrolled hunrolled
      (Setup.onFlow_of_stages hunrolled.stages hunrolled.flow hnone hvalid hkey) hcharted.ascends
      hpos (Int.toNat_le_toNat hwindow)

/-- Two graphs of one program have their committed part in common. -/
theorem exists_common_core (hp : Program.parse source = .ok p)
    (hg : (buildSource source b).result = .ok g) (hg' : (buildSource source b').result = .ok g') :
    ∃ c : SpecGraph, c.IsCore g ∧ c.IsCore g' := by
  obtain ⟨d, hd, rfl⟩ := exists_draft_of_parse hp hg
  obtain ⟨d', hd', rfl⟩ := exists_draft_of_parse hp hg'
  obtain ⟨d₀, forks, hd₀, hstages⟩ := Draft.exists_stages hd
  obtain ⟨d₀', forks', hd₀', hstages'⟩ := Draft.exists_stages hd'
  cases hd₀.symm.trans hd₀'
  exact ⟨d₀.graph, isCore_of_stages hd₀ hstages, isCore_of_stages hd₀ hstages'⟩

/-! ## Entries -/

theorem unrolledId_ne {context pc : Nat} {id : String} (h : id.toList[1]? = some 'p') :
    unrolledId context pc ≠ id := by
  rintro rfl
  have hmem : 'p' ∈ Nat.toDigits 10 context := by
    cases hdigits : Nat.toDigits 10 context with
    | nil => exact absurd hdigits Nat.toDigits_ne_nil
    | cons digit digits =>
      simp [unrolledId, hdigits] at h
      simp [h]
  exact absurd (Nat.isDigit_of_mem_toDigits (by decide) (by decide) hmem) (by decide)

/-- The two layouts have only committed nodes in common. -/
theorem kind_of_find? {mode : SpeculationMode} {window : Nat} {budget : Nat → Nat → Nat}
    {c c' : SpecGraph} {id : String} {i j : Nat} {n n' : Node} (hlight : IsLight p mode c g)
    (hunrolled : IsUnrolled p window budget c' g') (hn : g.find? id = some (i, n))
    (hn' : g'.find? id = some (j, n')) : n.kind = .committed ∧ n'.kind = .committed := by
  obtain ⟨hnode, rfl⟩ := hlight.stages.core.indexed.find?_eq_some_iff.1 hn
  obtain ⟨hnode', hid⟩ := hunrolled.stages.core.indexed.find?_eq_some_iff.1 hn'
  rcases hlight.stages.node_cases hnode with hc | hspec
  · obtain ⟨e, -, rfl⟩ := hlight.stages.exists_entry hc
    rcases hunrolled.stages.node_cases hnode' with hc' | ⟨pc, e', w, -, rfl⟩
    · exact ⟨rfl, (hunrolled.stages.core.node.1 hc').2⟩
    · exact absurd hid.symm (committedId_ne_unrolledId _ _ _)
  · have hletters : n.id.toList.head? = some 's' ∧ n.id.toList[1]? = some 'p' := by
      cases hspec with
      | begins => simp [beginNode, beginId]
      | ends => simp [endNode, endId]
    rcases hunrolled.stages.node_cases hnode' with hc' | ⟨pc, e', w, -, rfl⟩
    · obtain ⟨e', -, rfl⟩ := hunrolled.stages.exists_entry hc'
      exact absurd hid (committedId_ne hletters.1)
    · exact absurd hid (unrolledId_ne hletters.2)

theorem exists_find?_of_entryKey {id : String} {found : Option Key}
    (h : (Setup.of g o).entryKey = .ok found) (hid : o.entryNode = some id) :
    ∃ i n, g.find? id = some (i, n) := by
  unfold Setup.entryKey at h
  simp only [Setup.of, hid] at h
  cases hfind : g.find? id with
  | some found => exact ⟨found.1, found.2, rfl⟩
  | none =>
    rw [hfind] at h
    cases h

end SpecGraph

/-! ## Verdicts -/

namespace Setup

/-- If one of two faithful analyses ends secure, so does the other, unless there is an error. -/
theorem eq_secure_of_faithful {p : Program} {s t : Setup} {v : Verdict}
    (hstarts : t.checkedEntry = s.checkedEntry)
    (hfaithful : ∀ entry, s.checkedEntry = .ok (some entry) →
      s.Faithful p entry ∧ t.Faithful p entry)
    (hinitial : t.initial = s.initial) (horder : t.options.traceMode = s.options.traceMode)
    (hwindow : t.window = s.window) (hharmless : s.initial.Harmless)
    (hdefinite : s.initial.Definite) (hok : s.run.outcome = .ok v)
    (hsecure : t.run.outcome = .ok .secure) : v = .secure := by
  cases v with
  | secure => rfl
  | violation =>
    rcases s.run_cases with ⟨-, hnot⟩ | ⟨entry, hentry⟩
    · exact absurd hok hnot
    · obtain ⟨hs, ht⟩ := hfaithful entry hentry
      rw [run_of_entry hentry] at hok
      rw [run_of_entry (hstarts.trans hentry)] at hsecure
      exact absurd hok (hs.not_violation_of_secure ht hinitial horder hwindow hharmless hdefinite
        hsecure)

theorem exists_checkedEntry_of_outcome {s : Setup} {v : Verdict} (h : s.run.outcome = .ok v) :
    ∃ found, s.checkedEntry = .ok found := by
  cases hentry : s.checkedEntry with
  | ok found => exact ⟨found, rfl⟩
  | error e =>
    rw [run, hentry] at h
    cases h

end Setup

namespace SpecGraph

variable {source : String} {p : Program} {o : Options} {g g' : SpecGraph} {v v' : Verdict}

/-- An entry that both layouts have is a committed one. -/
theorem entersCommitted_of_layouts {mode : SpeculationMode} (hsource : MuAsm.Addressable source)
    (hp : Program.parse source = .ok p)
    (hg : (buildSource source ⟨o.specWindow, .light, mode⟩).result = .ok g)
    (hg' : (buildSource source ⟨o.specWindow, .unrolled, mode⟩).result = .ok g')
    (hok : (Setup.of g o).run.outcome = .ok v) (hok' : (Setup.of g' o).run.outcome = .ok v') :
    o.EntersCommitted g ∧ o.EntersCommitted g' := by
  obtain ⟨found, hfound⟩ := Setup.exists_checkedEntry_of_outcome hok
  obtain ⟨found', hfound'⟩ := Setup.exists_checkedEntry_of_outcome hok'
  obtain ⟨c₁, hlight⟩ := exists_isLight hsource hp rfl hg
  obtain ⟨budget, c₂, hunrolled⟩ := exists_isUnrolled hsource hp rfl hg'
  have hkinds : ∀ id, o.entryNode = some id → ∃ i n j n', g.find? id = some (i, n) ∧
      g'.find? id = some (j, n') ∧ n.kind = .committed ∧ n'.kind = .committed := by
    intro id hid
    obtain ⟨i, n, hn⟩ := exists_find?_of_entryKey (Setup.entryKey_of_checkedEntry hfound) hid
    obtain ⟨j, n', hn'⟩ := exists_find?_of_entryKey (Setup.entryKey_of_checkedEntry hfound') hid
    exact ⟨i, n, j, n', hn, hn', kind_of_find? hlight hunrolled hn hn'⟩
  refine ⟨fun id hid => ?_, fun id hid => ?_⟩
  · obtain ⟨i, n, -, -, hn, -, hkind, -⟩ := hkinds id hid
    exact ⟨i, n, hn, hkind⟩
  · obtain ⟨-, -, j, n', -, hn', -, hkind'⟩ := hkinds id hid
    exact ⟨j, n', hn', hkind'⟩

/-- The graphs of both layouts are faithful to the program, from the same entry. -/
theorem faithful_layouts (hsource : MuAsm.Addressable source)
    (hp : Program.parse source = .ok p)
    (hg : (buildSource source ⟨o.specWindow, .light, .discard⟩).result = .ok g)
    (hg' : (buildSource source ⟨o.specWindow, .unrolled, .discard⟩).result = .ok g')
    (hok : (Setup.of g o).run.outcome = .ok v) (hok' : (Setup.of g' o).run.outcome = .ok v') :
    (Setup.of g' o).initial = (Setup.of g o).initial ∧
      (Setup.of g' o).checkedEntry = (Setup.of g o).checkedEntry ∧
      ∀ entry, (Setup.of g o).checkedEntry = .ok (some entry) →
        (Setup.of g o).Faithful p entry ∧ (Setup.of g' o).Faithful p entry := by
  obtain ⟨henters, henters'⟩ := entersCommitted_of_layouts hsource hp hg hg' hok hok'
  obtain ⟨c, hcore, hcore'⟩ := exists_common_core hp hg hg'
  have hchecked : (Setup.of g' o).checkedEntry = (Setup.of g o).checkedEntry := by
    rw [← hcore.checkedEntry_eq (noRollback_of_buildSource rfl hg) henters,
      hcore'.checkedEntry_eq (noRollback_of_buildSource rfl hg') henters']
  refine ⟨(hcore'.initial_eq o).symm.trans (hcore.initial_eq o), hchecked, fun entry hentry => ?_⟩
  exact ⟨faithful_of_buildSource hsource hp rfl le_rfl hg henters hentry,
    faithful_of_buildSource hsource hp rfl le_rfl hg' henters' (hchecked.trans hentry)⟩

/-- If mispredicted paths are discarded, both layouts give the same verdict. -/
theorem verdict_eq_of_discard (hsource : MuAsm.Addressable source)
    (hp : Program.parse source = .ok p) (hpolicy : o.policy.Definite)
    (hg : (buildSource source ⟨o.specWindow, .light, .discard⟩).result = .ok g)
    (hg' : (buildSource source ⟨o.specWindow, .unrolled, .discard⟩).result = .ok g')
    (hok : (Setup.of g o).run.outcome = .ok v) (hok' : (Setup.of g' o).run.outcome = .ok v') :
    v = v' := by
  obtain ⟨hinitial, hstarts, hfaithful⟩ := faithful_layouts hsource hp hg hg' hok hok'
  have hdefinite : ∀ g, (Setup.of g o).initial.Definite :=
    fun g => State.definite_seeded hpolicy _
  cases v with
  | secure =>
    exact (Setup.eq_secure_of_faithful hstarts.symm
      (fun entry hentry => (hfaithful entry (hstarts.symm.trans hentry)).symm) hinitial.symm rfl rfl
      (State.harmless_seeded _ _) (hdefinite g') hok' hok).symm
  | violation =>
    cases v' with
    | violation => rfl
    | secure =>
      exact Setup.eq_secure_of_faithful hstarts hfaithful hinitial rfl rfl
        (State.harmless_seeded _ _) (hdefinite g) hok hok'

end SpecGraph

/-- Of a source that is built for the window of the analysis both layouts give the same verdict, if
    the policy is definite and mispredicted paths are discarded. If they are rolled back, it is
    enough that points are visited first in, first out and no leak of the program is masked. -/
theorem verdict_light_eq_verdict_unrolled (source : String) (o : Options) (mode : SpeculationMode)
    (hsource : MuAsm.Addressable source) (hpolicy : o.policy.Definite)
    (hmode : mode = .discard ∨ o.traceMode = .breadthFirst ∧
      ∀ p, Program.parse source = .ok p → p.UnmaskedFor o)
    (hok : (analyzeSource source ⟨o.specWindow, .light, mode⟩ o).result.error = none)
    (hok' : (analyzeSource source ⟨o.specWindow, .unrolled, mode⟩ o).result.error = none) :
    (analyzeSource source ⟨o.specWindow, .light, mode⟩ o).result.verdict =
      (analyzeSource source ⟨o.specWindow, .unrolled, mode⟩ o).result.verdict := by
  obtain ⟨g, hg⟩ := exists_graph_of_error_eq_none hok
  obtain ⟨g', hg'⟩ := exists_graph_of_error_eq_none hok'
  obtain ⟨p, hp⟩ := exists_parse_of_buildSource hg
  rw [analyzeSource_of_build hg] at hok ⊢
  rw [analyzeSource_of_build hg'] at hok' ⊢
  have hrun := outcome_of_error_eq_none hok
  have hrun' := outcome_of_error_eq_none hok'
  rcases hmode with rfl | ⟨horder, hclear⟩
  · exact verdict_eq_of_discard hsource hp hpolicy hg hg' hrun hrun'
  · -- both say whether the program leaks
    obtain ⟨henters, henters'⟩ := entersCommitted_of_layouts hsource hp hg hg' hrun hrun'
    have hiff := verdict_eq_violation_iff_leaksFor hsource hp le_rfl hg henters
      (.inr (.inr horder)) hpolicy (hclear p hp) hok
    have hiff' := verdict_eq_violation_iff_leaksFor hsource hp le_rfl hg' henters'
      (.inr (.inr horder)) hpolicy (hclear p hp) hok'
    exact Verdict.eq_of_violation_iff (hiff.trans hiff'.symm)

/-- A loop in which two branches are mispredicted before a secret is shown. -/
def stray : String := "L: beqz c, E\nx <- h\nbeqz d, L\nstore y, x\nE: skip"

def strayOptions : Options := { policy := Policy.empty.setReg "h" .high, specWindow := 3 }

/-- Both walks from the branch come to the store after one instruction, one with `x` cleared. -/
def sidestep : String := "beqz c, B\njmp J\nB: x <- 0\nJ: store y, x"

def sidestepOptions : Options := { policy := Policy.empty.setReg "x" .bot, specWindow := 2 }

/-- In the light layout the second branch is rolled back to before the store has been committed. -/
def relapse : String := "x <- 0\nbeqz d, C\nC: store y, x\nbeqz x, C"

def relapseOptions : Options :=
  { policy := Policy.empty.setReg "x" .high, traceMode := .singlePath, speculation := .stackGuard,
    specWindow := 3 }

/-- What is at `secret` is secret, and mispredicted paths are rolled back. -/
def lapseOptions : Options :=
  { policy := Policy.empty.setCell "secret" .high, speculation := .stackGuard, specWindow := 2 }

/-- The layouts agree about `stray`, and with rollbacks about `lapse`, which has no loops. They need
    not agree if the policy is not definite, nor last in, first out with rollbacks. -/
theorem verdict_stray_of_layouts :
    (analyzeSource stray ⟨3, .light, .discard⟩ strayOptions).result.verdict = .violation ∧
      (analyzeSource stray ⟨3, .unrolled, .discard⟩ strayOptions).result.verdict = .violation ∧
      (analyzeSource lapse ⟨2, .light, .stackGuard⟩ lapseOptions).result.verdict = .violation ∧
      (analyzeSource lapse ⟨2, .unrolled, .stackGuard⟩ lapseOptions).result.verdict =
        .violation ∧
      (analyzeSource sidestep ⟨2, .light, .discard⟩ sidestepOptions).result.isSecure = true ∧
      (analyzeSource sidestep ⟨2, .unrolled, .discard⟩ sidestepOptions).result.verdict =
        .violation ∧
      (analyzeSource relapse ⟨3, .light, .stackGuard⟩ relapseOptions).result.verdict =
        .violation ∧
      (analyzeSource relapse ⟨3, .unrolled, .stackGuard⟩ relapseOptions).result.isSecure =
        true := by
  have hlight : (analyzeSource stray ⟨3, .light, .discard⟩ strayOptions).result.error = none ∧
      (analyzeSource stray ⟨3, .light, .discard⟩ strayOptions).result.verdict = .violation := by
    decide +kernel
  have hagree := verdict_light_eq_verdict_unrolled stray strayOptions .discard (by decide +kernel)
    (by decide +kernel) (.inl rfl) hlight.1 (by decide +kernel)
  have hlapse : (analyzeSource lapse ⟨2, .light, .stackGuard⟩ lapseOptions).result.error = none ∧
      (analyzeSource lapse ⟨2, .light, .stackGuard⟩ lapseOptions).result.verdict =
        .violation := by
    decide +kernel
  have hsource : MuAsm.Addressable lapse := by decide +kernel
  have hagree' := verdict_light_eq_verdict_unrolled lapse lapseOptions .stackGuard hsource
    (by decide +kernel) (.inr ⟨rfl, fun p hp => unmaskedFor_lapse hp lapseOptions⟩) hlapse.1
    (by decide +kernel)
  refine ⟨hlight.2, hagree.symm.trans hlight.2, hlapse.2, hagree'.symm.trans hlapse.2,
    ?_, ?_, ?_, ?_⟩ <;> decide +kernel

end Mispredict
