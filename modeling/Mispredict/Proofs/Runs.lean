/-
  What a program leaks, told from its runs.

  Committed execution runs from an instruction to its successors (`Program.Runs`). Wherever it
  comes to a branch, the branch can be mispredicted, and a walk that fits into the window may
  leak (`Program.LeaksAfter`). The leak counts for nothing if committed execution has shown a
  secret at the same site by then. It is certain if no run can have done so by the time it has
  executed the branch (`Program.Covers`). In a program without backward jumps all leaks are
  certain (`Program.unmasked_of_loopFree`).

  An analysis renders a program if its paths leak where walks of the program leak, and if no
  baseline comes to such a leak that the program does not cover (`Setup.Renders`). Whatever the
  graph looks like, no leak is masked in the analysis if none is in the program.
-/
import Mispredict.Proofs.Faithful
import Mispredict.Proofs.Masking

namespace Mispredict

open MuAsm (Program)

/-! ## Runs -/

namespace MuAsm.Program

variable {p : Program} {x b q q' n window : Nat} {R σ τ : State} {site : Site}

/-- Committed execution that starts at `x` in the state `R` comes to an instruction in some
    state. -/
inductive Runs (p : Program) (x : Nat) (R : State) : Nat → State → Prop where
  | start : Runs p x R x R
  | step {q q' : Nat} {σ : State} (before : Runs p x R q σ) (follows : q' ∈ p.successors q) :
      Runs p x R q' (p.execute .committed q σ)

/-- By the time committed execution has executed an instruction, it has shown a secret at the site,
    perhaps on another run to that instruction. -/
inductive Covers (p : Program) (x : Nat) (R : State) (site : Site) : Nat → Prop where
  | shown {q : Nat} {σ : State} (runs : p.Runs x R q σ) (records : p.siteAt? q = some site)
      (secret : (p.shownAt .committed q σ).isSecret = true) : Covers p x R site q
  | passed {q q' : Nat} (before : Covers p x R site q) (follows : q' ∈ p.successors q) :
      Covers p x R site q'

/-- The branch at `b` is mispredicted on some run, and within the window speculation leaks at the
    site. -/
def LeaksAfter (p : Program) (x : Nat) (R : State) (window b : Nat) (site : Site) : Prop :=
  p.IsBranchAt b ∧ ∃ σ y n q τ, p.Runs x R b σ ∧ y ∈ p.successors b ∧ n < window ∧
    p.Walk y (p.execute .committed b σ) n q τ ∧ p.leaksAt q τ = true ∧ p.siteAt? q = some site

/-- Some run leaks. -/
def Leaks (p : Program) (x : Nat) (R : State) (window : Nat) : Prop :=
  ∃ b site, p.LeaksAfter x R window b site

/-- If there is a leak, there is one for which the branch is not covered. -/
def Unmasked (p : Program) (x : Nat) (R : State) (window : Nat) : Prop :=
  p.Leaks x R window → ∃ b site, p.LeaksAfter x R window b site ∧ ¬ p.Covers x R site b

theorem exists_siteAt?_of_leaksAt {st : State} (h : p.leaksAt q st = true) :
    ∃ site, p.siteAt? q = some site := by
  obtain ⟨site, hsite, -⟩ := (Option.any_eq_true _ _).1 (Bool.and_eq_true_iff.1 h).2
  exact ⟨site, hsite⟩

/-! ## Programs without loops -/

/-- Execution never goes back. -/
def LoopFree (p : Program) : Prop := ∀ q < p.length, ∀ q' ∈ p.successors q, q < q'

instance (p : Program) : Decidable p.LoopFree :=
  inferInstanceAs (Decidable (∀ q < p.length, ∀ q' ∈ p.successors q, q < q'))

theorem LoopFree.lt (h : p.LoopFree) (hq' : q' ∈ p.successors q) : q < q' :=
  h q (lt_of_mem_successors hq').1 q' hq'

theorem LoopFree.lt_of_walk (h : p.LoopFree) (hx : x ∈ p.successors b) (hwalk : p.Walk x R n q τ) :
    b < q := by
  induction hwalk with
  | start => exact h.lt hx
  | step _ passes ih => exact ih.trans (h.lt passes.1)

theorem LoopFree.exists_le_of_covers (h : p.LoopFree) (hcovers : p.Covers x R site b) :
    ∃ q ≤ b, p.siteAt? q = some site := by
  induction hcovers with
  | @shown q σ _ records => exact ⟨q, le_rfl, records⟩
  | passed _ follows ih =>
    obtain ⟨q, hle, hsite⟩ := ih
    exact ⟨q, hle.trans (h.lt follows).le, hsite⟩

/-- The key of a site tells the program counter, up to its first colon. -/
theorem takeWhile_of_siteAt? (h : p.siteAt? q = some site) :
    site.key.toList.takeWhile (· ≠ ':') = (toString (Int64.ofNat q).toInt).toList := by
  rw [siteAt?, executed?] at h
  cases hi : p.instr? q with
  | none =>
    rw [hi] at h
    cases h
  | some i =>
    rw [hi] at h
    have hdigits : ∀ c ∈ (toString (Int64.ofNat q).toInt).toList, decide (c ≠ ':') = true := by
      intro c hc
      refine decide_eq_true ?_
      rintro rfl
      exact colon_not_mem_toString _ hc
    rcases Instr.key_of_site? h with hkey | ⟨rest, hkey⟩
    · rw [hkey, List.takeWhile_eq_self_iff]
      exact hdigits
    · rw [hkey, String.toList_append, String.toList_append, List.append_assoc,
        List.takeWhile_append_of_pos hdigits]
      simp

/-- No two instructions share a site. -/
theorem Fits.siteAt?_inj (hfits : p.Fits) (h : p.siteAt? q = some site)
    (h' : p.siteAt? q' = some site) : q = q' := by
  have hpc : ∀ {q}, p.siteAt? q = some site → (Int64.ofNat q).toInt = q := by
    intro q h
    refine SpecGraph.toInt_ofNat_of_le (hfits.pc_le ?_)
    rw [siteAt?, executed?] at h
    cases hi : p.instr? q with
    | none =>
      rw [hi] at h
      cases h
    | some i => exact lt_of_instr? hi
  have htext := (takeWhile_of_siteAt? h).symm.trans (takeWhile_of_siteAt? h')
  rw [hpc h, hpc h', String.toList_inj] at htext
  exact Nat.repr_injective htext

/-- In a program without loops committed execution has not yet come to where speculation leaks. -/
theorem unmasked_of_loopFree (hfits : p.Fits) (hfree : p.LoopFree) (x : Nat) (R : State)
    (window : Nat) : p.Unmasked x R window := by
  rintro ⟨b, site, hleak⟩
  refine ⟨b, site, hleak, fun hcovers => ?_⟩
  obtain ⟨-, σ, y, n, q, τ, -, hy, -, hwalk, -, hsite⟩ := hleak
  obtain ⟨q', hle, hsite'⟩ := hfree.exists_le_of_covers hcovers
  cases hfits.siteAt?_inj hsite hsite'
  exact (hfree.lt_of_walk hy hwalk).not_ge hle

end MuAsm.Program

/-! ## Analyses -/

namespace Setup

/-- The analysis from `entry` leaks on its paths as the program does from the instruction at `x`. -/
structure Renders (p : Program) (s : Setup) (entry : Key) (x : Nat) : Prop where
  /-- What leaks on a path leaks on a walk of the program. -/
  sound : ∀ k σ, s.Conveys entry s.initial k σ → s.leaks k σ = true →
    p.Leaks x s.initial s.window
  /-- To every leak of the program there is a path, and no baseline comes there unless the program
      covers it. -/
  complete : ∀ b site, p.LeaksAfter x s.initial s.window b site →
    ∃ k σ, s.Conveys entry s.initial k σ ∧ s.leaks k σ = true ∧ s.site? k = some site ∧
      (s.Bears entry site k → p.Covers x s.initial site b)

namespace Renders

variable {p : Program} {s : Setup} {entry : Key} {x : Nat}

theorem hasLeak_iff (h : s.Renders p entry x) :
    s.HasLeak entry ↔ p.Leaks x s.initial s.window := by
  constructor
  · rintro ⟨k, σ, hσ, hleak⟩
    exact h.sound k σ hσ hleak
  · rintro ⟨b, site, hleak⟩
    obtain ⟨k, σ, hσ, hleak, -⟩ := h.complete b site hleak
    exact ⟨k, σ, hσ, hleak⟩

/-- If a leak is masked in the analysis, one is in the program. -/
theorem hasCertainLeak (h : s.Renders p entry x) (hp : p.Unmasked x s.initial s.window)
    (hleak : s.HasLeak entry) : s.HasCertainLeak entry := by
  obtain ⟨b, site, hleak, hcovers⟩ := hp (h.hasLeak_iff.1 hleak)
  obtain ⟨k, σ, hσ, hleak, hsite, hbears⟩ := h.complete b site hleak
  exact ⟨k, σ, site, hσ, hleak, hsite, mt hbears hcovers⟩

end Renders

section Stages

variable {p : Program} {N : Node → Prop} {E : Edge → Prop} {c : SpecGraph} {s : Setup} {x q : Nat}
  {R σ : State} {k : Key} {site : Site}

/-- Committed execution takes the analysis along. -/
theorem conveys_of_runs (h : SpecGraph.Stages p N E c s.graph) (hc : c.FlowOf p)
    (hruns : p.Runs x R q σ) : s.Conveys ⟨x, .committed, []⟩ R ⟨q, .committed, []⟩ σ := by
  induction hruns with
  | start => exact .start
  | @step q q' σ before follows ih =>
    have hmove := ih.move (h.mem_moves_successor hc follows)
    rwa [(executes_of_stages h hc (Program.lt_of_mem_successors follows).1).advance_eq] at hmove

/-- Whatever spreads from the instructions that are covered to all that follows holds where a
    baseline has come, if committed points are come to by runs only. -/
theorem Bears.spreads {P : Key → Prop} (h : SpecGraph.Stages p N E c s.graph) (hc : c.FlowOf p)
    (hruns : ∀ k σ, s.Conveys ⟨x, .committed, []⟩ s.initial k σ → k.mode = .committed →
      ∃ q < p.length, k = ⟨q, .committed, []⟩ ∧ p.Runs x s.initial q σ)
    (hcommitted : ∀ q < p.length, p.Covers x s.initial site q → P ⟨q, .committed, []⟩)
    (hfollows : ∀ k target, P k → s.Follows k target → P target)
    (hbears : s.Bears ⟨x, .committed, []⟩ site k) : P k := by
  induction hbears with
  | @shown k target σ arrives hmode records secret follows =>
    obtain ⟨q, hq, rfl, hruns⟩ := hruns k σ arrives hmode
    have hexecutes : s.Executes p ⟨q, .committed, []⟩ q := executes_of_stages h hc hq
    rw [hexecutes.site?_eq] at records
    rw [hexecutes.shown_eq] at secret
    exact hfollows _ _ (hcommitted q hq (.shown hruns records secret)) follows
  | passed before follows ih => exact hfollows _ _ ih follows

end Stages

end Setup

end Mispredict
