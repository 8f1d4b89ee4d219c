/-
  Where leaks of speculation come from.

  At some points committed execution goes over into speculation (`Opens`). What is stored at
  other points of speculation has come there from these points, along trails of moves
  (`Trail`), and has been joined on the way. What is read off a stored state is still read off
  a single trail, and that has no baseline which the stored state has not (`sourced`). So there
  is a violation only if some trail leaks, from an opening in a state in which that comes up for a
  visit (`exists_trail_of_violation`).
-/
import Mispredict.Proofs.Spread

namespace Mispredict

open Machine

namespace Setup

/-- At the point `r` committed execution goes over into speculation. -/
def Opens (s : Setup) (entry r : Key) : Prop :=
  r.mode = .speculative ∧
    ∃ k st, s.Stores entry k st ∧ k.mode = .committed ∧ s.Follows k r

/-- The states in which paths arrive at points that start at `r` in the state `R`. -/
inductive Trail (s : Setup) (r : Key) (R : State) : Key → State → Prop where
  | start : Trail s r R r R
  | move {k target : Key} {st : State} (before : Trail s r R k st) (follows : s.Follows k target) :
      Trail s r R target (s.advance k st)

/-- Whatever is read off `st` is read off the state of a trail to `k`, from an opening that comes up
    for a visit, and that state has no baselines but those of `st`. -/
def Sourced (s : Setup) (cap : Option Nat) (entry k : Key) (st : State) : Prop :=
  ∀ ρ : Reading, ∃ r R τ, s.Opens entry r ∧ ComesUp s cap (start s entry) r R ∧
    s.Trail r R k τ ∧ ρ.level τ = ρ.level st ∧
    ∀ site, τ.HasBaseline site → st.HasBaseline site

variable {s : Setup} {cap : Option Nat} {entry r k q : Key} {R st x : State} {m : Machine}

theorem Trail.speculative (h : s.Trail r R k st) (hg : s.graph.NoRollback)
    (hr : r.mode = .speculative) : k.mode = .speculative := by
  induction h with
  | start => exact hr
  | move before follows ih =>
    obtain ⟨payload, hmove⟩ := follows.exists_move
    exact mode_of_move_of_speculative hg ih hmove

/-- Baselines are those of the start. -/
theorem Trail.hasBaseline_iff (h : s.Trail r R k st) (hg : s.graph.NoRollback)
    (hr : r.mode = .speculative) (site : Site) : st.HasBaseline site ↔ R.HasBaseline site := by
  induction h with
  | start => rfl
  | move before follows ih =>
    rw [hasBaseline_advance (before.speculative hg hr), ih]

theorem Sourced.join (hx : s.Sourced cap entry k x) (hst : s.Sourced cap entry k st)
    (hharmless : x.Harmless) (hharmless' : st.Harmless) :
    s.Sourced cap entry k (x.join st) := by
  intro ρ
  have hbaseline (site : Site) :
      (x.join st).HasBaseline site ↔ x.HasBaseline site ∨ st.HasBaseline site :=
    State.hasBaseline_join hharmless hharmless'
  rcases ρ.join_eq_or x st with hlevel | hlevel
  · obtain ⟨r, R, τ, hr, hcomes, htrail, hread, hcovered⟩ := hx ρ
    exact ⟨r, R, τ, hr, hcomes, htrail, hread.trans hlevel.symm,
      fun site hsite => (hbaseline site).2 (.inl (hcovered site hsite))⟩
  · obtain ⟨r, R, τ, hr, hcomes, htrail, hread, hcovered⟩ := hst ρ
    exact ⟨r, R, τ, hr, hcomes, htrail, hread.trans hlevel.symm,
      fun site hsite => (hbaseline site).2 (.inr (hcovered site hsite))⟩

/-- What a speculative point passes on has its source. -/
theorem sourced_advance (hmode : k.mode = .speculative) (hfollows : s.Follows k q)
    (hopens : s.Opens entry k → ComesUp s cap (start s entry) k st)
    (hsourced : ¬ s.Opens entry k → s.Sourced cap entry k st) :
    s.Sourced cap entry q (s.advance k st) := by
  intro ρ
  by_cases hk : s.Opens entry k
  · exact ⟨k, st, _, hk, hopens hk, .move .start hfollows, rfl, fun _ hsite => hsite⟩
  · obtain ⟨r, R, τ, hr, hcomes, htrail, hread, hcovered⟩ := hsourced hk (ρ.before s k)
    refine ⟨r, R, s.advance k τ, hr, hcomes, .move htrail hfollows, hread, fun site hsite => ?_⟩
    rw [hasBaseline_advance hmode] at hsite ⊢
    exact hcovered site hsite

/-- What is stored at points of speculation, but for openings, has its source. -/
theorem sourced (hg : s.graph.NoRollback) (hi : s.initial.Harmless)
    (hentry : entry.mode = .committed) (hm : Becomes s cap (start s entry) m)
    (hst : m.table[k]? = some st) (hk : k.mode = .speculative) (hopens : ¬ s.Opens entry k) :
    s.Sourced cap entry k st := by
  induction hm generalizing k st with
  | refl =>
    rw [getElem?_table_start] at hst
    split at hst
    · next heq =>
      rw [heq, hentry] at hk
      cases hk
    · cases hst
  | @tail m₁ m₂ hbecomes hstep ih =>
    obtain ⟨q, x, rest, new, hspreads⟩ := exists_spreads hg hstep
    obtain ⟨_, _, hmoment⟩ := Becomes.moment hbecomes ⟨_, _, .start⟩
    have hstored := hmoment.accounted.1.stored
    rw [hspreads.table] at hst
    split at hst
    · next hfollows =>
      have hx := hstored q x hspreads.held
      have hq : q.mode = .speculative := by
        cases hq : q.mode with
        | speculative => rfl
        | committed => exact absurd ⟨hk, q, x, hx, hq, hfollows⟩ hopens
      have hout : s.Sourced cap entry k (s.advance q x) :=
        sourced_advance hq hfollows
          (fun _ => ⟨m₁, rest, hbecomes, hspreads.next, hspreads.held⟩) (ih hspreads.held hq)
      cases hold : m₁.table[k]? with
      | none =>
        rw [hold] at hst
        cases hst
        exact hout
      | some y =>
        rw [hold] at hst
        cases hst
        have hharmless : (s.advance q x).Harmless := by
          refine harmless_after (hx.harmless hi) hspreads.after ?_
          rw [← hasViolation_after (hx.harmless hi) hspreads.after, hspreads.quiet]
        exact (ih hold hk hopens).join hout ((hstored k y hold).harmless hi) hharmless
    · exact ih hst hk hopens

/-- A violation is a leak of some trail. -/
theorem exists_trail_of_violation (hg : s.graph.NoRollback) (hi : s.initial.Harmless)
    (hentry : entry.mode = .committed) {late : Error} {fuel : Nat}
    (hv : ((start s entry).run s cap late fuel).outcome = .ok .violation) :
    ∃ r R k τ, s.Opens entry r ∧ ComesUp s cap (start s entry) r R ∧ s.Trail r R k τ ∧
      s.leaks k τ = true := by
  obtain ⟨k, st, out, hcomes, hafter, hviolation⟩ := exists_comesUp_of_violation hv
  rw [hasViolation_after ((hcomes.stores .start).harmless hi) hafter] at hviolation
  obtain ⟨hmode, hsecret, site, hsite, hseen⟩ := leaks_iff.1 hviolation
  by_cases hk : s.Opens entry k
  · exact ⟨k, st, k, st, hk, hcomes, .start, hviolation⟩
  · obtain ⟨m, rest, hbecomes, -, hheld⟩ := hcomes
    obtain ⟨r, R, τ, hr, hcomes, htrail, hread, hcovered⟩ :=
      sourced hg hi hentry hbecomes hheld hmode hk (s.shows k)
    have hshown : s.shown k τ = s.shown k st := hread
    refine ⟨r, R, k, τ, hr, hcomes, htrail, leaks_iff.2 ⟨hmode, hshown ▸ hsecret, site, hsite, ?_⟩⟩
    exact fun hτ => hseen (hcovered site hτ)

end Setup

end Mispredict
