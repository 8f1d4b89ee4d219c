/-
  What a secure analysis says of single paths.

  A path is a sequence of points from the entry, each of which follows the one before.
  Along a path states are handed on from visit to visit and never joined.

  A point holds the join of the states of all paths that arrive there, and a baseline
  that one of them has made covers for the others. So a secure analysis does not yet mean
  that no path leaks. But this is all that can go wrong: at every point that is reached,
  one of the arriving paths at least does not leak (`Stores.exists_arrives_not_leaks`). If the
  graph has no rollbacks, a secure analysis is therefore right about every path exactly
  if paths that arrive at one point leak alike (`pathsSecure_iff_leaksAlike`).
-/
import Mathlib.Data.List.Chain
import Mispredict.Analysis.Report
import Mispredict.Proofs.Built
import Mispredict.Proofs.Reading
import Mispredict.Proofs.Stored

namespace Mispredict

open Machine

namespace Setup

/-! ## Paths -/

/-- Analysis can go from a point to another. -/
def Follows (s : Setup) (k target : Key) : Prop := target ∈ (s.moves k).map (·.1)

instance (s : Setup) : DecidableRel s.Follows := fun k target =>
  inferInstanceAs (Decidable (target ∈ (s.moves k).map (·.1)))

/-- A sequence of points from `entry`, each of which follows the one before. -/
structure IsPath (s : Setup) (entry : Key) (ks : List Key) : Prop where
  head : ks.head? = some entry
  chain : ks.IsChain s.Follows

/-- The state after the visits of a sequence of points. -/
def along (s : Setup) (ks : List Key) : Except Error State :=
  ks.foldlM (fun st k => s.after k st) s.initial

/-- Every path can be visited to its end, and shows no violation there. -/
def PathsSecure (s : Setup) (entry : Key) : Prop :=
  ∀ ks, s.IsPath entry ks → ∃ out, s.along ks = .ok out ∧ out.hasViolation = false

/-- The states in which paths arrive at a point. -/
inductive Arrives (s : Setup) (entry : Key) : Key → State → Prop where
  | start : Arrives s entry entry s.initial
  | move {k target : Key} {st out : State} (arrived : Arrives s entry k st)
      (after : s.after k st = .ok out) (follows : s.Follows k target) : Arrives s entry target out

/-- Of the paths that arrive at one point, all leak there or none does. -/
def LeaksAlike (s : Setup) (entry : Key) : Prop :=
  ∀ k st st', s.Arrives entry k st → s.Arrives entry k st' → s.leaks k st = s.leaks k st'

variable {s : Setup} {entry k target : Key} {st out : State}

theorem along_concat (s : Setup) (ks : List Key) (k : Key) :
    s.along (ks ++ [k]) = s.along ks >>= fun st => s.after k st := by
  rw [along, List.foldlM_append]
  simp only [List.foldlM_cons, List.foldlM_nil, bind_pure]
  rfl

theorem Arrives.exists_path (h : s.Arrives entry k st) :
    ∃ ks, s.IsPath entry (ks ++ [k]) ∧ s.along ks = .ok st := by
  induction h with
  | start => exact ⟨[], ⟨rfl, .singleton entry⟩, rfl⟩
  | @move k target st out arrived after follows ih =>
    obtain ⟨ks, hpath, halong⟩ := ih
    refine ⟨ks ++ [k], ⟨?_, ?_⟩, ?_⟩
    · rw [List.head?_append, hpath.head]
      rfl
    · refine hpath.chain.append (.singleton target) ?_
      rintro x hx y ⟨rfl⟩
      rw [List.getLast?_concat] at hx
      cases hx
      exact follows
    · rw [along_concat, halong]
      exact after

/-- All paths are secure if none leaks at the point where it has arrived. -/
theorem pathsSecure_iff :
    s.PathsSecure entry ↔
      ∀ k st, s.Arrives entry k st → ∃ out, s.after k st = .ok out ∧ out.hasViolation = false := by
  constructor
  · intro h k st hst
    obtain ⟨ks, hpath, halong⟩ := hst.exists_path
    obtain ⟨out, hout, hv⟩ := h _ hpath
    rw [along_concat, halong] at hout
    exact ⟨out, hout, hv⟩
  · intro h ks hpath
    -- the path goes on from wherever it has arrived
    have hfrom : ∀ (ks : List Key) (k : Key) (st : State), s.Arrives entry k st →
        (k :: ks).IsChain s.Follows →
        ∃ out, (k :: ks).foldlM (fun st k => s.after k st) st = .ok out ∧
          out.hasViolation = false := by
      intro ks
      induction ks with
      | nil =>
        intro k st hst _
        obtain ⟨out, hout, hv⟩ := h k st hst
        refine ⟨out, ?_, hv⟩
        rw [List.foldlM_cons, hout]
        rfl
      | cons k' ks ih =>
        intro k st hst hchain
        obtain ⟨hfollows, hchain⟩ := List.isChain_cons_cons.1 hchain
        obtain ⟨out, hout, -⟩ := h k st hst
        obtain ⟨last, hlast, hv⟩ := ih k' out (.move hst hout hfollows) hchain
        refine ⟨last, ?_, hv⟩
        rw [List.foldlM_cons, hout]
        exact hlast
    cases ks with
    | nil => cases hpath.head
    | cons k ks =>
      cases hpath.head
      exact hfrom ks entry s.initial .start hpath.chain

/-! ## Without rollbacks -/

variable {payload : Payload}

/-- A route ends a speculation, or goes along a link. -/
theorem routes_cases {r : Route} (h : r ∈ s.routes k) :
    (∃ index frames id, r = .squash ⟨index, .speculative, frames⟩ id) ∨
      ∃ frames, ∃ l ∈ s.graph.linksFrom k.node, r = s.routeOf k frames l := by
  unfold routes at h
  split at h
  · cases h
  · split at h
    · cases h
    · next n _ i _ =>
      unfold routesFrom at h
      dsimp only at h
      split at h
      · split at h
        · next index e _ => exact .inl ⟨index, _, e.id, List.mem_singleton.1 h⟩
        · obtain ⟨l, hl, rfl⟩ := List.mem_map.1 h
          exact .inr ⟨_, l, (List.mem_filter.1 hl).1, rfl⟩
      · obtain ⟨l, hl, rfl⟩ := List.mem_map.1 h
        exact .inr ⟨_, l, hl, rfl⟩

theorem through_of_move? {frames : List Frame} {l : SpecGraph.Located}
    (h : (s.routeOf k frames l).move? = some (target, payload)) :
    s.through k frames l = .ok (target, payload) := by
  unfold routeOf at h
  split at h
  · cases h
  · next heq =>
    split at h
    · cases h
    · cases h
      exact heq

/-- Without rollbacks states are passed on whole, and no speculation leads back to committed
    execution. -/
theorem move_of_noRollback (hg : s.graph.NoRollback) (h : (target, payload) ∈ s.moves k) :
    payload = .full ∧ (target.mode = .committed → k.mode = .committed) := by
  obtain ⟨r, hr, hmove⟩ := List.mem_filterMap.1 h
  obtain ⟨index, frames, id, rfl⟩ | ⟨frames, l, hl, rfl⟩ := routes_cases hr
  · cases hmove
    exact ⟨rfl, nofun⟩
  · have hthrough := through_of_move? hmove
    unfold through at hthrough
    split at hthrough
    · cases hthrough
      exact ⟨rfl, id⟩
    · split at hthrough
      · cases hthrough
        exact ⟨rfl, nofun⟩
      · cases hthrough
    · next hkind => exact absurd hkind (hg.linksFrom hl)

theorem follows_of_move (h : (target, payload) ∈ s.moves k) : s.Follows k target :=
  List.mem_map.2 ⟨_, h, rfl⟩

theorem Follows.exists_move (h : s.Follows k target) :
    ∃ payload, (target, payload) ∈ s.moves k := by
  obtain ⟨⟨target, payload⟩, hmove, rfl⟩ := List.mem_map.1 h
  exact ⟨payload, hmove⟩

/-- A committed path has made no observation but harmless ones. -/
theorem Arrives.harmless (hg : s.graph.NoRollback) (hi : s.initial.Harmless)
    (h : s.Arrives entry k st) (hmode : k.mode = .committed) : st.Harmless := by
  induction h with
  | start => exact hi
  | @move k target st out arrived after follows ih =>
    obtain ⟨payload, hmove⟩ := follows.exists_move
    have hk : k.mode = .committed := (move_of_noRollback hg hmove).2 hmode
    refine harmless_after (ih hk) after ?_
    rw [leaks, Key.isSpeculative, hk]
    rfl

/-! ## What is stored comes from paths -/

/-- What is read off a stored state is read off the state of some path. -/
theorem Stores.exists_level (hg : s.graph.NoRollback) (h : s.Stores entry k st) (ρ : Reading) :
    ∃ σ, s.Arrives entry k σ ∧ ρ.level σ = ρ.level st := by
  induction h generalizing ρ with
  | start => exact ⟨s.initial, .start, rfl⟩
  | @pass k target st out payload old visited after violation move held ih ihheld =>
    obtain ⟨rfl, -⟩ := move_of_noRollback hg move
    have hout : ∃ σ, s.Arrives entry target σ ∧ ρ.level σ = ρ.level out := by
      obtain ⟨σ, hσ, hlevel⟩ := ih (ρ.before s k)
      refine ⟨s.advance k σ, .move hσ (after_eq_advance after σ) (follows_of_move move), ?_⟩
      rw [eq_advance after]
      exact hlevel
    cases old with
    | none => exact hout
    | some st' =>
      rcases ρ.join_eq_or st' out with h | h
      · obtain ⟨σ, hσ, hlevel⟩ := ihheld st' rfl ρ
        exact ⟨σ, hσ, hlevel.trans h.symm⟩
      · obtain ⟨σ, hσ, hlevel⟩ := hout
        exact ⟨σ, hσ, hlevel.trans h.symm⟩

/-- A path that has a baseline keeps it, and a path that shows a secret in committed execution makes
    one; so where the state after a visit has a baseline, some path arrives with it. -/
theorem Stores.exists_baseline_after (hg : s.graph.NoRollback) (hi : s.initial.Harmless)
    (hst : s.Stores entry k st) (hafter : s.after k st = .ok out) (hfollows : s.Follows k target)
    {site : Site}
    (hbefore : st.seen site = .eqHigh → ∃ σ, s.Arrives entry k σ ∧ σ.seen site = .eqHigh)
    (hseen : out.seen site = .eqHigh) :
    ∃ σ, s.Arrives entry target σ ∧ σ.seen site = .eqHigh := by
  have honward : ∀ σ, s.Arrives entry k σ → s.Arrives entry target (s.advance k σ) :=
    fun σ hσ => .move hσ (after_eq_advance hafter σ) hfollows
  have hkept : st.seen site = .eqHigh →
      ∃ σ, s.Arrives entry target σ ∧ σ.seen site = .eqHigh := by
    intro h
    obtain ⟨σ, hσ, hσseen⟩ := hbefore h
    refine ⟨s.advance k σ, honward σ hσ, ?_⟩
    rw [seen_after (after_eq_advance hafter σ), hσseen, Observations.update_eqHigh, ite_self]
  rw [seen_after hafter] at hseen
  split at hseen
  · next hsite =>
    have hharmless : st.Harmless := hst.harmless hi
    rcases Observations.eq_eqHigh_of_update (hharmless.seen site) hseen with h | ⟨hmode, hsecret⟩
    · exact hkept h
    · obtain ⟨σ, hσ, hlevel⟩ := hst.exists_level hg (s.shows k)
      have hσharmless : σ.Harmless := hσ.harmless hg hi hmode
      have hσsecret : (s.shown k σ).isSecret = true := by
        rw [← hsecret]
        exact congrArg Level.isSecret hlevel
      refine ⟨s.advance k σ, honward σ hσ, ?_⟩
      rw [seen_after (after_eq_advance hafter σ), if_pos hsite, hmode]
      exact Observations.update_committed_of_isSecret (hσharmless.seen site) hσsecret
  · exact hkept hseen

/-- A baseline in a stored state was made on some path. -/
theorem Stores.exists_baseline (hg : s.graph.NoRollback) (hi : s.initial.Harmless)
    (h : s.Stores entry k st) {site : Site} (hseen : st.seen site = .eqHigh) :
    ∃ σ, s.Arrives entry k σ ∧ σ.seen site = .eqHigh := by
  induction h with
  | start => exact ⟨s.initial, .start, hseen⟩
  | @pass k target st out payload old visited after violation move held ih ihheld =>
    obtain ⟨rfl, -⟩ := move_of_noRollback hg move
    have hout : out.seen site = .eqHigh →
        ∃ σ, s.Arrives entry target σ ∧ σ.seen site = .eqHigh :=
      visited.exists_baseline_after hg hi after (follows_of_move move) ih
    cases old with
    | none => exact hout hseen
    | some st' =>
      have hst : st.Harmless := visited.harmless hi
      have hst' : st'.Harmless := (held st' rfl).harmless hi
      have hharmless : out.Harmless := by
        refine harmless_after hst after ?_
        rw [← hasViolation_after hst after, violation]
      rw [received, State.seen_join] at hseen
      rcases Relation.eq_eqHigh_of_join (hst'.seen site) (hharmless.seen site) hseen with h | h
      · exact ihheld st' rfl h
      · exact hout h

/-! ## Secure analyses -/

theorem IsFixpoint.mem_of_arrives {t : Table} (ht : s.IsFixpoint entry t)
    (h : s.Arrives entry k st) : ∃ st', t[k]? = some st' := by
  induction h with
  | start => exact ht.mem_entry
  | move arrived after follows ih =>
    obtain ⟨st', hst'⟩ := ih
    obtain ⟨payload, hmove⟩ := follows.exists_move
    exact ht.mem_of_move hst' hmove

/-- If a stored state does not leak, some path that arrives at its point does not. -/
theorem Stores.exists_arrives_not_leaks (hg : s.graph.NoRollback) (hi : s.initial.Harmless)
    (h : s.Stores entry k st) (hleak : s.leaks k st = false) :
    ∃ σ, s.Arrives entry k σ ∧ s.leaks k σ = false := by
  obtain ⟨σ, hσ, hlevel⟩ := h.exists_level hg (s.shows k)
  have hshown : s.shown k σ = s.shown k st := hlevel
  cases hσleak : s.leaks k σ with
  | false => exact ⟨σ, hσ, hσleak⟩
  | true =>
    -- `σ` shows what `st` shows, so that `st` does not leak only for a baseline
    obtain ⟨hmode, hsecret, site, hsite, -⟩ := leaks_iff.1 hσleak
    have hbaseline : st.seen site = .eqHigh := by
      by_contra hne
      have : s.leaks k st = true := leaks_iff.2 ⟨hmode, hshown ▸ hsecret, site, hsite, hne⟩
      rw [hleak] at this
      cases this
    obtain ⟨σ', hσ', hseen⟩ := h.exists_baseline hg hi hbaseline
    refine ⟨σ', hσ', ?_⟩
    rw [Bool.eq_false_iff]
    intro hleak'
    obtain ⟨-, -, site', hsite', hne⟩ := leaks_iff.1 hleak'
    cases hsite.symm.trans hsite'
    exact hne hseen

/-- A fixpoint of stored states is right about every path exactly if paths leak alike. -/
theorem IsFixpoint.pathsSecure_iff {t : Table} (hg : s.graph.NoRollback) (hi : s.initial.Harmless)
    (ht : s.IsFixpoint entry t) (hstored : ∀ k st, t[k]? = some st → s.Stores entry k st) :
    s.PathsSecure entry ↔ s.LeaksAlike entry := by
  rw [Setup.pathsSecure_iff]
  constructor
  · intro h
    have hquiet : ∀ k st, s.Arrives entry k st → s.leaks k st = false := by
      intro k st hst
      obtain ⟨out, hafter, hv⟩ := h k st hst
      rw [Bool.eq_false_iff]
      intro hleak
      rw [hasViolation_of_leaks hafter hleak] at hv
      cases hv
    intro k st st' hst hst'
    rw [hquiet k st hst, hquiet k st' hst']
  · intro h
    have hquiet : ∀ k σ, s.Arrives entry k σ →
        ∃ out, s.after k σ = .ok out ∧ s.leaks k σ = false := by
      intro k σ hσ
      obtain ⟨st, hst⟩ := ht.mem_of_arrives hσ
      obtain ⟨out, hafter, hv, -⟩ := ht.settled k st hst
      have hstores := hstored k st hst
      rw [hasViolation_after (hstores.harmless hi) hafter] at hv
      obtain ⟨σ', hσ', hleak⟩ := hstores.exists_arrives_not_leaks hg hi hv
      exact ⟨s.advance k σ, after_eq_advance hafter σ, (h k σ σ' hσ hσ').trans hleak⟩
    have hharmless : ∀ k σ, s.Arrives entry k σ → σ.Harmless := by
      intro k σ hσ
      induction hσ with
      | start => exact hi
      | move arrived after follows ih =>
        obtain ⟨-, -, hleak⟩ := hquiet _ _ arrived
        exact harmless_after ih after hleak
    intro k σ hσ
    obtain ⟨out, hafter, hleak⟩ := hquiet k σ hσ
    exact ⟨out, hafter, (harmless_after (hharmless k σ hσ) hafter hleak).hasViolation⟩

end Setup

/-- The verdict `secure` for a source that is built to discard mispredicted paths is right about
    every single path exactly if paths that arrive at one point leak alike. -/
theorem pathsSecure_iff_leaksAlike {source : String} {b : BuildOptions} {o : Options}
    {g : SpecGraph} {entry : Key} (hb : b.speculation = .discard)
    (hg : (SpecGraph.buildSource source b).result = .ok g)
    (hentry : (Setup.of g o).entryKey = .ok (some entry))
    (hsecure : (g.analyze o).result.isSecure = true) :
    (Setup.of g o).PathsSecure entry ↔ (Setup.of g o).LeaksAlike entry := by
  have hrollback : g.NoRollback := SpecGraph.noRollback_of_buildSource hb hg
  have houtcome : (Setup.of g o).run.outcome = .ok .secure := by
    obtain ⟨herror, hverdict⟩ := Report.isSecure_iff.1 hsecure
    rw [SpecGraph.outcome_of_error_eq_none herror, hverdict]
  have hchecked := Setup.checkedEntry_of_outcome hentry houtcome
  exact (Setup.isFixpoint_run hchecked houtcome).pathsSecure_iff hrollback
    (State.harmless_seeded _ _) fun _ _ => Setup.stores_of_mem_table hchecked

/-- Execution comes to `J` through `P`, where it loads the secret, or through `A`, where it does
    not. -/
def detour : String := "beqz c, A\nskip\nP: load x, secret\nJ: beqz d, P\nA: jmp J"

def detourGraph : SpecGraph := (SpecGraph.buildSource detour {}).result.toOption.getD .empty

def detourOptions : Options := { policy := Policy.empty.setCell "secret" .high, specWindow := 1 }

theorem buildSource_detour : (SpecGraph.buildSource detour {}).result = .ok detourGraph :=
  SpecGraph.buildSource_eq_ok (by decide +kernel)

theorem isSecure_detour : (detourGraph.analyze detourOptions).result.isSecure = true := by
  decide +kernel

/-- Through `A` to `J`, and from there speculatively to `P`. -/
def detourPath : List Key :=
  [⟨0, .committed, []⟩, ⟨4, .committed, []⟩, ⟨3, .committed, []⟩,
    ⟨7, .speculative, [⟨some 1, 1⟩]⟩, ⟨2, .speculative, [⟨some 1, 1⟩]⟩]

/-- The analysis finds `detour` secure although the path through `A` leaks: the path through `P`
    arrives at the same load with a baseline. -/
theorem not_leaksAlike_detour :
    (detourGraph.analyze detourOptions).result.isSecure = true ∧
      ¬ (Setup.of detourGraph detourOptions).PathsSecure ⟨0, .committed, []⟩ ∧
      ¬ (Setup.of detourGraph detourOptions).LeaksAlike ⟨0, .committed, []⟩ := by
  have hentry : (Setup.of detourGraph detourOptions).entryKey =
      .ok (some ⟨0, .committed, []⟩) := by decide +kernel
  have hpath : (Setup.of detourGraph detourOptions).IsPath ⟨0, .committed, []⟩ detourPath :=
    ⟨rfl, by decide +kernel⟩
  have hleak : ((Setup.of detourGraph detourOptions).along detourPath).toOption.any
      (·.hasViolation) = true := by decide +kernel
  have hnot : ¬ (Setup.of detourGraph detourOptions).PathsSecure ⟨0, .committed, []⟩ := by
    intro h
    obtain ⟨out, halong, hv⟩ := h detourPath hpath
    rw [halong] at hleak
    exact absurd hleak (by simp [Except.toOption, hv])
  have hiff := pathsSecure_iff_leaksAlike rfl buildSource_detour hentry isSecure_detour
  exact ⟨isSecure_detour, hnot, fun h => hnot (hiff.2 h)⟩

end Mispredict
