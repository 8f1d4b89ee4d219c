/-
  A secure analysis computes the join over all paths.

  If the graph has no rollbacks, the table that a secure analysis leaves has exactly the
  points to which paths lead. What it holds for a point is, for every register and every
  memory cell, the least value above those with which the paths arrive there
  (`HoldsPathJoins`). Paths do not depend on the order of visits, and so neither do these
  values (`finalTable_holdsPathJoins`).

  That the table is above every path is the fixpoint property together with the
  monotonicity of visits. That it is not above more than the paths is the converse: what
  is stored comes from paths, level by level (`Stores.exists_level`).
-/
import Mathlib.Order.Bounds.Basic
import Mispredict.Proofs.Order
import Mispredict.Proofs.VisitOrder

namespace Mispredict

open Machine

namespace Reading

/-- What execution in some mode sees of a location. -/
def ofLocation (loc : Location) (mode : Mode) : Reading where
  level := fun s => (s.read loc).view mode
  congr := fun h => by rw [h.read]
  join := fun s t => by rw [State.read_join, Value.view_join]

end Reading

namespace Setup

/-! ## Paths to a point -/

/-- A path from the entry goes through `ks` and then comes to `k`. -/
def LeadsTo (s : Setup) (ks : List Key) (k : Key) : Prop :=
  ∃ entry, s.entryKey = .ok (some entry) ∧ s.IsPath entry (ks ++ [k])

/-- The values of a location with which paths arrive at a point. -/
def arrivals (s : Setup) (k : Key) (loc : Location) : Set Value :=
  {v | ∃ ks st, s.LeadsTo ks k ∧ s.along ks = .ok st ∧ v = st.read loc}

/-- A table of the points to which paths lead, with the least values above those of the paths. -/
structure HoldsPathJoins (s : Setup) (t : Table) : Prop where
  mem_iff : ∀ k, (∃ st, t[k]? = some st) ↔ ∃ ks, s.LeadsTo ks k
  /-- Paths can be visited. -/
  visited : ∀ ks k, s.LeadsTo ks k → ∃ st, s.along ks = .ok st
  isLUB : ∀ k st, t[k]? = some st → ∀ loc, IsLUB (s.arrivals k loc) (st.read loc)

variable {s : Setup} {entry k target : Key} {st out : State} {t : Table}

theorem IsPath.init {ks : List Key} (h : s.IsPath entry (ks ++ [k] ++ [target])) :
    s.IsPath entry (ks ++ [k]) ∧ s.Follows k target := by
  obtain ⟨hhead, hchain⟩ := h
  rw [List.isChain_append] at hchain
  obtain ⟨hinit, -, hlast⟩ := hchain
  refine ⟨⟨?_, hinit⟩, hlast k (by simp) target rfl⟩
  rw [List.head?_append, List.head?_append] at hhead
  rw [List.head?_append]
  cases ks <;> exact hhead

/-- A path that can be visited up to its last point arrives there. -/
theorem arrives_of_path {ks : List Key} (hpath : s.IsPath entry (ks ++ [k]))
    (halong : s.along ks = .ok st) : s.Arrives entry k st := by
  induction ks using List.reverseRecOn generalizing k st with
  | nil =>
    cases hpath.head
    cases halong
    exact .start
  | append_singleton ks k' ih =>
    obtain ⟨hinit, hfollows⟩ := hpath.init
    rw [along_concat] at halong
    obtain ⟨st', halong, hafter⟩ := bind_eq_ok_iff.1 halong
    exact .move (ih hinit halong) hafter hfollows

theorem mem_arrivals_iff (hentry : s.entryKey = .ok (some entry)) {loc : Location} {v : Value} :
    v ∈ s.arrivals k loc ↔ ∃ st, s.Arrives entry k st ∧ v = st.read loc := by
  constructor
  · rintro ⟨ks, st, ⟨entry', hentry', hpath⟩, halong, rfl⟩
    cases hentry.symm.trans hentry'
    exact ⟨st, arrives_of_path hpath halong, rfl⟩
  · rintro ⟨st, hst, rfl⟩
    obtain ⟨ks, hpath, halong⟩ := hst.exists_path
    exact ⟨ks, st, ⟨entry, hentry, hpath⟩, halong, rfl⟩

/-! ## The table is above all paths -/

theorem Absorbs.storeLe {x : State} (h : s.Absorbs t k x .full) (hst : t[k]? = some st) :
    x.StoreLe st := by
  obtain ⟨st', hst', hjoin⟩ := h
  cases hst.symm.trans hst'
  have hle := State.StoreLe.join_right st x
  rw [show st.join x = st from hjoin] at hle
  exact hle

/-- What a path arrives with is below what a fixpoint holds. -/
theorem IsFixpoint.storeLe_of_arrives (hg : s.graph.NoRollback) (ht : s.IsFixpoint entry t)
    {σ : State} (h : s.Arrives entry k σ) (hst : t[k]? = some st) : σ.StoreLe st := by
  induction h generalizing st with
  | start => exact ht.entry.storeLe hst
  | @move k target σ out arrived after follows ih =>
    obtain ⟨st', hst'⟩ := ht.mem_of_arrives arrived
    obtain ⟨out', hafter', -, hmoves⟩ := ht.settled k st' hst'
    obtain ⟨payload, hmove⟩ := follows.exists_move
    obtain ⟨rfl, -⟩ := move_of_noRollback hg hmove
    have hvisit : out.StoreLe out' := by
      rw [eq_advance after, eq_advance hafter']
      exact (ih hst').advance s k
    exact hvisit.trans ((hmoves target .full hmove).storeLe hst)

/-- Every path through a fixpoint can be visited. -/
theorem IsFixpoint.visited (ht : s.IsFixpoint entry t) {ks : List Key}
    (hpath : s.IsPath entry (ks ++ [k])) : ∃ st, s.along ks = .ok st := by
  induction ks using List.reverseRecOn generalizing k with
  | nil => exact ⟨s.initial, rfl⟩
  | append_singleton ks k' ih =>
    obtain ⟨hinit, -⟩ := hpath.init
    obtain ⟨σ, halong⟩ := ih hinit
    obtain ⟨st, hst⟩ := ht.mem_of_arrives (arrives_of_path hinit halong)
    obtain ⟨out, hafter, -⟩ := ht.settled k' st hst
    refine ⟨s.advance k' σ, ?_⟩
    rw [along_concat, halong]
    exact after_eq_advance hafter σ

/-! ## The table is the join over all paths -/

theorem Stores.exists_arrives (hg : s.graph.NoRollback) (h : s.Stores entry k st) :
    ∃ σ, s.Arrives entry k σ := by
  obtain ⟨σ, hσ, -⟩ := h.exists_level hg (s.shows k)
  exact ⟨σ, hσ⟩

/-- A stored value is not above more than the paths: each of its views is that of a path. -/
theorem Stores.read_le (hg : s.graph.NoRollback) (h : s.Stores entry k st) {loc : Location}
    {v : Value} (hv : ∀ σ, s.Arrives entry k σ → σ.read loc ≤ v) : st.read loc ≤ v := by
  rw [Value.le_iff_view_le]
  intro mode
  obtain ⟨σ, hσ, hlevel⟩ := h.exists_level hg (.ofLocation loc mode)
  have hview : (σ.read loc).view mode = (st.read loc).view mode := hlevel
  rw [← hview]
  exact Value.le_iff_view_le.1 (hv σ hσ) mode

theorem IsFixpoint.holdsPathJoins (hg : s.graph.NoRollback)
    (hentry : s.entryKey = .ok (some entry)) (ht : s.IsFixpoint entry t)
    (hstored : ∀ k st, t[k]? = some st → s.Stores entry k st) : s.HoldsPathJoins t := by
  refine ⟨fun k => ⟨?_, ?_⟩, ?_, fun k st hst loc => ⟨?_, ?_⟩⟩
  · rintro ⟨st, hst⟩
    obtain ⟨σ, hσ⟩ := (hstored k st hst).exists_arrives hg
    obtain ⟨ks, hpath, -⟩ := hσ.exists_path
    exact ⟨ks, entry, hentry, hpath⟩
  · rintro ⟨ks, entry', hentry', hpath⟩
    cases hentry.symm.trans hentry'
    obtain ⟨σ, halong⟩ := ht.visited hpath
    exact ht.mem_of_arrives (arrives_of_path hpath halong)
  · rintro ks k ⟨entry', hentry', hpath⟩
    cases hentry.symm.trans hentry'
    exact ht.visited hpath
  · intro v hv
    obtain ⟨σ, hσ, rfl⟩ := (mem_arrivals_iff hentry).1 hv
    exact (ht.storeLe_of_arrives hg hσ hst).read loc
  · intro v hv
    refine (hstored k st hst).read_le hg fun σ hσ => ?_
    exact hv ((mem_arrivals_iff hentry).2 ⟨σ, hσ, rfl⟩)

/-- Without an entry there is nothing to visit. -/
theorem holdsPathJoins_empty (hentry : s.entryKey = .ok none) : s.HoldsPathJoins ∅ := by
  have hnone : ∀ ks k, ¬ s.LeadsTo ks k := by
    rintro ks k ⟨entry, hentry', -⟩
    cases hentry.symm.trans hentry'
  refine ⟨fun k => ⟨?_, ?_⟩, fun ks k h => absurd h (hnone ks k), fun k st hst => ?_⟩
  · rintro ⟨st, hst⟩
    rw [Std.TreeMap.getElem?_emptyc] at hst
    cases hst
  · rintro ⟨ks, h⟩
    exact absurd h (hnone ks k)
  · rw [Std.TreeMap.getElem?_emptyc] at hst
    cases hst

theorem holdsPathJoins_run (hg : s.graph.NoRollback) (hsecure : s.run.outcome = .ok .secure) :
    s.HoldsPathJoins s.run.machine.table := by
  cases hchecked : s.checkedEntry with
  | error e =>
    rw [run, hchecked] at hsecure
    cases hsecure
  | ok found =>
    have hentry := entryKey_of_checkedEntry hchecked
    cases found with
    | none =>
      rw [run, hchecked]
      exact holdsPathJoins_empty hentry
    | some entry =>
      exact (isFixpoint_run hchecked hsecure).holdsPathJoins hg hentry
        fun _ _ => stores_of_mem_table hchecked

/-- Two tables of path joins have the same points and the same values. -/
theorem HoldsPathJoins.read_eq {t' : Table} (h : s.HoldsPathJoins t) (h' : s.HoldsPathJoins t')
    (k : Key) (loc : Location) : t[k]?.map (·.read loc) = t'[k]?.map (·.read loc) := by
  have hiff := (h.mem_iff k).trans (h'.mem_iff k).symm
  cases hst : t[k]? with
  | none =>
    cases hst' : t'[k]? with
    | none => rfl
    | some st' =>
      obtain ⟨st, hst''⟩ := hiff.2 ⟨st', hst'⟩
      rw [hst] at hst''
      cases hst''
  | some st =>
    obtain ⟨st', hst'⟩ := hiff.1 ⟨st, hst⟩
    rw [hst', Option.map_some, Option.map_some,
      (h.isLUB k st hst loc).unique (h'.isLUB k st' hst' loc)]

/-! ## The order of visits -/

theorem isPath_reorder {g : SpecGraph} {o : Options} {mode : TraceMode} {ks : List Key} :
    (Setup.of g { o with traceMode := mode }).IsPath entry ks ↔ (Setup.of g o).IsPath entry ks :=
  ⟨fun h => ⟨h.head, h.chain⟩, fun h => ⟨h.head, h.chain⟩⟩

theorem leadsTo_reorder {g : SpecGraph} {o : Options} {mode : TraceMode} {ks : List Key} :
    (Setup.of g { o with traceMode := mode }).LeadsTo ks k ↔ (Setup.of g o).LeadsTo ks k :=
  exists_congr fun _ => and_congr_right fun _ => isPath_reorder

theorem arrivals_reorder {g : SpecGraph} {o : Options} {mode : TraceMode} {loc : Location} :
    (Setup.of g { o with traceMode := mode }).arrivals k loc = (Setup.of g o).arrivals k loc := by
  ext v
  exact exists_congr fun _ => exists_congr fun _ => and_congr_left fun _ => leadsTo_reorder

/-- The joins over all paths do not depend on the order of visits. -/
theorem HoldsPathJoins.reorder {g : SpecGraph} {o : Options} {mode : TraceMode}
    (h : (Setup.of g { o with traceMode := mode }).HoldsPathJoins t) :
    (Setup.of g o).HoldsPathJoins t := by
  refine ⟨fun k => ?_, fun ks k hks => h.visited ks k (leadsTo_reorder.2 hks), ?_⟩
  · rw [h.mem_iff k]
    exact exists_congr fun _ => leadsTo_reorder
  · intro k st hst loc
    rw [← arrivals_reorder]
    exact h.isLUB k st hst loc

end Setup

theorem SpecGraph.holdsPathJoins_of_isSecure {g : SpecGraph} {o : Options} (hg : g.NoRollback)
    (hsecure : (g.analyze o).result.isSecure = true) :
    (Setup.of g o).HoldsPathJoins (g.finalTable o) := by
  obtain ⟨herror, hverdict⟩ := Report.isSecure_iff.1 hsecure
  have houtcome := SpecGraph.outcome_of_error_eq_none herror
  rw [hverdict] at houtcome
  exact Setup.holdsPathJoins_run hg houtcome

/-- A secure analysis of a graph without rollbacks leaves the joins over all paths in its table, so
    that registers and memory do not depend on the order of visits. -/
theorem finalTable_holdsPathJoins (g : SpecGraph) (o : Options) (hg : g.NoRollback)
    (hsecure : (g.analyze o).result.isSecure = true) :
    (Setup.of g o).HoldsPathJoins (g.finalTable o) ∧
      ∀ mode, (g.analyze { o with traceMode := mode }).result.isSecure = true →
        ∀ (k : Key) (loc : Location),
          (g.finalTable { o with traceMode := mode })[k]?.map (State.read · loc) =
            (g.finalTable o)[k]?.map (State.read · loc) := by
  have hjoins := SpecGraph.holdsPathJoins_of_isSecure hg hsecure
  refine ⟨hjoins, fun mode hsecure' k loc => ?_⟩
  have hjoins' := SpecGraph.holdsPathJoins_of_isSecure hg hsecure'
  exact hjoins'.reorder.read_eq hjoins k loc

/-- A loop that stores `x`, into which it moves the secret `h` on one of its two ways. -/
def meeting : String := "L: beqz c, A\nx <- h\nA: store x, p\njmp L"

def meetingGraph : SpecGraph := (SpecGraph.buildSource meeting {}).result.toOption.getD .empty

def meetingOptions : Options := { policy := Policy.empty.setReg "h" .high, specWindow := 2 }

theorem finalTable_meeting :
    meetingGraph.NoRollback ∧ (meetingGraph.analyze meetingOptions).result.isSecure = true ∧
      (meetingGraph.analyze { meetingOptions with traceMode := .singlePath }).result.isSecure =
        true ∧
      (Setup.of meetingGraph meetingOptions).HoldsPathJoins
        (meetingGraph.finalTable meetingOptions) ∧
      ∀ (k : Key) (loc : Location),
        (meetingGraph.finalTable { meetingOptions with traceMode := .singlePath })[k]?.map
            (State.read · loc) =
          (meetingGraph.finalTable meetingOptions)[k]?.map (State.read · loc) := by
  have hbuilt : (SpecGraph.buildSource meeting {}).result = .ok meetingGraph :=
    SpecGraph.buildSource_eq_ok (by decide +kernel)
  have hg := SpecGraph.noRollback_of_buildSource rfl hbuilt
  have hsecure : (meetingGraph.analyze meetingOptions).result.isSecure = true := by decide +kernel
  have hsecure' : (meetingGraph.analyze { meetingOptions with
      traceMode := .singlePath }).result.isSecure = true := by decide +kernel
  obtain ⟨hjoins, horder⟩ := finalTable_holdsPathJoins meetingGraph meetingOptions hg hsecure
  exact ⟨hg, hsecure, hsecure', hjoins, horder .singlePath hsecure'⟩

end Mispredict
