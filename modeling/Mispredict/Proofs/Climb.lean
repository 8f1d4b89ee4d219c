/-
  Climbing the layers of a speculation.

  A machine that visits a speculation forgets in what states a point was visited; it keeps only
  their join. Once a baseline has come into that, the join tells nothing of leaks. So what the
  clean points have held is kept on record (`Machine.record`), and that is closed under visits
  at least as far as these have been made (`Machine.Records`). In a run that ends secure the
  record covers all that climbs the layers from a state in which the opening was visited, and
  so none of it leaks (`Setup.Layered.leaks_eq_false`).
-/
import Mispredict.Proofs.Layers
import Mispredict.Proofs.Order

namespace Mispredict

open Machine

namespace Machine

variable {s : Setup} {cap : Option Nat} {entry root k q : Key} {layer : Key → Option Nat}
  {Spare : Key → Prop} {site : Site} {m m' : Machine} {st x : State} {rest new : List Key}
  {past : Key → Option State} {d e : Nat}

/-! ## The record -/

/-- The record after a step that visits `k`: for the opening, the last clean state in which it was
    visited; for other points, the last clean state that they held. -/
def record (site : Site) (root k : Key) (m m' : Machine) (past : Key → Option State) (q : Key) :
    Option State :=
  if q = root then if k = root ∧ m.Clean site root then m.table[root]? else past root
  else if m'.Clean site q then m'.table[q]? else past q

/-- A clean state on record is closed: a visit in it does not leak, and what the visit passes on is
    on record in the layer above. Only points that still wait for a visit are excepted. -/
structure Records (s : Setup) (root : Key) (layer : Key → Option Nat) (site : Site) (m : Machine)
    (past : Key → Option State) : Prop where
  clean : ∀ q x, past q = some x → ¬ x.HasBaseline site
  current : ∀ q d, layer q = some (d + 1) → m.Clean site q → past q = m.table[q]?
  opening : ∀ x, past root = some x → ∃ st, m.table[root]? = some st ∧ x ≤ st
  closed : ∀ k x d, layer k = some d → past k = some x →
    (k ≠ root → m.Clean site k → k ∉ m.queue.toList) →
    s.leaks k x = false ∧
      ∀ q e, s.Follows k q → layer q = some e → ∃ y, past q = some y ∧ s.advance k x ≤ y

theorem records_start (hl : s.Layered entry root layer Spare) (site : Site) :
    Records s root layer site (start s entry) fun _ => none := by
  refine ⟨nofun, fun q d hq _ => ?_, nofun, nofun⟩
  have hne : q ≠ entry := by
    rintro rfl
    cases hl.starts.symm.trans (hl.speculative q _ hq)
  rw [getElem?_table_start, if_neg hne]

theorem record_of_clean (hl : s.Layered entry root layer Spare) (hq : layer q = some (d + 1))
    (hclean : m'.Clean site q) : record site root k m m' past q = m'.table[q]? := by
  have hne : q ≠ root := by
    rintro rfl
    cases hq.symm.trans ((hl.root_iff q).2 rfl)
  rw [record, if_neg hne, if_pos hclean]

/-- The record only grows. -/
theorem Records.grows (h : Records s root layer site m past)
    (hl : s.Layered entry root layer Spare) (hspreads : Spreads s m k st rest new m')
    (hturn : Turn s root layer site m k rest new m') (hq : layer q = some e)
    (hx : past q = some x) : ∃ y, record site root k m m' past q = some y ∧ x ≤ y := by
  unfold record
  split
  · next hroot =>
    rw [hroot] at hx
    split
    · exact h.opening x hx
    · exact ⟨x, hx, le_rfl⟩
  · next hroot =>
    split
    · next hclean =>
      cases e with
      | zero => exact absurd ((hl.root_iff q).1 hq) hroot
      | succ e =>
        rw [h.current q e hq (hturn.clean q hclean)] at hx
        exact hspreads.grows hx
    · exact ⟨x, hx, le_rfl⟩

/-- After a visit in a clean state that state is closed. -/
theorem closed_record (past : Key → Option State) (hl : s.Layered entry root layer Spare)
    (hspreads : Spreads s m k st rest new m') (hk : s.Stores entry k st) (hharmless : st.Harmless)
    (hturn : Turn s root layer site m k rest new m') (htimely : Timely layer site m)
    (hd : layer k = some d) (hclean : m.Clean site k) :
    s.leaks k st = false ∧ ∀ q e, s.Follows k q → layer q = some e →
      ∃ y, record site root k m m' past q = some y ∧ s.advance k st ≤ y := by
  refine ⟨hspreads.leaks_eq_false hharmless, fun q e hfollows he => ?_⟩
  obtain rfl := hl.succ hk hd hfollows he
  have hq := htimely.ahead k rest q d hspreads.next hd hclean he
  have hq' : m'.Clean site q := by
    by_contra hstained
    rcases hturn.stained q _ he hq hstained with ⟨rfl, -⟩ | ⟨-, -, -, hdirty⟩
    · cases he.symm.trans ((hl.root_iff q).2 rfl)
    · exact hdirty hclean
  rw [record_of_clean hl he hq']
  exact hspreads.receives hfollows

theorem Records.step (h : Records s root layer site m past)
    (hl : s.Layered entry root layer Spare) (hspreads : Spreads s m k st rest new m')
    (hk : s.Stores entry k st) (hharmless : st.Harmless)
    (hturn : Turn s root layer site m k rest new m') (htimely : Timely layer site m) :
    Records s root layer site m' (record site root k m m' past) := by
  have hvisit := fun d => closed_record (d := d) past hl hspreads hk hharmless hturn htimely
  -- what was closed before is closed after the step, since the record grows
  have hstill : ∀ q x d, layer q = some d → past q = some x →
      (q ≠ root → m.Clean site q → q ∉ m.queue.toList) → s.leaks q x = false ∧
        ∀ q' e, s.Follows q q' → layer q' = some e →
          ∃ y, record site root k m m' past q' = some y ∧ s.advance q x ≤ y := by
    intro q x d hq hx hdone
    obtain ⟨hquiet, habove⟩ := h.closed q x d hq hx hdone
    refine ⟨hquiet, fun q' e hfollows he => ?_⟩
    obtain ⟨y, hy, hle⟩ := habove q' e hfollows he
    obtain ⟨y', hy', hle'⟩ := h.grows hl hspreads hturn he hy
    exact ⟨y', hy', hle.trans hle'⟩
  refine ⟨fun q x hx => ?_, fun q d hq hclean => record_of_clean hl hq hclean, fun x hx => ?_,
    fun q x d hq hx hdone => ?_⟩
  · unfold record at hx
    split at hx
    · split at hx
      · next hclean => exact hclean.2 x hx
      · exact h.clean root x hx
    · split at hx
      · next hclean => exact hclean x hx
      · exact h.clean q x hx
  · rw [record, if_pos rfl] at hx
    split at hx
    · exact hspreads.grows hx
    · obtain ⟨y, hy, hle⟩ := h.opening x hx
      obtain ⟨y', hy', hle'⟩ := hspreads.grows hy
      exact ⟨y', hy', hle.trans hle'⟩
  · unfold record at hx
    split at hx
    · next hroot =>
      subst hroot
      split at hx
      · next hnow =>
        obtain ⟨rfl, hclean⟩ := hnow
        cases hspreads.held.symm.trans hx
        exact hvisit d hq hclean
      · exact hstill q x d hq hx fun hne => absurd rfl hne
    · next hroot =>
      split at hx
      · next hclean =>
        have hclean₀ := hturn.clean q hclean
        -- nothing has been passed on to it, or it would wait for a visit
        have hkept : m'.table[q]? = m.table[q]? := by
          by_contra hchanged
          exact hdone hroot hclean (hspreads.changed q hchanged)
        rw [hkept] at hx
        by_cases hqk : q = k
        · subst hqk
          cases hspreads.held.symm.trans hx
          exact hvisit d hq hclean₀
        · have hpast : past q = some x := by
            cases d with
            | zero => exact absurd ((hl.root_iff q).1 hq) hroot
            | succ d => rw [h.current q d hq hclean₀, hx]
          refine hstill q x d hq hpast fun _ _ hmem => ?_
          rw [hturn.next] at hmem
          have hrest := (List.mem_cons.1 hmem).resolve_left hqk
          exact hdone hroot hclean (hturn.mem_queue.2 (.inl hrest))
      · next hstained =>
        refine hstill q x d hq hx fun _ hclean => ?_
        -- it was stained from below just now, when it did not wait for a visit
        rcases hturn.stained q d hq hclean hstained with ⟨hroot', -⟩ | ⟨d', hd', rfl, hdirty⟩
        · exact absurd hroot' hroot
        · exact htimely.behind k rest q d' hturn.next hd' hdirty hq hclean

/-! ## The run -/

/-- All that is kept in the course of a run. -/
structure Watched (s : Setup) (entry root : Key) (layer : Key → Option Nat) (Spare : Key → Prop)
    (site : Site) (m : Machine) (past : Key → Option State) : Prop where
  accounted : Accounted s entry m
  spared : Spared s layer Spare m
  inOrder : InOrder s root layer site m
  records : Records s root layer site m past

theorem watched_start (hl : s.Layered entry root layer Spare) (site : Site) :
    Watched s entry root layer Spare site (start s entry) fun _ => none := by
  refine ⟨accounted_start s entry, fun z st q d hz hst => ?_, inOrder_start hl site,
    records_start hl site⟩
  rw [getElem?_table_start] at hst
  split at hst
  · next heq =>
    rw [heq] at hz
    cases (hl.spare entry hz).2.1.symm.trans hl.starts
  · cases hst

/-- The later record covers the earlier one. -/
def Extends (layer : Key → Option Nat) (past later : Key → Option State) : Prop :=
  ∀ q d x, layer q = some d → past q = some x → ∃ y, later q = some y ∧ x ≤ y

theorem Extends.trans {later last : Key → Option State} (h : Extends layer past later)
    (h' : Extends layer later last) : Extends layer past last := by
  intro q d x hq hx
  obtain ⟨y, hy, hle⟩ := h q d x hq hx
  obtain ⟨z, hz, hle'⟩ := h' q d y hq hy
  exact ⟨z, hz, hle.trans hle'⟩

theorem Watched.step (hg : s.graph.NoRollback) (hi : s.initial.Harmless)
    (hl : s.Layered entry root layer Spare) (h : Watched s entry root layer Spare site m past)
    (hstep : m.step s cap = .running m') :
    ∃ k rest, m.queue.toList = k :: rest ∧
      Watched s entry root layer Spare site m' (record site root k m m' past) ∧
      Extends layer past (record site root k m m' past) := by
  obtain ⟨k, st, rest, new, hspreads⟩ := exists_spreads hg hstep
  have hk := h.accounted.stored k st hspreads.held
  have hturn := hspreads.turn hl hi h.accounted.stored h.spared site
  have haccounted := h.accounted.step (step_ofStep s cap m)
  rw [hstep] at haccounted
  exact ⟨k, rest, hspreads.next, ⟨haccounted, hspreads.spared hl hk h.spared,
    h.inOrder.step hg hl hspreads hk hturn,
    h.records.step hl hspreads hk (hk.harmless hi) hturn (h.inOrder.timely hl)⟩,
    fun q d x hq hx => h.records.grows hl hspreads hturn hq hx⟩

theorem Watched.becomes (hg : s.graph.NoRollback) (hi : s.initial.Harmless)
    (hl : s.Layered entry root layer Spare) (h : Watched s entry root layer Spare site m past)
    (hbecomes : Becomes s cap m m') :
    ∃ later, Watched s entry root layer Spare site m' later ∧ Extends layer past later := by
  induction hbecomes with
  | refl => exact ⟨past, h, fun q d x _ hx => ⟨x, hx, le_rfl⟩⟩
  | tail _ hstep ih =>
    obtain ⟨later, hwatched, hextends⟩ := ih
    obtain ⟨k, rest, -, hwatched', hextends'⟩ := hwatched.step hg hi hl hstep
    exact ⟨_, hwatched', hextends.trans hextends'⟩

/-- A run that ends secure comes to a machine that has nothing left to visit. -/
theorem exists_becomes_of_secure {late : Error} {fuel : Nat}
    (h : (m.run s cap late fuel).outcome = .ok .secure) :
    ∃ m', Becomes s cap m m' ∧ m'.queue.toList = [] := by
  induction fuel generalizing m with
  | zero =>
    rcases run_ok_cases h with ⟨hempty, -⟩ | ⟨-, -, -, -, -, -, -, -, hv⟩ | ⟨_, _, hfuel, -⟩
    · exact ⟨m, .refl, hempty⟩
    · cases hv
    · cases hfuel
  | succ fuel ih =>
    rcases run_ok_cases h with ⟨hempty, -⟩ | ⟨-, -, -, -, -, -, -, -, hv⟩ |
      ⟨m₁, fuel₁, hfuel, hstep, hsecure⟩
    · exact ⟨m, .refl, hempty⟩
    · cases hv
    · cases hfuel
      obtain ⟨m', hbecomes, hempty⟩ := ih hsecure
      exact ⟨m', .head hstep hbecomes, hempty⟩

/-- A clean state in which the opening comes up for a visit is covered by the record of a run that
    ends secure. -/
theorem exists_watched_of_comesUp {late : Error} {fuel : Nat} (hg : s.graph.NoRollback)
    (hi : s.initial.Harmless) (hl : s.Layered entry root layer Spare)
    (hsecure : ((start s entry).run s cap late fuel).outcome = .ok .secure)
    (hcomes : ComesUp s cap (start s entry) root st) (hst : ¬ st.HasBaseline site) :
    ∃ m past x, Watched s entry root layer Spare site m past ∧ m.queue.toList = [] ∧
      past root = some x ∧ st ≤ x := by
  obtain ⟨m₁, rest, hbecomes₁, hnext, hheld⟩ := hcomes
  obtain ⟨fuel₁, hsecure₁⟩ := hbecomes₁.exists_run hsecure
  obtain ⟨m₂, fuel₂, -, hstep, hsecure₂⟩ := exists_step_of_secure hsecure₁ hnext
  obtain ⟨m₃, hbecomes₃, hempty⟩ := exists_becomes_of_secure hsecure₂
  obtain ⟨past₁, hwatched₁, -⟩ := (watched_start hl site).becomes hg hi hl hbecomes₁
  obtain ⟨k, rest', hnext', hwatched₂, -⟩ := hwatched₁.step hg hi hl hstep
  obtain ⟨past₃, hwatched₃, hextends⟩ := hwatched₂.becomes hg hi hl hbecomes₃
  obtain ⟨rfl, -⟩ := List.cons.inj (hnext.symm.trans hnext')
  have hrecord : record site root root m₁ m₂ past₁ root = some st := by
    rw [record, if_pos rfl, if_pos ⟨rfl, (clean_iff_of_held hheld).2 hst⟩, hheld]
  obtain ⟨x, hx, hle⟩ := hextends root 0 st ((hl.root_iff root).2 rfl) hrecord
  exact ⟨m₃, past₃, x, hwatched₃, hempty, hx, hle⟩

end Machine

/-! ## Climbing -/

namespace Setup

/-- The states in which paths through the layers arrive that start at `root` in the state `R`. -/
inductive Climbs (s : Setup) (layer : Key → Option Nat) (root : Key) (R : State) :
    Key → State → Prop where
  | start : Climbs s layer root R root R
  | move {k target : Key} {st : State} {d : Nat} (before : Climbs s layer root R k st)
      (move : (target, .full) ∈ s.moves k) (layered : layer target = some d) :
      Climbs s layer root R target (s.advance k st)

variable {s : Setup} {cap : Option Nat} {entry root k : Key} {layer : Key → Option Nat}
  {Spare : Key → Prop} {R τ x : State}

theorem Climbs.trail (h : s.Climbs layer root R k τ) : s.Trail root R k τ := by
  induction h with
  | start => exact .start
  | move _ move _ ih => exact .move ih (follows_of_move move)

/-- More secrets in the store show more secrets. Only an undefined level is not below others of its
    kind. -/
theorem isSecret_shown_of_storeLe (hle : τ.StoreLe x) (hdefined : s.shown k τ ≠ .bot)
    (hsecret : (s.shown k τ).isSecret = true) : (s.shown k x).isSecret = true := by
  have hshown : s.shown k τ ≤ s.shown k x := by
    unfold shown
    split
    · exact Value.le_iff_view_le.1 (hle.shown _) k.mode
    · exact le_rfl
  rw [Level.le_iff_height_le] at hshown
  revert hshown hdefined hsecret
  cases s.shown k τ <;> cases s.shown k x <;> decide

/-- In a run that ends secure nothing leaks that climbs the layers from a state in which the opening
    comes up for a visit. -/
theorem Layered.leaks_eq_false {late : Error} {fuel : Nat} (hl : s.Layered entry root layer Spare)
    (hg : s.graph.NoRollback) (hi : s.initial.Harmless)
    (hsecure : ((start s entry).run s cap late fuel).outcome = .ok .secure)
    (hcomes : ComesUp s cap (start s entry) root R) (hclimbs : s.Climbs layer root R k τ)
    (hdefined : s.shown k τ ≠ .bot) : s.leaks k τ = false := by
  by_contra hleak
  obtain ⟨hmode, hsecret, site, hsite, hseen⟩ := leaks_iff.1 (Bool.eq_true_of_not_eq_false hleak)
  have hroot := (hl.root_iff root).2 rfl
  have hR : ¬ R.HasBaseline site := by
    rw [← hclimbs.trail.hasBaseline_iff hg (hl.speculative root 0 hroot)]
    exact hseen
  obtain ⟨m, past, x, hwatched, hempty, hx, hle⟩ :=
    exists_watched_of_comesUp hg hi hl hsecure hcomes hR
  have hclosed := fun k x d hk hx =>
    hwatched.records.closed k x d hk hx fun _ _ => hempty ▸ List.not_mem_nil
  obtain ⟨y, d, hy, hd, hτ⟩ : ∃ y d, past k = some y ∧ layer k = some d ∧ τ.StoreLe y := by
    clear hleak hsecret hsite hseen hdefined hmode
    induction hclimbs with
    | start => exact ⟨x, 0, hx, hroot, .of_le hle⟩
    | @move k target st e before move layered ih =>
      obtain ⟨y, d, hy, hd, hst⟩ := ih
      obtain ⟨-, habove⟩ := hclosed k y d hd hy
      obtain ⟨z, hz, hle'⟩ := habove target e (follows_of_move move) layered
      exact ⟨z, e, hz, layered, (hst.advance s k).trans (.of_le hle')⟩
  have hleaks : s.leaks k y = true :=
    leaks_iff.2 ⟨hmode, isSecret_shown_of_storeLe hτ hdefined hsecret, site, hsite,
      hwatched.records.clean k y hy⟩
  cases hleaks.symm.trans (hclosed k y d hd hy).1

end Setup

end Mispredict
