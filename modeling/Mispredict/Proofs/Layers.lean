/-
  Speculation in layers.

  The points of one speculation lie in layers above the point at which it opens, each layer one
  move from the one below (`Setup.Layered`). For a site, a point is clean as long as its state
  has no baseline there (`Machine.Clean`). Baselines come into a speculation with the state at
  its opening and then spread from layer to layer.

  In either order of visits this goes on in good time (`Machine.Timely`): a visit of a clean
  point finds the layer above it clean, and when a point that is not clean is visited, no
  clean point of the layer above waits for a visit. First in, first out, the baseline goes up
  layer by layer behind everything that was passed on before it (`Machine.Frontier`). Last in,
  first out, all of a speculation is visited before its opening gets another state
  (`Machine.Nested`).
-/
import Mispredict.Proofs.Origin

namespace Mispredict

open Machine

/-! ## Points without a baseline -/

instance (site : Site) (st : State) : Decidable (st.HasBaseline site) :=
  inferInstanceAs (Decidable (st.seen site = .eqHigh))

namespace Machine

/-- The machine holds no state for the point, or one without the baseline for the site. -/
def Clean (site : Site) (m : Machine) (k : Key) : Prop :=
  ∀ st ∈ m.table[k]?, ¬ st.HasBaseline site

instance (site : Site) (m : Machine) (k : Key) : Decidable (m.Clean site k) :=
  inferInstanceAs (Decidable (∀ st ∈ m.table[k]?, ¬ st.HasBaseline site))

variable {site : Site} {s : Setup} {m m' : Machine} {k q : Key} {st : State}
  {rest new : List Key}

theorem clean_iff_of_held (h : m.table[k]? = some st) :
    m.Clean site k ↔ ¬ st.HasBaseline site := by
  rw [Clean, h]
  exact ⟨fun hclean => hclean st rfl, fun hst _ hx => Option.some.inj hx ▸ hst⟩

theorem Spreads.leaks_eq_false (h : Spreads s m k st rest new m') (hst : st.Harmless) :
    s.leaks k st = false := by
  rw [← Setup.hasViolation_after hst h.after, h.quiet]

/-- A point stays clean unless a baseline is passed on to it. -/
theorem Spreads.clean_iff (h : Spreads s m k st rest new m')
    (hharmless : ∀ (q : Key) (x : State), m.table[q]? = some x → x.Harmless) :
    m'.Clean site q ↔
      m.Clean site q ∧ (s.Follows k q → ¬ (s.advance k st).HasBaseline site) := by
  have hst := hharmless k st h.held
  have hout : (s.advance k st).Harmless :=
    Setup.harmless_after hst h.after (h.leaks_eq_false hst)
  by_cases hfollows : s.Follows k q
  · rw [Clean, Clean, h.table, if_pos hfollows]
    cases hold : m.table[q]? with
    | none => simp [received, hfollows]
    | some x => simp [received, hfollows, State.hasBaseline_join (hharmless q x hold) hout]
  · rw [Clean, h.keeps hfollows]
    exact ⟨fun hclean => ⟨hclean, fun h' => absurd h' hfollows⟩, fun hclean => hclean.1⟩

end Machine

/-! ## Layers -/

/-- The points of a speculation that opens at `root`. Every point has its layer, `root` alone the
    lowest, and moves go up by one layer. They may also take the way over a spare point, which
    executes nothing and leads nowhere else. -/
structure Setup.Layered (s : Setup) (entry root : Key) (layer : Key → Option Nat)
    (Spare : Key → Prop) : Prop where
  starts : entry.mode = .committed
  root_iff : ∀ k, layer k = some 0 ↔ k = root
  speculative : ∀ k d, layer k = some d → k.mode = .speculative
  opens : ∀ k st, s.Stores entry k st → s.Follows k root → k.mode = .committed
  below : ∀ k st q d, s.Stores entry k st → s.Follows k q → layer q = some (d + 1) →
    layer k = some d ∨ Spare k
  spare : ∀ z, Spare z → layer z = none ∧ z.mode = .speculative ∧ s.executed? z = none
  shortcut : ∀ k st z q d, s.Stores entry k st → s.Follows k z → Spare z → s.Follows z q →
    layer q = some d → s.Follows k q
  /-- Committed execution is followed by speculation last. -/
  sorted : ∀ k st, s.Stores entry k st → k.mode = .committed →
    ((s.moves k).map (·.1)).Pairwise fun a b => b.mode = .committed → a.mode = .committed

/-- Moves within the layers go up by one. -/
theorem Setup.Layered.succ {s : Setup} {entry root k q : Key} {layer : Key → Option Nat}
    {Spare : Key → Prop} {st : State} {d e : Nat} (hl : s.Layered entry root layer Spare)
    (hk : s.Stores entry k st) (hd : layer k = some d) (hfollows : s.Follows k q)
    (he : layer q = some e) : e = d + 1 := by
  cases e with
  | zero =>
    have hmode := hl.opens k st hk ((hl.root_iff q).1 he ▸ hfollows)
    cases hmode.symm.trans (hl.speculative k d hd)
  | succ e =>
    rcases hl.below k st q e hk hfollows he with hbelow | hspare
    · exact congrArg (· + 1) (Option.some.inj (hbelow.symm.trans hd))
    · cases (hl.spare k hspare).1.symm.trans hd

namespace Machine

variable {s : Setup} {entry root k q : Key} {layer : Key → Option Nat} {Spare : Key → Prop}
  {site : Site} {m m' : Machine} {st : State} {rest new : List Key} {d e : Nat}

/-- What spare points hold has been passed on to the layers. -/
def Spared (s : Setup) (layer : Key → Option Nat) (Spare : Key → Prop) (m : Machine) : Prop :=
  ∀ z st q d, Spare z → m.table[z]? = some st → s.Follows z q → layer q = some d →
    ∃ x, m.table[q]? = some x ∧ st ≤ x

theorem Spreads.spared (h : Spreads s m k st rest new m')
    (hl : s.Layered entry root layer Spare) (hk : s.Stores entry k st)
    (hspared : Spared s layer Spare m) : Spared s layer Spare m' := by
  intro z x q d hz hx hfollows hq
  by_cases hkz : s.Follows k z
  · obtain ⟨y, hy, hout⟩ := h.receives (hl.shortcut k st z q d hk hkz hz hfollows hq)
    refine ⟨y, hy, ?_⟩
    rw [h.table, if_pos hkz] at hx
    cases hold : m.table[z]? with
    | none =>
      rw [hold] at hx
      cases hx
      exact hout
    | some x₀ =>
      rw [hold] at hx
      cases hx
      obtain ⟨y₀, hy₀, hle₀⟩ := hspared z x₀ q d hz hold hfollows hq
      obtain ⟨y', hy', hle'⟩ := h.grows hy₀
      cases hy.symm.trans hy'
      exact sup_le (hle₀.trans hle') hout
  · rw [h.keeps hkz] at hx
    obtain ⟨y₀, hy₀, hle₀⟩ := hspared z x q d hz hx hfollows hq
    obtain ⟨y, hy, hle⟩ := h.grows hy₀
    exact ⟨y, hy, hle₀.trans hle⟩

/-- A change in the layers is made by committed execution at the opening, and else by a point one
    layer below. -/
theorem Spreads.layer_of_changed (h : Spreads s m k st rest new m')
    (hl : s.Layered entry root layer Spare) (hk : s.Stores entry k st)
    (hspared : Spared s layer Spare m) (hq : layer q = some e)
    (hchanged : m'.table[q]? ≠ m.table[q]?) :
    q = root ∧ k.mode = .committed ∨ ∃ d, layer k = some d ∧ e = d + 1 := by
  have hfollows := h.follows_of_changed hchanged
  cases e with
  | zero =>
    have hroot := (hl.root_iff q).1 hq
    exact .inl ⟨hroot, hl.opens k st hk (hroot ▸ hfollows)⟩
  | succ d =>
    rcases hl.below k st q d hk hfollows hq with hbelow | hspare
    · exact .inr ⟨d, hbelow, rfl⟩
    · obtain ⟨x, hx, hle⟩ := hspared k st q _ hspare h.held hfollows hq
      have hidle : s.advance k st = st := by rw [Setup.advance, (hl.spare k hspare).2.2]
      exact absurd (h.keeps_of_le hx (hidle.symm ▸ hle)) hchanged

/-- What a step that visits `k` does to the layers. -/
structure Turn (s : Setup) (root : Key) (layer : Key → Option Nat) (site : Site) (m : Machine)
    (k : Key) (rest new : List Key) (m' : Machine) : Prop where
  next : m.queue.toList = k :: rest
  once : k ∉ rest
  queue : m'.queue.toList = enqueued s.options.traceMode rest new
  arrives : ∀ q e, q ∈ new → layer q = some e →
    q = root ∧ k.mode = .committed ∨ ∃ d, layer k = some d ∧ e = d + 1
  clean : ∀ q, m'.Clean site q → m.Clean site q
  stained : ∀ q e, layer q = some e → m.Clean site q → ¬ m'.Clean site q →
    q = root ∧ k.mode = .committed ∨ ∃ d, layer k = some d ∧ e = d + 1 ∧ ¬ m.Clean site k
  stains : ∀ q d, layer k = some d → ¬ m.Clean site k → q ∈ new → ¬ m'.Clean site q

theorem Spreads.turn (h : Spreads s m k st rest new m') (hl : s.Layered entry root layer Spare)
    (hi : s.initial.Harmless) (hstored : ∀ q x, m.table[q]? = some x → s.Stores entry q x)
    (hspared : Spared s layer Spare m) (site : Site) :
    Turn s root layer site m k rest new m' := by
  have hk := hstored k st h.held
  have hclean : ∀ q, m'.Clean site q ↔
      m.Clean site q ∧ (s.Follows k q → ¬ (s.advance k st).HasBaseline site) :=
    fun q => h.clean_iff fun q x hx => (hstored q x hx).harmless hi
  have hkept : k.mode = .speculative →
      ((s.advance k st).HasBaseline site ↔ ¬ m.Clean site k) := fun hmode => by
    rw [Setup.hasBaseline_advance hmode, clean_iff_of_held h.held, not_not]
  refine ⟨h.next, ?_, h.queue, fun q e hq he => ?_, fun q hq => ((hclean q).1 hq).1,
    fun q e he hq hq' => ?_, fun q d hd hdirty hq hq' => ?_⟩
  · have hnodup := m.queue.nodup_toList
    rw [h.next] at hnodup
    exact (List.nodup_cons.1 hnodup).1
  · exact h.layer_of_changed hl hk hspared he (h.fresh q hq)
  · have hchanged : m'.table[q]? ≠ m.table[q]? := by
      intro heq
      rw [Clean, heq] at hq'
      exact hq' hq
    have hbaseline : (s.advance k st).HasBaseline site := by
      by_contra hno
      exact hq' ((hclean q).2 ⟨hq, fun _ => hno⟩)
    rcases h.layer_of_changed hl hk hspared he hchanged with hroot | ⟨d, hd, rfl⟩
    · exact .inl hroot
    · exact .inr ⟨d, hd, rfl, (hkept (hl.speculative k d hd)).1 hbaseline⟩
  · exact ((hclean q).1 hq').2 (h.follows_of_mem hq) ((hkept (hl.speculative k d hd)).2 hdirty)

theorem Turn.mem_queue (h : Turn s root layer site m k rest new m') :
    q ∈ m'.queue.toList ↔ q ∈ rest ∨ q ∈ new := by
  rw [h.queue, mem_enqueued]

theorem Turn.head_mem (h : Turn s root layer site m k rest new m') : k ∈ m.queue.toList :=
  h.next ▸ List.mem_cons_self

theorem Turn.mem_of_mem_rest (h : Turn s root layer site m k rest new m') (hq : q ∈ rest) :
    q ∈ m.queue.toList :=
  h.next ▸ List.mem_cons_of_mem _ hq

/-- What is queued above the opening is queued from the layer below. -/
theorem Turn.below (h : Turn s root layer site m k rest new m')
    (hl : s.Layered entry root layer Spare) (hq : q ∈ new) (he : layer q = some (e + 1)) :
    layer k = some e := by
  rcases h.arrives q (e + 1) hq he with ⟨rfl, -⟩ | ⟨d, hd, heq⟩
  · cases he.symm.trans ((hl.root_iff q).2 rfl)
  · exact Nat.succ.inj heq ▸ hd

theorem Turn.root_not_mem (h : Turn s root layer site m k rest new m')
    (hl : s.Layered entry root layer Spare) (hk : layer k = some d) : root ∉ new := by
  intro hmem
  rcases h.arrives root 0 hmem ((hl.root_iff root).2 rfl) with ⟨-, hmode⟩ | ⟨_, -, hzero⟩
  · cases hmode.symm.trans (hl.speculative k d hk)
  · cases hzero

/-- The next visit is in good time for the layer above. -/
structure Timely (layer : Key → Option Nat) (site : Site) (m : Machine) : Prop where
  ahead : ∀ k rest q d, m.queue.toList = k :: rest → layer k = some d → m.Clean site k →
    layer q = some (d + 1) → m.Clean site q
  behind : ∀ k rest q d, m.queue.toList = k :: rest → layer k = some d → ¬ m.Clean site k →
    layer q = some (d + 1) → m.Clean site q → q ∉ m.queue.toList

/-! ## First in, first out -/

/-- The baseline has come as far as the layer `d`, and clean points up to there wait for no visit.
    From `d` it goes on behind what waits in the layer above. -/
structure Frontier (root : Key) (layer : Key → Option Nat) (site : Site) (d : Nat) (m : Machine) :
    Prop where
  passed : ∀ q e, layer q = some (e + 1) → e < d → m.Clean site q → q ∉ m.queue.toList
  ahead : ∀ q e, layer q = some e → d < e → m.Clean site q
  order : m.queue.toList.Pairwise fun a b =>
    layer a = some d → (d = 0 ∨ ¬ m.Clean site a) → layer b ≠ some (d + 1)
  root : 0 < d → ¬ m.Clean site root

/-- A clean point that waits in a layer lies above the frontier, unless it is the opening. -/
theorem Frontier.lt_of_clean (hl : s.Layered entry root layer Spare)
    (h : Frontier root layer site d m) (hq : layer q = some e) (hclean : m.Clean site q)
    (hmem : q ∈ m.queue.toList) : d < e ∨ d = 0 ∧ q = root := by
  cases e with
  | zero =>
    obtain rfl := (hl.root_iff q).1 hq
    refine .inr ⟨?_, rfl⟩
    by_contra hd
    exact h.root (Nat.pos_of_ne_zero hd) hclean
  | succ e =>
    refine .inl ?_
    by_contra hd
    exact h.passed q e hq (by omega) hclean hmem

theorem Frontier.timely (hl : s.Layered entry root layer Spare)
    (h : Frontier root layer site d m) : Timely layer site m := by
  refine ⟨fun k rest q e hnext hk hclean hq => ?_, fun k rest q e hnext hk hdirty hq hclean => ?_⟩
  · have hmem : k ∈ m.queue.toList := hnext ▸ List.mem_cons_self
    rcases h.lt_of_clean hl hk hclean hmem with hlt | ⟨rfl, rfl⟩
    · exact h.ahead q _ hq (by omega)
    · exact h.ahead q _ hq (by omega)
  · have hle : e ≤ d := by
      by_contra hlt
      exact hdirty (h.ahead k e hk (by omega))
    rcases Nat.lt_or_eq_of_le hle with hlt | rfl
    · exact h.passed q e hq hlt hclean
    · have horder := h.order
      rw [hnext] at horder ⊢
      intro hmem
      rcases List.mem_cons.1 hmem with rfl | hmem
      · exact hdirty hclean
      · exact (List.pairwise_cons.1 horder).1 q hmem hk (.inr hdirty) hq

/-- The frontier stays where it is if the visited point is not a point of it with the baseline. -/
theorem Frontier.stay (hl : s.Layered entry root layer Spare)
    (h : Frontier root layer site d m) (hturn : Turn s root layer site m k rest new m')
    (horder : s.options.traceMode = .breadthFirst)
    (hk : ¬ (layer k = some d ∧ ¬ m.Clean site k)) : Frontier root layer site d m' := by
  refine ⟨fun q e hq he hclean hqueue => ?_, fun q e hq he => ?_, ?_,
    fun hd hclean => h.root hd (hturn.clean root hclean)⟩
  · rcases hturn.mem_queue.1 hqueue with hrest | hnew
    · exact h.passed q e hq he (hturn.clean q hclean) (hturn.mem_of_mem_rest hrest)
    · have hbelow := hturn.below hl hnew hq
      by_cases hdirty : m.Clean site k
      · rcases h.lt_of_clean hl hbelow hdirty hturn.head_mem with hlt | ⟨rfl, -⟩
        · omega
        · omega
      · exact hturn.stains q e hbelow hdirty hnew hclean
  · by_contra hstained
    rcases hturn.stained q e hq (h.ahead q e hq he) hstained with ⟨rfl, -⟩ | ⟨d', hd', rfl, hdirty⟩
    · rw [(hl.root_iff q).2 rfl] at hq
      cases hq
      omega
    · rcases Nat.lt_or_eq_of_le (Nat.le_of_lt_succ he) with hlt | rfl
      · exact hdirty (h.ahead k d' hd' hlt)
      · exact hk ⟨hd', hdirty⟩
  · -- what is new in the layer above comes from the opening, and nothing of it waits then
    have hnew : ∀ a, a ∈ rest ∨ a ∈ new → layer a = some d → ∀ b ∈ new, layer b ≠ some (d + 1) := by
      intro a ha hlayer b hb hb'
      have hbelow := hturn.below hl hb hb'
      have hclean : m.Clean site k := by
        by_contra hdirty
        exact hk ⟨hbelow, hdirty⟩
      rcases h.lt_of_clean hl hbelow hclean hturn.head_mem with hlt | ⟨rfl, rfl⟩
      · omega
      · obtain rfl := (hl.root_iff a).1 hlayer
        exact ha.elim hturn.once (hturn.root_not_mem hl hbelow)
    have hrest := h.order
    rw [hturn.next] at hrest
    rw [hturn.queue, horder, enqueued, List.pairwise_append]
    refine ⟨(List.pairwise_cons.1 hrest).2.imp_of_mem fun {a b} ha _ hab hlayer hcause => ?_,
      List.pairwise_of_forall_mem_list fun a ha b hb hlayer _ => hnew a (.inr ha) hlayer b hb,
      fun a ha b hb hlayer _ => hnew a (.inl ha) hlayer b hb⟩
    refine hab hlayer ?_
    by_contra hno
    obtain ⟨hd, hclean⟩ := not_or.1 hno
    rcases h.lt_of_clean hl hlayer (not_not.1 hclean) (hturn.mem_of_mem_rest ha) with hlt | ⟨rfl, -⟩
    · omega
    · exact hd rfl

/-- The frontier moves on when a point of it with the baseline is visited. -/
theorem Frontier.advance (hl : s.Layered entry root layer Spare)
    (h : Frontier root layer site d m) (hturn : Turn s root layer site m k rest new m')
    (horder : s.options.traceMode = .breadthFirst) (hk : layer k = some d)
    (hdirty : ¬ m.Clean site k) : Frontier root layer site (d + 1) m' := by
  have hrest : ∀ q ∈ rest, layer q ≠ some (d + 1) := by
    have hpairs := h.order
    rw [hturn.next] at hpairs
    exact fun q hq => (List.pairwise_cons.1 hpairs).1 q hq hk (.inr hdirty)
  refine ⟨fun q e hq he hclean hqueue => ?_, fun q e hq he => ?_, ?_, fun _ hclean => ?_⟩
  · rcases hturn.mem_queue.1 hqueue with hmem | hmem
    · rcases Nat.lt_or_eq_of_le (Nat.le_of_lt_succ he) with hlt | rfl
      · exact h.passed q e hq hlt (hturn.clean q hclean) (hturn.mem_of_mem_rest hmem)
      · exact hrest q hmem hq
    · exact hturn.stains q d hk hdirty hmem hclean
  · by_contra hstained
    rcases hturn.stained q e hq (h.ahead q e hq (by omega)) hstained with
      ⟨rfl, -⟩ | ⟨d', hd', rfl, -⟩
    · rw [(hl.root_iff q).2 rfl] at hq
      cases hq
      omega
    · cases hk.symm.trans hd'
      omega
  · rw [hturn.queue, horder, enqueued, List.pairwise_append]
    refine ⟨List.pairwise_of_forall_mem_list fun a ha b _ hlayer _ => absurd hlayer (hrest a ha),
      List.pairwise_of_forall_mem_list fun a _ b hb _ _ hb' => ?_,
      fun a ha b _ hlayer _ => absurd hlayer (hrest a ha)⟩
    cases hk.symm.trans (hturn.below hl hb hb')
  · have hclean' := hturn.clean root hclean
    cases d with
    | zero =>
      obtain rfl := (hl.root_iff k).1 hk
      exact hdirty hclean'
    | succ d => exact h.root (Nat.succ_pos d) hclean'

/-! ## Last in, first out -/

/-- What waits of a speculation is visited before committed execution and without its opening, and
    it is all clean, or the opening has the baseline and so has what waits. -/
structure Nested (root : Key) (layer : Key → Option Nat) (site : Site) (m : Machine) : Prop where
  split : m.queue.toList.Pairwise fun a b => a.mode = .committed → b.mode = .committed
  alone : root ∈ m.queue.toList → ∀ q e, layer q = some (e + 1) → q ∉ m.queue.toList
  phase : (∀ q e, layer q = some (e + 1) → m.Clean site q) ∨
    ¬ m.Clean site root ∧ ∀ q e, layer q = some (e + 1) → m.Clean site q → q ∉ m.queue.toList

/-- While a clean point is next, all layers above the opening are clean. -/
theorem Nested.clean_of_next (hl : s.Layered entry root layer Spare)
    (h : Nested root layer site m) (hk : layer k = some d) (hclean : m.Clean site k)
    (hmem : k ∈ m.queue.toList) : ∀ q e, layer q = some (e + 1) → m.Clean site q := by
  rcases h.phase with hall | ⟨hroot, hwait⟩
  · exact hall
  · cases d with
    | zero =>
      obtain rfl := (hl.root_iff k).1 hk
      exact absurd hclean hroot
    | succ d => exact absurd hmem (hwait k d hk hclean)

/-- When a point with the baseline is next, no clean point waits above the opening. -/
theorem Nested.not_mem_of_next (hl : s.Layered entry root layer Spare)
    (h : Nested root layer site m) (hk : layer k = some d) (hdirty : ¬ m.Clean site k)
    (hmem : k ∈ m.queue.toList) :
    ¬ m.Clean site root ∧ ∀ q e, layer q = some (e + 1) → m.Clean site q → q ∉ m.queue.toList := by
  rcases h.phase with hall | hwait
  · cases d with
    | zero =>
      obtain rfl := (hl.root_iff k).1 hk
      exact ⟨hdirty, fun q e hq _ => h.alone hmem q e hq⟩
    | succ d => exact absurd (hall k d hk) hdirty
  · exact hwait

theorem Nested.timely (hl : s.Layered entry root layer Spare) (h : Nested root layer site m) :
    Timely layer site m := by
  refine ⟨fun k rest q d hnext hk hclean hq => ?_, fun k rest q d hnext hk hdirty hq hclean => ?_⟩
  · exact h.clean_of_next hl hk hclean (hnext ▸ List.mem_cons_self) q d hq
  · exact (h.not_mem_of_next hl hk hdirty (hnext ▸ List.mem_cons_self)).2 q d hq hclean

theorem Nested.split_step (hg : s.graph.NoRollback) (hl : s.Layered entry root layer Spare)
    (h : Nested root layer site m) (hspreads : Spreads s m k st rest new m')
    (hk : s.Stores entry k st) (horder : s.options.traceMode = .singlePath) :
    m'.queue.toList.Pairwise fun a b => a.mode = .committed → b.mode = .committed := by
  have hsplit := h.split
  rw [hspreads.next, List.pairwise_cons] at hsplit
  rw [hspreads.queue, horder, enqueued, List.pairwise_append, List.pairwise_reverse]
  cases hmode : k.mode with
  | committed =>
    refine ⟨(hl.sorted k st hk hmode).sublist hspreads.order, hsplit.2, fun _ _ b hb _ => ?_⟩
    exact hsplit.1 b hb hmode
  | speculative =>
    have hnew : ∀ q ∈ new, q.mode ≠ .committed := by
      intro q hq hq'
      obtain ⟨payload, hmove⟩ := (hspreads.follows_of_mem hq).exists_move
      cases hq'.symm.trans (mode_of_move_of_speculative hg hmode hmove)
    refine ⟨List.pairwise_of_forall_mem_list fun a _ b hb hb' => absurd hb' (hnew b hb),
      hsplit.2, fun a ha _ _ ha' => absurd ha' (hnew a (List.mem_reverse.1 ha))⟩

theorem Nested.step (hg : s.graph.NoRollback) (hl : s.Layered entry root layer Spare)
    (h : Nested root layer site m) (hspreads : Spreads s m k st rest new m')
    (hk : s.Stores entry k st) (hturn : Turn s root layer site m k rest new m')
    (horder : s.options.traceMode = .singlePath) : Nested root layer site m' := by
  refine ⟨h.split_step hg hl hspreads hk horder, fun hroot q e hq hqueue => ?_, ?_⟩
  · cases hlayer : layer k with
    | some d =>
      have hrest : root ∈ rest :=
        (hturn.mem_queue.1 hroot).resolve_right (hturn.root_not_mem hl hlayer)
      cases d with
      | zero => exact hturn.once ((hl.root_iff k).1 hlayer ▸ hrest)
      | succ d => exact h.alone (hturn.mem_of_mem_rest hrest) k d hlayer hturn.head_mem
    | none =>
      have hqrest : q ∈ rest := by
        refine (hturn.mem_queue.1 hqueue).resolve_right fun hnew => ?_
        cases hlayer.symm.trans (hturn.below hl hnew hq)
      rcases hturn.mem_queue.1 hroot with hrest | hnew
      · exact h.alone (hturn.mem_of_mem_rest hrest) q e hq (hturn.mem_of_mem_rest hqrest)
      · -- the opening is queued by committed execution, behind which no speculation waits
        rcases hturn.arrives root 0 hnew ((hl.root_iff root).2 rfl) with ⟨-, hmode⟩ | ⟨_, hd, -⟩
        · have hsplit := h.split
          rw [hturn.next, List.pairwise_cons] at hsplit
          cases (hsplit.1 q hqrest hmode).symm.trans (hl.speculative q _ hq)
        · cases hlayer.symm.trans hd
  · have hstained : ∀ q e, layer q = some (e + 1) → m.Clean site q → ¬ m'.Clean site q →
        ∃ d, layer k = some d ∧ ¬ m.Clean site k := by
      intro q e hq hclean hdirty
      rcases hturn.stained q _ hq hclean hdirty with ⟨rfl, -⟩ | ⟨d, hd, -, hk'⟩
      · cases hq.symm.trans ((hl.root_iff q).2 rfl)
      · exact ⟨d, hd, hk'⟩
    by_cases hdirty : ∃ d, layer k = some d ∧ ¬ m.Clean site k
    · obtain ⟨d, hd, hk'⟩ := hdirty
      obtain ⟨hroot, hwait⟩ := h.not_mem_of_next hl hd hk' hturn.head_mem
      refine .inr ⟨fun hclean => hroot (hturn.clean root hclean), fun q e hq hclean hqueue => ?_⟩
      rcases hturn.mem_queue.1 hqueue with hrest | hnew
      · exact hwait q e hq (hturn.clean q hclean) (hturn.mem_of_mem_rest hrest)
      · exact hturn.stains q d hd hk' hnew hclean
    · rcases h.phase with hall | ⟨hroot, hwait⟩
      · refine .inl fun q e hq => ?_
        by_contra hno
        exact hdirty (hstained q e hq (hall q e hq) hno)
      · refine .inr ⟨fun hclean => hroot (hturn.clean root hclean), fun q e hq hclean hqueue => ?_⟩
        refine hwait q e hq (hturn.clean q hclean) ?_
        refine (hturn.mem_queue.1 hqueue).elim hturn.mem_of_mem_rest fun hnew => ?_
        have hbelow := hturn.below hl hnew hq
        have hkclean : m.Clean site k := by
          by_contra hk'
          exact hdirty ⟨e, hbelow, hk'⟩
        cases e with
        | zero =>
          obtain rfl := (hl.root_iff k).1 hbelow
          exact absurd hkclean hroot
        | succ e => exact absurd hturn.head_mem (hwait k e hbelow hkclean)

/-! ## Either order -/

/-- The queue is in the order in which the machine is run. -/
def InOrder (s : Setup) (root : Key) (layer : Key → Option Nat) (site : Site) (m : Machine) :
    Prop :=
  match s.options.traceMode with
  | .breadthFirst => ∃ d, Frontier root layer site d m
  | .singlePath => Nested root layer site m

theorem InOrder.timely (hl : s.Layered entry root layer Spare) (h : InOrder s root layer site m) :
    Timely layer site m := by
  unfold InOrder at h
  split at h
  · obtain ⟨d, h⟩ := h
    exact h.timely hl
  · exact h.timely hl

theorem InOrder.step (hg : s.graph.NoRollback) (hl : s.Layered entry root layer Spare)
    (h : InOrder s root layer site m) (hspreads : Spreads s m k st rest new m')
    (hk : s.Stores entry k st) (hturn : Turn s root layer site m k rest new m') :
    InOrder s root layer site m' := by
  unfold InOrder at h ⊢
  split at h
  · next horder =>
    obtain ⟨d, h⟩ := h
    by_cases hfront : layer k = some d ∧ ¬ m.Clean site k
    · exact ⟨d + 1, h.advance hl hturn horder hfront.1 hfront.2⟩
    · exact ⟨d, h.stay hl hturn horder hfront⟩
  · next horder => exact h.step hg hl hspreads hk hturn horder

theorem inOrder_start (hl : s.Layered entry root layer Spare) (site : Site) :
    InOrder s root layer site (start s entry) := by
  have hnone : ∀ q d, layer q = some d → (start s entry).table[q]? = none ∧
      q ∉ (start s entry).queue.toList := by
    intro q d hq
    have hne : q ≠ entry := by
      rintro rfl
      cases hl.starts.symm.trans (hl.speculative q d hq)
    rw [getElem?_table_start, if_neg hne]
    exact ⟨rfl, fun hmem => hne (List.mem_singleton.1 hmem)⟩
  have hclean : ∀ q d, layer q = some d → (start s entry).Clean site q := by
    intro q d hq
    rw [Clean, (hnone q d hq).1]
    nofun
  have hqueue : (start s entry).queue.toList = [entry] := rfl
  unfold InOrder
  split
  · exact ⟨0, nofun, fun q e hq _ => hclean q e hq, hqueue ▸ List.pairwise_singleton ..,
      fun h => absurd h (lt_irrefl 0)⟩
  · refine ⟨hqueue ▸ List.pairwise_singleton .., fun hroot => ?_, .inl fun q e hq => hclean q _ hq⟩
    exact absurd hroot (hnone root 0 ((hl.root_iff root).2 rfl)).2

end Machine

end Mispredict
