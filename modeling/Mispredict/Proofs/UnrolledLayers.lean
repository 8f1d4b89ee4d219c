/-
  Unrolled graphs are faithful to their programs.

  Each direction of a branch has a context of its own, and speculation on it opens at the first
  node of that context, with the whole window. A walk goes from there through nodes of this and
  of further contexts. These may meet nodes of other walks, but what is open outermost stays
  the same. So the layers above the opening are the points whose outermost context is that of
  the opening, by what is left of the window (`layered_unrolled`). Nodes have been laid for as
  many instructions as the window allows, so that every walk finds its way (`climbs_unrolled`).
-/
import Mispredict.Proofs.Faithful
import Mispredict.Proofs.UnrolledMoves

namespace Mispredict

open MuAsm (Program)

open Machine SpecGraph Draft

namespace Setup

/-- The context of the outermost frame. -/
def outermost? (frames : List Frame) : Option (Option Nat) := frames.getLast?.map (·.context)

theorem outermost?_cons_cons (f f' : Frame) (rest : List Frame) :
    outermost? (f :: f' :: rest) = outermost? (f' :: rest) := by
  rw [outermost?, List.getLast?_cons_cons, outermost?]

theorem outermost?_spend (frames : List Frame) : outermost? (spend frames) = outermost? frames := by
  cases frames with
  | nil => rfl
  | cons f rest =>
    cases rest with
    | nil => rfl
    | cons f' rest => rw [spend, outermost?_cons_cons, outermost?_cons_cons]

theorem outermost?_of_enter? {s : Setup} {f : Frame} {rest inner : List Frame} {n : Node}
    (h : s.enter? .speculative (f :: rest) n = some inner) :
    outermost? inner = outermost? (f :: rest) := by
  rcases enter?_cases h with ⟨rfl, -⟩ | ⟨context, -, rfl⟩
  · rfl
  · exact outermost?_cons_cons ..

variable {p : Program} {window : Nat} {budget : Nat → Nat → Nat} {c : SpecGraph} {s : Setup}
  {entry r k target : Key} {payload : Payload} {b context context' i j q q' x n d : Nat}
  {f : Frame} {rest : List Frame} {R st τ : State}

/-! ## Points -/

theorem LaidAt.index_unique (hunrolled : IsUnrolled p window budget c s.graph)
    (h : LaidAt p s context q i) (h' : LaidAt p s context q j) : j = i := by
  obtain ⟨e, w, -, rfl, hn⟩ := h
  obtain ⟨e', w', -, hw', hn'⟩ := h'
  have hid : (unrolledNode e' q w').id = (unrolledNode e q w).id := congrArg (unrolledId · q) hw'
  have hindex := hunrolled.stages.core.indexed.index?_id hn
  have hindex' := hunrolled.stages.core.indexed.index?_id hn'
  rw [hid] at hindex'
  exact Option.some.inj (hindex'.symm.trans hindex)

theorem LaidAt.outside (hflow : s.OnFlow p entry) (h : LaidAt p s context q i) :
    p.length ≤ i := by
  by_contra hlt
  obtain ⟨e, w, -, -, hn⟩ := h
  obtain ⟨e', -, hn'⟩ := hflow.node i (not_le.1 hlt)
  have hkind := congrArg Node.kind (Option.some.inj (hn.symm.trans hn'))
  cases hkind

theorem standsFor_unrolled (h : LaidAt p s context q i) (frames : List Frame) :
    s.StandsFor p ⟨i, .speculative, frames⟩ q := by
  obtain ⟨e, w, he, -, hn⟩ := h
  exact ⟨rfl, executes_of_node hn he rfl rfl⟩

/-- What a node of a walk passes its state on to: a node for the next instruction, with one
    instruction less left and the same context outermost. -/
theorem goesOn_of_move (hunrolled : IsUnrolled p window budget c s.graph)
    (hi : LaidAt p s context q i)
    (hmove : (target, .full) ∈ s.moves ⟨i, .speculative, f :: rest⟩) :
    ∃ x context' j f' rest', target = ⟨j, .speculative, f' :: rest'⟩ ∧ p.Passes q x ∧
      LaidAt p s context' x j ∧ 0 < f'.remaining ∧ f.remaining = f'.remaining + 1 ∧
      outermost? (f' :: rest') = outermost? (f :: rest) := by
  cases hunrolled.pathMove_of_path hi hmove with
  | @goesOn q' x context' context'' _ j _ inner n source passes left node htarget enters =>
    obtain ⟨-, rfl⟩ := hi.unique source
    obtain ⟨f', rest', rfl, hf'⟩ := exists_remaining_of_enter? enters
    have hleft : f.remaining - 1 ≠ 0 := by simpa [spend, exhausted] using left
    dsimp only at hf'
    refine ⟨x, context'', j, f', rest', rfl, passes, node, by omega, by omega, ?_⟩
    rw [outermost?_of_enter? enters]
    exact outermost?_spend (f :: rest)

theorem goesOn_of_follows (hunrolled : IsUnrolled p window budget c s.graph)
    (hg : s.graph.NoRollback) (hi : LaidAt p s context q i)
    (hfollows : s.Follows ⟨i, .speculative, f :: rest⟩ target) :
    ∃ x context' j f' rest', target = ⟨j, .speculative, f' :: rest'⟩ ∧ p.Passes q x ∧
      LaidAt p s context' x j ∧ 0 < f'.remaining ∧ f.remaining = f'.remaining + 1 ∧
      outermost? (f' :: rest') = outermost? (f :: rest) := by
  obtain ⟨payload, hmem⟩ := hfollows.exists_move
  obtain ⟨rfl, -⟩ := move_of_noRollback hg hmem
  exact goesOn_of_move hunrolled hi hmem

/-- The speculative points of an unrolled analysis: those at which a speculation opens, with the
    whole window, and those inside of one, with less. -/
inductive UnrolledPoint (p : Program) (s : Setup) : Key → Prop where
  | opens {q x context i : Nat} (node : LaidAt p s context x i)
      (opened : s.graph.Linked (committedId q) (unrolledId context x)) :
      UnrolledPoint p s ⟨i, .speculative, [⟨some context, s.window⟩]⟩
  | inside {context q i : Nat} {f : Frame} {rest : List Frame} (node : LaidAt p s context q i)
      (lt : f.remaining < s.window) : UnrolledPoint p s ⟨i, .speculative, f :: rest⟩

theorem UnrolledPoint.exists_laidAt (h : UnrolledPoint p s k) :
    ∃ context q f rest, k = ⟨k.node, .speculative, f :: rest⟩ ∧ LaidAt p s context q k.node ∧
      f.remaining ≤ s.window := by
  cases h with
  | opens node => exact ⟨_, _, _, _, rfl, node, le_rfl⟩
  | inside node lt => exact ⟨_, _, _, _, rfl, node, lt.le⟩

theorem Stores.unrolledPoint (hunrolled : IsUnrolled p window budget c s.graph)
    (hflow : s.OnFlow p entry) (h : s.Stores entry k st) (hmode : k.mode = .speculative) :
    UnrolledPoint p s k := by
  induction h with
  | start =>
    obtain ⟨q, -, rfl⟩ := hflow.starts
    cases hmode
  | @pass k target st out payload old visited after violation move held ih =>
    cases hk : k.mode with
    | committed =>
      obtain ⟨q, hq, rfl⟩ := hflow.stored k st visited hk
      cases hunrolled.pathMove_of_committed hq move with
      | commits | returns => cases hmode
      | leaves branch follows node opens => exact .opens node opens
    | speculative =>
      obtain ⟨context, q, f, rest, heq, hlaid, hle⟩ := (ih hk).exists_laidAt
      have hfollows := follows_of_move move
      rw [heq] at hfollows
      obtain ⟨x, context', j, f', rest', rfl, -, hlaid', -, hspent, -⟩ :=
        goesOn_of_follows hunrolled hflow.noRollback hlaid hfollows
      exact .inside hlaid' (by omega)

/-! ## The opening -/

/-- Only committed execution leads to a point with the whole window left. -/
theorem committed_of_follows (hunrolled : IsUnrolled p window budget c s.graph)
    (hflow : s.OnFlow p entry) (hst : s.Stores entry k st)
    (hfollows : s.Follows k ⟨i, .speculative, [⟨some context, s.window⟩]⟩) :
    k.mode = .committed := by
  cases hmode : k.mode with
  | committed => rfl
  | speculative =>
    obtain ⟨_, q, f, rest, heq, hlaid, hle⟩ :=
      (hst.unrolledPoint hunrolled hflow hmode).exists_laidAt
    rw [heq] at hfollows
    obtain ⟨x, _, j, f', rest', htarget, -, -, -, hspent, -⟩ :=
      goesOn_of_follows hunrolled hflow.noRollback hlaid hfollows
    cases htarget
    dsimp only at hspent
    omega

/-- Speculation on a direction of a branch opens at the first node of its context. -/
theorem opening_unrolled (hunrolled : IsUnrolled p window budget c s.graph)
    (hflow : s.OnFlow p entry) (hlaid : LaidAt p s context x i)
    (hopened : s.graph.Linked (committedId b) (unrolledId context x)) (hb : b < p.length) :
    s.Opening p entry b ⟨i, .speculative, [⟨some context, s.window⟩]⟩ := by
  refine ⟨rfl, hlaid.outside hflow, fun q hq move => ⟨?_, ?_⟩,
    fun k st hst hfollows => committed_of_follows hunrolled hflow hst hfollows, fun hfollows => ?_⟩
  · obtain ⟨target, payload⟩ := move
    rintro ⟨hmove, hguides⟩
    obtain ⟨rfl, -⟩ := move_of_noRollback hflow.noRollback hmove
    cases hunrolled.pathMove_of_committed hq hmove with
    | commits follows => exact .inl ⟨_, follows, rfl⟩
    | leaves branch follows node opens =>
      rcases guides_iff.1 hguides with ⟨q', -, heq⟩ | heq
      · cases heq
      · cases heq
        obtain ⟨rfl, rfl⟩ := hunrolled.opens _ _ _ _ _ opens hopened
        exact .inr ⟨rfl, rfl⟩
  · rintro (⟨x, hx, rfl⟩ | ⟨rfl, rfl⟩)
    · exact ⟨hunrolled.stages.mem_moves_successor hunrolled.flow hx,
        guides_iff.2 (.inl ⟨x, (Program.lt_of_mem_successors hx).2, rfl⟩)⟩
    · obtain ⟨j, hj, hmove⟩ := hunrolled.mem_moves_leaves hb hopened
      cases hlaid.index_unique hunrolled hj
      exact ⟨hmove, guides_iff.2 (.inr rfl)⟩
  · obtain ⟨_, _, j, f', rest', htarget, -, -, -, hspent, -⟩ :=
      goesOn_of_follows hunrolled hflow.noRollback hlaid hfollows
    cases htarget
    dsimp only at hspent
    omega

/-! ## The layers -/

/-- The layer of a point above the opening `root` of a context: points that have this context open
    outermost, by what they have left of the window. -/
def unrolledLayer (window context : Nat) (root k : Key) : Option Nat :=
  if k = root then some 0
  else
    match k with
    | ⟨_, .speculative, f :: rest⟩ =>
      if outermost? (f :: rest) = some (some context) ∧ f.remaining < window then
        some (window - f.remaining)
      else none
    | _ => none

theorem unrolledLayer_inside {node : Nat}
    (houter : outermost? (f :: rest) = some (some context)) (hlt : f.remaining < window) :
    unrolledLayer window context ⟨i, .speculative, [⟨some context, window⟩]⟩
      ⟨node, .speculative, f :: rest⟩ = some (window - f.remaining) := by
  have hne : (⟨node, .speculative, f :: rest⟩ : Key) ≠
      ⟨i, .speculative, [⟨some context, window⟩]⟩ := by
    rintro heq
    cases heq
    exact lt_irrefl _ hlt
  rw [unrolledLayer, if_neg hne]
  exact if_pos ⟨houter, hlt⟩

theorem unrolledLayer_eq_succ {root : Key}
    (h : unrolledLayer window context root k = some (d + 1)) :
    ∃ j f rest, k = ⟨j, .speculative, f :: rest⟩ ∧
      outermost? (f :: rest) = some (some context) ∧ f.remaining + (d + 1) = window := by
  unfold unrolledLayer at h
  split at h
  · cases h
  · split at h
    · next j f rest _ =>
      split at h
      · next hk =>
        refine ⟨j, f, rest, rfl, hk.1, ?_⟩
        have hd := Option.some.inj h
        omega
      · cases h
    · cases h

theorem unrolledLayer_eq_zero {root : Key} :
    unrolledLayer window context root k = some 0 ↔ k = root := by
  refine ⟨fun h => ?_, fun h => if_pos h⟩
  unfold unrolledLayer at h
  split at h
  · assumption
  · split at h
    · split at h
      · next hk =>
        have hd := Option.some.inj h
        omega
      · cases h
    · cases h

theorem sorted_unrolled (hunrolled : IsUnrolled p window budget c s.graph)
    (hflow : s.OnFlow p entry) (hq : q < p.length) :
    ((s.moves ⟨q, .committed, []⟩).map (·.1)).Pairwise
      fun a b => b.mode = .committed → a.mode = .committed := by
  rw [List.pairwise_map]
  refine (pairwise_moves rfl).imp_of_mem ?_
  rintro ⟨a, pa⟩ ⟨b, pb⟩ ha hb hlt hmode
  obtain ⟨rfl, -⟩ := move_of_noRollback hflow.noRollback hb
  cases hunrolled.pathMove_of_committed hq ha with
  | commits | returns => rfl
  | leaves branch follows node =>
    have hout := node.outside hflow
    cases hunrolled.pathMove_of_committed hq hb with
    | commits follows' =>
      have hx := (Program.lt_of_mem_successors follows').2
      dsimp only at hlt
      omega
    | leaves => cases hmode

/-- The layers of the speculation on a direction of a branch. -/
theorem layered_unrolled (hunrolled : IsUnrolled p window budget c s.graph)
    (hflow : s.OnFlow p entry) (hlaid : LaidAt p s context x i)
    (hopened : s.graph.Linked (committedId b) (unrolledId context x)) :
    s.Layered entry ⟨i, .speculative, [⟨some context, s.window⟩]⟩
      (unrolledLayer s.window context ⟨i, .speculative, [⟨some context, s.window⟩]⟩)
      fun _ => False := by
  refine ⟨?_, fun k => unrolledLayer_eq_zero, fun k d hk => ?_,
    fun k st hst hfollows => committed_of_follows hunrolled hflow hst hfollows,
    fun k st target d hst hfollows htarget => ?_, nofun, nofun, fun k st hst hmode => ?_⟩
  · obtain ⟨q, -, rfl⟩ := hflow.starts
    rfl
  · cases d with
    | zero => rw [unrolledLayer_eq_zero.1 hk]
    | succ d =>
      obtain ⟨j, f, rest, rfl, -⟩ := unrolledLayer_eq_succ hk
      rfl
  · obtain ⟨j, f', rest', rfl, houter, hsum⟩ := unrolledLayer_eq_succ htarget
    left
    cases hmode : k.mode with
    | committed =>
      -- committed execution leads to openings only
      obtain ⟨q, hq, rfl⟩ := hflow.stored k st hst hmode
      obtain ⟨payload, hmem⟩ := hfollows.exists_move
      cases hunrolled.pathMove_of_committed hq hmem with
      | leaves branch follows node opens =>
        dsimp only at hsum
        omega
    | speculative =>
      cases hst.unrolledPoint hunrolled hflow hmode with
      | @opens q x' context' i' node opened =>
        obtain ⟨_, _, _, _, _, heq, -, -, -, hspent, houter'⟩ :=
          goesOn_of_follows hunrolled hflow.noRollback node hfollows
        cases heq
        -- the context has been opened once
        cases houter'.symm.trans houter
        obtain ⟨rfl, rfl⟩ := hunrolled.opens _ _ _ _ _ opened hopened
        cases hlaid.index_unique hunrolled node
        dsimp only at hspent
        obtain rfl : d = 0 := by omega
        exact unrolledLayer_eq_zero.2 rfl
      | inside node lt =>
        obtain ⟨_, _, _, _, _, heq, -, -, -, hspent, houter'⟩ :=
          goesOn_of_follows hunrolled hflow.noRollback node hfollows
        cases heq
        rw [unrolledLayer_inside (houter'.symm.trans houter) lt]
        congr 1
        omega
  · obtain ⟨q, hq, rfl⟩ := hflow.stored k st hst hmode
    exact sorted_unrolled hunrolled hflow hq

/-! ## Walks -/

/-- A walk that fits into the window climbs the layers. -/
theorem climbs_unrolled (hunrolled : IsUnrolled p window budget c s.graph)
    (hascends : s.graph.Ascends) (hlaid : LaidAt p s context x i)
    (hbudget : s.window ≤ budget context x) (hwalk : p.Walk x R n q τ) (hlt : n < s.window) :
    ∃ context' j f rest, LaidAt p s context' q j ∧ n + f.remaining = s.window ∧
      f.remaining ≤ budget context' q ∧ outermost? (f :: rest) = some (some context) ∧
      Ascending context' (f :: rest) ∧
      s.Climbs (unrolledLayer s.window context ⟨i, .speculative, [⟨some context, s.window⟩]⟩)
        ⟨i, .speculative, [⟨some context, s.window⟩]⟩ R ⟨j, .speculative, f :: rest⟩ τ := by
  induction hwalk with
  | start => exact ⟨context, i, _, [], hlaid, Nat.zero_add _, hbudget, rfl, ⟨rfl, nofun⟩, .start⟩
  | @step n q q' st before passes ih =>
    obtain ⟨context', j, f, rest, hj, hspent, hle, houter, hstack, hclimb⟩ := ih (by omega)
    have hleft : exhausted (spend (f :: rest)) = false :=
      beq_false_of_ne (by dsimp only; omega)
    obtain ⟨context'', j', inner, node, hj', hle', -, henter, hstack', hmove⟩ :=
      hunrolled.exists_move_goesOn (b := f.remaining - 1) hascends hj hstack passes (by omega)
        (by omega) hleft
    obtain ⟨f', rest', rfl, hf'⟩ := exists_remaining_of_enter? henter
    dsimp only at hf'
    have houter' : outermost? (f' :: rest') = some (some context) := by
      rw [outermost?_of_enter? henter, ← houter]
      exact outermost?_spend (f :: rest)
    have hclimb' := Climbs.move hclimb hmove (unrolledLayer_inside houter' (by omega))
    rw [(standsFor_unrolled hj _).advance_eq] at hclimb'
    exact ⟨context'', j', f', rest', hj', by omega, by omega, houter', hstack', hclimb'⟩

/-- Paths behind an opening are walks. -/
theorem Trail.exists_walk (hunrolled : IsUnrolled p window budget c s.graph)
    (hg : s.graph.NoRollback) (hwindow : 0 < s.window) (hlaid : LaidAt p s context x i)
    (h : s.Trail ⟨i, .speculative, [⟨some context, s.window⟩]⟩ R k τ) :
    ∃ n q context' j f rest, k = ⟨j, .speculative, f :: rest⟩ ∧ LaidAt p s context' q j ∧
      p.Walk x R n q τ ∧ n + f.remaining = s.window ∧ 0 < f.remaining := by
  induction h with
  | start => exact ⟨0, x, context, i, _, [], rfl, hlaid, .start, Nat.zero_add _, hwindow⟩
  | @move k target st before follows ih =>
    obtain ⟨n, q, context', j, f, rest, rfl, hj, hwalk, hspent, -⟩ := ih
    obtain ⟨x', context'', j', f', rest', rfl, hpasses, hj', hpos, hspent', -⟩ :=
      goesOn_of_follows hunrolled hg hj follows
    refine ⟨n + 1, x', context'', j', f', rest', rfl, hj', ?_, by omega, hpos⟩
    rw [(standsFor_unrolled hj _).advance_eq]
    exact hwalk.step hpasses

/-- Unrolled graphs are faithful, if they have been unrolled for the window of the analysis. -/
theorem faithful_unrolled (hunrolled : IsUnrolled p window budget c s.graph)
    (hflow : s.OnFlow p entry) (hascends : s.graph.Ascends) (hwindow : 0 < s.window)
    (hfits : s.window ≤ window) : s.Faithful p entry := by
  refine ⟨hflow, fun r R k τ hopens htrail hleak => ?_, fun b x hb hx => ?_⟩
  · obtain ⟨hmode, k₀, st, hst, hcommitted, hfollows⟩ := hopens
    obtain ⟨b, hb, rfl⟩ := hflow.stored k₀ st hst hcommitted
    obtain ⟨payload, hmem⟩ := hfollows.exists_move
    cases hunrolled.pathMove_of_committed hb hmem with
    | commits | returns => cases hmode
    | leaves branch follows node opens =>
      obtain ⟨n, q, _, j, f, rest, rfl, hj, hwalk, hspent, hpos⟩ :=
        htrail.exists_walk hunrolled hflow.noRollback hwindow node
      rw [(standsFor_unrolled hj _).leaks_eq] at hleak
      exact ⟨b, _, n, q, branch, follows, opening_unrolled hunrolled hflow node opens hb,
        by omega, hwalk, hleak⟩
  · obtain ⟨context, hopened, hbudget⟩ := hunrolled.leaves b x hb hx
    have hlt := (Program.lt_of_mem_successors hx).1
    obtain ⟨i, hi, -⟩ := hunrolled.mem_moves_leaves hlt hopened
    refine ⟨_, _, _, opening_unrolled hunrolled hflow hi hopened hlt,
      layered_unrolled hunrolled hflow hi hopened, fun R n q τ hwalk hn => ?_⟩
    obtain ⟨_, j, f, rest, hj, -, -, -, -, hclimb⟩ :=
      climbs_unrolled hunrolled hascends hi (hfits.trans hbudget) hwalk hn
    exact ⟨_, standsFor_unrolled hj _, hclimb⟩

end Setup

end Mispredict
