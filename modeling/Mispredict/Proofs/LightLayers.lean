/-
  Light graphs are faithful to their programs.

  Speculation on a branch opens at its begin marker, with the whole window. From there a walk
  stays in the context of the branch, whatever other branches it passes, and has that context
  alone open. So the layers above the marker are the instructions with this one context open,
  by what is left of the window (`layered_light`). A walk that comes back to its branch can
  also take the way over the begin marker once more, but it gets no further than by going on
  directly. Paths that open further contexts pass the same instructions as walks do
  (`Trail.lightReach`).
-/
import Mispredict.Proofs.Faithful
import Mispredict.Proofs.LightMoves

namespace Mispredict

open MuAsm (Program)

open Machine SpecGraph Draft

namespace Setup

variable {p : Program} {mode : SpeculationMode} {c : SpecGraph} {s : Setup}
  {entry r k target : Key} {payload : Payload} {b context i q x d : Nat} {R st τ : State}

/-! ## Points -/

/-- The points of a light analysis: inside of a speculation some context is open, with no more than
    the window, and at a begin marker the context of the marker is among those that are open. -/
inductive LightPoint (p : Program) (s : Setup) : Key → Prop where
  | committed {q : Nat} (lt : q < p.length) : LightPoint p s ⟨q, .committed, []⟩
  | instr {q : Nat} {f : Frame} {rest : List Frame} (lt : q < p.length)
      (le : f.remaining ≤ s.window) : LightPoint p s ⟨q, .speculative, f :: rest⟩
  | begins {q context i : Nat} {f : Frame} {rest : List Frame} (branch : BranchOf p context q)
      (node : s.graph.node? i = some (beginNode q context)) (le : f.remaining ≤ s.window)
      (opened : ∃ f' ∈ f :: rest, f'.context = some context) :
      LightPoint p s ⟨i, .speculative, f :: rest⟩
  | ends {q context i : Nat} {frames : List Frame}
      (node : s.graph.node? i = some (endNode q context)) : LightPoint p s ⟨i, .speculative, frames⟩

theorem LightPoint.move (hlight : IsLight p mode c s.graph) (h : LightPoint p s k)
    (hmove : LightMove p s k target payload) : LightPoint p s target := by
  cases hmove with
  | commits follows => exact .committed (Program.lt_of_mem_successors follows).2
  | mispredicts branch node =>
    exact .begins branch node le_rfl ⟨_, List.mem_cons_self, rfl⟩
  | starts branch node follows =>
    cases h with
    | instr lt => exact absurd lt (not_lt_of_marker hlight node rfl)
    | begins branch' node' le opened => exact .instr (Program.lt_of_mem_successors follows).2 le
    | ends node' => cases node.symm.trans node'
  | passes passes left =>
    obtain ⟨hq, hx⟩ := Program.lt_of_mem_successors passes.1
    cases h with
    | instr lt le => exact .instr hx ((Nat.sub_le _ _).trans le)
    | begins branch node => exact absurd hq (not_lt_of_marker hlight node rfl)
    | ends node => exact absurd hq (not_lt_of_marker hlight node rfl)
  | nests branch node left enters =>
    have hq := hlight.lt_length branch
    cases h with
    | instr lt le =>
      rcases enter?_cases enters with ⟨rfl, hopen⟩ | ⟨context', hcontext, rfl⟩
      · exact .begins branch node ((Nat.sub_le _ _).trans le) (hopen _ rfl)
      · exact .begins branch node ((Nat.sub_le _ _).trans le)
          ⟨_, List.mem_cons_self, hcontext.symm⟩
    | begins branch' node' => exact absurd hq (not_lt_of_marker hlight node' rfl)
    | ends node' => exact absurd hq (not_lt_of_marker hlight node' rfl)
  | squashes instr branch node => exact .ends node
  | skips branch begins node => exact .ends node
  | returns branch node => exact .committed (hlight.lt_length branch)

theorem LightPoint.lightMove (hlight : IsLight p mode c s.graph) (h : LightPoint p s k)
    (hmove : (target, payload) ∈ s.moves k) : LightMove p s k target payload := by
  refine hlight.lightMove_of_mem (fun hmode => ?_) hmove
  cases h with
  | committed lt => exact ⟨rfl, lt⟩
  | instr | begins | ends => cases hmode

theorem Stores.lightPoint (hlight : IsLight p mode c s.graph) (hflow : s.OnFlow p entry)
    (h : s.Stores entry k st) : LightPoint p s k := by
  induction h with
  | start =>
    obtain ⟨q, hq, rfl⟩ := hflow.starts
    exact .committed hq
  | pass visited after violation move held ih => exact ih.move hlight (ih.lightMove hlight move)

theorem index_of_beginNode {j : Nat} (hlight : IsLight p mode c s.graph)
    (hi : s.graph.node? i = some (beginNode b context))
    (hj : s.graph.node? j = some (beginNode q context)) : j = i := by
  have hindex := hlight.stages.core.indexed.index?_id hi
  have hindex' := hlight.stages.core.indexed.index?_id hj
  exact Option.some.inj (hindex'.symm.trans hindex)

/-- A begin marker with nothing but its own context open comes right after its branch: in committed
    execution, or on a walk in the same context. -/
theorem LightPoint.before_begin {remaining : Nat} (hlight : IsLight p mode c s.graph)
    (hk : LightPoint p s k) (hn : s.graph.node? i = some (beginNode b context))
    (hfollows : s.Follows k ⟨i, .speculative, [⟨some context, remaining⟩]⟩) :
    (k.mode = .committed ∧ remaining = s.window) ∨
      (k = ⟨b, .speculative, [⟨some context, remaining + 1⟩]⟩ ∧ 0 < remaining ∧
        remaining < s.window) := by
  obtain ⟨payload, hmem⟩ := hfollows.exists_move
  have hmove := hk.lightMove hlight hmem
  generalize htarget : (⟨i, .speculative, [⟨some context, remaining⟩]⟩ : Key) = target at hmove
  cases hmove with
  | commits | returns => cases htarget
  | mispredicts branch node =>
    cases htarget
    exact .inl ⟨rfl, rfl⟩
  | starts branch node follows =>
    cases htarget
    exact absurd (Program.lt_of_mem_successors follows).2 (not_lt_of_marker hlight hn rfl)
  | passes passes left =>
    obtain ⟨rfl, -, -⟩ := Key.mk.inj htarget
    exact absurd (Program.lt_of_mem_successors passes.1).2 (not_lt_of_marker hlight hn rfl)
  | @nests q context' _ frames inner branch node left enters =>
    obtain ⟨rfl, -, rfl⟩ := Key.mk.inj htarget
    obtain ⟨rfl, rfl⟩ := beginNode_inj (Option.some.inj (node.symm.trans hn))
    have hq := hlight.lt_length branch
    cases hk with
    | @instr _ f rest lt le =>
      rcases enter?_cases enters with ⟨heq, -⟩ | ⟨_, -, heq⟩
      · obtain ⟨hf, rfl⟩ := List.cons.inj heq
        obtain ⟨fcontext, fremaining⟩ := f
        obtain ⟨rfl, rfl⟩ := Frame.mk.inj hf
        have hleft : fremaining - 1 ≠ 0 := by simpa [spend, exhausted] using left
        dsimp only at le hleft ⊢
        rw [Nat.sub_add_cancel (by omega)]
        exact .inr ⟨rfl, by omega, by omega⟩
      · cases heq
    | begins branch' node' => exact absurd hq (not_lt_of_marker hlight node' rfl)
    | ends node' => exact absurd hq (not_lt_of_marker hlight node' rfl)
  | squashes instr branch node =>
    obtain ⟨rfl, -, -⟩ := Key.mk.inj htarget
    cases node.symm.trans hn
  | skips branch begins node =>
    obtain ⟨rfl, -, -⟩ := Key.mk.inj htarget
    cases node.symm.trans hn

/-! ## The opening -/

/-- Speculation on a branch opens at its begin marker. -/
theorem opening_light (hlight : IsLight p mode c s.graph) (hflow : s.OnFlow p entry)
    (hb : BranchOf p context b) (hn : s.graph.node? i = some (beginNode b context)) :
    s.Opening p entry b ⟨i, .speculative, [⟨some context, s.window⟩]⟩ := by
  refine ⟨rfl, not_lt.1 (not_lt_of_marker hlight hn rfl), fun q hq move => ⟨?_, ?_⟩,
    fun k st hst hfollows => ?_, fun hfollows => ?_⟩
  · obtain ⟨target, payload⟩ := move
    rintro ⟨hmove, hguides⟩
    cases hlight.lightMove_of_committed hq hmove with
    | commits follows => exact .inl ⟨_, follows, rfl⟩
    | mispredicts branch node =>
      rcases guides_iff.1 hguides with ⟨q', -, heq⟩ | heq
      · cases heq
      · cases heq
        obtain rfl := hb.unique branch
        exact .inr ⟨rfl, rfl⟩
    | returns branch node => exact absurd hq (not_lt_of_marker hlight node rfl)
  · rintro (⟨x, hx, rfl⟩ | ⟨rfl, rfl⟩)
    · exact ⟨hlight.stages.mem_moves_successor hlight.flow hx,
        guides_iff.2 (.inl ⟨x, (Program.lt_of_mem_successors hx).2, rfl⟩)⟩
    · obtain ⟨j, hj, hmove⟩ := hlight.mem_moves_mispredicts hb
      cases index_of_beginNode hlight hn hj
      exact ⟨hmove, guides_iff.2 (.inr rfl)⟩
  · rcases (hst.lightPoint hlight hflow).before_begin hlight hn hfollows with
      ⟨hmode, -⟩ | ⟨-, -, hlt⟩
    · exact hmode
    · exact absurd hlt (lt_irrefl _)
  · have hpoint : LightPoint p s ⟨i, .speculative, [⟨some context, s.window⟩]⟩ :=
      .begins hb hn le_rfl ⟨_, List.mem_cons_self, rfl⟩
    rcases hpoint.before_begin hlight hn hfollows with ⟨hmode, -⟩ | ⟨-, -, hlt⟩
    · cases hmode
    · exact absurd hlt (lt_irrefl _)

/-! ## The layers -/

/-- The layer of a point above the begin marker `root` of a context: instructions with this context
    open and no other, by what they have left of the window. -/
def lightLayer (p : Program) (window context : Nat) (root k : Key) : Option Nat :=
  if k = root then some 0
  else
    match k with
    | ⟨q, .speculative, [⟨some context', remaining⟩]⟩ =>
      if q < p.length ∧ context' = context ∧ remaining ≤ window then some (window - remaining + 1)
      else none
    | _ => none

theorem lightLayer_of_instr {window remaining : Nat} {root : Key} (hroot : p.length ≤ root.node)
    (hq : q < p.length) (hle : remaining ≤ window) :
    lightLayer p window context root ⟨q, .speculative, [⟨some context, remaining⟩]⟩ =
      some (window - remaining + 1) := by
  have hne : (⟨q, .speculative, [⟨some context, remaining⟩]⟩ : Key) ≠ root := by
    rintro rfl
    exact absurd hq (not_lt.2 hroot)
  rw [lightLayer, if_neg hne]
  exact if_pos ⟨hq, rfl, hle⟩

theorem lightLayer_eq_succ {window : Nat} {root : Key}
    (h : lightLayer p window context root k = some (d + 1)) :
    ∃ q remaining, k = ⟨q, .speculative, [⟨some context, remaining⟩]⟩ ∧ q < p.length ∧
      remaining + d = window := by
  unfold lightLayer at h
  split at h
  · cases h
  · split at h
    · next q context' remaining _ =>
      split at h
      · next hk =>
        obtain ⟨hq, rfl, hle⟩ := hk
        refine ⟨q, remaining, rfl, hq, ?_⟩
        have hd := Nat.succ.inj (Option.some.inj h)
        omega
      · cases h
    · cases h

theorem lightLayer_eq_zero {window : Nat} {root : Key} :
    lightLayer p window context root k = some 0 ↔ k = root := by
  refine ⟨fun h => ?_, fun h => if_pos h⟩
  unfold lightLayer at h
  split at h
  · assumption
  · split at h
    · split at h <;> cases h
    · cases h

/-- Back at the begin marker of its own context. -/
def LightSpare (s : Setup) (context i : Nat) (z : Key) : Prop :=
  ∃ remaining < s.window, z = ⟨i, .speculative, [⟨some context, remaining⟩]⟩

theorem executed?_of_beginNode {frames : List Frame}
    (hn : s.graph.node? i = some (beginNode b context)) :
    s.executed? ⟨i, .speculative, frames⟩ = none := by
  rw [executed?, hn]
  rfl

/-- A point of a layer comes right after one of the layer below, or after a spare one. -/
theorem LightPoint.before_instr {remaining : Nat} (hlight : IsLight p mode c s.graph)
    (hk : LightPoint p s k) (hn : s.graph.node? i = some (beginNode b context))
    (hx : x < p.length)
    (hfollows : s.Follows k ⟨x, .speculative, [⟨some context, remaining⟩]⟩) :
    (k = ⟨i, .speculative, [⟨some context, remaining⟩]⟩ ∧ remaining ≤ s.window) ∨
      ∃ q < p.length, k = ⟨q, .speculative, [⟨some context, remaining + 1⟩]⟩ ∧
        remaining < s.window := by
  obtain ⟨payload, hmem⟩ := hfollows.exists_move
  have hmove := hk.lightMove hlight hmem
  generalize htarget : (⟨x, .speculative, [⟨some context, remaining⟩]⟩ : Key) = target at hmove
  cases hmove with
  | commits | returns => cases htarget
  | mispredicts branch node =>
    obtain ⟨rfl, -, -⟩ := Key.mk.inj htarget
    exact absurd hx (not_lt_of_marker hlight node rfl)
  | @starts q context' j _ _ branch node follows =>
    cases htarget
    cases hk with
    | instr lt => exact absurd lt (not_lt_of_marker hlight node rfl)
    | begins branch' node' le opened =>
      obtain ⟨f', hf', hcontext⟩ := opened
      cases List.mem_singleton.1 hf'
      cases hcontext
      cases index_of_beginNode hlight hn node'
      exact .inl ⟨rfl, le⟩
    | ends node' => cases node.symm.trans node'
  | @passes q _ frames passes left =>
    obtain ⟨rfl, -, hframes⟩ := Key.mk.inj htarget
    obtain ⟨hq, -⟩ := Program.lt_of_mem_successors passes.1
    cases hk with
    | @instr _ f rest lt le =>
      obtain ⟨hf, rfl⟩ := List.cons.inj hframes
      obtain ⟨fcontext, fremaining⟩ := f
      obtain ⟨rfl, rfl⟩ := Frame.mk.inj hf
      have hleft : fremaining - 1 ≠ 0 := by simpa [spend, exhausted] using left
      dsimp only at le hleft ⊢
      rw [Nat.sub_add_cancel (by omega)]
      exact .inr ⟨q, hq, rfl, by omega⟩
    | begins branch node => exact absurd hq (not_lt_of_marker hlight node rfl)
    | ends node => exact absurd hq (not_lt_of_marker hlight node rfl)
  | nests branch node =>
    obtain ⟨rfl, -, -⟩ := Key.mk.inj htarget
    exact absurd hx (not_lt_of_marker hlight node rfl)
  | squashes instr branch node =>
    obtain ⟨rfl, -, -⟩ := Key.mk.inj htarget
    exact absurd hx (not_lt_of_marker hlight node rfl)
  | skips branch begins node =>
    obtain ⟨rfl, -, -⟩ := Key.mk.inj htarget
    exact absurd hx (not_lt_of_marker hlight node rfl)

/-- What follows the begin marker in a layer are the successors of the branch. -/
theorem exists_successor_of_begin {frames : List Frame} (hlight : IsLight p mode c s.graph)
    (hb : BranchOf p context b) (hn : s.graph.node? i = some (beginNode b context))
    (hq : target.node < p.length) (hfollows : s.Follows ⟨i, .speculative, frames⟩ target) :
    ∃ x ∈ p.successors b, target = ⟨x, .speculative, frames⟩ := by
  obtain ⟨payload, hmem⟩ := hfollows.exists_move
  have hmove := hlight.lightMove_of_begin hb hn hmem
  cases hmove with
  | starts branch node follows =>
    obtain ⟨rfl, -⟩ := beginNode_inj (Option.some.inj (node.symm.trans hn))
    exact ⟨_, follows, rfl⟩
  | passes passes =>
    exact absurd (Program.lt_of_mem_successors passes.1).1 (not_lt_of_marker hlight hn rfl)
  | nests branch node => exact absurd hq (not_lt_of_marker hlight node rfl)
  | squashes instr branch node => exact absurd hq (not_lt_of_marker hlight node rfl)
  | skips branch begins node => exact absurd hq (not_lt_of_marker hlight node rfl)
  | returns branch node => cases node.symm.trans hn

theorem sorted_light (hlight : IsLight p mode c s.graph) (hq : q < p.length) :
    ((s.moves ⟨q, .committed, []⟩).map (·.1)).Pairwise
      fun a b => b.mode = .committed → a.mode = .committed := by
  rw [List.pairwise_map]
  refine (pairwise_moves rfl).imp_of_mem ?_
  rintro ⟨a, pa⟩ ⟨b, pb⟩ ha hb hlt hmode
  cases hlight.lightMove_of_committed hq ha with
  | commits | returns => rfl
  | mispredicts branch node =>
    have hnot := not_lt_of_marker hlight node rfl
    cases hlight.lightMove_of_committed hq hb with
    | commits follows =>
      have hx := (Program.lt_of_mem_successors follows).2
      dsimp only at hlt
      omega
    | mispredicts => cases hmode
    | returns branch' node' => exact absurd hq (not_lt_of_marker hlight node' rfl)

/-- The layers of the speculation on a branch. -/
theorem layered_light (hlight : IsLight p mode c s.graph) (hflow : s.OnFlow p entry)
    (hb : BranchOf p context b) (hn : s.graph.node? i = some (beginNode b context)) :
    s.Layered entry ⟨i, .speculative, [⟨some context, s.window⟩]⟩
      (lightLayer p s.window context ⟨i, .speculative, [⟨some context, s.window⟩]⟩)
      (LightSpare s context i) := by
  have hnot := not_lt_of_marker hlight hn rfl
  refine ⟨?_, fun k => lightLayer_eq_zero, fun k d hk => ?_,
    (opening_light hlight hflow hb hn).alone, fun k st target d hst hfollows htarget => ?_,
    fun z hz => ?_, fun k st z target d hst hkz hz hzt htarget => ?_, fun k st hst hmode => ?_⟩
  · obtain ⟨q, -, rfl⟩ := hflow.starts
    rfl
  · cases d with
    | zero =>
      rw [lightLayer_eq_zero.1 hk]
    | succ d =>
      obtain ⟨q, remaining, rfl, -⟩ := lightLayer_eq_succ hk
      rfl
  · obtain ⟨x, remaining, rfl, hx, hsum⟩ := lightLayer_eq_succ htarget
    rcases (hst.lightPoint hlight hflow).before_instr hlight hn hx hfollows with
      ⟨rfl, hle⟩ | ⟨q, hq, rfl, hlt⟩
    · rcases Nat.lt_or_eq_of_le hle with hlt | rfl
      · exact .inr ⟨remaining, hlt, rfl⟩
      · obtain rfl : d = 0 := by omega
        exact .inl (lightLayer_eq_zero.2 rfl)
    · left
      rw [lightLayer_of_instr (not_lt.1 hnot) hq hlt]
      congr 1
      omega
  · obtain ⟨remaining, hlt, rfl⟩ := hz
    refine ⟨?_, rfl, executed?_of_beginNode hn⟩
    cases hlayer : lightLayer p s.window context _ _ with
    | none => rfl
    | some d =>
      cases d with
      | zero =>
        cases lightLayer_eq_zero.1 hlayer
        exact absurd hlt (lt_irrefl _)
      | succ d =>
        obtain ⟨x, _, heq, hx, -⟩ := lightLayer_eq_succ hlayer
        cases heq
        exact absurd hx hnot
  · obtain ⟨remaining, hlt, rfl⟩ := hz
    rcases (hst.lightPoint hlight hflow).before_begin hlight hn hkz with
      ⟨-, rfl⟩ | ⟨rfl, hpos, -⟩
    · exact absurd hlt (lt_irrefl _)
    · -- the branch leads on to the same points directly
      have htarget' : target.node < p.length := by
        cases d with
        | zero =>
          have hpoint : LightPoint p s ⟨i, .speculative, [⟨some context, remaining⟩]⟩ :=
            .begins hb hn hlt.le ⟨_, List.mem_cons_self, rfl⟩
          rw [lightLayer_eq_zero.1 htarget] at hzt
          rcases hpoint.before_begin hlight hn hzt with ⟨hmode, -⟩ | ⟨-, -, hlt'⟩
          · cases hmode
          · exact absurd hlt' (lt_irrefl _)
        | succ d =>
          obtain ⟨x, _, rfl, hx, -⟩ := lightLayer_eq_succ htarget
          exact hx
      obtain ⟨x, hx, rfl⟩ := exists_successor_of_begin hlight hb hn htarget' hzt
      have hbranch := (mem_branches_iff hlight.flow.numbered).1 hb.mem
      have hleft : exhausted (spend [⟨some context, remaining + 1⟩]) = false := by
        simpa [spend, exhausted] using hpos.ne'
      exact follows_of_move (hlight.mem_moves_passes ⟨hx, hbranch.passable⟩ hleft)
  · obtain ⟨q, hq, rfl⟩ := hflow.stored k st hst hmode
    exact sorted_light hlight hq

/-! ## Walks -/

theorem standsFor_light (hlight : IsLight p mode c s.graph) (hq : q < p.length)
    (frames : List Frame) : s.StandsFor p ⟨q, .speculative, frames⟩ q :=
  ⟨rfl, executes_of_stages hlight.stages hlight.flow hq⟩

theorem advance_of_beginNode {frames : List Frame}
    (hn : s.graph.node? i = some (beginNode b context)) :
    s.advance ⟨i, .speculative, frames⟩ st = st := by
  rw [advance, executed?_of_beginNode hn]

/-- A walk that fits into the window climbs the layers. -/
theorem climbs_light {n : Nat} (hlight : IsLight p mode c s.graph) (hb : BranchOf p context b)
    (hn : s.graph.node? i = some (beginNode b context)) (hx : x ∈ p.successors b)
    (hwalk : p.Walk x R n q τ) (hlt : n < s.window) :
    s.Climbs (lightLayer p s.window context ⟨i, .speculative, [⟨some context, s.window⟩]⟩)
      ⟨i, .speculative, [⟨some context, s.window⟩]⟩ R
      ⟨q, .speculative, [⟨some context, s.window - n⟩]⟩ τ := by
  have hroot : p.length ≤ (⟨i, .speculative, [⟨some context, s.window⟩]⟩ : Key).node :=
    not_lt.1 (not_lt_of_marker hlight hn rfl)
  induction hwalk with
  | start =>
    have hmove : (⟨x, .speculative, [⟨some context, s.window⟩]⟩, .full) ∈
        s.moves ⟨i, .speculative, [⟨some context, s.window⟩]⟩ :=
      hlight.mem_moves_starts hb hn hx
    have hclimb := Climbs.move (R := R) .start hmove
      (lightLayer_of_instr hroot (Program.lt_of_mem_successors hx).2 (le_refl s.window))
    rwa [advance_of_beginNode hn] at hclimb
  | @step n q q' st before passes ih =>
    obtain ⟨hq, hq'⟩ := Program.lt_of_mem_successors passes.1
    have hspend : spend [⟨some context, s.window - n⟩] = [⟨some context, s.window - (n + 1)⟩] := rfl
    have hleft : exhausted (spend [⟨some context, s.window - n⟩]) = false := by
      rw [hspend]
      exact beq_false_of_ne (by dsimp only; omega)
    have hmove := hlight.mem_moves_passes passes hleft
    rw [hspend] at hmove
    have hclimb := Climbs.move (ih (by omega)) hmove
      (lightLayer_of_instr hroot hq' (Nat.sub_le s.window (n + 1)))
    rwa [(standsFor_light hlight hq _).advance_eq] at hclimb

/-- Where paths behind an opening in the state `R` come to, and in what states: what they have
    executed is a walk, however many contexts they have opened. -/
inductive LightReach (p : Program) (s : Setup) (b : Nat) (R : State) : Key → State → Prop where
  | instr {x n q : Nat} {f : Frame} {rest : List Frame} {τ : State} (start : x ∈ p.successors b)
      (walk : p.Walk x R n q τ) (spent : n + f.remaining = s.window) (left : 0 < f.remaining) :
      LightReach p s b R ⟨q, .speculative, f :: rest⟩ τ
  | begins {n q context i : Nat} {f : Frame} {rest : List Frame} {τ : State}
      (node : s.graph.node? i = some (beginNode q context))
      (walks : ∀ y ∈ p.successors q, ∃ x ∈ p.successors b, p.Walk x R n y τ)
      (spent : n + f.remaining = s.window) (left : 0 < f.remaining) :
      LightReach p s b R ⟨i, .speculative, f :: rest⟩ τ
  | ends {q context i : Nat} {frames : List Frame} {τ : State}
      (node : s.graph.node? i = some (endNode q context)) :
      LightReach p s b R ⟨i, .speculative, frames⟩ τ

theorem LightReach.move (hlight : IsLight p mode c s.graph) (h : LightReach p s b R k τ)
    (hmove : LightMove p s k target payload) (htarget : target.mode = .speculative) :
    LightReach p s b R target (s.advance k τ) := by
  cases hmove with
  | commits | returns => cases htarget
  | mispredicts => cases h
  | @starts q context i y frames branch node follows =>
    cases h with
    | instr start walk => exact absurd (walk.lt start) (not_lt_of_marker hlight node rfl)
    | @begins n q' context' _ f rest _ node' walks spent left =>
      obtain ⟨rfl, -⟩ := beginNode_inj (Option.some.inj (node.symm.trans node'))
      obtain ⟨x, hx, hwalk⟩ := walks y follows
      exact (advance_of_beginNode node).symm ▸ .instr hx hwalk spent left
    | ends node' => cases node.symm.trans node'
  | @passes q y frames passes left =>
    obtain ⟨hq, -⟩ := Program.lt_of_mem_successors passes.1
    rw [(standsFor_light hlight hq frames).advance_eq]
    cases h with
    | @instr x n _ f rest _ start walk spent pos =>
      have hleft : f.remaining - 1 ≠ 0 := by simpa [spend, exhausted] using left
      refine .instr start (walk.step passes) ?_ (Nat.pos_of_ne_zero hleft)
      dsimp only
      omega
    | begins node => exact absurd hq (not_lt_of_marker hlight node rfl)
    | ends node => exact absurd hq (not_lt_of_marker hlight node rfl)
  | @nests q context i frames inner branch node left enters =>
    have hq := hlight.lt_length branch
    rw [(standsFor_light hlight hq frames).advance_eq]
    cases h with
    | @instr x n _ f rest _ start walk spent pos =>
      have hleft : f.remaining - 1 ≠ 0 := by simpa [spend, exhausted] using left
      obtain ⟨f', rest', rfl, hf'⟩ := exists_remaining_of_enter? enters
      dsimp only at hf'
      have hbranch := (mem_branches_iff hlight.flow.numbered).1 branch.mem
      refine .begins (n := n + 1) node (fun y hy => ⟨x, start, walk.step ⟨hy, hbranch.passable⟩⟩)
        (by omega) (by omega)
    | begins node' => exact absurd hq (not_lt_of_marker hlight node' rfl)
    | ends node' => exact absurd hq (not_lt_of_marker hlight node' rfl)
  | squashes instr branch node => exact .ends node
  | skips branch begins node => exact .ends node

theorem Trail.lightReach (hlight : IsLight p mode c s.graph) (hg : s.graph.NoRollback)
    (hwindow : 0 < s.window) (hn : s.graph.node? i = some (beginNode b context))
    (h : s.Trail ⟨i, .speculative, [⟨some context, s.window⟩]⟩ R k τ) :
    LightReach p s b R k τ := by
  induction h with
  | start =>
    exact .begins hn (fun y hy => ⟨y, hy, .start⟩) (Nat.zero_add _) hwindow
  | @move k target st before follows ih =>
    obtain ⟨payload, hmem⟩ := follows.exists_move
    have hmode := before.speculative hg rfl
    have hmove := hlight.lightMove_of_mem (fun h => by cases hmode.symm.trans h) hmem
    exact ih.move hlight hmove (mode_of_move_of_speculative hg hmode hmem)

/-- Nothing leaks at markers. -/
theorem LightReach.exists_walk (hlight : IsLight p mode c s.graph) (h : LightReach p s b R k τ)
    (hleak : s.leaks k τ = true) :
    ∃ x ∈ p.successors b, ∃ n q, n < s.window ∧ p.Walk x R n q τ ∧ p.leaksAt q τ = true := by
  obtain ⟨-, -, site, hsite, -⟩ := leaks_iff.1 hleak
  cases h with
  | @instr x n q f rest _ start walk spent left =>
    have hstands := standsFor_light hlight (walk.lt start) (f :: rest)
    exact ⟨x, start, n, q, by omega, walk, hstands.leaks_eq ▸ hleak⟩
  | begins node =>
    rw [site?, executed?_of_beginNode node] at hsite
    cases hsite
  | ends node =>
    rw [site?, executed?, node] at hsite
    cases hsite

/-- Light graphs are faithful. -/
theorem faithful_light (hlight : IsLight p mode c s.graph) (hflow : s.OnFlow p entry)
    (hwindow : 0 < s.window) : s.Faithful p entry := by
  refine ⟨hflow, fun r R k τ hopens htrail hleak => ?_, fun b x hb hx => ?_⟩
  · obtain ⟨hmode, k₀, st, hst, hcommitted, hfollows⟩ := hopens
    obtain ⟨q, hq, rfl⟩ := hflow.stored k₀ st hst hcommitted
    obtain ⟨payload, hmem⟩ := hfollows.exists_move
    cases hlight.lightMove_of_committed hq hmem with
    | commits | returns => cases hmode
    | mispredicts branch node =>
      have hreach := htrail.lightReach hlight hflow.noRollback hwindow node
      obtain ⟨x, hx, n, q', hn, hwalk, hleak'⟩ := hreach.exists_walk hlight hleak
      exact ⟨q, x, n, q', (mem_branches_iff hlight.flow.numbered).1 branch.mem, hx,
        opening_light hlight hflow branch node, hn, hwalk, hleak'⟩
  · obtain ⟨context, hcontext⟩ :=
      List.mem_iff_getElem?.1 ((mem_branches_iff hlight.flow.numbered).2 hb)
    obtain ⟨i, hi, -⟩ := hlight.exists_begin hcontext
    refine ⟨_, _, _, opening_light hlight hflow hcontext hi,
      layered_light hlight hflow hcontext hi, fun R n q τ hwalk hn => ?_⟩
    exact ⟨_, standsFor_light hlight (hwalk.lt hx) _,
      climbs_light hlight hcontext hi hx hwalk hn⟩

end Setup

end Mispredict
