/-
  The work loop of unrolling.

  Mispredicted paths that are still to be followed lie on a stack. A turn of the loop takes the path
  on top and follows it by an instruction; what goes on from there is put on the stack in its place
  (`Turn`). A branch puts two paths there, in contexts of their own, so the stack can grow, and
  neither its height nor the nodes that are laid tell how long the loop goes on. But a path has less
  budget than the one that it goes on from, so that fewer and fewer paths can come of all those on
  the stack together (`Turn.weight_lt`). No run is longer than their number at its start, for any
  program (`Turns.le_weight`). Where the targets of a program are known no turn fails, and the stack
  runs empty (`unrolling_empties`).
-/
import Mispredict.Proofs.Buildable

namespace Mispredict.SpecGraph.Draft

open MuAsm (Program)

/-- The loop between two turns. -/
structure Work where
  draft : Draft
  stack : List Pending

/-- A turn of the loop: the path `w` is taken from the stack, and those that it goes on with, `ws`,
    are put there. -/
inductive Turn (p : Program) (mode : SpeculationMode) :
    (s : Work) → (w : Pending) → (ws : List Pending) → (t : Work) → Prop where
  | follows {d d' : Draft} {w : Pending} {ws rest : List Pending}
      (follow : follow p mode d w = .ok (ws, d')) : Turn p mode ⟨d, w :: rest⟩ w ws ⟨d', ws ++ rest⟩

/-- A run of `n` turns. -/
inductive Turns (p : Program) (mode : SpeculationMode) : (n : Nat) → (s t : Work) → Prop where
  | refl {s : Work} : Turns p mode 0 s s
  | head {n : Nat} {s t u : Work} {w : Pending} {ws : List Pending} (turn : Turn p mode s w ws t)
      (later : Turns p mode n t u) : Turns p mode (n + 1) s u

section Turns

variable {p : Program} {mode : SpeculationMode} {d d' : Draft} {s t : Work} {v w : Pending}
  {ws stack : List Pending} {n budget : Nat}

/-! ## Weights and budgets -/

theorem offspring_strictMono : StrictMono offspring := by
  refine strictMono_nat_of_lt_succ fun budget => ?_
  rw [offspring]
  omega

theorem offspring_le_weight (h : w ∈ stack) : offspring w.budget ≤ weight stack := by
  induction stack with
  | nil => cases h
  | cons v stack ih =>
    rw [weight]
    obtain rfl | h := List.mem_cons.1 h
    · exact Nat.le_add_right _ _
    · exact (ih h).trans (Nat.le_add_left _ _)

/-- What can come of the paths on the stack gets less by every turn. -/
theorem Turn.weight_lt (h : Turn p mode s w ws t) : weight t.stack < weight s.stack := by
  obtain ⟨hfollow⟩ := h
  have hlt := weight_follow_lt hfollow
  rw [weight_append, weight]
  omega

/-- A path goes on with less budget. -/
theorem Turn.budget_lt (h : Turn p mode s w ws t) (hv : v ∈ ws) : v.budget < w.budget := by
  obtain ⟨hfollow⟩ := h
  exact offspring_strictMono.lt_iff_lt.1
    ((offspring_le_weight hv).trans_lt (weight_follow_lt hfollow))

theorem Turn.budget_le (h : Turn p mode s w ws t) (hs : ∀ v ∈ s.stack, v.budget ≤ budget)
    (hv : v ∈ t.stack) : v.budget ≤ budget := by
  have hlt : ∀ v ∈ ws, v.budget < w.budget := fun v hv => h.budget_lt hv
  obtain ⟨-⟩ := h
  obtain hv | hv := List.mem_append.1 hv
  · exact (hlt v hv).le.trans (hs w List.mem_cons_self)
  · exact hs v (List.mem_cons_of_mem _ hv)

/-! ## Runs -/

/-- A run is no longer than the number of paths that can come of those at its start. -/
theorem Turns.le_weight (h : Turns p mode n s t) : n + weight t.stack ≤ weight s.stack := by
  induction h with
  | refl => exact (Nat.zero_add _).le
  | head turn _ ih =>
    have hlt := turn.weight_lt
    omega

theorem Turns.budget_le (h : Turns p mode n s t) (hs : ∀ v ∈ s.stack, v.budget ≤ budget) :
    ∀ v ∈ t.stack, v.budget ≤ budget := by
  induction h with
  | refl => exact hs
  | head turn _ ih => exact ih fun v hv => turn.budget_le hs hv

/-- Unrolling succeeds exactly if a run empties the stack. -/
theorem unroll_eq_ok_iff :
    unroll p mode d stack = .ok d' ↔ ∃ n, Turns p mode n ⟨d, stack⟩ ⟨d', []⟩ := by
  constructor
  · intro h
    fun_induction unroll p mode d stack with
    | case1 d =>
      obtain rfl := Except.ok.inj h
      exact ⟨0, .refl⟩
    | case2 => cases h
    | case3 d w rest ws d₁ hfollow ih =>
      obtain ⟨n, hturns⟩ := ih h
      exact ⟨n + 1, .head (.follows hfollow) hturns⟩
  · rintro ⟨n, hturns⟩
    generalize hs : (⟨d, stack⟩ : Work) = s at hturns
    generalize ht : (⟨d', []⟩ : Work) = t at hturns
    induction hturns generalizing d stack with
    | refl =>
      subst ht
      cases hs
      rw [unroll]
    | head turn _ ih =>
      obtain ⟨hfollow⟩ := turn
      cases hs
      rw [unroll, hfollow]
      exact ih rfl ht

end Turns

/-! ## The loops for a branch -/

/-- The loop that begins with a path empties its stack and ends with the draft `d'`. Whatever it
    holds on the way has a budget within the window, less than that of the path that it goes on
    from. -/
structure Empties (p : Program) (mode : SpeculationMode) (window : Int) (first : Pending)
    (d d' : Draft) : Prop where
  finishes : ∃ n, Turns p mode n ⟨d, [first]⟩ ⟨d', []⟩
  bounded : ∀ n s, Turns p mode n ⟨d, [first]⟩ s → n ≤ offspring window.toNat
  held : ∀ n s, Turns p mode n ⟨d, [first]⟩ s → ∀ w ∈ s.stack, (w.budget : Int) ≤ window
  spawned : ∀ n s w ws t, Turns p mode n ⟨d, [first]⟩ s → Turn p mode s w ws t →
    ∀ v ∈ ws, v.budget < w.budget

/-- The draft with one more context. -/
def opened (d : Draft) : Draft := { d with contexts := d.contexts + 1 }

section Branch

variable {p : Program} {mode : SpeculationMode} {d d' c : Draft} {first : Pending} {window : Int}
  {pc taken : Nat} {o : BuildOptions}

theorem empties_of_unroll (hfirst : (first.budget : Int) = window)
    (h : unroll p mode d [first] = .ok d') : Empties p mode window first d d' where
  finishes := unroll_eq_ok_iff.1 h
  bounded := by
    intro n s hturns
    have hle := hturns.le_weight
    rw [weight, weight, show first.budget = window.toNat by omega] at hle
    omega
  held := by
    intro n s hturns w hw
    have hle : w.budget ≤ first.budget := hturns.budget_le (by simp) w hw
    omega
  spawned := fun n s w ws t _ hturn v hv => hturn.budget_lt hv

/-- Both loops for a branch empty their stacks. -/
theorem Ready.exists_empties (h : Ready p d) (hp : p.Numbered) (hf : p.Faultless)
    (hpc : pc < p.length) (htaken : p.branchTarget pc = .ok taken) (mode : SpeculationMode)
    (hwindow : 0 ≤ window) :
    ∃ d₁ d₂, Empties p mode window (firstPending p pc window.toNat d.contexts taken (pc + 1))
        d.opened d₁ ∧
      Empties p mode window (firstPending p pc window.toNat d₁.contexts (pc + 1) taken)
        d₁.opened d₂ ∧
      d.addUnrolled p mode window.toNat pc = .ok d₂ ∧ Ready p d₂ := by
  have hgrounded : ∀ {d : Draft} {speculated resume : Nat}, Ready p d →
      ∀ w ∈ [firstPending p pc window.toNat d.contexts speculated resume],
        w.Grounded p d.opened := by
    intro d speculated resume hr w hw
    rw [List.mem_singleton.1 hw]
    exact ⟨hr.hasNode_committedId hpc, fun x => lt_of_within?⟩
  have hbudget : (window.toNat : Int) = window := Int.toNat_of_nonneg hwindow
  obtain ⟨d₁, h₁, hr₁⟩ := (h.withContexts _).unroll hp hf (hgrounded h) mode
  obtain ⟨d₂, h₂, hr₂⟩ := (hr₁.withContexts _).unroll hp hf (hgrounded hr₁) mode
  refine ⟨d₁, d₂, empties_of_unroll hbudget h₁, empties_of_unroll hbudget h₂, ?_, hr₂⟩
  simp only [Draft.addUnrolled, bind_eq_ok_iff]
  exact ⟨taken, htaken, d₁, h₁, h₂⟩

/-- Unrolling comes to its end: as soon as committed control flow has been built, the builder gets
    to every branch, and both loops for it empty their stacks. -/
theorem unrolling_empties {before after : List Nat} (hp : p.Numbered)
    (hlayout : o.layout = .unrolled) (hwindow : 0 < o.windowSize) (hc : committed p = .ok c)
    (hbranches : branches p = before ++ pc :: after) :
    ∃ d taken d₁ d₂, before.foldlM (addSpeculation p o) c = .ok d ∧
      p.branchTarget pc = .ok taken ∧
      Empties p o.speculation o.windowSize
        (firstPending p pc o.windowSize.toNat d.contexts taken (pc + 1)) d.opened d₁ ∧
      Empties p o.speculation o.windowSize
        (firstPending p pc o.windowSize.toNat d₁.contexts (pc + 1) taken) d₁.opened d₂ ∧
      addSpeculation p o d pc = .ok d₂ := by
  obtain ⟨hnone, c', hc', hready⟩ | ⟨err, -, herr⟩ := committed_cases hp
  · obtain rfl := Except.ok.inj (hc.symm.trans hc')
    have hf : p.Faultless := List.findSome?_eq_none_iff.1 hnone
    have hbranch : ∀ pc ∈ branches p, pc < p.length ∧ ∃ taken, p.branchTarget pc = .ok taken := by
      intro pc hpc
      obtain ⟨i, hi, -⟩ := (mem_branches_iff hp).1 hpc
      exact ⟨Program.lt_of_instr? hi, hf.exists_branchTarget hp hpc⟩
    have hspeculation : addSpeculation p o = addUnrolled p o.speculation o.windowSize.toNat := by
      funext d pc
      rw [addSpeculation, hlayout]
    have hbefore : ∀ pc ∈ before, ∀ d, Ready p d →
        ∃ d', d.addUnrolled p o.speculation o.windowSize.toNat pc = .ok d' ∧ Ready p d' := by
      intro pc hpc d hr
      obtain ⟨hlt, taken, htaken⟩ := hbranch pc (by simp [hbranches, hpc])
      exact hr.addUnrolled hp hf hlt htaken o.speculation o.windowSize.toNat
    rw [hspeculation]
    obtain ⟨d, hd, hr⟩ := exists_foldlM_ok hbefore hready
    obtain ⟨hlt, taken, htaken⟩ := hbranch pc (by simp [hbranches])
    obtain ⟨d₁, d₂, hfirst, hsecond, hadds, -⟩ :=
      hr.exists_empties hp hf hlt htaken o.speculation hwindow.le
    exact ⟨d, taken, d₁, d₂, hd, htaken, hfirst, hsecond, hadds⟩
  · cases hc.symm.trans herr

end Branch

theorem empties_looping :
    loopingProgram.Numbered ∧ branches loopingProgram = [] ++ 0 :: [] ∧ ∃ c taken d₁ d₂,
      committed loopingProgram = .ok c ∧ loopingProgram.branchTarget 0 = .ok taken ∧
      Empties loopingProgram .stackGuard 8 (firstPending loopingProgram 0 8 c.contexts taken 1)
        c.opened d₁ ∧
      Empties loopingProgram .stackGuard 8 (firstPending loopingProgram 0 8 d₁.contexts 1 taken)
        d₁.opened d₂ := by
  have hp : loopingProgram.Numbered :=
    Program.numbered_of_parse (Program.parse_eq_ok (by decide +kernel))
  have hbranches : branches loopingProgram = [] ++ 0 :: [] := by decide +kernel
  obtain ⟨-, c, hc, -⟩ | ⟨err, herr, -⟩ := committed_cases hp
  · obtain ⟨d, taken, d₁, d₂, hd, htaken, hfirst, hsecond, -⟩ :=
      unrolling_empties (o := ⟨8, .unrolled, .stackGuard⟩) hp rfl (by decide) hc hbranches
    obtain rfl := Except.ok.inj hd
    exact ⟨hp, hbranches, c, taken, d₁, d₂, hc, htaken, hfirst, hsecond⟩
  · have hnone : loopingProgram.entries.findSome? loopingProgram.fault? = none := by decide +kernel
    cases hnone.symm.trans herr

end Mispredict.SpecGraph.Draft
