/-
  How far speculation goes in a light graph.

  Every point of a light analysis stands for a place in the program to which execution can
  come (`LightSpot`): a committed point for an instruction that committed execution reaches,
  and a speculative one for an instruction of a mispredicted path. What remains of the window
  there is what the instructions of the path have left of it. By `lightMove_of_mem` a visit
  leads from such points to such points only, so that all points of a run are of this kind
  (`Stores.lightSpot`).

  Conversely a fixpoint has a point for every mispredicted path that fits into the window, with
  one context open (`mem_of_isMispredicted`). Together these say exactly which instructions are
  visited with how much of the window left (`exists_remaining_iff_isMispredicted`).
-/
import Mispredict.Proofs.Light
import Mispredict.Proofs.LightMoves
import Mispredict.Proofs.Window

namespace Mispredict

open MuAsm (Program)

open SpecGraph Draft

namespace Setup

variable {p : Program} {mode : SpeculationMode} {c : SpecGraph} {s : Setup} {k target : Key}
  {payload : Payload} {frames inner rest : List Frame} {f : Frame} {n : Node}

/-! ## Spots -/

/-- The branch of each open context is reached in committed execution. -/
def OpenReached (p : Program) (frames : List Frame) : Prop :=
  ∀ f ∈ frames, ∃ context pc, f.context = some context ∧ BranchOf p context pc ∧ p.Reaches pc

/-- The places in the program for which the points of a light analysis stand. -/
inductive LightSpot (p : Program) (s : Setup) : Key → Prop where
  | committed {q : Nat} (reached : p.Reaches q) : LightSpot p s ⟨q, .committed, []⟩
  /-- At the last instruction of a mispredicted path, which is still to be executed. -/
  | instr {b q : Nat} {qs : List Nat} {f : Frame} {rest : List Frame}
      (path : p.IsMispredicted b qs) (last : (b :: qs).getLast? = some q)
      (spent : qs.length + f.remaining = s.window + 1) (left : 0 < f.remaining)
      (contexts : OpenReached p (f :: rest)) : LightSpot p s ⟨q, .speculative, f :: rest⟩
  /-- After the last instruction of a mispredicted path, which is a branch. -/
  | begins {b q context i : Nat} {qs : List Nat} {f : Frame} {rest : List Frame}
      (path : p.IsMispredicted b qs) (last : (b :: qs).getLast? = some q)
      (branch : BranchOf p context q) (node : s.graph.node? i = some (beginNode q context))
      (spent : qs.length + f.remaining = s.window) (left : 0 < f.remaining)
      (contexts : OpenReached p (f :: rest)) : LightSpot p s ⟨i, .speculative, f :: rest⟩
  | ends {q context i : Nat} {frames : List Frame} (reached : p.Reaches q)
      (branch : BranchOf p context q) (node : s.graph.node? i = some (endNode q context)) :
      LightSpot p s ⟨i, .speculative, frames⟩

theorem OpenReached.spend (h : OpenReached p frames) : OpenReached p (spend frames) := by
  cases frames with
  | nil => exact h
  | cons f rest =>
    intro f' hf'
    rcases List.mem_cons.1 hf' with rfl | hf'
    · exact h f List.mem_cons_self
    · exact h f' (List.mem_cons_of_mem _ hf')

theorem OpenReached.enter {context q : Nat} (h : OpenReached p frames)
    (hb : BranchOf p context q) (hq : p.Reaches q)
    (henter : s.enter? .speculative frames (beginNode q context) = some inner) :
    OpenReached p inner := by
  intro f hf
  rcases frame_of_enter? henter hf with hf | hf
  · exact h f hf
  · exact ⟨context, q, hf, hb, hq⟩

theorem LightSpot.of_committed (h : LightSpot p s k) (hmode : k.mode = .committed) :
    k.frames = [] ∧ p.Reaches k.node := by
  cases h with
  | committed reached => exact ⟨rfl, reached⟩
  | instr | begins | ends => cases hmode

variable (hlight : IsLight p mode c s.graph)

include hlight

theorem LightSpot.move (h : LightSpot p s k) (hmove : LightMove p s k target payload)
    (hwindow : 0 < s.window) : LightSpot p s target := by
  cases hmove with
  | commits follows =>
    cases h with
    | committed reached => exact .committed (reached.step follows)
  | mispredicts branch node =>
    cases h with
    | committed reached =>
      have hbranch := (mem_branches_iff hlight.flow.numbered).1 branch.mem
      refine .begins (.nil reached hbranch) rfl branch node (Nat.zero_add _) hwindow ?_
      intro f hf
      cases List.mem_singleton.1 hf
      exact ⟨_, _, rfl, branch, reached⟩
  | @starts q context i x frames branch node follows =>
    cases h with
    | instr path last =>
      exact absurd (path.reaches last).lt (not_lt_of_marker hlight node rfl)
    | @begins b q' context' _ qs f rest path last branch' node' spent left contexts =>
      obtain ⟨rfl, rfl⟩ := beginNode_inj (Option.some.inj (node.symm.trans node'))
      have hbranch := (mem_branches_iff hlight.flow.numbered).1 branch.mem
      refine .instr (path.concat last ⟨follows, hbranch.passable⟩) ?_ ?_ left contexts
      · rw [← List.cons_append, List.getLast?_concat]
      · rw [List.length_append, List.length_singleton]
        omega
    | ends reached branch' node' => cases node.symm.trans node'
  | @passes q x frames passes left =>
    obtain ⟨hq, -⟩ := Program.lt_of_mem_successors passes.1
    cases h with
    | @instr b _ qs f rest path last spent pos contexts =>
      have hleft : f.remaining - 1 ≠ 0 := by simpa [Setup.spend, exhausted] using left
      refine .instr (path.concat last passes) ?_ ?_ (Nat.pos_of_ne_zero hleft) contexts.spend
      · rw [← List.cons_append, List.getLast?_concat]
      · rw [List.length_append, List.length_singleton]
        dsimp only
        omega
    | begins path last branch node => exact absurd hq (not_lt_of_marker hlight node rfl)
    | ends reached branch node => exact absurd hq (not_lt_of_marker hlight node rfl)
  | @nests q context i frames inner branch node left enters =>
    have hq := hlight.lt_length branch
    cases h with
    | @instr b _ qs f rest path last spent pos contexts =>
      have hleft : f.remaining - 1 ≠ 0 := by simpa [Setup.spend, exhausted] using left
      obtain ⟨f', rest', rfl, hf'⟩ := exists_remaining_of_enter? enters
      dsimp only at hf'
      refine .begins path last branch node (by omega) (by omega) ?_
      exact contexts.spend.enter branch (path.reaches last) enters
    | begins path last branch node => exact absurd hq (not_lt_of_marker hlight node rfl)
    | ends reached branch node => exact absurd hq (not_lt_of_marker hlight node rfl)
  | @squashes x j q context remaining frames rest instr branch node innermost =>
    have hreached : OpenReached p frames → p.Reaches q := by
      intro hopen
      have hmem : (⟨some context, remaining⟩ : Frame) ∈ Setup.spend frames := by
        rw [innermost]
        exact List.mem_cons_self
      obtain ⟨context', q', hcontext, hb, hreached⟩ := hopen.spend _ hmem
      cases hcontext
      rw [branch.unique hb]
      exact hreached
    cases h with
    | instr path last spent left contexts => exact .ends (hreached contexts) branch node
    | begins path last branch' node' => exact absurd instr (not_lt_of_marker hlight node' rfl)
    | ends reached branch' node' => exact absurd instr (not_lt_of_marker hlight node' rfl)
  | skips branch begins node =>
    cases h with
    | instr path last => exact absurd (path.reaches last).lt (not_lt_of_marker hlight begins rfl)
    | begins path last branch' node' =>
      obtain ⟨rfl, rfl⟩ := beginNode_inj (Option.some.inj (begins.symm.trans node'))
      exact .ends (path.reaches last) branch node
    | ends reached branch' node' => cases begins.symm.trans node'
  | returns branch node =>
    cases h with
    | committed reached => exact absurd reached.lt (not_lt_of_marker hlight node rfl)
    | instr path last => exact absurd (path.reaches last).lt (not_lt_of_marker hlight node rfl)
    | begins path last branch' node' => cases node.symm.trans node'
    | ends reached branch' node' =>
      obtain ⟨rfl, rfl⟩ := endNode_inj (Option.some.inj (node.symm.trans node'))
      exact .committed reached

/-- Whatever order points are visited in, all of them are spots. -/
theorem Stores.lightSpot {st : State} (hpos : 0 < p.length) (hwindow : 0 < s.window)
    (h : s.Stores ⟨0, .committed, []⟩ k st) : LightSpot p s k := by
  induction h with
  | start => exact .committed ⟨hpos, .refl⟩
  | @pass k target st out payload old visited after violation move held ih ihheld =>
    refine ih.move hlight (hlight.lightMove_of_mem (fun hmode => ?_) move) hwindow
    obtain ⟨hframes, hreached⟩ := ih.of_committed hmode
    exact ⟨hframes, hreached.lt⟩

/-! ## Mispredicted paths -/

variable {t : Table} {b q : Nat} {qs : List Nat}

theorem mem_of_reaches (ht : s.IsFixpoint ⟨0, .committed, []⟩ t) (hq : p.Reaches q) :
    ∃ st, t[(⟨q, .committed, []⟩ : Key)]? = some st := by
  obtain ⟨-, hq⟩ := hq
  induction hq with
  | refl => exact ht.mem_entry
  | tail _ hx ih =>
    obtain ⟨st, hst⟩ := ih
    exact ht.mem_of_move hst (hlight.stages.mem_moves_successor hlight.flow hx)

/-- A fixpoint has a point at the end of every mispredicted path that fits into the window. -/
theorem mem_of_isMispredicted (ht : s.IsFixpoint ⟨0, .committed, []⟩ t)
    (hpath : p.IsMispredicted b qs) (hne : qs ≠ []) (hlen : qs.length ≤ s.window)
    (hq : qs.getLast? = some q) :
    ∃ context st,
      t[(⟨q, .speculative, [⟨some context, s.window - qs.length + 1⟩]⟩ : Key)]? = some st := by
  -- the path stays in the context of its first branch
  have hb := (mem_branches_iff hlight.flow.numbered).2 hpath.branch
  obtain ⟨context, hb⟩ : ∃ context, BranchOf p context b := List.mem_iff_getElem?.1 hb
  refine ⟨context, ?_⟩
  induction qs using List.reverseRecOn generalizing q with
  | nil => exact absurd rfl hne
  | append_singleton qs x ih =>
    rw [List.getLast?_concat] at hq
    cases hq
    rw [List.length_append, List.length_singleton] at hlen ⊢
    obtain ⟨hinit, q', hq', hx⟩ := hpath.init
    cases qs with
    | nil =>
      cases hq'
      obtain ⟨st, hst⟩ := mem_of_reaches hlight ht hpath.reached
      obtain ⟨i, hi, hmove⟩ := hlight.mem_moves_mispredicts hb
      obtain ⟨st₁, hst₁⟩ := ht.mem_of_move hst hmove
      rw [List.length_nil, Nat.zero_add] at hlen ⊢
      rw [Nat.sub_add_cancel hlen]
      exact ht.mem_of_move hst₁ (hlight.mem_moves_starts hb hi hx.1)
    | cons q₁ qs =>
      have hlast : (q₁ :: qs).getLast? = some q' := by rwa [List.getLast?_cons_cons] at hq'
      obtain ⟨st, hst⟩ := ih hinit (List.cons_ne_nil _ _) (by omega) hlast
      have hspend : Setup.spend [⟨some context, s.window - (q₁ :: qs).length + 1⟩] =
          [⟨some context, s.window - ((q₁ :: qs).length + 1) + 1⟩] := by
        rw [Setup.spend, Nat.add_sub_cancel]
        congr 2
        omega
      rw [← hspend]
      refine ht.mem_of_move hst (hlight.mem_moves_passes hx ?_)
      rw [hspend]
      exact beq_false_of_ne (Nat.succ_ne_zero _)

end Setup

/-- The speculative points of a secure analysis of a light graph: the instruction at `q` is visited
    with all of the window but `k - 1` instructions left exactly if some mispredicted path has
    it as its `k`-th instruction, and `k` instructions fit into the window. -/
theorem exists_remaining_iff_isMispredicted {source : String} {p : Program} {b : BuildOptions}
    {o : Options} {g : SpecGraph} (hsource : MuAsm.Addressable source)
    (hp : Program.parse source = .ok p) (hb : b.layout = .light)
    (hg : (SpecGraph.buildSource source b).result = .ok g) (ho : o.entryNode = none)
    (hsecure : (g.analyze o).result.isSecure = true) (q k : Nat) (hk : 1 ≤ k) :
    (∃ key f rest, key ∈ g.finalTable o ∧ g.index? (committedId q) = some key.node ∧
        key.mode = .speculative ∧ key.frames = f :: rest ∧
        (f.remaining : Int) = o.specWindow - k + 1) ↔
      (k : Int) ≤ o.specWindow ∧
        ∃ pc qs, p.IsMispredicted pc qs ∧ qs.length = k ∧ qs.getLast? = some q := by
  obtain ⟨c, hlight⟩ := exists_isLight hsource hp hb hg
  have houtcome : (Setup.of g o).run.outcome = .ok .secure := by
    obtain ⟨herror, hverdict⟩ := Report.isSecure_iff.1 hsecure
    rw [SpecGraph.outcome_of_error_eq_none herror, hverdict]
  constructor
  · rintro ⟨⟨i, m, frames⟩, f, rest, hkey, hi, rfl, rfl, hf⟩
    obtain ⟨st, hst⟩ := Option.isSome_iff_exists.1 (Std.TreeMap.isSome_getElem?_iff_mem.2 hkey)
    rcases (Setup.of g o).run_cases with ⟨hmachine, -⟩ | ⟨entry, hentry⟩
    · rw [SpecGraph.finalTable, hmachine, Machine.empty, Std.TreeMap.getElem?_emptyc] at hst
      cases hst
    obtain ⟨hpos, rfl⟩ := hlight.stages.entryKey_eq_first_of_some hlight.flow ho
      (Setup.entryKey_of_checkedEntry hentry)
    have hwindow := Setup.window_pos hentry
    have hspot := (Setup.stores_of_mem_table hentry hst).lightSpot hlight hpos hwindow
    have hsize : (Setup.of g o).window = o.specWindow.toNat := rfl
    obtain ⟨n, hn, hid⟩ := (hlight.stages.core.indexed.named _ _).1 hi
    cases hspot with
    | @instr pc _ qs _ _ path last spent left contexts =>
      obtain rfl : i = q := by
        have hindex := hlight.stages.index?_committedId hlight.flow (path.reaches last).lt
        obtain ⟨n', hn', hid'⟩ := (hlight.stages.core.indexed.named _ _).1 hindex
        cases hn.symm.trans hn'
        exact committedId_inj.1 (hid'.symm.trans hid)
      refine ⟨by omega, pc, qs, path, by omega, ?_⟩
      cases qs with
      | nil =>
        rw [List.length_nil] at spent
        omega
      | cons q₁ qs => rwa [List.getLast?_cons_cons] at last
    | begins path last branch node =>
      cases hn.symm.trans node
      exact absurd hid.symm (committedId_ne (head?_beginId _))
    | ends reached branch node =>
      cases hn.symm.trans node
      exact absurd hid.symm (committedId_ne (head?_endId _))
  · rintro ⟨hle, pc, qs, hpath, rfl, hq⟩
    have hpos : 0 < p.length := hpath.reached.1
    have hentry := hlight.stages.entryKey_eq_first hlight.flow ho hpos
    have hchecked := Setup.checkedEntry_of_outcome hentry houtcome
    have ht := Setup.isFixpoint_run hchecked houtcome
    have hne : qs ≠ [] := List.ne_nil_of_length_pos hk
    have hsize : (Setup.of g o).window = o.specWindow.toNat := rfl
    have hlen : qs.length ≤ (Setup.of g o).window := by omega
    obtain ⟨context, st, hst⟩ := Setup.mem_of_isMispredicted hlight ht hpath hne hlen hq
    have hlast : (pc :: qs).getLast? = some q := by
      cases qs with
      | nil => exact absurd rfl hne
      | cons q₁ qs => rwa [List.getLast?_cons_cons]
    refine ⟨_, _, _, Std.TreeMap.isSome_getElem?_iff_mem.1 (Option.isSome_of_eq_some hst),
      hlight.stages.index?_committedId hlight.flow (hpath.reaches hlast).lt, rfl, rfl, ?_⟩
    dsimp only
    omega

/-- One direction of the branch goes round in a loop, the other one comes to a barrier. -/
def revolving : String := "beqz c, E\nL: skip\njmp L\nE: spbarr\nskip"

def revolvingProgram : Program := (Program.parse revolving).toOption.getD ⟨[], ∅⟩

def revolvingGraph : SpecGraph := (SpecGraph.buildSource revolving {}).result.toOption.getD .empty

def revolvingOptions : Options := { specWindow := 3 }

/-- Within three instructions the loop comes back to `L`, and nothing comes past the barrier. -/
theorem exists_remaining_revolving :
    (∃ key f rest, key ∈ revolvingGraph.finalTable revolvingOptions ∧
        revolvingGraph.index? (committedId 1) = some key.node ∧ key.mode = .speculative ∧
        key.frames = f :: rest ∧ (f.remaining : Int) = 3 - (3 : Nat) + 1) ∧
      ¬ ∃ key f rest, key ∈ revolvingGraph.finalTable revolvingOptions ∧
        revolvingGraph.index? (committedId 4) = some key.node ∧ key.mode = .speculative ∧
        key.frames = f :: rest ∧ (f.remaining : Int) = 3 - (2 : Nat) + 1 := by
  have hp : Program.parse revolving = .ok revolvingProgram :=
    Program.parse_eq_ok (by decide +kernel)
  have hg : (SpecGraph.buildSource revolving {}).result = .ok revolvingGraph :=
    SpecGraph.buildSource_eq_ok (by decide +kernel)
  have hiff := exists_remaining_iff_isMispredicted (o := revolvingOptions) (by decide +kernel) hp
    rfl hg rfl (by decide +kernel)
  refine ⟨(hiff 1 3 (by decide)).2 ⟨by decide, 0, [1, 2, 1], ⟨?_, ?_, ?_⟩, rfl, rfl⟩, ?_⟩
  · exact ⟨by decide +kernel, .refl⟩
  · have hbranch : (revolvingProgram.instr? 0).any (·.isBranch) = true := by decide +kernel
    exact (Option.any_eq_true _ _).1 hbranch
  · decide +kernel
  · intro h
    obtain ⟨-, pc, qs, hpath, hlen, hlast⟩ := (hiff 4 2 (by decide)).1 h
    have hnone : ∀ a < revolvingProgram.length, ¬ revolvingProgram.Passes a 4 := by decide +kernel
    obtain ⟨a, x, rfl⟩ := List.length_eq_two.1 hlen
    cases hlast
    have hpasses : revolvingProgram.Passes a 4 :=
      (List.isChain_cons_cons.1 (List.isChain_cons_cons.1 hpath.chain).2).1
    exact hnone a (Program.lt_of_mem_successors hpasses.1).1 hpasses

end Mispredict
