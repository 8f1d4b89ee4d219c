/-
  Points and states of an analysis are finitely many.

  A stack of open contexts seems to have no bound, but a context is opened only if it is not
  open already, so that no stack has a context twice, and what remains to be executed in
  a context is never more than the window. This leaves finitely many points for a graph
  (`Setup.finite_inBounds`).

  A state lists names of registers, cells and observations. Each is listed at the start or
  is written by the instruction of some node, so these too are finitely many, and with them
  the states (`State.finite_of_names`).
-/
import Mathlib.Data.Set.Finite.List
import Mathlib.Data.Set.Finite.Lattice
import Mathlib.Data.Fintype.Pi
import Mathlib.Data.Fintype.Option
import Mathlib.Data.Finite.Prod
import Mispredict.Proofs.Move

namespace Mispredict

open MuAsm (Expr Instr)

/-! ## Nodes and their contexts -/

namespace SpecGraph

variable {g : SpecGraph} {i : Nat} {n : Node}

theorem finite_nodes (g : SpecGraph) : {i | ∃ n, g.node? i = some n}.Finite := by
  refine (List.finite_toSet g.graph.slots.keys).subset ?_
  rintro i ⟨n, hn⟩
  have hvertex : (g.graph.vertex? i).isSome := Option.isSome_iff_exists.2 ⟨n, hn⟩
  rw [Digraph.vertex?_isSome_iff, Digraph.hasVertex] at hvertex
  exact Std.ExtTreeMap.mem_keys.2 (Std.ExtTreeMap.contains_iff_mem.1 hvertex)

/-- The contexts to which nodes belong. -/
def contexts (g : SpecGraph) : Set (Option Nat) := {c | ∃ i n, g.node? i = some n ∧ n.context? = c}

theorem finite_contexts (g : SpecGraph) : g.contexts.Finite := by
  refine (g.finite_nodes.image fun i => (g.node? i).bind Node.context?).subset ?_
  rintro c ⟨i, n, hn, rfl⟩
  refine ⟨i, ⟨n, hn⟩, ?_⟩
  simp only [hn, Option.bind_some]

end SpecGraph

/-! ## Points -/

namespace Setup

/-- Open contexts as an analysis may have them: none of them twice, all of them contexts of nodes,
    and each with no more than the window. -/
structure Stacked (s : Setup) (frames : List Frame) : Prop where
  distinct : (frames.map (·.context)).Nodup
  known : ∀ f ∈ frames, f.context ∈ s.graph.contexts
  windowed : ∀ f ∈ frames, f.remaining ≤ s.window

/-- A point as an analysis may come to it. -/
structure InBounds (s : Setup) (k : Key) : Prop where
  node : ∃ n, s.graph.node? k.node = some n
  frames : s.Stacked k.frames

variable {s : Setup} {k target : Key} {n : Node} {frames inner : List Frame}

theorem stacked_nil (s : Setup) : s.Stacked [] := ⟨List.nodup_nil, nofun, nofun⟩

theorem stacked_singleton {i : Nat} (hn : s.graph.node? i = some n) :
    s.Stacked [⟨n.context?, s.window⟩] := by
  refine ⟨List.nodup_singleton _, fun f hf => ?_, fun f hf => ?_⟩
  · cases List.mem_singleton.1 hf
    exact ⟨i, n, hn, rfl⟩
  · cases List.mem_singleton.1 hf
    exact Nat.le_refl _

theorem Stacked.framesAfter (h : s.Stacked k.frames) (n : Node) : s.Stacked (framesAfter k n) := by
  unfold Setup.framesAfter
  split
  · unfold spend
    split
    · exact s.stacked_nil
    · next top rest hframes =>
      rw [hframes] at h
      refine ⟨h.distinct, fun f hf => ?_, fun f hf => ?_⟩
      · rcases List.mem_cons.1 hf with rfl | hf
        · exact h.known top List.mem_cons_self
        · exact h.known f (List.mem_cons_of_mem _ hf)
      · rcases List.mem_cons.1 hf with rfl | hf
        · exact (Nat.sub_le _ _).trans (h.windowed top List.mem_cons_self)
        · exact h.windowed f (List.mem_cons_of_mem _ hf)
  · exact h

/-- A context that is not open yet can be opened, with what remains to the innermost. -/
theorem Stacked.cons {context : Nat} {top : Frame} {rest : List Frame} {i : Nat}
    (h : s.Stacked (top :: rest)) (hn : s.graph.node? i = some n)
    (hcontext : n.context? = some context) (htop : top.context ≠ some context)
    (hrest : ∀ f ∈ rest, f.context ≠ some context) :
    s.Stacked (⟨some context, top.remaining⟩ :: top :: rest) := by
  refine ⟨List.nodup_cons.2 ⟨fun hmem => ?_, h.distinct⟩, fun f hf => ?_, fun f hf => ?_⟩
  · obtain ⟨f, hf, heq⟩ := List.mem_map.1 hmem
    rcases List.mem_cons.1 hf with rfl | hf
    · exact htop heq
    · exact hrest f hf heq
  · rcases List.mem_cons.1 hf with rfl | hf
    · exact ⟨i, n, hn, hcontext⟩
    · exact h.known f hf
  · rcases List.mem_cons.1 hf with rfl | hf
    · exact h.windowed top List.mem_cons_self
    · exact h.windowed f hf

theorem Stacked.enter {mode : Mode} {i : Nat} (h : s.Stacked frames)
    (hn : s.graph.node? i = some n) (henter : s.enter? mode frames n = some inner) :
    s.Stacked inner := by
  unfold enter? at henter
  split at henter
  · cases henter
    exact stacked_singleton hn
  · split at henter
    · cases henter
      exact h
    · next context hcontext =>
      split at henter
      · cases henter
        exact hcontext ▸ stacked_singleton hn
      · next top rest =>
        split at henter
        · cases henter
          exact h
        · next htop =>
          split at henter
          · split at henter
            · cases henter
            · cases henter
              exact h
          · next hrest =>
            cases henter
            refine h.cons hn hcontext htop fun f hf heq => hrest ?_
            exact List.any_eq_true.2 ⟨f, hf, beq_iff_eq.2 heq⟩

/-- What follows a point within these bounds is within them. -/
theorem InBounds.move {payload : Payload} (h : s.InBounds k)
    (hmove : (target, payload) ∈ s.moves k) : s.InBounds target := by
  obtain ⟨n, i, -, -, ⟨-, -, -, index, e, hend, rfl⟩ | ⟨l, hl, hlink, -⟩⟩ := moves_cases hmove
  · obtain ⟨-, -, -, -, he, -⟩ := node_of_contextEnd? hend
    exact ⟨⟨e, he⟩, h.frames.framesAfter n⟩
  · have htarget := (SpecGraph.mem_linksFrom_iff.1 hl).2.2.2
    cases hlink with
    | committed kind => exact ⟨⟨l.target, htarget⟩, h.frames.framesAfter n⟩
    | speculative kind enters =>
      exact ⟨⟨l.target, htarget⟩, (h.frames.framesAfter n).enter htarget enters⟩
    | rollback kind innermost => exact ⟨⟨l.target, htarget⟩, s.stacked_nil⟩

/-- An analysis starts within these bounds. -/
theorem inBounds_entry {entry : Key} (h : s.entryKey = .ok (some entry)) : s.InBounds entry := by
  obtain ⟨i, n, hn, ⟨-, rfl⟩ | ⟨-, rfl⟩⟩ := entryKey_cases h
  · exact ⟨⟨n, hn⟩, stacked_singleton hn⟩
  · exact ⟨⟨n, hn⟩, s.stacked_nil⟩

/-- There are finitely many stacks of open contexts. -/
theorem finite_stacked (s : Setup) : {frames | s.Stacked frames}.Finite := by
  have hframes : {f : Frame | f.context ∈ s.graph.contexts ∧ f.remaining ≤ s.window}.Finite := by
    refine ((s.graph.finite_contexts.prod (Set.finite_le_nat s.window)).image
      fun p => ⟨p.1, p.2⟩).subset ?_
    rintro ⟨context, remaining⟩ ⟨hcontext, hremaining⟩
    exact ⟨(context, remaining), ⟨hcontext, hremaining⟩, rfl⟩
  have := hframes.to_subtype
  refine ((List.finite_length_le {f : Frame | f.context ∈ s.graph.contexts ∧
    f.remaining ≤ s.window} s.graph.finite_contexts.toFinset.card).image
      (List.map Subtype.val)).subset ?_
  intro frames h
  refine ⟨frames.attachWith _ fun f hf => ⟨h.known f hf, h.windowed f hf⟩, ?_,
    List.attachWith_map_subtype_val _⟩
  -- no context is open twice, so that there are no more frames than contexts
  have hcard : (frames.map (·.context)).toFinset.card = frames.length := by
    rw [List.toFinset_card_of_nodup h.distinct, List.length_map]
  rw [Set.mem_ofPred_eq, List.length_attachWith, ← hcard]
  refine Finset.card_le_card fun c hc => ?_
  obtain ⟨f, hf, rfl⟩ := List.mem_map.1 (List.mem_toFinset.1 hc)
  exact s.graph.finite_contexts.mem_toFinset.2 (h.known f hf)

/-- There are finitely many points within these bounds. -/
theorem finite_inBounds (s : Setup) : {k | s.InBounds k}.Finite := by
  have hmodes : (Set.univ : Set Mode).Finite :=
    (Set.toFinite {Mode.committed, Mode.speculative}).subset fun mode _ => by cases mode <;> simp
  refine ((s.graph.finite_nodes.prod (hmodes.prod s.finite_stacked)).image
    fun p => ⟨p.1, p.2.1, p.2.2⟩).subset ?_
  rintro ⟨node, mode, frames⟩ h
  exact ⟨(node, mode, frames), ⟨h.node, Set.mem_univ _, h.frames⟩, rfl⟩

end Setup

/-! ## Names that a state lists -/

/-- The names under which the instruction at `pc` may write to a state. -/
def MuAsm.Instr.names (pc : String) : Instr → List String
  | .assign dest _ => [dest]
  | .load dest addr => [dest, pc ++ ":" ++ addr.render]
  | .store _ addr => [addr.render, pc ++ ":" ++ addr.render]
  | .cmov dest _ _ => [dest]
  | .beqz _ _ _ => [pc]
  | .jmp target _ => [pc ++ ":target:" ++ target.render]
  | .skip => []
  | .spbarr => []

namespace State

/-- The names that a state lists, of registers, cells and observations. -/
def names (st : State) : List String :=
  st.regs.keys ++ st.mem.keys ++ st.obsMem.keys ++ st.obsCtrl.keys

theorem mem_names_iff {st : State} {x : String} :
    x ∈ st.names ↔
      x ∈ st.regs.keys ∨ x ∈ st.mem.keys ∨ x ∈ st.obsMem.keys ∨ x ∈ st.obsCtrl.keys := by
  simp only [names, List.mem_append, or_assoc]

theorem mem_names_join {s t : State} {x : String} :
    x ∈ (s.join t).names ↔ x ∈ s.names ∨ x ∈ t.names := by
  simp only [mem_names_iff, join, Observations.join, SortedMap.mem_keys_unionWith]
  tauto

theorem mem_names_joinObservations {s t : State} {x : String}
    (h : x ∈ (s.joinObservations t).names) : x ∈ s.names ∨ x ∈ t.names := by
  simp only [mem_names_iff, joinObservations, Observations.join,
    SortedMap.mem_keys_unionWith] at h ⊢
  tauto

/-- An instruction adds no other names to a state than its own. -/
theorem mem_names_apply {st : State} {i : Instr} {pc x : String} {mode : Mode}
    (h : x ∈ (st.apply i pc mode).names) : x ∈ st.names ∨ x ∈ i.names pc := by
  cases i with
  | skip => exact .inl h
  | spbarr => exact .inl h
  | _ =>
    simp only [apply, writeReg, writeCell, observeMem, observeCtrl, Observations.observe,
      mem_names_iff, SortedMap.mem_keys_insert] at h ⊢
    simp only [Instr.names, List.mem_cons, List.not_mem_nil, or_false]
    tauto

/-- States are told apart by what they read under the names they list. -/
theorem ext_get? {s t : State} (hregs : ∀ x, s.regs.get? x = t.regs.get? x)
    (hmem : ∀ x, s.mem.get? x = t.mem.get? x) (hobsMem : ∀ x, s.obsMem.get? x = t.obsMem.get? x)
    (hobsCtrl : ∀ x, s.obsCtrl.get? x = t.obsCtrl.get? x) : s = t := by
  obtain ⟨regs, mem, obsMem, obsCtrl⟩ := s
  obtain ⟨regs', mem', obsMem', obsCtrl'⟩ := t
  rw [mk.injEq]
  exact ⟨SortedMap.ext_get? hregs, SortedMap.ext_get? hmem, SortedMap.ext_get? hobsMem,
    SortedMap.ext_get? hobsCtrl⟩

end State

/-! ## States -/

instance : Finite Level :=
  Set.finite_univ_iff.1 <| (Set.toFinite {.low, .high, .bot, .top}).subset fun l _ => by
    cases l <;> simp

instance : Finite Relation :=
  Set.finite_univ_iff.1 <| (Set.toFinite {.bot, .eqLow, .eqHigh, .diverge, .leak, .top}).subset
    fun r _ => by cases r <;> simp

instance : Finite Value :=
  Finite.of_injective (fun v => (v.committed, v.speculative)) fun v w h => by
    cases v; cases w; simp_all

/-- Of finitely many names finitely many states can be made. -/
theorem State.finite_of_names {names : Set String} (h : names.Finite) :
    {st : State | ∀ x ∈ st.names, x ∈ names}.Finite := by
  have := h.to_subtype
  -- a state within the names is what it reads under them
  let reads (st : {st : State | ∀ x ∈ st.names, x ∈ names}) (x : names) :
      Option Value × Option Value × Option Relation × Option Relation :=
    (st.1.regs.get? x, st.1.mem.get? x, st.1.obsMem.get? x, st.1.obsCtrl.get? x)
  refine Set.finite_coe_iff.1 (Finite.of_injective reads fun s t hreads => Subtype.ext ?_)
  have habsent : ∀ (st : {st : State | ∀ x ∈ st.names, x ∈ names}) x, x ∉ names →
      st.1.regs.get? x = none ∧ st.1.mem.get? x = none ∧ st.1.obsMem.get? x = none ∧
        st.1.obsCtrl.get? x = none := by
    intro st x hx
    have hnot := mt (st.2 x) hx
    simpa only [mem_names_iff, SortedMap.mem_keys_iff, not_or, Option.not_isSome_iff_eq_none]
      using hnot
  have hsame : ∀ x, s.1.regs.get? x = t.1.regs.get? x ∧ s.1.mem.get? x = t.1.mem.get? x ∧
      s.1.obsMem.get? x = t.1.obsMem.get? x ∧ s.1.obsCtrl.get? x = t.1.obsCtrl.get? x := by
    intro x
    by_cases hx : x ∈ names
    · simpa [reads] using congrFun hreads ⟨x, hx⟩
    · obtain ⟨hr, hm, ho, hc⟩ := habsent s x hx
      obtain ⟨hr', hm', ho', hc'⟩ := habsent t x hx
      rw [hr, hm, ho, hc, hr', hm', ho', hc']
      exact ⟨rfl, rfl, rfl, rfl⟩
  exact ext_get? (fun x => (hsame x).1) (fun x => (hsame x).2.1) (fun x => (hsame x).2.2.1)
    fun x => (hsame x).2.2.2

namespace Setup

variable {s : Setup} {entry k : Key} {st : State}

/-- The names under which a visit of a point may write. -/
def namesAt (s : Setup) (k : Key) : List String :=
  match s.executed? k with
  | some (pc, i) => i.names pc
  | none => []

/-- The names that states of an analysis may list. -/
def names (s : Setup) : Set String :=
  {x | x ∈ s.initial.names} ∪ ⋃ k ∈ {k | s.InBounds k}, {x | x ∈ s.namesAt k}

theorem finite_names (s : Setup) : s.names.Finite :=
  (List.finite_toSet _).union (s.finite_inBounds.biUnion fun _ _ => List.finite_toSet _)

theorem mem_names_after {out : State} {x : String} (h : s.after k st = .ok out)
    (hx : x ∈ out.names) : x ∈ st.names ∨ x ∈ s.namesAt k := by
  rw [namesAt]
  obtain ⟨he, rfl⟩ | ⟨pc, i, he, rfl⟩ := after_cases h
  · exact .inl hx
  · rw [he]
    exact State.mem_names_apply hx

/-- An analysis that starts within bounds stores its states at points within bounds, and these
    states list names of the analysis only. -/
theorem Stores.bounded (hentry : s.InBounds entry) (h : s.Stores entry k st) :
    s.InBounds k ∧ ∀ x ∈ st.names, x ∈ s.names := by
  have hinitial : ∀ x ∈ s.initial.names, x ∈ s.names := fun x hx => .inl hx
  induction h with
  | start => exact ⟨hentry, hinitial⟩
  | @pass k target st out payload old visited after violation move held ih ihheld =>
    obtain ⟨hk, hst⟩ := ih
    have hout : ∀ x ∈ out.names, x ∈ s.names := by
      intro x hx
      rcases mem_names_after after hx with hx | hx
      · exact hst x hx
      · exact .inr (Set.mem_biUnion hk hx)
    refine ⟨hk.move move, fun x hx => ?_⟩
    cases payload with
    | full =>
      cases old with
      | none => exact hout x hx
      | some st' => exact (State.mem_names_join.1 hx).elim ((ihheld st' rfl).2 x) (hout x)
    | observations =>
      cases old with
      | none => exact (State.mem_names_joinObservations hx).elim (hinitial x) (hout x)
      | some st' =>
        exact (State.mem_names_joinObservations hx).elim ((ihheld st' rfl).2 x) (hout x)

end Setup

end Mispredict
