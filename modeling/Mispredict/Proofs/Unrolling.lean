/-
  What the unrolled layout lays out.

  A node of a mispredicted path is laid where a path comes to an instruction for the first time in
  its context, with the budget that the path has there. Links of mispredicted paths lead from
  instructions to their successors only, and not on from barriers (`PathEdge`). Conversely,
  within its budget a node has a link to each of its successors, which has at least the rest of
  that budget, and so has a branch within the window (`IsUnrolled`). Committed execution goes
  over into a context in one place only (`OpensOnce`).

  The loop that follows pending paths keeps an account of what is still owed: `Met` says that
  a link is there, or that a pending path will make it, and `Unrolls` that all that is
  owed is met.
-/
import Mispredict.Proofs.ControlFlow

namespace Mispredict

open MuAsm (Instr Program Entry)

namespace SpecGraph

theorem unrolledId_inj {a b pc pc' : Nat} :
    unrolledId a pc = unrolledId b pc' ↔ a = b ∧ pc = pc' := by
  constructor
  · intro h
    cases context_of_unrolledId h
    rw [unrolledId, unrolledId, String.append_right_inj] at h
    exact ⟨rfl, Nat.repr_injective h⟩
  · rintro ⟨rfl, rfl⟩
    rfl

theorem committedId_ne_unrolledId (pc context pc' : Nat) :
    committedId pc ≠ unrolledId context pc' :=
  committedId_ne (by simp [unrolledId])

/-- Committed execution goes over into a context at one branch, and to one of its successors. -/
def OpensOnce (g : SpecGraph) : Prop :=
  ∀ context pc x pc' x', g.Linked (committedId pc) (unrolledId context x) →
    g.Linked (committedId pc') (unrolledId context x') → pc = pc' ∧ x = x'

/-- Two nodes were linked, or have got one of the links that were added. -/
theorem Linked.cases_of_grows {N : Node → Prop} {E : Edge → Prop} {g g' : SpecGraph}
    {source target : String} (h : g'.Linked source target) (hg : g.Indexed)
    (hgrows : Grows N E g g') : g.Linked source target ∨ ∃ link, E ⟨source, target, link⟩ := by
  obtain ⟨head, tail, link, hhead, htail, hedge⟩ := h
  have hg' := hgrows.indexed hg
  rcases hgrows.edge?_cases hg hedge with hedge | ⟨e, he, rfl, hsource, htarget⟩
  · have hindex : ∀ {id i}, g'.index? id = some i → i < g.numNodes → g.index? id = some i := by
      intro id i hi hlt
      obtain ⟨n, hn, rfl⟩ := (hg'.named _ _).1 hi
      rw [hgrows.node?_of_lt hg hlt] at hn
      exact hg.index?_id hn
    obtain ⟨hlt, hlt'⟩ := hg.joined _ _ _ hedge
    exact .inl ⟨head, tail, link, hindex hhead hlt, hindex htail hlt', hedge⟩
  · rw [hg'.id_unique hhead hsource, hg'.id_unique htail htarget]
    exact .inr ⟨e.link, he⟩

namespace Draft

variable {p : Program} {mode : SpeculationMode} {d d' d₁ : Draft} {w : Pending}
  {ws rest stack : List Pending} {budget : Nat → Nat → Nat} {window : Nat}

/-- The links of mispredicted paths: out of a branch or an instruction of a path to where execution
    can go on, and back to committed execution. -/
inductive PathEdge (p : Program) : Edge → Prop where
  | leaves {pc context x : Nat} {label : Option String} (branch : pc ∈ branches p)
      (follows : x ∈ p.successors pc) :
      PathEdge p ⟨committedId pc, unrolledId context x, ⟨.speculative, label⟩⟩
  | goesOn {context pc context' x : Nat} {label : Option String}
      (passable : p.instr? pc ≠ some .spbarr) (follows : x ∈ p.successors pc) :
      PathEdge p ⟨unrolledId context pc, unrolledId context' x, ⟨.speculative, label⟩⟩
  | returns {source : String} {x : Nat} {label : Option String} :
      PathEdge p ⟨source, committedId x, ⟨.rollback, label⟩⟩

/-- The node `source` has a link to the instruction at `x` in some context, laid with a budget of
    `b` or more; or such a link is pending. -/
def Met (g : SpecGraph) (budget : Nat → Nat → Nat) (stack : List Pending) (source : String)
    (x b : Nat) : Prop :=
  (∃ context, g.Linked source (unrolledId context x) ∧ b ≤ budget context x) ∨
    ∃ w ∈ stack, w.source = source ∧ w.pc = some x ∧ w.budget = b

/-- The path is pending in a context of its own, in which it has come with more budget wherever it
    has been. -/
structure Pending.Leads (p : Program) (d : Draft) (budget : Nat → Nat → Nat) (w : Pending) :
    Prop where
  edge : ∀ x, w.pc = some x →
    PathEdge p ⟨w.source, unrolledId w.context x, ⟨.speculative, none⟩⟩
  context : w.context < d.contexts
  room : ∀ pc, d.graph.hasNode (unrolledId w.context pc) = true → w.budget < budget w.context pc
  opens : ∀ pc, w.source = committedId pc →
    ∀ pc', d.graph.hasNode (unrolledId w.context pc') = false

/-- How far unrolling has come: `budget` are the budgets of the nodes that were laid, `starts` the
    directions of branches that were started, with the whole window. -/
structure Unrolls (p : Program) (window : Nat) (starts : Nat → Nat → Prop) (c : SpecGraph)
    (d : Draft) (budget : Nat → Nat → Nat) (stack : List Pending) : Prop where
  grows : Grows (UnrolledNode p) (PathEdge p) c d.graph
  goesOn : ∀ context pc x b, d.graph.hasNode (unrolledId context pc) = true →
    p.instr? pc ≠ some .spbarr → x ∈ p.successors pc → budget context pc = b + 1 → 0 < b →
    Met d.graph budget stack (unrolledId context pc) x b
  leaves : ∀ pc x, starts pc x → Met d.graph budget stack (committedId pc) x window
  opens : d.graph.OpensOnce
  fresh : ∀ context pc, d.contexts ≤ context → d.graph.hasNode (unrolledId context pc) = false
  leads : ∀ w ∈ stack, w.Leads p d budget
  apart : stack.Pairwise fun w w' => w.context ≠ w'.context

/-! ## One instruction -/

theorem adds_endPath_path {source : String} {resume : Nat}
    (h : d.endPath p mode source resume = .ok d') :
    Adds (UnrolledNode p) (PathEdge p) d d' :=
  adds_endPath_of (fun _ _ _ => .returns) h

/-- The end of a path leads into no context. -/
theorem linked_of_endPath {source other : String} {resume context x : Nat} (hd : d.graph.Indexed)
    (h : d.endPath p mode source resume = .ok d')
    (hlinked : d'.graph.Linked other (unrolledId context x)) :
    d.graph.Linked other (unrolledId context x) := by
  have hadds : Adds (UnrolledNode p) (fun e => ∃ x, e.target = committedId x) d d' :=
    adds_endPath_of (fun x _ _ => ⟨x, rfl⟩) h
  rcases hlinked.cases_of_grows hd hadds.graph with hlinked | ⟨link, x', hid⟩
  · exact hlinked
  · exact absurd hid.symm (committedId_ne_unrolledId _ _ _)

theorem hasNode_of_grows {N : Node → Prop} {E : Edge → Prop} {g g' : SpecGraph} {id : String}
    (h : Grows N E g g') (hg : g.Indexed) (hid : g.hasNode id = true) : g'.hasNode id = true := by
  obtain ⟨i, hi⟩ := Option.isSome_iff_exists.1 hid
  rw [hasNode, h.index?_of_some hg hi]
  rfl

theorem hasNode_addNode {n : Node} (h : d.addNode n = .ok d') (id : String) :
    d'.graph.hasNode id = (decide (id = n.id) || d.graph.hasNode id) := by
  obtain ⟨g, hg, h⟩ := bind_eq_ok_iff.1 h
  cases h
  rw [hasNode, index?_insertNode hg, hasNode]
  by_cases hid : id = n.id <;> simp [hid]

theorem hasNode_connect {source target : String} {kind : LinkKind} {label : Option String}
    (h : d.connect source target kind label = .ok d') (id : String) :
    d'.graph.hasNode id = d.graph.hasNode id := by
  unfold connect at h
  split at h
  · cases h
    rfl
  · obtain ⟨g, hg, h⟩ := bind_eq_ok_iff.1 h
    cases h
    rw [hasNode, index?_insertEdge hg, hasNode]

theorem hasNode_endPath {source : String} {resume : Nat}
    (h : d.endPath p mode source resume = .ok d') (id : String) :
    d'.graph.hasNode id = d.graph.hasNode id := by
  unfold endPath at h
  split at h
  · cases h
    rfl
  · split at h
    · split at h
      · unfold connectPc at h
        split at h
        · exact hasNode_connect h id
        · cases h
          rfl
      · cases h
        rfl
    · cases h
      rfl

/-- Where a path goes on after an instruction that is no barrier are its successors. -/
theorem onward_eq_ok {pc : Nat} {i : Instr} {on : Onward} (hi : p.instr? pc = some i)
    (h : onward p pc i = .ok on) :
    (i = .spbarr ∧ on = .ends) ∨
      i ≠ .spbarr ∧ ((∃ pc', on = .continues pc' ∧ ∀ x, pc' = some x ↔ x ∈ p.successors pc) ∨
        ∃ taken next, on = .forks taken next ∧
          ∀ x, taken = some x ∨ next = some x ↔ x ∈ p.successors pc) := by
  have hlt := Program.lt_of_instr? hi
  have hsingle : ∀ {target : Nat}, i.goesTo pc = [target] →
      ∀ x, p.within? target = some x ↔ x ∈ p.successors pc := by
    intro target htarget x
    rw [Program.mem_successors, Program.within?_eq_some_iff]
    constructor
    · rintro ⟨rfl, hx⟩
      exact ⟨i, hi, by rw [htarget]; exact List.mem_singleton.2 rfl, hx⟩
    · rintro ⟨i', hi', hx, hx'⟩
      cases hi.symm.trans hi'
      rw [htarget, List.mem_singleton] at hx
      exact ⟨hx.symm, hx'⟩
  unfold onward at h
  split at h
  · cases h
    exact .inl ⟨rfl, rfl⟩
  · obtain ⟨taken, htaken, h⟩ := bind_eq_ok_iff.1 h
    cases h
    exact .inr ⟨nofun, .inr ⟨_, _, rfl, fun x =>
      (Program.mem_successors_of_branchTarget htaken).symm⟩⟩
  · obtain ⟨target, htarget, h⟩ := bind_eq_ok_iff.1 h
    cases h
    refine .inr ⟨nofun, .inl ⟨_, rfl, hsingle ?_⟩⟩
    rw [Program.jumpTarget_eq_ok htarget, Instr.goesTo]
  · next hbarr hbeqz hjmp =>
    cases h
    refine .inr ⟨hbarr, .inl ⟨_, rfl, ?_⟩⟩
    rw [Program.next?_of_lt hlt]
    refine hsingle ?_
    cases i with
    | jmp target resolved => exact absurd rfl (hjmp target resolved)
    | beqz cond label target => exact absurd rfl (hbeqz cond label target)
    | _ => rfl

/-! ## The loop -/

theorem hasNode_of_linked {g : SpecGraph} {source target : String} (h : g.Linked source target) :
    g.hasNode target = true := by
  obtain ⟨head, tail, link, -, ht, -⟩ := h
  rw [hasNode, ht]
  rfl

/-- What following the first of the pending paths by an instruction has to do: make the link that is
    pending, if there is budget for it, and give the budget of the path to a node that it lays,
    with `ws` for what follows that. -/
structure Serves (p : Program) (d : Draft) (budget : Nat → Nat → Nat) (w : Pending)
    (rest : List Pending) (d' : Draft) (budget' : Nat → Nat → Nat) (ws : List Pending) : Prop where
  grows : Grows (UnrolledNode p) (PathEdge p) d.graph d'.graph
  contexts : d.contexts ≤ d'.contexts
  kept : ∀ context pc, d.graph.hasNode (unrolledId context pc) = true →
    budget' context pc = budget context pc
  laid : ∀ context pc, d'.graph.hasNode (unrolledId context pc) = true →
    d.graph.hasNode (unrolledId context pc) = true ∨
      context = w.context ∧ budget' context pc = w.budget ∧ ∀ x b, p.instr? pc ≠ some .spbarr →
        x ∈ p.successors pc → w.budget = b + 1 → 0 < b →
        Met d'.graph budget' (ws ++ rest) (unrolledId context pc) x b
  linked : ∀ x, w.pc = some x → 0 < w.budget →
    ∃ context, d'.graph.Linked w.source (unrolledId context x) ∧ w.budget ≤ budget' context x
  opened : ∀ pc context x, d'.graph.Linked (committedId pc) (unrolledId context x) →
    d.graph.Linked (committedId pc) (unrolledId context x) ∨
      w.source = committedId pc ∧ w.context = context ∧ w.pc = some x
  leads : ∀ w' ∈ ws, w'.Leads p d' budget'
  apart : (ws ++ rest).Pairwise fun w w' => w.context ≠ w'.context

theorem Met.serve {budget' : Nat → Nat → Nat} {source : String} {x b : Nat}
    (h : Met d.graph budget (w :: rest) source x b) (hd : d.graph.Indexed) (hb : 0 < b)
    (hs : Serves p d budget w rest d' budget' ws) :
    Met d'.graph budget' (ws ++ rest) source x b := by
  rcases h with ⟨context, hlinked, hle⟩ | ⟨w', hw', rfl, hpc, rfl⟩
  · refine .inl ⟨context, hlinked.of_grows hd hs.grows, ?_⟩
    rw [hs.kept context x (hasNode_of_linked hlinked)]
    exact hle
  · rcases List.mem_cons.1 hw' with rfl | hw'
    · exact .inl (hs.linked x hpc hb)
    · exact .inr ⟨w', List.mem_append_right _ hw', rfl, hpc, rfl⟩

theorem Unrolls.serve {starts : Nat → Nat → Prop} {c : SpecGraph} {budget' : Nat → Nat → Nat}
    (h : Unrolls p window starts c d budget (w :: rest)) (hc : c.Indexed) (hwindow : 0 < window)
    (hs : Serves p d budget w rest d' budget' ws) :
    Unrolls p window starts c d' budget' (ws ++ rest) := by
  have hd := h.grows.indexed hc
  have hw := h.leads w List.mem_cons_self
  refine ⟨h.grows.trans hs.grows, fun context pc x b hnode hpass hx hb hpos => ?_,
    fun pc x hstart => (h.leaves pc x hstart).serve hd hwindow hs,
    fun context pc x pc' x' hlinked hlinked' => ?_, fun context pc hcontext => ?_,
    fun w' hw' => ?_, hs.apart⟩
  · rcases hs.laid context pc hnode with hold | ⟨rfl, hbudget, hmet⟩
    · rw [hs.kept context pc hold] at hb
      exact (h.goesOn context pc x b hold hpass hx hb hpos).serve hd hpos hs
    · exact hmet x b hpass hx (hbudget ▸ hb) hpos
  · -- a context has no nodes yet when committed execution goes over into it
    have hnone : ∀ {pc pc' x}, w.source = committedId pc →
        ¬ d.graph.Linked (committedId pc') (unrolledId w.context x) := by
      intro pc pc' x hsource hlinked
      have hnode := hasNode_of_linked hlinked
      rw [hw.opens pc hsource x] at hnode
      cases hnode
    rcases hs.opened _ _ _ hlinked with hold | ⟨hsource, rfl, hx⟩
    · rcases hs.opened _ _ _ hlinked' with hold' | ⟨hsource', rfl, -⟩
      · exact h.opens _ _ _ _ _ hold hold'
      · exact absurd hold (hnone hsource')
    · rcases hs.opened _ _ _ hlinked' with hold' | ⟨hsource', -, hx'⟩
      · exact absurd hold' (hnone hsource)
      · exact ⟨committedId_inj.1 (hsource.symm.trans hsource'),
          Option.some.inj (hx.symm.trans hx')⟩
  · rw [Bool.eq_false_iff]
    intro hnode
    rcases hs.laid context pc hnode with hold | ⟨rfl, -⟩
    · rw [h.fresh context pc (hs.contexts.trans hcontext)] at hold
      cases hold
    · have hlt := hw.context
      have hle := hs.contexts
      omega
  · rcases List.mem_append.1 hw' with hw' | hw'
    · exact hs.leads w' hw'
    · have hleads := h.leads w' (List.mem_cons_of_mem _ hw')
      have hold : ∀ {pc}, d'.graph.hasNode (unrolledId w'.context pc) = true →
          d.graph.hasNode (unrolledId w'.context pc) = true := by
        intro pc hnode
        refine (hs.laid w'.context pc hnode).resolve_right fun ⟨heq, _⟩ => ?_
        exact (List.pairwise_cons.1 h.apart).1 w' hw' heq.symm
      refine ⟨hleads.edge, hleads.context.trans_le hs.contexts, fun pc hnode => ?_,
        fun pc hsource pc' => ?_⟩
      · rw [hs.kept _ _ (hold hnode)]
        exact hleads.room pc (hold hnode)
      · rw [Bool.eq_false_iff]
        intro hnode
        have hnone := hleads.opens pc hsource pc'
        rw [hold hnode] at hnone
        cases hnone

/-- The budgets with one more node laid. -/
def lay (budget : Nat → Nat → Nat) (context pc b : Nat) : Nat → Nat → Nat :=
  fun context' pc' => if context' = context ∧ pc' = pc then b else budget context' pc'

theorem lay_self (budget : Nat → Nat → Nat) (context pc b : Nat) :
    lay budget context pc b context pc = b := if_pos ⟨rfl, rfl⟩

theorem lay_of_ne {context pc b context' pc' : Nat} (h : ¬ (context' = context ∧ pc' = pc)) :
    lay budget context pc b context' pc' = budget context' pc' := if_neg h

/-- A link into a context was there, or it is the new one. -/
theorem linked_of_connect_cases {source other : String} {context pc context' x : Nat}
    {label : Option String} (hd : d.graph.Indexed)
    (h : d.connect source (unrolledId context pc) .speculative label = .ok d')
    (hlinked : d'.graph.Linked other (unrolledId context' x)) :
    d.graph.Linked other (unrolledId context' x) ∨
      source = other ∧ context = context' ∧ pc = x := by
  have hadds : Adds (fun _ => True) (fun e => e.source = source ∧ e.target = unrolledId context pc)
      d d' := adds_connect ⟨rfl, rfl⟩ h
  refine (hlinked.cases_of_grows hd hadds.graph).imp_right ?_
  rintro ⟨link, hsource, htarget⟩
  obtain ⟨rfl, rfl⟩ := unrolledId_inj.1 htarget
  exact ⟨hsource.symm, rfl, rfl⟩

/-- A path that comes to a node of its context is linked to it. -/
theorem serves_of_hasNode {pc : Nat} (hd : d.graph.Indexed) (hleads : w.Leads p d budget)
    (hpc : w.pc = some pc)
    (hnode : d.graph.hasNode (unrolledId w.context pc) = true)
    (hapart : rest.Pairwise fun w w' => w.context ≠ w'.context)
    (h : d.connect w.source (unrolledId w.context pc) .speculative none = .ok d') :
    Serves p d budget w rest d' budget [] where
  grows := (adds_connect (hleads.edge pc hpc) h).graph
  contexts := (adds_connect (N := UnrolledNode p) (hleads.edge pc hpc) h).contexts.ge
  kept _ _ _ := rfl
  laid context pc' hnode' := .inl (by rwa [hasNode_connect h] at hnode')
  linked x hx _ := by
    cases hpc.symm.trans hx
    exact ⟨w.context, linked_of_connect h, (hleads.room pc hnode).le⟩
  opened pc' context x hlinked := (linked_of_connect_cases hd h hlinked).imp_right
    fun ⟨hsource, hcontext, hx⟩ => ⟨hsource, hcontext, hx ▸ hpc⟩
  leads _ hw' := absurd hw' List.not_mem_nil
  apart := hapart

/-- A path that is not followed any further ends. -/
theorem serves_of_endPath (hd : d.graph.Indexed) (hend : w.pc = none ∨ w.budget = 0)
    (hapart : rest.Pairwise fun w w' => w.context ≠ w'.context)
    (h : d.endPath p mode w.source w.resume = .ok d') : Serves p d budget w rest d' budget [] where
  grows := (adds_endPath_path h).graph
  contexts := (adds_endPath_path h).contexts.ge
  kept _ _ _ := rfl
  laid context pc' hnode' := .inl (by rwa [hasNode_endPath h] at hnode')
  linked x hx hpos := by
    rcases hend with hnone | hzero
    · cases hnone.symm.trans hx
    · omega
  opened pc context x hlinked := .inl (linked_of_endPath hd h hlinked)
  leads _ hw' := absurd hw' List.not_mem_nil
  apart := hapart

/-- A path goes on to every instruction that can follow. -/
theorem exists_branchOff {pc x : Nat} {i : Instr} {on : Onward} (hi : p.instr? pc = some i)
    (h : onward p pc i = .ok on) (hpass : p.instr? pc ≠ some .spbarr) (hx : x ∈ p.successors pc)
    (w : Pending) (b contexts : Nat) :
    ∃ w' ∈ branchOff w pc b contexts on,
      w'.source = unrolledId w.context pc ∧ w'.pc = some x ∧ w'.budget = b := by
  rcases onward_eq_ok hi h with ⟨rfl, -⟩ | ⟨-, ⟨pc', rfl, hiff⟩ | ⟨taken, next, rfl, hiff⟩⟩
  · exact absurd hi hpass
  · exact ⟨_, List.mem_cons_self, rfl, (hiff x).2 hx, rfl⟩
  · rcases (hiff x).2 hx with htaken | hnext
    · exact ⟨_, List.mem_cons_of_mem _ List.mem_cons_self, rfl, htaken, rfl⟩
    · exact ⟨_, List.mem_cons_self, rfl, hnext, rfl⟩

/-- A path that goes on does so to what can follow, in its own context or in a new one. -/
theorem of_mem_branchOff {w' : Pending} {pc b contexts : Nat} {i : Instr} {on : Onward}
    (hi : p.instr? pc = some i) (h : onward p pc i = .ok on)
    (hw' : w' ∈ branchOff w pc b contexts on) :
    p.instr? pc ≠ some .spbarr ∧ w'.source = unrolledId w.context pc ∧ w'.budget = b ∧
      (∀ x, w'.pc = some x → x ∈ p.successors pc) ∧
      (w'.context = w.context ∨ contexts ≤ w'.context ∧ w'.context < contexts + on.opened) := by
  rcases onward_eq_ok hi h with ⟨-, rfl⟩ | ⟨hpass, ⟨pc', rfl, hiff⟩ | ⟨taken, next, rfl, hiff⟩⟩
  · cases hw'
  · cases List.mem_singleton.1 hw'
    exact ⟨by rwa [hi, ne_eq, Option.some_inj], rfl, rfl, fun x hx => (hiff x).1 hx, .inl rfl⟩
  · refine ⟨by rwa [hi, ne_eq, Option.some_inj], ?_⟩
    rw [Onward.opened]
    rcases List.mem_pair.1 hw' with rfl | rfl
    · exact ⟨rfl, rfl, fun x hx => (hiff x).1 (.inr hx), .inr (by dsimp only; omega)⟩
    · exact ⟨rfl, rfl, fun x hx => (hiff x).1 (.inl hx), .inr (by dsimp only; omega)⟩

theorem pairwise_branchOff {contexts : Nat} (hcontext : ∀ w' ∈ w :: rest, w'.context < contexts)
    (h : (w :: rest).Pairwise fun w w' => w.context ≠ w'.context) (pc b : Nat) (on : Onward) :
    (branchOff w pc b contexts on ++ rest).Pairwise fun w w' => w.context ≠ w'.context := by
  obtain ⟨hw, hrest⟩ := List.pairwise_cons.1 h
  have hlt : ∀ w' ∈ rest, w'.context < contexts := fun w' hw' =>
    hcontext w' (List.mem_cons_of_mem _ hw')
  cases on with
  | ends => exact hrest
  | continues pc' => exact List.pairwise_cons.2 ⟨hw, hrest⟩
  | forks taken next =>
    refine List.pairwise_cons.2 ⟨fun w' hw' => ?_, List.pairwise_cons.2 ⟨fun w' hw' => ?_, hrest⟩⟩
    · rcases List.mem_cons.1 hw' with rfl | hw'
      · exact Nat.succ_ne_self _
      · exact ((hlt w' hw').trans (Nat.lt_succ_self _)).ne'
    · exact (hlt w' hw').ne'

/-- A path that comes to an instruction for the first time in its context lays a node there, and
    goes on from it with what is left of its budget. -/
theorem serves_of_addNode {starts : Nat → Nat → Prop} {c : SpecGraph} {d₂ : Draft} {pc b : Nat}
    {e : Entry} {on : Onward} (h : Unrolls p window starts c d budget (w :: rest)) (hc : c.Indexed)
    (hpc : w.pc = some pc) (hb : w.budget = b + 1) (he : p.entry? pc = some e)
    (h₁ : d.addNode (unrolledNode e pc w) = .ok d₁)
    (h₂ : d₁.connect w.source (unrolledId w.context pc) .speculative none = .ok d₂)
    (hon : onward p pc e.instr = .ok on)
    (hgrows : Grows (UnrolledNode p) (PathEdge p) d₂.graph d'.graph)
    (hsame : ∀ id, d'.graph.hasNode id = d₂.graph.hasNode id)
    (hlinks : ∀ pc context x, d'.graph.Linked (committedId pc) (unrolledId context x) →
      d₂.graph.Linked (committedId pc) (unrolledId context x))
    (hcontexts : d'.contexts = d₂.contexts + on.opened)
    (hnew : d.graph.hasNode (unrolledId w.context pc) = false) :
    Serves p d budget w rest d' (lay budget w.context pc w.budget)
      (branchOff w pc b d₂.contexts on) := by
  have hleads := h.leads w List.mem_cons_self
  have hd := h.grows.indexed hc
  have hadds : Adds (UnrolledNode p) (PathEdge p) d d₂ :=
    (adds_addNode ⟨pc, e, w, he, rfl⟩ h₁).trans (adds_connect (hleads.edge pc hpc) h₂)
  have hinstr : p.instr? pc = some e.instr := Program.instr?_eq_some he
  have hopened := hadds.contexts
  have hnode : ∀ {context pc'}, d'.graph.hasNode (unrolledId context pc') = true →
      d.graph.hasNode (unrolledId context pc') = true ∨ context = w.context ∧ pc' = pc := by
    intro context pc' hnode
    rw [hsame, hasNode_connect h₂, hasNode_addNode h₁, Bool.or_eq_true, decide_eq_true_iff] at hnode
    exact hnode.symm.imp_right unrolledId_inj.1
  have hkept : ∀ context pc', d.graph.hasNode (unrolledId context pc') = true →
      lay budget w.context pc w.budget context pc' = budget context pc' := by
    intro context pc' hold
    refine lay_of_ne ?_
    rintro ⟨rfl, rfl⟩
    rw [hnew] at hold
    cases hold
  -- a new context has no nodes yet
  have hfresh : ∀ {context pc'}, d.contexts ≤ context →
      d'.graph.hasNode (unrolledId context pc') ≠ true := by
    intro context pc' hcontext hnode'
    rcases hnode hnode' with hold | ⟨rfl, -⟩
    · rw [h.fresh context pc' hcontext] at hold
      cases hold
    · exact absurd hleads.context (not_lt.2 hcontext)
  refine ⟨hadds.graph.trans hgrows, by omega, hkept, fun context pc' hnode' => ?_, fun x hx _ => ?_,
    fun pc' context x hlinked => ?_, fun w' hw' => ?_, ?_⟩
  · refine (hnode hnode').imp_right ?_
    rintro ⟨rfl, rfl⟩
    refine ⟨rfl, lay_self .., fun x b' hpass hx hb' _ => .inr ?_⟩
    obtain rfl : b = b' := by omega
    obtain ⟨w', hw', hgoes⟩ := exists_branchOff hinstr hon hpass hx w b d₂.contexts
    exact ⟨w', List.mem_append_left _ hw', hgoes⟩
  · cases hpc.symm.trans hx
    refine ⟨w.context, (linked_of_connect h₂).of_grows (hadds.graph.indexed (h.grows.indexed hc))
      hgrows, ?_⟩
    rw [lay_self]
  · have hadds₁ : Adds (UnrolledNode p) (fun _ => False) d d₁ := adds_addNode ⟨pc, e, w, he, rfl⟩ h₁
    rcases linked_of_connect_cases (hadds₁.graph.indexed hd) h₂ (hlinks _ _ _ hlinked) with
      hlinked | ⟨hsource, rfl, rfl⟩
    · rcases hlinked.cases_of_grows hd hadds₁.graph with hold | ⟨link, hfalse⟩
      · exact .inl hold
      · exact hfalse.elim
    · exact .inr ⟨hsource, rfl, hpc⟩
  · obtain ⟨hpass, hsource, hbudget, hsucc, hcontext⟩ := of_mem_branchOff hinstr hon hw'
    have hlt := hleads.context
    refine ⟨fun x hx => ?_, by omega, fun pc'' hnode' => ?_, fun _ hid => ?_⟩
    · rw [hsource]
      exact .goesOn hpass (hsucc x hx)
    · rcases hcontext with hsame | ⟨hle, -⟩
      · rw [hsame] at hnode' ⊢
        rcases hnode hnode' with hold | ⟨-, rfl⟩
        · have hroom := hleads.room pc'' hold
          rw [hkept _ _ hold]
          omega
        · rw [lay_self]
          omega
      · exact absurd hnode' (hfresh (by omega))
    · exact absurd (hsource.symm.trans hid).symm (committedId_ne_unrolledId _ _ _)
  · refine pairwise_branchOff (fun w' hw' => ?_) h.apart pc b on
    rw [hopened]
    exact (h.leads w' hw').context

theorem Unrolls.follow {starts : Nat → Nat → Prop} {c : SpecGraph}
    (h : Unrolls p window starts c d budget (w :: rest)) (hc : c.Indexed) (hwindow : 0 < window)
    (hfollow : Draft.follow p mode d w = .ok (ws, d')) :
    ∃ budget', Unrolls p window starts c d' budget' (ws ++ rest) := by
  have hleads := h.leads w List.mem_cons_self
  have hd := h.grows.indexed hc
  have hapart := (List.pairwise_cons.1 h.apart).2
  unfold Draft.follow at hfollow
  split at hfollow
  · next pc b hpc hb =>
    dsimp only at hfollow
    split at hfollow
    · next hnode =>
      obtain ⟨d₁, h₁, hfollow⟩ := bind_eq_ok_iff.1 hfollow
      cases hfollow
      exact ⟨_, h.serve hc hwindow (serves_of_hasNode hd hleads hpc hnode hapart h₁)⟩
    · next hnew =>
      split at hfollow
      · cases hfollow
      · next e he =>
        obtain ⟨d₁, h₁, hfollow⟩ := bind_eq_ok_iff.1 hfollow
        obtain ⟨d₂, h₂, hfollow⟩ := bind_eq_ok_iff.1 hfollow
        obtain ⟨on, hon, hfollow⟩ := bind_eq_ok_iff.1 hfollow
        split at hfollow
        · obtain ⟨d₃, h₃, hfollow⟩ := bind_eq_ok_iff.1 hfollow
          cases hfollow
          have hadds := adds_endPath_path h₃
          have hadds₂ : Adds (UnrolledNode p) (PathEdge p) d d₂ :=
            (adds_addNode ⟨pc, e, w, he, rfl⟩ h₁).trans (adds_connect (hleads.edge pc hpc) h₂)
          have hd₂ := hadds₂.graph.indexed hd
          exact ⟨_, h.serve hc hwindow (serves_of_addNode h hc hpc hb he h₁ h₂ hon hadds.graph
            (hasNode_endPath h₃) (fun _ _ _ => linked_of_endPath hd₂ h₃) hadds.contexts
            (by simpa using hnew))⟩
        · cases hfollow
          exact ⟨_, h.serve hc hwindow (serves_of_addNode h hc hpc hb he h₁ h₂ hon .refl
            (fun _ => rfl) (fun _ _ _ hlinked => hlinked) rfl (by simpa using hnew))⟩
  · next hnot =>
    obtain ⟨d₁, h₁, hfollow⟩ := bind_eq_ok_iff.1 hfollow
    cases hfollow
    have hend : w.pc = none ∨ w.budget = 0 := by
      cases hpc : w.pc with
      | none => exact .inl rfl
      | some pc =>
        cases hb : w.budget with
        | zero => exact .inr rfl
        | succ b => exact absurd hb (hnot pc b hpc)
    exact ⟨_, h.serve hc hwindow (serves_of_endPath hd hend hapart h₁)⟩

/-- What following a path by an instruction preserves, following all paths to their ends does. -/
theorem unroll_invariant {I : Draft → List Pending → Prop}
    (hstep : ∀ {d w rest ws d'}, I d (w :: rest) → follow p mode d w = .ok (ws, d') →
      I d' (ws ++ rest))
    (h : I d stack) (hunroll : Draft.unroll p mode d stack = .ok d') : I d' [] := by
  fun_induction Draft.unroll p mode d stack with
  | case1 d =>
    cases hunroll
    exact h
  | case2 d w rest e he => cases hunroll
  | case3 d w rest ws d₁ hfollow ih => exact ih (hstep h hfollow) hunroll

theorem Unrolls.unroll {starts : Nat → Nat → Prop} {c : SpecGraph}
    (h : Unrolls p window starts c d budget stack) (hc : c.Indexed) (hwindow : 0 < window)
    (hunroll : Draft.unroll p mode d stack = .ok d') :
    ∃ budget', Unrolls p window starts c d' budget' [] := by
  refine unroll_invariant (I := fun d stack => ∃ budget, Unrolls p window starts c d budget stack)
    ?_ ⟨budget, h⟩ hunroll
  rintro d w rest ws d' ⟨budget, h⟩ hfollow
  exact h.follow hc hwindow hfollow

/-! ## The branches -/

theorem Met.of_nil {g : SpecGraph} {source : String} {x b : Nat} (h : Met g budget [] source x b)
    (stack : List Pending) : Met g budget stack source x b :=
  .inl (h.resolve_right fun ⟨_, hw, _⟩ => List.not_mem_nil hw)

/-- One more direction of a branch is started in a new context. -/
theorem Unrolls.start {starts : Nat → Nat → Prop} {c : SpecGraph} {pc speculated : Nat}
    (h : Unrolls p window starts c d budget []) (hpc : pc ∈ branches p)
    (hfollows : ∀ x, p.within? speculated = some x → x ∈ p.successors pc) (resume : Nat) :
    Unrolls p window (fun pc' x => starts pc' x ∨ pc' = pc ∧ p.within? speculated = some x) c
      ⟨d.graph, d.contexts + 1⟩ budget
      [firstPending p pc window d.contexts speculated resume] where
  grows := h.grows
  goesOn context pc' x b hnode hpass hx hb hpos :=
    (h.goesOn context pc' x b hnode hpass hx hb hpos).of_nil _
  leaves pc' x hstart := by
    rcases hstart with hstart | ⟨rfl, hx⟩
    · exact (h.leaves pc' x hstart).of_nil _
    · exact .inr ⟨_, List.mem_cons_self, rfl, hx, rfl⟩
  opens := h.opens
  fresh context pc' hcontext := h.fresh context pc' (Nat.le_of_succ_le hcontext)
  leads w hw := by
    cases List.mem_singleton.1 hw
    refine ⟨fun x hx => .leaves hpc (hfollows x hx), Nat.lt_succ_self _, fun pc' hnode => ?_,
      fun _ _ pc' => h.fresh d.contexts pc' le_rfl⟩
    rw [firstPending, h.fresh d.contexts pc' le_rfl] at hnode
    cases hnode
  apart := List.pairwise_singleton ..

/-- The directions that are started after those of the branch at `pc` are. -/
def andFrom (p : Program) (starts : Nat → Nat → Prop) (pc pc' x : Nat) : Prop :=
  starts pc' x ∨ pc' = pc ∧ x ∈ p.successors pc

theorem Unrolls.addUnrolled {starts : Nat → Nat → Prop} {c : SpecGraph} {pc : Nat}
    (h : Unrolls p window starts c d budget []) (hc : c.Indexed) (hwindow : 0 < window)
    (hpc : pc ∈ branches p) (hadd : d.addUnrolled p mode window pc = .ok d') :
    ∃ budget', Unrolls p window (andFrom p starts pc) c d' budget' [] := by
  obtain ⟨taken, htaken, hadd⟩ := bind_eq_ok_iff.1 hadd
  obtain ⟨d₁, h₁, h₂⟩ := bind_eq_ok_iff.1 hadd
  have hsucc := fun x => Program.mem_successors_of_branchTarget (x := x) htaken
  obtain ⟨cond, label, hinstr⟩ := Program.branchTarget_eq_ok htaken
  rw [Program.next?_of_lt (Program.lt_of_instr? hinstr)] at hsucc
  obtain ⟨budget₁, hu₁⟩ :=
    (h.start hpc (fun x hx => (hsucc x).2 (.inl hx)) _).unroll hc hwindow h₁
  obtain ⟨budget₂, hu₂⟩ :=
    (hu₁.start hpc (fun x hx => (hsucc x).2 (.inr hx)) _).unroll hc hwindow h₂
  refine ⟨budget₂, { hu₂ with leaves := fun pc' x hstart => hu₂.leaves pc' x ?_ }⟩
  rcases hstart with hstart | ⟨rfl, hx⟩
  · exact .inl (.inl hstart)
  · exact ((hsucc x).1 hx).imp (fun hx => .inr ⟨rfl, hx⟩) fun hx => ⟨rfl, hx⟩

theorem Unrolls.foldlM {starts : Nat → Nat → Prop} {c : SpecGraph} {pcs : List Nat}
    (h : Unrolls p window starts c d budget []) (hc : c.Indexed) (hwindow : 0 < window)
    (hpcs : ∀ pc ∈ pcs, pc ∈ branches p)
    (hfold : pcs.foldlM (fun d pc => d.addUnrolled p mode window pc) d = .ok d') :
    ∃ budget', Unrolls p window (fun pc x => starts pc x ∨ pc ∈ pcs ∧ x ∈ p.successors pc) c d'
      budget' [] := by
  induction pcs generalizing d starts budget with
  | nil =>
    cases hfold
    refine ⟨budget, { h with leaves := fun pc x hstart => h.leaves pc x ?_ }⟩
    exact hstart.resolve_right fun hnil => List.not_mem_nil hnil.1
  | cons pc pcs ih =>
    rw [List.foldlM_cons] at hfold
    obtain ⟨d₁, h₁, hfold⟩ := bind_eq_ok_iff.1 hfold
    obtain ⟨budget₁, hu₁⟩ := h.addUnrolled hc hwindow (hpcs pc List.mem_cons_self) h₁
    obtain ⟨budget', hu⟩ := ih hu₁ (fun pc' hpc' => hpcs pc' (List.mem_cons_of_mem _ hpc')) hfold
    refine ⟨budget', { hu with leaves := fun pc' x hstart => hu.leaves pc' x ?_ }⟩
    rcases hstart with hstart | ⟨hpc', hx⟩
    · exact .inl (.inl hstart)
    · rcases List.mem_cons.1 hpc' with rfl | hpc'
      · exact .inl (.inr ⟨rfl, hx⟩)
      · exact .inr ⟨hpc', hx⟩

end Draft

/-- The graph `g` is the unrolled layout of a program for a window, on its control flow `c`:
    mispredicted paths follow the control flow, and there are links for all that it allows within
    the budgets of nodes. -/
structure IsUnrolled (p : Program) (window : Nat) (budget : Nat → Nat → Nat) (c g : SpecGraph) :
    Prop where
  fits : p.Fits
  flow : c.FlowOf p
  stages : Stages p (Draft.UnrolledNode p) (Draft.PathEdge p) c g
  goesOn : ∀ context pc x b, g.hasNode (unrolledId context pc) = true → p.Passes pc x →
    budget context pc = b + 1 → 0 < b →
    ∃ context', g.Linked (unrolledId context pc) (unrolledId context' x) ∧ b ≤ budget context' x
  leaves : ∀ pc x, p.IsBranchAt pc → x ∈ p.successors pc →
    ∃ context, g.Linked (committedId pc) (unrolledId context x) ∧ window ≤ budget context x
  opens : g.OpensOnce

theorem exists_isUnrolled {source : String} {o : BuildOptions} {g : SpecGraph} {p : Program}
    (hsource : MuAsm.Addressable source) (hp : Program.parse source = .ok p)
    (ho : o.layout = .unrolled) (h : (buildSource source o).result = .ok g) :
    ∃ budget c, IsUnrolled p o.windowSize.toNat budget c g := by
  obtain ⟨d, hd, rfl⟩ := exists_draft_of_parse hp h
  obtain ⟨d₁, forks, hd₁, hstages⟩ := Draft.exists_stages hd
  have hadd : Draft.addSpeculation p o =
      fun d pc => d.addUnrolled p o.speculation o.windowSize.toNat pc := by
    funext d pc
    rw [Draft.addSpeculation, ho]
  unfold Draft.ofProgram at hd
  split at hd
  · cases hd
  · next hpos =>
    obtain ⟨d₀, hd₀, hd⟩ := bind_eq_ok_iff.1 hd
    rw [Except.ok.inj (hd₁.symm.trans hd₀)] at hstages
    rw [hadd] at hd
    have hnumbered := Program.numbered_of_parse hp
    have hindexed := (Draft.isFlow_committed hd₀).indexed
    -- committed control flow has no node of a mispredicted path
    have hnone : ∀ context pc, d₀.graph.hasNode (unrolledId context pc) = false := by
      intro context pc
      rw [Bool.eq_false_iff]
      intro hnode
      obtain ⟨i, hi⟩ := Option.isSome_iff_exists.1 hnode
      obtain ⟨n, hn, hid⟩ := (hindexed.named _ _).1 hi
      have hmem := hindexed.mem_nodes_iff.2 ⟨i, hn⟩
      rw [Draft.nodes_committed hd₀] at hmem
      obtain ⟨e, -, rfl⟩ := List.mem_map.1 hmem
      exact committedId_ne_unrolledId _ _ _ hid
    have hstart : Draft.Unrolls p o.windowSize.toNat (fun _ _ => False) d₀.graph d₀
        (fun _ _ => 0) [] :=
      ⟨.refl, fun context pc _ _ hnode => absurd hnode (by simp [hnone]),
        fun _ _ hfalse => hfalse.elim,
        fun _ _ _ _ _ hlinked => absurd (Draft.hasNode_of_linked hlinked) (by simp [hnone]),
        fun context pc _ => hnone context pc, fun _ hw => absurd hw List.not_mem_nil, .nil⟩
    obtain ⟨budget, hu⟩ := hstart.foldlM hindexed (by omega) (fun _ hpc => hpc) hd
    have hmet : ∀ {source x b}, Draft.Met d.graph budget [] source x b →
        ∃ context, d.graph.Linked source (unrolledId context x) ∧ b ≤ budget context x :=
      fun hmet => hmet.resolve_right fun hpending =>
        hpending.elim fun _ hw => List.not_mem_nil hw.1
    exact ⟨budget, d₀.graph, Program.fits_of_parse hp hsource, flowOf_committed hnumbered hd₀,
      ⟨⟨d₀, hd₀, rfl⟩, hu.grows, Draft.isCore_of_stages hd₀ hstages⟩,
      fun context pc x b hnode hpass hb hpos =>
        hmet (hu.goesOn context pc x b hnode hpass.2 hpass.1 hb hpos),
      fun pc x hpc hx => hmet (hu.leaves pc x (.inr ⟨(mem_branches_iff hnumbered).2 hpc, hx⟩)),
      hu.opens⟩

end SpecGraph

end Mispredict
