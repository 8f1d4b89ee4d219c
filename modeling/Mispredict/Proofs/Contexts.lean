/-
  The contexts of mispredicted paths.

  Unrolling follows pending paths by an instruction at a time. A path lays a node where it comes to
  an instruction for the first time in its context (`Lays`), and else it stops (`Stops`); a step
  does nothing else (`follow_cases`).

  From this follows what is kept while paths are unrolled (`Charts`). A context has been opened
  from a branch, and paths come into it from there, or from its own nodes that are no branches
  (`Opened`). Nodes are laid with less and less budget (`Spends`). They can all be reached
  from the branch that is speculated on, and under the stack guard none is left without a
  way out (`Returns`).
-/
import Mispredict.Proofs.Buildable

namespace Mispredict

open MuAsm (Instr Program Entry)

namespace SpecGraph

/-- The instruction at `pc` has a node in the context. -/
def Laid (g : SpecGraph) (context pc : Nat) : Prop := g.hasNode (unrolledId context pc) = true

namespace Draft

variable {p : Program} {mode : SpeculationMode} {d d' : Draft} {w : Pending}
  {ws rest stack : List Pending}

/-! ## One instruction -/

/-- The path goes on to the instruction at `x`. -/
def Pending.Goes (w : Pending) (x : Nat) : Prop := w.pc = some x ∧ 0 < w.budget

/-- How paths go on after the instruction at `pc`: barriers end them, and branches fork them. -/
inductive Onward.After (p : Program) (pc : Nat) : Onward → Prop where
  | ends (barrier : p.instr? pc = some .spbarr) : After p pc .ends
  | continues {x : Option Nat} (plain : ¬ p.IsBranchAt pc) : After p pc (.continues x)
  | forks {taken next : Option Nat} (branch : p.IsBranchAt pc) : After p pc (.forks taken next)

theorem after_of_onward {pc : Nat} {i : Instr} {on : Onward} (hi : p.instr? pc = some i)
    (h : onward p pc i = .ok on) : on.After p pc := by
  have plain : i.isBranch = false → ¬ p.IsBranchAt pc := by
    rintro hplain ⟨i', hi', hbranch⟩
    cases hi.symm.trans hi'
    rw [hplain] at hbranch
    cases hbranch
  unfold onward at h
  split at h
  · cases h
    exact .ends hi
  · obtain ⟨taken, -, h⟩ := bind_eq_ok_iff.1 h
    cases h
    exact .forks ⟨_, hi, rfl⟩
  · obtain ⟨target, -, h⟩ := bind_eq_ok_iff.1 h
    cases h
    exact .continues (plain rfl)
  · next hbeqz _ =>
    cases h
    refine .continues (plain ?_)
    cases i with
    | beqz cond label target => exact absurd rfl (hbeqz cond label target)
    | _ => rfl

/-- The path ends, or it comes to a node of its context. -/
structure Stops (p : Program) (mode : SpeculationMode) (d : Draft) (w : Pending) (d' : Draft) :
    Prop where
  grows : Grows (UnrolledNode p) (fun _ => True) d.graph d'.graph
  contexts : d'.contexts = d.contexts
  nodes : d'.graph.nodes = d.graph.nodes
  laid : ∀ context x, d'.graph.Laid context x ↔ d.graph.Laid context x
  linked : ∀ source context x, d'.graph.Linked source (unrolledId context x) ↔
    d.graph.Linked source (unrolledId context x) ∨
      source = w.source ∧ context = w.context ∧ w.Goes x
  returns : mode = .stackGuard → (∀ x, ¬ w.Goes x) → d.graph.HasKind w.source .speculative →
    ∀ x, p.within? w.resume = some x → d'.graph.Linked w.source (committedId x)

/-- The path lays a node at `pc`, from which `on` says how it goes on. -/
structure Lays (p : Program) (mode : SpeculationMode) (d : Draft) (w : Pending) (pc : Nat)
    (on : Onward) (d' : Draft) : Prop where
  goes : w.Goes pc
  new : ¬ d.graph.Laid w.context pc
  after : on.After p pc
  grows : Grows (UnrolledNode p) (fun _ => True) d.graph d'.graph
  contexts : d'.contexts = d.contexts + on.opened
  nodes : ∃ e, p.entry? pc = some e ∧ d'.graph.nodes = d.graph.nodes ++ [unrolledNode e pc w]
  laid : ∀ context x, d'.graph.Laid context x ↔
    d.graph.Laid context x ∨ context = w.context ∧ x = pc
  linked : ∀ source context x, d'.graph.Linked source (unrolledId context x) ↔
    d.graph.Linked source (unrolledId context x) ∨
      source = w.source ∧ context = w.context ∧ x = pc
  returns : mode = .stackGuard → on = .ends → ∀ x, p.within? w.resume = some x →
    d'.graph.Linked (unrolledId w.context pc) (committedId x)

theorem linked_endPath {source : String} {resume x : Nat} (hd : d.graph.Indexed)
    (hsource : d.graph.HasKind source .speculative) (hx : p.within? resume = some x)
    (h : d.endPath p .stackGuard source resume = .ok d') :
    d'.graph.Linked source (committedId x) := by
  obtain ⟨i, n, hn, hid, hkind⟩ := hsource
  have hspec : n.isSpeculative = true := by rw [Node.isSpeculative, hkind]; rfl
  rw [endPath, hd.find?_eq_some_iff.2 ⟨hn, hid⟩] at h
  dsimp only at h
  rw [if_pos hspec] at h
  exact linked_of_connectPc h hx

theorem linked_endPath_iff {source other : String} {resume context x : Nat} (hd : d.graph.Indexed)
    (h : d.endPath p mode source resume = .ok d') :
    d'.graph.Linked other (unrolledId context x) ↔ d.graph.Linked other (unrolledId context x) :=
  ⟨linked_of_endPath hd h, fun hlinked => hlinked.of_grows hd (adds_endPath_path h).graph⟩

theorem linked_connect_iff {source other : String} {context pc context' x : Nat}
    {label : Option String} (hd : d.graph.Indexed)
    (h : d.connect source (unrolledId context pc) .speculative label = .ok d') :
    d'.graph.Linked other (unrolledId context' x) ↔
      d.graph.Linked other (unrolledId context' x) ∨
        other = source ∧ context' = context ∧ x = pc := by
  constructor
  · intro hlinked
    exact (linked_of_connect_cases hd h hlinked).imp_right
      fun ⟨hs, hc, hx⟩ => ⟨hs.symm, hc.symm, hx.symm⟩
  · rintro (hlinked | ⟨rfl, rfl, rfl⟩)
    · have hadds : Adds (fun _ => True) (fun _ => True) d d' := adds_connect trivial h
      exact hlinked.of_grows hd hadds.graph
    · exact linked_of_connect h

theorem linked_addNode_iff {n : Node} {source target : String} (hd : d.graph.Indexed)
    (h : d.addNode n = .ok d') : d'.graph.Linked source target ↔ d.graph.Linked source target := by
  have hadds : Adds (fun _ => True) (fun _ => False) d d' := adds_addNode trivial h
  refine ⟨fun hlinked => ?_, fun hlinked => hlinked.of_grows hd hadds.graph⟩
  exact (hlinked.cases_of_grows hd hadds.graph).resolve_right fun ⟨_, hfalse⟩ => hfalse

theorem stops_of_endPath (hd : d.graph.Indexed) (hend : ∀ x, ¬ w.Goes x)
    (h : d.endPath p mode w.source w.resume = .ok d') : Stops p mode d w d' where
  grows := (adds_endPath_of (fun _ _ _ => trivial) h).graph
  contexts := (adds_endPath_path h).contexts
  nodes := (adds_endPath_of (E := fun _ => True) (fun _ _ _ => trivial) h).graph.nodes_eq_self hd
  laid context x := by rw [Laid, hasNode_endPath h, Laid]
  linked source context x := by
    rw [linked_endPath_iff hd h]
    exact (or_iff_left fun ⟨_, _, hgoes⟩ => hend x hgoes).symm
  returns hmode _ hkind x hx := linked_endPath hd hkind hx (hmode ▸ h)

theorem stops_of_connect {x : Nat} (hd : d.graph.Indexed) (hgoes : w.Goes x)
    (h : d.connect w.source (unrolledId w.context x) .speculative none = .ok d') :
    Stops p mode d w d' where
  grows := (adds_connect trivial h).graph
  contexts := (adds_connect (N := fun _ => True) (E := fun _ => True) trivial h).contexts
  nodes := (adds_connect (E := fun _ => True) trivial h).graph.nodes_eq_self hd
  laid context y := by rw [Laid, hasNode_connect h, Laid]
  linked source context y := by
    have hy : w.Goes y ↔ y = x :=
      ⟨fun hy => Option.some.inj (hy.1.symm.trans hgoes.1), fun hy => hy ▸ hgoes⟩
    rw [linked_connect_iff hd h, hy]
  returns _ hend := absurd hgoes (hend x)

/-- A path that comes to an instruction for the first time in its context lays a node there. After
    that only the end of the path may be added. -/
theorem lays_of_addNode {d₁ d₂ : Draft} {pc : Nat} {e : Entry} {on : Onward}
    (hd : d.graph.Indexed) (hgoes : w.Goes pc) (hnew : ¬ d.graph.Laid w.context pc)
    (he : p.entry? pc = some e) (h₁ : d.addNode (unrolledNode e pc w) = .ok d₁)
    (h₂ : d₁.connect w.source (unrolledId w.context pc) .speculative none = .ok d₂)
    (hon : onward p pc e.instr = .ok on)
    (hgrows : Grows (fun _ => False) (fun _ => True) d₂.graph d'.graph)
    (hsame : ∀ id, d'.graph.hasNode id = d₂.graph.hasNode id)
    (hlinks : ∀ source context x, d'.graph.Linked source (unrolledId context x) ↔
      d₂.graph.Linked source (unrolledId context x))
    (hcontexts : d'.contexts = d₂.contexts + on.opened)
    (hreturns : d₂.graph.HasKind (unrolledId w.context pc) .speculative →
      mode = .stackGuard → on = .ends → ∀ x, p.within? w.resume = some x →
        d'.graph.Linked (unrolledId w.context pc) (committedId x)) :
    Lays p mode d w pc on d' := by
  have hinstr : p.instr? pc = some e.instr := Program.instr?_eq_some he
  have hadds₁ : Adds (UnrolledNode p) (fun _ => True) d d₁ := adds_addNode ⟨pc, e, w, he, rfl⟩ h₁
  have hadds₂ : Adds (UnrolledNode p) (fun _ => True) d₁ d₂ := adds_connect trivial h₂
  have hadds := hadds₁.trans hadds₂
  have hd₁ := hadds₁.graph.indexed hd
  have hkind : d₁.graph.HasKind (unrolledId w.context pc) .speculative := hasKind_addNode h₁
  refine ⟨hgoes, hnew, after_of_onward hinstr hon,
    hadds.graph.trans (hgrows.mono (fun _ h => h.elim) fun _ h => h), ?_, ⟨e, he, ?_⟩, ?_, ?_,
    hreturns (hkind.of_grows hd₁ hadds₂.graph)⟩
  · rw [hcontexts, hadds.contexts]
  · have hnodes₂ : d₂.graph.nodes = d₁.graph.nodes :=
      (adds_connect (E := fun _ => True) trivial h₂).graph.nodes_eq_self hd₁
    obtain ⟨g, hg, h₁⟩ := bind_eq_ok_iff.1 h₁
    cases h₁
    rw [hgrows.nodes_eq_self (hadds.graph.indexed hd), hnodes₂, hd.nodes_insertNode hg]
  · intro context x
    rw [Laid, hsame, hasNode_connect h₂, hasNode_addNode h₁, Bool.or_eq_true, decide_eq_true_iff,
      or_comm]
    exact or_congr_right unrolledId_inj
  · intro source context x
    rw [hlinks, linked_connect_iff hd₁ h₂, linked_addNode_iff hd h₁]

/-- A path that is followed by an instruction stops, or lays a node. -/
theorem follow_cases (hd : d.graph.Indexed) (h : follow p mode d w = .ok (ws, d')) :
    (ws = [] ∧ Stops p mode d w d') ∨ ∃ pc on,
      ws = branchOff w pc (w.budget - 1) d.contexts on ∧ Lays p mode d w pc on d' := by
  unfold follow at h
  split at h
  · next pc b hpc hb =>
    have hgoes : w.Goes pc := ⟨hpc, by omega⟩
    have hleft : w.budget - 1 = b := by omega
    dsimp only at h
    split at h
    · obtain ⟨d₁, h₁, h⟩ := bind_eq_ok_iff.1 h
      cases h
      exact .inl ⟨rfl, stops_of_connect hd hgoes h₁⟩
    · next hnew =>
      split at h
      · cases h
      · next e he =>
        obtain ⟨d₁, h₁, h⟩ := bind_eq_ok_iff.1 h
        obtain ⟨d₂, h₂, h⟩ := bind_eq_ok_iff.1 h
        obtain ⟨on, hon, h⟩ := bind_eq_ok_iff.1 h
        have hadds : Adds (UnrolledNode p) (fun _ => True) d d₂ :=
          (adds_addNode ⟨pc, e, w, he, rfl⟩ h₁).trans (adds_connect trivial h₂)
        right
        split at h
        · obtain ⟨d₃, h₃, h⟩ := bind_eq_ok_iff.1 h
          cases h
          have hd₂ := hadds.graph.indexed hd
          exact ⟨pc, .ends, rfl, lays_of_addNode hd hgoes hnew he h₁ h₂ hon
            (adds_endPath_of (fun _ _ _ => trivial) h₃).graph (hasNode_endPath h₃)
            (fun _ _ _ => linked_endPath_iff hd₂ h₃) (adds_endPath_path h₃).contexts
            fun hkind hmode _ x hx => linked_endPath hd₂ hkind hx (hmode ▸ h₃)⟩
        · next hne =>
          cases h
          exact ⟨pc, on, by rw [hadds.contexts, hleft], lays_of_addNode hd hgoes hnew he h₁ h₂ hon
            .refl (fun _ => rfl) (fun _ _ _ => Iff.rfl) rfl fun _ _ heq => absurd heq hne⟩
  · next hnot =>
    obtain ⟨d₁, h₁, h⟩ := bind_eq_ok_iff.1 h
    cases h
    refine .inl ⟨rfl, stops_of_endPath hd ?_ h₁⟩
    rintro x ⟨hpc, hpos⟩
    exact hnot x (w.budget - 1) hpc (by omega)

/-- The path `w'` goes on from the node that `w` has laid at `pc`: in the same context, or after a
    branch in one of the new ones. -/
structure Pending.Off (p : Program) (w : Pending) (pc contexts : Nat) (on : Onward) (w' : Pending) :
    Prop where
  source : w'.source = unrolledId w.context pc
  budget : w'.budget = w.budget - 1
  resume : w'.resume = w.resume
  context : (w'.context = w.context ∧ ¬ p.IsBranchAt pc) ∨
    contexts ≤ w'.context ∧ w'.context < contexts + on.opened

theorem off_of_mem {pc contexts : Nat} {on : Onward} {w' : Pending} (hafter : on.After p pc)
    (h : w' ∈ branchOff w pc (w.budget - 1) contexts on) : w.Off p pc contexts on w' := by
  cases hafter with
  | ends => exact absurd h List.not_mem_nil
  | continues plain =>
    rw [List.mem_singleton.1 h]
    exact ⟨rfl, rfl, rfl, .inl ⟨rfl, plain⟩⟩
  | forks =>
    rcases List.mem_pair.1 h with rfl | rfl
    · exact ⟨rfl, rfl, rfl, .inr ⟨Nat.le_succ _, Nat.lt_succ_self _⟩⟩
    · exact ⟨rfl, rfl, rfl, .inr ⟨le_rfl, Nat.lt_add_of_pos_right Nat.two_pos⟩⟩

theorem exists_mem_branchOff {on : Onward} (hon : on ≠ .ends) (w : Pending) (pc b contexts : Nat) :
    ∃ w' ∈ branchOff w pc b contexts on, w'.source = unrolledId w.context pc := by
  cases on with
  | ends => exact absurd rfl hon
  | continues pc' => exact ⟨_, List.mem_cons_self, rfl⟩
  | forks taken next => exact ⟨_, List.mem_cons_self, rfl⟩

theorem Onward.After.isBranchAt {pc : Nat} {on : Onward} (h : on.After p pc) (hon : 0 < on.opened) :
    p.IsBranchAt pc := by
  cases h with
  | ends | continues => exact absurd hon (lt_irrefl 0)
  | forks branch => exact branch

/-! ## Where contexts are opened -/

/-- Where a context is opened: from a node, and while which fork is speculated on. -/
structure Opening where
  source : String
  fork : Fork

/-- Contexts are opened from branches: from those of committed execution, and from nodes of earlier
    contexts. They are numbered in the order of `openings`. -/
inductive Opening.From (p : Program) (g : SpecGraph) (openings : List Opening) (context : Nat) :
    Opening → Prop where
  | committed {f : Fork} : From p g openings context ⟨committedId f.branch, f⟩
  | path {outer q : Nat} {o : Opening} (earlier : outer < context)
      (opened : openings[outer]? = some o) (laid : g.Laid outer q) (branch : p.IsBranchAt q) :
      From p g openings context ⟨unrolledId outer q, o.fork⟩

/-- Paths come into the context from a node: from one of its own that is no branch, or from where it
    has been opened. -/
inductive Enters (p : Program) (g : SpecGraph) (openings : List Opening) :
    (source : String) → (context : Nat) → Prop where
  | within {context q : Nat} (laid : g.Laid context q) (plain : ¬ p.IsBranchAt q) :
      Enters p g openings (unrolledId context q) context
  | opens {context : Nat} {o : Opening} (opened : openings[context]? = some o) :
      Enters p g openings o.source context

/-- The openings, and `n` more that are alike. -/
def further (openings : List Opening) (o : Opening) (n : Nat) : List Opening :=
  openings ++ List.replicate n o

section Openings

variable {openings openings' : List Opening} {o new : Opening} {context pc n : Nat} {on : Onward}

theorem prefix_further : openings <+: further openings new n := List.prefix_append _ _

theorem length_further : (further openings new n).length = openings.length + n := by
  rw [further, List.length_append, List.length_replicate]

theorem getElem?_mono (h : openings <+: openings') (ho : openings[context]? = some o) :
    openings'[context]? = some o := by
  obtain ⟨more, rfl⟩ := h
  rw [List.getElem?_append_left (List.getElem?_eq_some_iff.1 ho).1, ho]

theorem getElem?_further_of_lt (h : context < openings.length) :
    (further openings new n)[context]? = openings[context]? := List.getElem?_append_left h

theorem getElem?_further_of_ge (h : openings.length ≤ context)
    (h' : context < openings.length + n) :
    (further openings new n)[context]? = some new := by
  rw [further, List.getElem?_append_right h, List.getElem?_replicate, if_pos (by omega)]

theorem getElem?_further_self (h : openings.length = context) :
    (further openings new 1)[context]? = some new :=
  getElem?_further_of_ge h.le (h ▸ Nat.lt_succ_self _)

theorem getElem?_further_cases (h : (further openings new n)[context]? = some o) :
    openings[context]? = some o ∨
      openings.length ≤ context ∧ context < openings.length + n ∧ o = new := by
  have hlt := (List.getElem?_eq_some_iff.1 h).1
  rw [length_further] at hlt
  rcases Nat.lt_or_ge context openings.length with hold | hge
  · rw [getElem?_further_of_lt hold] at h
    exact .inl h
  · rw [getElem?_further_of_ge hge hlt] at h
    exact .inr ⟨hge, hlt, (Option.some.inj h).symm⟩

theorem mem_further_cases (h : o ∈ further openings new n) : o ∈ openings ∨ o = new :=
  (List.mem_append.1 h).imp_right List.eq_of_mem_replicate

theorem Enters.mono {g g' : SpecGraph} {source : String} (h : Enters p g openings source context)
    (hlaid : ∀ context x, g.Laid context x → g'.Laid context x) (hopen : openings <+: openings') :
    Enters p g' openings' source context := by
  cases h with
  | within laid plain => exact .within (hlaid _ _ laid) plain
  | opens opened => exact .opens (getElem?_mono hopen opened)

theorem Opening.From.mono {g g' : SpecGraph} (h : o.From p g openings context)
    (hlaid : ∀ context x, g.Laid context x → g'.Laid context x) (hopen : openings <+: openings') :
    o.From p g' openings' context := by
  cases h with
  | committed => exact .committed
  | path earlier opened laid branch =>
    exact .path earlier (getElem?_mono hopen opened) (hlaid _ _ laid) branch

/-- All contexts have been opened, and paths come into them in the right places. -/
structure Opened (p : Program) (openings : List Opening) (d : Draft) (stack : List Pending) :
    Prop where
  length : openings.length = d.contexts
  laid : ∀ context x, d.graph.Laid context x → context < d.contexts
  fork : ∀ o ∈ openings, o.fork.Of p
  opening : ∀ (context : Nat) o, openings[context]? = some o → o.From p d.graph openings context
  link : ∀ source context x, d.graph.Linked source (unrolledId context x) →
    Enters p d.graph openings source context
  pending : ∀ w ∈ stack, w.context < d.contexts ∧ Enters p d.graph openings w.source w.context

theorem Opened.exists_opening (h : Opened p openings d stack) (hcontext : context < d.contexts) :
    ∃ o, openings[context]? = some o :=
  ⟨_, List.getElem?_eq_getElem (h.length ▸ hcontext)⟩

/-- A node from which a context was opened is a branch of an earlier context. -/
theorem Opened.outer {outer q : Nat} (h : Opened p openings d stack)
    (ho : openings[context]? = some o) (hsource : o.source = unrolledId outer q) :
    outer < context ∧ d.graph.Laid outer q ∧ p.IsBranchAt q ∧
      ∃ o', openings[outer]? = some o' ∧ o'.fork = o.fork := by
  cases h.opening context o ho with
  | committed => exact absurd hsource (committedId_ne_unrolledId _ _ _)
  | path earlier opened laid branch =>
    obtain ⟨rfl, rfl⟩ := unrolledId_inj.1 hsource
    exact ⟨earlier, laid, branch, _, opened, rfl⟩

/-- Paths stay with the fork that is speculated on. -/
theorem Opened.exists_of_enters {source : String} (h : Opened p openings d stack)
    (henters : Enters p d.graph openings source context) (ho : openings[context]? = some o) :
    source = committedId o.fork.branch ∨ ∃ outer q o', source = unrolledId outer q ∧
      d.graph.Laid outer q ∧ openings[outer]? = some o' ∧ o'.fork = o.fork := by
  cases henters with
  | within laid plain => exact .inr ⟨_, _, o, rfl, laid, ho, rfl⟩
  | opens opened =>
    cases ho.symm.trans opened
    cases h.opening context _ opened with
    | committed => exact .inl rfl
    | path earlier outer laid branch => exact .inr ⟨_, _, _, rfl, laid, outer, rfl⟩

theorem Opened.stop (h : Opened p openings d (w :: rest)) (hs : Stops p mode d w d') :
    Opened p openings d' rest := by
  have hlaid : ∀ context x, d.graph.Laid context x → d'.graph.Laid context x :=
    fun context x => (hs.laid context x).2
  refine ⟨h.length.trans hs.contexts.symm, fun context x hx => ?_, h.fork,
    fun context o ho => (h.opening context o ho).mono hlaid List.prefix_rfl,
    fun source context x hlinked => ?_, fun w' hw' => ?_⟩
  · exact hs.contexts ▸ h.laid context x ((hs.laid context x).1 hx)
  · rcases (hs.linked source context x).1 hlinked with hlinked | ⟨rfl, rfl, -⟩
    · exact (h.link source context x hlinked).mono hlaid List.prefix_rfl
    · exact (h.pending w List.mem_cons_self).2.mono hlaid List.prefix_rfl
  · obtain ⟨hcontext, henters⟩ := h.pending w' (List.mem_cons_of_mem _ hw')
    exact ⟨hs.contexts ▸ hcontext, henters.mono hlaid List.prefix_rfl⟩

theorem Opened.lay (h : Opened p openings d (w :: rest)) (hl : Lays p mode d w pc on d')
    (ho : openings[w.context]? = some o) :
    Opened p (further openings ⟨unrolledId w.context pc, o.fork⟩ on.opened) d'
      (branchOff w pc (w.budget - 1) d.contexts on ++ rest) := by
  obtain ⟨hcontext, henters⟩ := h.pending w List.mem_cons_self
  have hlaid : ∀ context x, d.graph.Laid context x → d'.graph.Laid context x :=
    fun context x hx => (hl.laid context x).2 (.inl hx)
  have hnew : d'.graph.Laid w.context pc := (hl.laid _ _).2 (.inr ⟨rfl, rfl⟩)
  refine ⟨?_, fun context x hx => ?_, fun o' ho' => ?_, fun context o' ho' => ?_,
    fun source context x hlinked => ?_, fun w' hw' => ?_⟩
  · rw [length_further, h.length, hl.contexts]
  · rw [hl.contexts]
    rcases (hl.laid context x).1 hx with hx | ⟨rfl, -⟩
    · exact Nat.lt_add_right _ (h.laid context x hx)
    · exact Nat.lt_add_right _ hcontext
  · rcases mem_further_cases ho' with ho' | rfl
    · exact h.fork o' ho'
    · exact h.fork o (List.mem_of_getElem? ho)
  · rcases getElem?_further_cases ho' with ho' | ⟨hge, hlt, rfl⟩
    · exact (h.opening context o' ho').mono hlaid prefix_further
    · exact .path (hcontext.trans_le (h.length ▸ hge)) (getElem?_mono prefix_further ho) hnew
        (hl.after.isBranchAt (by omega))
  · rcases (hl.linked source context x).1 hlinked with hlinked | ⟨rfl, rfl, -⟩
    · exact (h.link source context x hlinked).mono hlaid prefix_further
    · exact henters.mono hlaid prefix_further
  · rw [hl.contexts]
    rcases List.mem_append.1 hw' with hw' | hw'
    · have hoff := off_of_mem hl.after hw'
      rw [hoff.source]
      rcases hoff.context with ⟨hsame, hplain⟩ | ⟨hge, hlt⟩
      · rw [hsame]
        exact ⟨Nat.lt_add_right _ hcontext, .within hnew hplain⟩
      · refine ⟨hlt, .opens (o := ⟨unrolledId w.context pc, o.fork⟩) ?_⟩
        exact getElem?_further_of_ge (h.length ▸ hge) (h.length ▸ hlt)
    · obtain ⟨hcontext', henters'⟩ := h.pending w' (List.mem_cons_of_mem _ hw')
      exact ⟨Nat.lt_add_right _ hcontext', henters'.mono hlaid prefix_further⟩

/-! ## Budgets -/

/-- The path has less budget than the nodes of its context had, none of which is a branch, and than
    the node from which the context was opened. -/
structure Pending.Affords (p : Program) (window : Nat) (openings : List Opening)
    (budget : Nat → Nat → Nat) (g : SpecGraph) (w : Pending) : Prop where
  window : w.budget ≤ window
  room : ∀ x, g.Laid w.context x → w.budget < budget w.context x ∧ ¬ p.IsBranchAt x
  inner : ∀ o outer q, openings[w.context]? = some o → o.source = unrolledId outer q →
    w.budget < budget outer q

/-- The nodes of a context have been laid with different budgets. Paths do not go on from a branch
    in its context, so that it has been laid with the least one. The contexts that are opened from
    there have less. -/
structure Spends (p : Program) (window : Nat) (openings : List Opening) (budget : Nat → Nat → Nat)
    (d : Draft) (stack : List Pending) : Prop where
  range : ∀ context x, d.graph.Laid context x → 0 < budget context x ∧ budget context x ≤ window
  once : ∀ context x y, d.graph.Laid context x → d.graph.Laid context y →
    budget context x = budget context y → x = y
  last : ∀ context q x, d.graph.Laid context q → p.IsBranchAt q → d.graph.Laid context x →
    budget context q ≤ budget context x
  inner : ∀ (context : Nat) x o outer q, d.graph.Laid context x → openings[context]? = some o →
    o.source = unrolledId outer q → budget context x < budget outer q
  pending : ∀ w ∈ stack, w.Affords p window openings budget d.graph
  apart : stack.Pairwise fun w w' => w.context ≠ w'.context

variable {window : Nat} {budget : Nat → Nat → Nat}

theorem Spends.stop (h : Spends p window openings budget d (w :: rest))
    (hs : Stops p mode d w d') : Spends p window openings budget d' rest where
  range context x hx := h.range context x ((hs.laid _ _).1 hx)
  once context x y hx hy := h.once context x y ((hs.laid _ _).1 hx) ((hs.laid _ _).1 hy)
  last context q x hq hbranch hx :=
    h.last context q x ((hs.laid _ _).1 hq) hbranch ((hs.laid _ _).1 hx)
  inner context x o outer q hx := h.inner context x o outer q ((hs.laid _ _).1 hx)
  pending w' hw' := by
    obtain ⟨hwindow, hroom, hinner⟩ := h.pending w' (List.mem_cons_of_mem _ hw')
    exact ⟨hwindow, fun x hx => hroom x ((hs.laid _ _).1 hx), hinner⟩
  apart := (List.pairwise_cons.1 h.apart).2

/-- Nodes that were laid before keep their budgets. -/
theorem Lays.lay_eq {x : Nat} (hl : Lays p mode d w pc on d') (hx : d.graph.Laid context x) :
    lay budget w.context pc w.budget context x = budget context x := by
  refine lay_of_ne ?_
  rintro ⟨rfl, rfl⟩
  exact hl.new hx

/-- So does the node from which a context was opened before. -/
theorem Lays.lay_outer_eq {f : Fork} {outer q : Nat} (hl : Lays p mode d w pc on d')
    (budget : Nat → Nat → Nat)
    (hopened : Opened p openings d (w :: rest)) (hcontext : context < d.contexts)
    (ho : (further openings ⟨unrolledId w.context pc, f⟩ on.opened)[context]? = some o)
    (hsource : o.source = unrolledId outer q) :
    openings[context]? = some o ∧ lay budget w.context pc w.budget outer q = budget outer q := by
  rw [getElem?_further_of_lt (hopened.length ▸ hcontext)] at ho
  exact ⟨ho, hl.lay_eq (hopened.outer ho hsource).2.1⟩

/-- A path that is pending in another context is not affected. -/
theorem Pending.Affords.lay {w' : Pending} (h : w'.Affords p window openings budget d.graph)
    (hopened : Opened p openings d (w :: rest)) (hl : Lays p mode d w pc on d')
    (hcontext : w'.context < d.contexts) (hapart : w.context ≠ w'.context) (f : Fork) :
    w'.Affords p window (further openings ⟨unrolledId w.context pc, f⟩ on.opened)
      (Draft.lay budget w.context pc w.budget) d'.graph := by
  refine ⟨h.window, fun x hx => ?_, fun o outer q ho hsource => ?_⟩
  · rcases (hl.laid w'.context x).1 hx with hx | ⟨heq, -⟩
    · rw [hl.lay_eq hx]
      exact h.room x hx
    · exact absurd heq.symm hapart
  · obtain ⟨ho, hbudget⟩ := hl.lay_outer_eq budget hopened hcontext ho hsource
    rw [hbudget]
    exact h.inner o outer q ho hsource

/-- A path that goes on has less budget. -/
theorem Pending.Affords.off {w' : Pending} (h : w.Affords p window openings budget d.graph)
    (hopened : Opened p openings d (w :: rest)) (hl : Lays p mode d w pc on d')
    (hoff : w.Off p pc d.contexts on w') (f : Fork) :
    w'.Affords p window (further openings ⟨unrolledId w.context pc, f⟩ on.opened)
      (Draft.lay budget w.context pc w.budget) d'.graph := by
  have hcontext := (hopened.pending w List.mem_cons_self).1
  have hself := lay_self budget w.context pc w.budget
  have hless : w'.budget < w.budget := hoff.budget ▸ Nat.sub_lt hl.goes.2 Nat.one_pos
  have hwindow := hless.le.trans h.window
  rcases hoff.context with ⟨hsame, hplain⟩ | ⟨hge, -⟩
  · refine ⟨hwindow, fun x hx => ?_, fun o outer q ho hsource => ?_⟩
    · rw [hsame] at hx ⊢
      rcases (hl.laid w.context x).1 hx with hx | ⟨-, rfl⟩
      · rw [hl.lay_eq hx]
        exact ⟨hless.trans (h.room x hx).1, (h.room x hx).2⟩
      · rw [hself]
        exact ⟨hless, hplain⟩
    · rw [hsame] at ho
      obtain ⟨ho, hbudget⟩ := hl.lay_outer_eq budget hopened hcontext ho hsource
      rw [hbudget]
      exact hless.trans (h.inner o outer q ho hsource)
  · refine ⟨hwindow, fun x hx => ?_, fun o outer q ho hsource => ?_⟩
    · -- a new context has no nodes yet
      rcases (hl.laid w'.context x).1 hx with hx | ⟨heq, -⟩
      · exact absurd (hopened.laid _ x hx) (not_lt.2 hge)
      · exact absurd hcontext (not_lt.2 (heq ▸ hge))
    · rcases getElem?_further_cases ho with ho | ⟨-, -, rfl⟩
      · have hlt := (List.getElem?_eq_some_iff.1 ho).1
        exact absurd hlt (not_lt.2 (hopened.length ▸ hge))
      · obtain ⟨rfl, rfl⟩ := unrolledId_inj.1 hsource
        rw [hself]
        exact hless

theorem Spends.lay (h : Spends p window openings budget d (w :: rest))
    (hopened : Opened p openings d (w :: rest)) (hl : Lays p mode d w pc on d') (f : Fork) :
    Spends p window (further openings ⟨unrolledId w.context pc, f⟩ on.opened)
      (Draft.lay budget w.context pc w.budget) d'
      (branchOff w pc (w.budget - 1) d.contexts on ++ rest) := by
  have haffords := h.pending w List.mem_cons_self
  have hcontext := (hopened.pending w List.mem_cons_self).1
  have hself := lay_self budget w.context pc w.budget
  refine ⟨fun context x hx => ?_, fun context x y hx hy heq => ?_,
    fun context q x hq hbranch hx => ?_, fun context x o outer q hx ho hsource => ?_,
    fun w' hw' => ?_, ?_⟩
  · rcases (hl.laid context x).1 hx with hx | ⟨rfl, rfl⟩
    · rw [hl.lay_eq hx]
      exact h.range context x hx
    · rw [hself]
      exact ⟨hl.goes.2, haffords.window⟩
  · rcases (hl.laid context x).1 hx with hx | ⟨rfl, rfl⟩
    · rcases (hl.laid context y).1 hy with hy | ⟨rfl, rfl⟩
      · rw [hl.lay_eq hx, hl.lay_eq hy] at heq
        exact h.once context x y hx hy heq
      · rw [hl.lay_eq hx, hself] at heq
        exact absurd heq (haffords.room x hx).1.ne'
    · rcases (hl.laid w.context y).1 hy with hy | ⟨-, rfl⟩
      · rw [hl.lay_eq hy, hself] at heq
        exact absurd heq (haffords.room y hy).1.ne
      · rfl
  · rcases (hl.laid context q).1 hq with hq | ⟨rfl, rfl⟩
    · rcases (hl.laid context x).1 hx with hx | ⟨rfl, rfl⟩
      · rw [hl.lay_eq hq, hl.lay_eq hx]
        exact h.last context q x hq hbranch hx
      · exact absurd hbranch (haffords.room q hq).2
    · rcases (hl.laid w.context x).1 hx with hx | ⟨-, rfl⟩
      · rw [hl.lay_eq hx, hself]
        exact (haffords.room x hx).1.le
      · exact le_rfl
  · rcases (hl.laid context x).1 hx with hx | ⟨rfl, rfl⟩
    · obtain ⟨ho, hbudget⟩ :=
        hl.lay_outer_eq budget hopened (hopened.laid context x hx) ho hsource
      rw [hl.lay_eq hx, hbudget]
      exact h.inner context x o outer q hx ho hsource
    · obtain ⟨ho, hbudget⟩ := hl.lay_outer_eq budget hopened hcontext ho hsource
      rw [hself, hbudget]
      exact haffords.inner o outer q ho hsource
  · rcases List.mem_append.1 hw' with hw' | hw'
    · exact haffords.off hopened hl (off_of_mem hl.after hw') f
    · have hmem := List.mem_cons_of_mem w hw'
      exact (h.pending w' hmem).lay hopened hl (hopened.pending w' hmem).1
        ((List.pairwise_cons.1 h.apart).1 w' hw') f
  · exact pairwise_branchOff (fun w' hw' => (hopened.pending w' hw').1) h.apart pc _ on

/-! ## Ways out -/

/-- One can come from one node to the other by links into nodes of mispredicted paths. -/
def Trails (g : SpecGraph) : String → String → Prop :=
  Relation.ReflTransGen fun source target =>
    g.Linked source target ∧ ∃ context x, target = unrolledId context x

theorem Trails.of_grows {N : Node → Prop} {E : Edge → Prop} {g g' : SpecGraph}
    {source target : String} (h : Trails g source target) (hg : g.Indexed)
    (hgrows : Grows N E g g') : Trails g' source target :=
  Relation.ReflTransGen.mono (fun _ _ hstep => ⟨hstep.1.of_grows hg hgrows, hstep.2⟩) _ _ h

/-- Every node can be reached from the branch that is speculated on. Under the stack guard every
    node has a link, or it will get one, if there is a place where execution can resume. -/
structure Returns (p : Program) (mode : SpeculationMode) (openings : List Opening) (d : Draft)
    (stack : List Pending) : Prop where
  reached : ∀ (context : Nat) x o, d.graph.Laid context x → openings[context]? = some o →
    Trails d.graph (committedId o.fork.branch) (unrolledId context x)
  ends : mode = .stackGuard → ∀ (context : Nat) x o y, d.graph.Laid context x →
    openings[context]? = some o → p.within? o.fork.resume = some y →
    (∃ target, d.graph.Linked (unrolledId context x) target) ∨
      ∃ w ∈ stack, w.source = unrolledId context x
  resume : ∀ w ∈ stack, ∀ o, openings[w.context]? = some o → w.resume = o.fork.resume

theorem Returns.stop (h : Returns p mode openings d (w :: rest))
    (hopened : Opened p openings d (w :: rest)) (hd : d.graph.Indexed)
    (hkind : ∀ context x, d.graph.Laid context x →
      d.graph.HasKind (unrolledId context x) .speculative)
    (hs : Stops p mode d w d') : Returns p mode openings d' rest where
  reached context x o hx ho :=
    (h.reached context x o ((hs.laid _ _).1 hx) ho).of_grows hd hs.grows
  ends hmode context x o y hx ho hy := by
    have hx := (hs.laid _ _).1 hx
    rcases h.ends hmode context x o y hx ho hy with ⟨target, hlinked⟩ | ⟨w', hw', hsource⟩
    · exact .inl ⟨target, hlinked.of_grows hd hs.grows⟩
    · rcases List.mem_cons.1 hw' with rfl | hw'
      · left
        by_cases hgoes : ∃ x', w'.Goes x'
        · obtain ⟨x', hgoes⟩ := hgoes
          exact ⟨_, hsource ▸ (hs.linked w'.source w'.context x').2 (.inr ⟨rfl, rfl, hgoes⟩)⟩
        · -- the path ends here, and execution resumes where its fork says
          obtain ⟨hcontext, henters⟩ := hopened.pending w' List.mem_cons_self
          obtain ⟨o', ho'⟩ := hopened.exists_opening hcontext
          have hresume := h.resume w' List.mem_cons_self o' ho'
          rcases hopened.exists_of_enters henters ho' with hid | ⟨outer, q, o₁, hid, -, ho₁, hfork⟩
          · exact absurd (hid.symm.trans hsource) (committedId_ne_unrolledId _ _ _)
          · obtain ⟨rfl, rfl⟩ := unrolledId_inj.1 (hid.symm.trans hsource)
            cases ho.symm.trans ho₁
            rw [hfork, ← hresume] at hy
            exact ⟨_, hsource ▸ hs.returns hmode (fun x' hx' => hgoes ⟨x', hx'⟩)
              (hsource ▸ hkind outer q hx) y hy⟩
      · exact .inr ⟨w', hw', hsource⟩
  resume w' hw' := h.resume w' (List.mem_cons_of_mem _ hw')

theorem Returns.lay (h : Returns p mode openings d (w :: rest))
    (hopened : Opened p openings d (w :: rest)) (hd : d.graph.Indexed)
    (hl : Lays p mode d w pc on d') (ho : openings[w.context]? = some o) :
    Returns p mode (further openings ⟨unrolledId w.context pc, o.fork⟩ on.opened) d'
      (branchOff w pc (w.budget - 1) d.contexts on ++ rest) := by
  obtain ⟨hcontext, henters⟩ := hopened.pending w List.mem_cons_self
  have hlink : d'.graph.Linked w.source (unrolledId w.context pc) :=
    (hl.linked _ _ _).2 (.inr ⟨rfl, rfl, rfl⟩)
  have hsame : ∀ {context}, context < d.contexts →
      (further openings ⟨unrolledId w.context pc, o.fork⟩ on.opened)[context]? =
        openings[context]? :=
    fun hlt => getElem?_further_of_lt (hopened.length ▸ hlt)
  refine ⟨fun context x o' hx ho' => ?_, fun hmode context x o' y hx ho' hy => ?_,
    fun w' hw' o' ho' => ?_⟩
  · rcases (hl.laid context x).1 hx with hx | ⟨rfl, rfl⟩
    · rw [hsame (hopened.laid context x hx)] at ho'
      exact (h.reached context x o' hx ho').of_grows hd hl.grows
    · rw [hsame hcontext] at ho'
      cases ho.symm.trans ho'
      have htrails : Trails d.graph (committedId o.fork.branch) w.source := by
        rcases hopened.exists_of_enters henters ho with hid | ⟨outer, q, o₁, hid, hq, ho₁, hfork⟩
        · exact hid ▸ .refl
        · rw [hid, ← hfork]
          exact h.reached outer q o₁ hq ho₁
      exact (htrails.of_grows hd hl.grows).tail ⟨hlink, _, _, rfl⟩
  · rcases (hl.laid context x).1 hx with hx | ⟨rfl, rfl⟩
    · rw [hsame (hopened.laid context x hx)] at ho'
      rcases h.ends hmode context x o' y hx ho' hy with ⟨target, hlinked⟩ | ⟨w', hw', hsource⟩
      · exact .inl ⟨target, hlinked.of_grows hd hl.grows⟩
      · rcases List.mem_cons.1 hw' with rfl | hw'
        · exact .inl ⟨_, hsource ▸ hlink⟩
        · exact .inr ⟨w', List.mem_append_right _ hw', hsource⟩
    · rw [hsame hcontext] at ho'
      cases ho.symm.trans ho'
      by_cases hon : on = .ends
      · rw [← h.resume w List.mem_cons_self o ho] at hy
        exact .inl ⟨_, hl.returns hmode hon y hy⟩
      · obtain ⟨w', hw', hsource⟩ := exists_mem_branchOff hon w x (w.budget - 1) d.contexts
        exact .inr ⟨w', List.mem_append_left _ hw', hsource⟩
  · have hresume := h.resume w List.mem_cons_self o ho
    rcases List.mem_append.1 hw' with hw' | hw'
    · have hoff := off_of_mem hl.after hw'
      rw [hoff.resume, hresume]
      rcases hoff.context with ⟨heq, -⟩ | ⟨hge, -⟩
      · rw [heq, hsame hcontext] at ho'
        rw [Option.some.inj (ho.symm.trans ho')]
      · rcases getElem?_further_cases ho' with ho' | ⟨-, -, rfl⟩
        · have hlt := (List.getElem?_eq_some_iff.1 ho').1
          exact absurd hlt (not_lt.2 (hopened.length ▸ hge))
        · rfl
    · have hmem := List.mem_cons_of_mem w hw'
      rw [hsame (hopened.pending w' hmem).1] at ho'
      exact h.resume w' hmem o' ho'

/-! ## The loop -/

/-- All that is kept while paths are unrolled on committed control flow `c`. -/
structure Charts (p : Program) (mode : SpeculationMode) (window : Nat) (c : SpecGraph)
    (openings : List Opening) (budget : Nat → Nat → Nat) (d : Draft) (stack : List Pending) :
    Prop where
  grows : Grows (UnrolledNode p) (fun _ => True) c d.graph
  opened : Opened p openings d stack
  spends : Spends p window openings budget d stack
  returns : Returns p mode openings d stack

variable {d₀ : Draft}

theorem hasKind_of_laid {E : Edge → Prop} {g : SpecGraph} {x : Nat} (hd₀ : committed p = .ok d₀)
    (hgrows : Grows (UnrolledNode p) E d₀.graph g) (hx : g.Laid context x) :
    g.HasKind (unrolledId context x) .speculative := by
  have hindexed := (isFlow_committed hd₀).indexed
  obtain ⟨i, n, hn, hid⟩ := exists_node_of_hasNode (hgrows.indexed hindexed) hx
  rcases Nat.lt_or_ge i d₀.graph.numNodes with hi | hi
  · -- committed nodes have other ids
    rw [hgrows.node?_of_lt hindexed hi] at hn
    have hnode : d₀.graph.hasNode n.id = true := by
      rw [hasNode, hindexed.index?_id hn]
      rfl
    obtain ⟨pc, hpc⟩ := exists_committedId_of_hasNode hd₀ hnode
    exact absurd (hpc.symm.trans hid) (committedId_ne_unrolledId _ _ _)
  · obtain ⟨pc, e, w, -, rfl⟩ := hgrows.mem_of_ge hindexed hi hn
    exact ⟨i, _, hn, hid, rfl⟩

theorem Charts.follow (h : Charts p mode window d₀.graph openings budget d (w :: rest))
    (hd₀ : committed p = .ok d₀) (hfollow : follow p mode d w = .ok (ws, d')) :
    ∃ openings' budget', Charts p mode window d₀.graph openings' budget' d' (ws ++ rest) := by
  have hd := h.grows.indexed (isFlow_committed hd₀).indexed
  rcases follow_cases hd hfollow with ⟨rfl, hs⟩ | ⟨pc, on, rfl, hl⟩
  · exact ⟨openings, budget, h.grows.trans hs.grows, h.opened.stop hs, h.spends.stop hs,
      h.returns.stop h.opened hd (fun _ _ => hasKind_of_laid hd₀ h.grows) hs⟩
  · obtain ⟨o, ho⟩ := h.opened.exists_opening (h.opened.pending w List.mem_cons_self).1
    exact ⟨_, _, h.grows.trans hl.grows, h.opened.lay hl ho, h.spends.lay h.opened hl o.fork,
      h.returns.lay h.opened hd hl ho⟩

theorem Charts.unroll (h : Charts p mode window d₀.graph openings budget d stack)
    (hd₀ : committed p = .ok d₀) (hunroll : unroll p mode d stack = .ok d') :
    ∃ openings' budget', Charts p mode window d₀.graph openings' budget' d' [] := by
  refine unroll_invariant (I := fun d stack => ∃ openings budget,
    Charts p mode window d₀.graph openings budget d stack) ?_ ⟨openings, budget, h⟩ hunroll
  rintro d w rest ws d' ⟨openings, budget, h⟩ hfollow
  exact h.follow hd₀ hfollow

/-- One more direction of a branch is followed in a new context. -/
theorem Opened.start {resume : Nat} (h : Opened p openings d []) (hf : Fork.Of p ⟨pc, resume⟩)
    (window speculated : Nat) :
    Opened p (further openings ⟨committedId pc, ⟨pc, resume⟩⟩ 1) ⟨d.graph, d.contexts + 1⟩
      [firstPending p pc window d.contexts speculated resume] where
  length := by rw [length_further, h.length]
  laid context x hx := Nat.lt_succ_of_lt (h.laid context x hx)
  fork o ho := by
    rcases mem_further_cases ho with ho | rfl
    · exact h.fork o ho
    · exact hf
  opening context o ho := by
    rcases getElem?_further_cases ho with ho | ⟨-, -, rfl⟩
    · exact (h.opening context o ho).mono (fun _ _ hx => hx) prefix_further
    · exact .committed (f := ⟨pc, resume⟩)
  link source context x hlinked :=
    (h.link source context x hlinked).mono (fun _ _ hx => hx) prefix_further
  pending w hw := by
    cases List.mem_singleton.1 hw
    exact ⟨Nat.lt_succ_self _, .opens (getElem?_further_self h.length)⟩

theorem Spends.start {f : Fork} (h : Spends p window openings budget d [])
    (hopened : Opened p openings d []) (speculated resume : Nat) :
    Spends p window (further openings ⟨committedId pc, f⟩ 1) budget ⟨d.graph, d.contexts + 1⟩
      [firstPending p pc window d.contexts speculated resume] where
  range := h.range
  once := h.once
  last := h.last
  inner context x o outer q hx ho := by
    rw [getElem?_further_of_lt (hopened.length ▸ hopened.laid context x hx)] at ho
    exact h.inner context x o outer q hx ho
  pending w hw := by
    cases List.mem_singleton.1 hw
    refine ⟨le_rfl, fun x hx => absurd (hopened.laid _ x hx) (lt_irrefl _),
      fun o outer q ho hsource => ?_⟩
    rw [← Option.some.inj ((getElem?_further_self hopened.length).symm.trans ho)] at hsource
    exact absurd hsource (committedId_ne_unrolledId _ _ _)
  apart := List.pairwise_singleton ..

theorem Returns.start {resume : Nat} (h : Returns p mode openings d [])
    (hopened : Opened p openings d []) (window speculated : Nat) :
    Returns p mode (further openings ⟨committedId pc, ⟨pc, resume⟩⟩ 1) ⟨d.graph, d.contexts + 1⟩
      [firstPending p pc window d.contexts speculated resume] where
  reached context x o hx ho := by
    rw [getElem?_further_of_lt (hopened.length ▸ hopened.laid context x hx)] at ho
    exact h.reached context x o hx ho
  ends hmode context x o y hx ho hy := by
    rw [getElem?_further_of_lt (hopened.length ▸ hopened.laid context x hx)] at ho
    exact .inl ((h.ends hmode context x o y hx ho hy).resolve_right
      fun ⟨_, hw, _⟩ => List.not_mem_nil hw)
  resume w hw o ho := by
    cases List.mem_singleton.1 hw
    rw [← Option.some.inj ((getElem?_further_self hopened.length).symm.trans ho)]
    rfl

theorem Charts.start {c : SpecGraph} {resume : Nat}
    (h : Charts p mode window c openings budget d []) (hf : Fork.Of p ⟨pc, resume⟩)
    (speculated : Nat) :
    Charts p mode window c (further openings ⟨committedId pc, ⟨pc, resume⟩⟩ 1) budget
      ⟨d.graph, d.contexts + 1⟩ [firstPending p pc window d.contexts speculated resume] :=
  ⟨h.grows, h.opened.start hf window speculated, h.spends.start h.opened speculated resume,
    h.returns.start h.opened window speculated⟩

theorem Charts.addUnrolled (h : Charts p mode window d₀.graph openings budget d [])
    (hd₀ : committed p = .ok d₀) (hpc : pc ∈ branches p)
    (hadd : d.addUnrolled p mode window pc = .ok d') :
    ∃ openings' budget', Charts p mode window d₀.graph openings' budget' d' [] := by
  obtain ⟨taken, htaken, hadd⟩ := bind_eq_ok_iff.1 hadd
  obtain ⟨d₁, h₁, h₂⟩ := bind_eq_ok_iff.1 hadd
  obtain ⟨openings₁, budget₁, hu₁⟩ := (h.start ⟨hpc, taken, htaken, .inr rfl⟩ taken).unroll hd₀ h₁
  exact (hu₁.start ⟨hpc, taken, htaken, .inl rfl⟩ (pc + 1)).unroll hd₀ h₂

theorem Charts.foldlM {pcs : List Nat} (h : Charts p mode window d₀.graph openings budget d [])
    (hd₀ : committed p = .ok d₀) (hpcs : ∀ pc ∈ pcs, pc ∈ branches p)
    (hfold : pcs.foldlM (fun d pc => d.addUnrolled p mode window pc) d = .ok d') :
    ∃ openings' budget', Charts p mode window d₀.graph openings' budget' d' [] := by
  induction pcs generalizing d openings budget with
  | nil =>
    cases hfold
    exact ⟨openings, budget, h⟩
  | cons pc pcs ih =>
    rw [List.foldlM_cons] at hfold
    obtain ⟨d₁, h₁, hfold⟩ := bind_eq_ok_iff.1 hfold
    obtain ⟨openings₁, budget₁, hu₁⟩ := h.addUnrolled hd₀ (hpcs pc List.mem_cons_self) h₁
    exact ih hu₁ (fun pc' hpc' => hpcs pc' (List.mem_cons_of_mem _ hpc')) hfold

/-- Committed control flow has no contexts. -/
theorem charts_committed (mode : SpeculationMode) (window : Nat) (hd₀ : committed p = .ok d₀) :
    Charts p mode window d₀.graph [] (fun _ _ => 0) d₀ [] := by
  have hnone : ∀ context x, ¬ d₀.graph.Laid context x := by
    intro context x hx
    obtain ⟨pc, hpc⟩ := exists_committedId_of_hasNode hd₀ hx
    exact committedId_ne_unrolledId _ _ _ hpc.symm
  have hempty : ∀ {P : Pending → Prop}, ∀ w ∈ ([] : List Pending), P w :=
    fun w hw => absurd hw List.not_mem_nil
  have hopened : Opened p [] d₀ [] :=
    { length := (adds_committed hd₀).contexts.symm
      laid := fun _ _ hx => absurd hx (hnone _ _)
      fork := fun _ ho => absurd ho List.not_mem_nil
      opening := fun _ _ ho => by simp at ho
      link := fun _ _ _ hlinked => absurd (hasNode_of_linked hlinked) (hnone _ _)
      pending := hempty }
  have hspends : Spends p window [] (fun _ _ => 0) d₀ [] :=
    { range := fun _ _ hx => absurd hx (hnone _ _)
      once := fun _ _ _ hx => absurd hx (hnone _ _)
      last := fun _ _ _ hq => absurd hq (hnone _ _)
      inner := fun _ _ _ _ _ hx => absurd hx (hnone _ _)
      pending := hempty
      apart := .nil }
  have hreturns : Returns p mode [] d₀ [] :=
    { reached := fun _ _ _ hx => absurd hx (hnone _ _)
      ends := fun _ _ _ _ _ hx => absurd hx (hnone _ _)
      resume := hempty }
  exact ⟨.refl, hopened, hspends, hreturns⟩

/-- An unrolled graph is committed control flow to which the branches have been added in order. -/
theorem exists_foldlM_unrolled {o : BuildOptions} (ho : o.layout = .unrolled)
    (hd : Draft.ofProgram p o = .ok d) :
    ∃ d₀, committed p = .ok d₀ ∧ (branches p).foldlM
      (fun d pc => d.addUnrolled p o.speculation o.windowSize.toNat pc) d₀ = .ok d := by
  have hadd : addSpeculation p o =
      fun d pc => d.addUnrolled p o.speculation o.windowSize.toNat pc := by
    funext d pc
    rw [addSpeculation, ho]
  unfold Draft.ofProgram at hd
  split at hd
  · cases hd
  · rw [hadd] at hd
    exact bind_eq_ok_iff.1 hd

/-- The contexts of an unrolled graph. -/
theorem exists_charts {o : BuildOptions} (ho : o.layout = .unrolled)
    (hd : Draft.ofProgram p o = .ok d) :
    ∃ d₀ openings budget, committed p = .ok d₀ ∧
      Charts p o.speculation o.windowSize.toNat d₀.graph openings budget d [] := by
  obtain ⟨d₀, hd₀, hd⟩ := exists_foldlM_unrolled ho hd
  obtain ⟨openings, budget, h⟩ := (charts_committed _ _ hd₀).foldlM hd₀ (fun _ hpc => hpc) hd
  exact ⟨d₀, openings, budget, hd₀, h⟩

end Openings

end Draft

end SpecGraph

end Mispredict
