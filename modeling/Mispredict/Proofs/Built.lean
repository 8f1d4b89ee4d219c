/-
  How graphs are built.

  A builder only ever adds nodes and links. `Grows` follows these additions, be they made by
  hand (`ofInsertions`) or by a builder. For each part of the builder there is a lemma that
  says which nodes and links it adds: first the committed control flow of the program
  (`adds_committed`), then the speculation on its branches (`grows_light`, `grows_unrolled`).

  So a property of graphs that holds of the empty one and survives additions holds of what
  is built (`Kept.of_buildSource`). Rollbacks are among the added links only under the stack
  guard: a graph that is built to discard mispredicted paths has none
  (`noRollback_of_buildSource`).
-/
import Mispredict.Proofs.Indexed
import Mispredict.SpecGraph.Build

namespace Mispredict

open MuAsm (Program Entry)

namespace SpecGraph

/-! ## Growth -/

/-- The graph that has come of `g` by the addition of nodes in `N` and of links in `E`. -/
inductive Grows (N : Node → Prop) (E : Edge → Prop) (g : SpecGraph) : SpecGraph → Prop where
  | refl : Grows N E g g
  | node {g₁ g₂ : SpecGraph} {n : Node} (before : Grows N E g g₁) (mem : N n)
      (added : g₁.insertNode n = .ok g₂) : Grows N E g g₂
  | edge {g₁ g₂ : SpecGraph} {e : Edge} (before : Grows N E g g₁) (mem : E e)
      (added : g₁.insertEdge e = .ok g₂) : Grows N E g g₂

namespace Grows

variable {N N' : Node → Prop} {E E' : Edge → Prop} {g g₁ g' : SpecGraph}

theorem trans (h : Grows N E g g₁) (h' : Grows N E g₁ g') : Grows N E g g' := by
  induction h' with
  | refl => exact h
  | node _ mem added ih => exact .node ih mem added
  | edge _ mem added ih => exact .edge ih mem added

theorem mono (h : Grows N E g g') (hN : ∀ n, N n → N' n) (hE : ∀ e, E e → E' e) :
    Grows N' E' g g' := by
  induction h with
  | refl => exact .refl
  | node _ mem added ih => exact .node ih (hN _ mem) added
  | edge _ mem added ih => exact .edge ih (hE _ mem) added

theorem indexed (h : Grows N E g g') (hg : g.Indexed) : g'.Indexed := by
  induction h with
  | refl => exact hg
  | node _ _ added ih => exact ih.insertNode added
  | edge _ _ added ih => exact ih.insertEdge added

/-- New nodes come after the others. -/
theorem nodes_eq (h : Grows N E g g') (hg : g.Indexed) :
    ∃ ns, g'.nodes = g.nodes ++ ns ∧ ∀ n ∈ ns, N n := by
  induction h with
  | refl => exact ⟨[], (List.append_nil _).symm, fun _ hn => absurd hn List.not_mem_nil⟩
  | @node g₁ g₂ n before mem added ih =>
    obtain ⟨ns, hns, hN⟩ := ih
    refine ⟨ns ++ [n], ?_, fun n' hn' => ?_⟩
    · rw [(before.indexed hg).nodes_insertNode added, hns, List.append_assoc]
    · rcases List.mem_append.1 hn' with hn' | hn'
      · exact hN n' hn'
      · rw [List.mem_singleton.1 hn']
        exact mem
  | @edge g₁ g₂ e before mem added ih =>
    obtain ⟨ns, hns, hN⟩ := ih
    refine ⟨ns, ?_, hN⟩
    rw [← hns]
    refine List.ext_getElem? fun i => ?_
    have hg₁ := before.indexed hg
    rw [(hg₁.insertEdge added).getElem?_nodes, hg₁.getElem?_nodes, node?_insertEdge added]

theorem nodes_eq_self (h : Grows (fun _ => False) E g g') (hg : g.Indexed) :
    g'.nodes = g.nodes := by
  obtain ⟨ns, hns, hnone⟩ := h.nodes_eq hg
  rw [hns, List.eq_nil_iff_forall_not_mem.2 hnone, List.append_nil]

/-- Nodes keep their numbers. -/
theorem node?_of_lt (h : Grows N E g g') (hg : g.Indexed) {i : Nat} (hi : i < g.numNodes) :
    g'.node? i = g.node? i := by
  obtain ⟨ns, hns, -⟩ := h.nodes_eq hg
  rw [← (h.indexed hg).getElem?_nodes, ← hg.getElem?_nodes, hns, List.getElem?_append_left]
  rw [Indexed.length_nodes]
  exact hi

/-- A number that was not in use has a new node or none. -/
theorem mem_of_ge (h : Grows N E g g') (hg : g.Indexed) {i : Nat} {n : Node}
    (hi : g.numNodes ≤ i) (hn : g'.node? i = some n) : N n := by
  obtain ⟨ns, hns, hN⟩ := h.nodes_eq hg
  rw [← (h.indexed hg).getElem?_nodes, hns, List.getElem?_append_right] at hn
  · exact hN n (List.mem_of_getElem? hn)
  · rw [Indexed.length_nodes]
    exact hi

theorem index?_of_some (h : Grows N E g g') (hg : g.Indexed) {id : String} {i : Nat}
    (hi : g.index? id = some i) : g'.index? id = some i := by
  obtain ⟨n, hn, rfl⟩ := (hg.named id i).1 hi
  exact (h.indexed hg).index?_id ((h.node?_of_lt hg (hg.lt hn)).trans hn)

theorem edge?_of_some (h : Grows N E g g') {head tail : Nat} {link : Link}
    (hedge : g.graph.edge? head tail = some link) : g'.graph.edge? head tail = some link := by
  induction h with
  | refl => exact hedge
  | node _ _ added ih => rw [edge?_insertNode added, ih]
  | edge _ _ added ih =>
    obtain ⟨head', tail', -, -, hgraph, -⟩ := insertEdge_eq_ok_iff.1 added
    have hnew := (Digraph.insertEdge_eq_ok_iff.1 hgraph).1
    rw [Digraph.edge?_insertEdge hgraph, if_neg, ih]
    rintro ⟨rfl, rfl⟩
    rw [hnew] at ih
    cases ih

/-- A link was there, or it is one of those that were added. -/
theorem edge?_cases (h : Grows N E g g') (hg : g.Indexed) {head tail : Nat} {link : Link}
    (hedge : g'.graph.edge? head tail = some link) :
    g.graph.edge? head tail = some link ∨ ∃ e, E e ∧ e.link = link ∧
      g'.index? e.source = some head ∧ g'.index? e.target = some tail := by
  induction h with
  | refl => exact .inl hedge
  | @node g₁ g₂ n before mem added ih =>
    rw [edge?_insertNode added] at hedge
    have hindex : ∀ {id i}, g₁.index? id = some i → g₂.index? id = some i :=
      (Grows.refl.node trivial added : Grows (fun _ => True) E g₁ g₂).index?_of_some
        (before.indexed hg)
    refine (ih hedge).imp id ?_
    rintro ⟨e, he, hlink, hsource, htarget⟩
    exact ⟨e, he, hlink, hindex hsource, hindex htarget⟩
  | @edge g₁ g₂ e before mem added ih =>
    obtain ⟨head', tail', hhead, htail, hgraph, -⟩ := insertEdge_eq_ok_iff.1 added
    simp only [index?_insertEdge added]
    rw [Digraph.edge?_insertEdge hgraph] at hedge
    split at hedge
    · next heq =>
      obtain ⟨rfl, rfl⟩ := heq
      cases hedge
      exact .inr ⟨e, mem, rfl, hhead, htail⟩
    · exact ih hedge

end Grows

/-! ## Graphs of any making -/

/-- A call that is to add to a graph. -/
inductive Insertion where
  | node (n : Node)
  | edge (e : Edge)

def Insertion.perform (g : SpecGraph) : Insertion → Except Error SpecGraph
  | .node n => g.insertNode n
  | .edge e => g.insertEdge e

/-- The graph that comes of a sequence of calls. One that fails leaves the graph as it is. -/
def ofInsertions (calls : List Insertion) : SpecGraph :=
  calls.foldl (fun g call => (call.perform g).toOption.getD g) .empty

theorem grows_foldl_perform (calls : List Insertion) (g : SpecGraph) :
    Grows (fun _ => True) (fun _ => True) g
      (calls.foldl (fun g call => (call.perform g).toOption.getD g) g) := by
  induction calls generalizing g with
  | nil => exact .refl
  | cons call calls ih =>
    rw [List.foldl_cons]
    refine Grows.trans ?_ (ih _)
    cases hcall : call.perform g with
    | error e => exact .refl
    | ok g' =>
      cases call with
      | node n => exact .node .refl trivial hcall
      | edge e => exact .edge .refl trivial hcall

theorem grows_ofInsertions (calls : List Insertion) :
    Grows (fun _ => True) (fun _ => True) .empty (ofInsertions calls) :=
  grows_foldl_perform calls .empty

theorem indexed_ofInsertions (calls : List Insertion) : (ofInsertions calls).Indexed :=
  (grows_ofInsertions calls).indexed .empty

/-! ## Drafts -/

namespace Draft

variable {N : Node → Prop} {E : Edge → Prop} {p : Program} {d d₁ d' : Draft}

/-- The graph of a draft has grown, and no context was opened. -/
structure Adds (N : Node → Prop) (E : Edge → Prop) (d d' : Draft) : Prop where
  graph : Grows N E d.graph d'.graph
  contexts : d'.contexts = d.contexts

theorem Adds.refl : Adds N E d d := ⟨.refl, rfl⟩

theorem Adds.trans (h : Adds N E d d₁) (h' : Adds N E d₁ d') : Adds N E d d' :=
  ⟨h.graph.trans h'.graph, h'.contexts.trans h.contexts⟩

theorem Adds.foldlM {α : Type} {f : Draft → α → Except Error Draft} {l : List α}
    (hf : ∀ a ∈ l, ∀ d d', f d a = .ok d' → Adds N E d d') (h : l.foldlM f d = .ok d') :
    Adds N E d d' := by
  induction l generalizing d with
  | nil =>
    cases h
    exact .refl
  | cons a l ih =>
    rw [List.foldlM_cons] at h
    obtain ⟨d₁, h₁, h⟩ := bind_eq_ok_iff.1 h
    exact (hf a List.mem_cons_self d d₁ h₁).trans
      (ih (fun b hb => hf b (List.mem_cons_of_mem _ hb)) h)

theorem adds_addNode {n : Node} (hn : N n) (h : d.addNode n = .ok d') : Adds N E d d' := by
  obtain ⟨g, hg, h⟩ := bind_eq_ok_iff.1 h
  cases h
  exact ⟨Grows.refl.node hn hg, rfl⟩

theorem adds_connect {source target : String} {kind : LinkKind} {label : Option String}
    (he : E ⟨source, target, ⟨kind, label⟩⟩) (h : d.connect source target kind label = .ok d') :
    Adds N E d d' := by
  unfold connect at h
  split at h
  · cases h
    exact .refl
  · obtain ⟨g, hg, h⟩ := bind_eq_ok_iff.1 h
    cases h
    exact ⟨Grows.refl.edge he hg, rfl⟩

theorem adds_connectPc {source : String} {pc : Option Nat} {kind : LinkKind}
    {label : Option String} (he : ∀ x, pc = some x → E ⟨source, committedId x, ⟨kind, label⟩⟩)
    (h : d.connectPc source pc kind label = .ok d') : Adds N E d d' := by
  unfold connectPc at h
  split at h
  · exact adds_connect (he _ rfl) h
  · cases h
    exact .refl

/-! ## Committed control flow -/

/-- The links of committed control flow. -/
def FlowEdge (e : Edge) : Prop := e.link.kind = .committed

theorem adds_addFlow {e : Entry} (h : addFlow p d e = .ok d') : Adds N FlowEdge d d' := by
  unfold addFlow at h
  dsimp only at h
  split at h
  · obtain ⟨pc, -, h⟩ := bind_eq_ok_iff.1 h
    exact adds_connectPc (fun _ _ => rfl) h
  · obtain ⟨pc, -, h⟩ := bind_eq_ok_iff.1 h
    obtain ⟨d₁, h₁, h⟩ := bind_eq_ok_iff.1 h
    exact (adds_connectPc (fun _ _ => rfl) h₁).trans (adds_connectPc (fun _ _ => rfl) h)
  · exact adds_connectPc (fun _ _ => rfl) h

/-- The nodes of committed control flow. -/
def FlowNode (p : Program) (n : Node) : Prop := n ∈ p.entries.map committedNode

theorem adds_committed (h : committed p = .ok d') : Adds (FlowNode p) FlowEdge empty d' := by
  obtain ⟨d, hd, h⟩ := bind_eq_ok_iff.1 h
  exact (Adds.foldlM (fun n hn _ _ => adds_addNode hn) hd).trans
    (Adds.foldlM (fun _ _ _ _ => adds_addFlow) h)

theorem nodes_foldlM_addNode {ns : List Node} (hd : d.graph.Indexed)
    (h : ns.foldlM addNode d = .ok d') : d'.graph.nodes = d.graph.nodes ++ ns := by
  induction ns generalizing d with
  | nil =>
    cases h
    exact (List.append_nil _).symm
  | cons n ns ih =>
    rw [List.foldlM_cons] at h
    obtain ⟨d₁, h₁, h⟩ := bind_eq_ok_iff.1 h
    obtain ⟨g, hg, h₁⟩ := bind_eq_ok_iff.1 h₁
    cases h₁
    rw [ih (hd.insertNode hg) h, hd.nodes_insertNode hg, List.append_assoc]
    rfl

/-- Committed control flow has one node for each instruction. -/
theorem nodes_committed (h : committed p = .ok d') :
    d'.graph.nodes = p.entries.map committedNode := by
  obtain ⟨d, hd, h⟩ := bind_eq_ok_iff.1 h
  have hindexed : d.graph.Indexed :=
    (Adds.foldlM (N := fun _ => True) (E := FlowEdge) (fun _ _ _ _ => adds_addNode trivial)
      hd).graph.indexed Indexed.empty
  have hflow : Adds (fun _ => False) FlowEdge d d' := Adds.foldlM (fun _ _ _ _ => adds_addFlow) h
  rw [hflow.graph.nodes_eq_self hindexed, nodes_foldlM_addNode Indexed.empty hd]
  rfl

/-! ## The light layout -/

/-- The markers of the branches of a program. -/
inductive LightNode (p : Program) : Node → Prop where
  | begins {context pc : Nat} (branch : (branches p)[context]? = some pc) :
      LightNode p (beginNode pc context)
  | ends {context pc : Nat} (branch : (branches p)[context]? = some pc) :
      LightNode p (endNode pc context)

/-- The links from and to markers. -/
inductive LightEdge (p : Program) (mode : SpeculationMode) : Edge → Prop where
  | mispredict {context pc : Nat} {label : Option String}
      (branch : (branches p)[context]? = some pc) :
      LightEdge p mode ⟨committedId pc, beginId context, ⟨.speculative, label⟩⟩
  | direction {context pc taken x : Nat} {label : Option String}
      (branch : (branches p)[context]? = some pc) (target : p.branchTarget pc = .ok taken)
      (follows : p.within? taken = some x ∨ p.next? pc = some x) :
      LightEdge p mode ⟨beginId context, committedId x, ⟨.speculative, label⟩⟩
  | squash {context pc : Nat} {label : Option String}
      (branch : (branches p)[context]? = some pc) :
      LightEdge p mode ⟨beginId context, endId context, ⟨.speculative, label⟩⟩
  | rollback {context pc : Nat} {label : Option String}
      (branch : (branches p)[context]? = some pc) (guarded : mode = .stackGuard) :
      LightEdge p mode ⟨endId context, committedId pc, ⟨.rollback, label⟩⟩

theorem grows_addMarkers {mode : SpeculationMode} {pc : Nat}
    (hpc : (branches p)[d.contexts]? = some pc) (h : d.addMarkers p mode pc = .ok d') :
    Grows (LightNode p) (LightEdge p mode) d.graph d'.graph ∧
      d'.contexts = d.contexts + 1 := by
  suffices hadds : Adds (LightNode p) (LightEdge p mode) ⟨d.graph, d.contexts + 1⟩ d' from
    ⟨hadds.graph, hadds.contexts⟩
  unfold addMarkers at h
  obtain ⟨d₁, h₁, h⟩ := bind_eq_ok_iff.1 h
  refine (adds_addNode (.begins hpc) h₁).trans ?_
  obtain ⟨d₂, h₂, h⟩ := bind_eq_ok_iff.1 h
  refine (adds_addNode (.ends hpc) h₂).trans ?_
  obtain ⟨d₃, h₃, h⟩ := bind_eq_ok_iff.1 h
  refine (adds_connect (.mispredict hpc) h₃).trans ?_
  obtain ⟨taken, htaken, h⟩ := bind_eq_ok_iff.1 h
  obtain ⟨d₄, h₄, h⟩ := bind_eq_ok_iff.1 h
  refine (adds_connectPc (fun x hx => .direction hpc htaken (.inl hx)) h₄).trans ?_
  obtain ⟨d₅, h₅, h⟩ := bind_eq_ok_iff.1 h
  refine (adds_connectPc (fun x hx => .direction hpc htaken (.inr hx)) h₅).trans ?_
  obtain ⟨d₆, h₆, h⟩ := bind_eq_ok_iff.1 h
  refine (adds_connect (.squash hpc) h₆).trans ?_
  cases mode with
  | discard =>
    cases h
    exact .refl
  | stackGuard => exact adds_connect (.rollback hpc rfl) h

/-- The branches that remain, the first of which gets the next context. -/
theorem grows_light {mode : SpeculationMode} {rest : List Nat}
    (hrest : (branches p).drop d.contexts = rest)
    (h : rest.foldlM (fun d pc => d.addMarkers p mode pc) d = .ok d') :
    Grows (LightNode p) (LightEdge p mode) d.graph d'.graph := by
  induction rest generalizing d with
  | nil =>
    cases h
    exact .refl
  | cons pc rest ih =>
    rw [List.foldlM_cons] at h
    obtain ⟨d₁, h₁, h⟩ := bind_eq_ok_iff.1 h
    have hpc : (branches p)[d.contexts]? = some pc := by
      rw [← List.head?_drop, hrest]
      rfl
    obtain ⟨hgrows, hcontexts⟩ := grows_addMarkers hpc h₁
    refine hgrows.trans (ih ?_ h)
    rw [hcontexts, ← List.tail_drop, hrest]
    rfl

/-! ## The unrolled layout -/

/-- A branch, and where committed execution goes on while its other direction is followed. -/
structure Fork where
  branch : Nat
  resume : Nat

/-- The fork is at a branch of the program, and execution resumes in one of its directions. -/
structure Fork.Of (p : Program) (f : Fork) : Prop where
  branch : f.branch ∈ branches p
  resume : ∃ taken, p.branchTarget f.branch = .ok taken ∧
    (f.resume = taken ∨ f.resume = f.branch + 1)

/-- The nodes of a fork: its branch, and those of the contexts that belong to it. The contexts are
    numbered in the order of `forks`, which gives the fork of each. -/
inductive Fork.Has (forks : List Fork) (f : Fork) : (id : String) → Prop where
  | branch : Has forks f (committedId f.branch)
  | path {context pc : Nat} (owner : forks[context]? = some f) :
      Has forks f (unrolledId context pc)

/-- The nodes of mispredicted paths. -/
def UnrolledNode (p : Program) (n : Node) : Prop :=
  ∃ pc e w, p.entry? pc = some e ∧ n = unrolledNode e pc w

/-- The links of mispredicted paths. -/
inductive UnrolledEdge (p : Program) (mode : SpeculationMode) (forks : List Fork) :
    Edge → Prop where
  | path {f : Fork} {source : String} {context pc : Nat} {label : Option String}
      (owner : forks[context]? = some f) (start : f.Has forks source) :
      UnrolledEdge p mode forks ⟨source, unrolledId context pc, ⟨.speculative, label⟩⟩
  | rollback {f : Fork} {source : String} {x : Nat} {label : Option String} (fork : f.Of p)
      (start : f.Has forks source) (resume : p.within? f.resume = some x)
      (guarded : mode = .stackGuard) :
      UnrolledEdge p mode forks ⟨source, committedId x, ⟨.rollback, label⟩⟩

section Forks

variable {mode : SpeculationMode} {forks forks' : List Fork} {f : Fork}

theorem owner_mono (hforks : forks <+: forks') {context : Nat} (owner : forks[context]? = some f) :
    forks'[context]? = some f := by
  obtain ⟨new, rfl⟩ := hforks
  rw [List.getElem?_append_left (List.getElem?_eq_some_iff.1 owner).1, owner]

theorem Fork.Has.mono {id : String} (h : f.Has forks id) (hforks : forks <+: forks') :
    f.Has forks' id := by
  cases h with
  | branch => exact .branch
  | path owner => exact .path (owner_mono hforks owner)

theorem UnrolledEdge.mono {e : Edge} (h : UnrolledEdge p mode forks e) (hforks : forks <+: forks') :
    UnrolledEdge p mode forks' e := by
  cases h with
  | path owner start => exact .path (owner_mono hforks owner) (start.mono hforks)
  | rollback fork start resume guarded =>
    exact .rollback fork (start.mono hforks) resume guarded

/-- The mispredicted path belongs to the fork. -/
structure Pending.Of (p : Program) (forks : List Fork) (w : Pending) (f : Fork) : Prop where
  fork : f.Of p
  owner : forks[w.context]? = some f
  source : f.Has forks w.source
  resume : w.resume = f.resume

theorem Pending.Of.mono {w : Pending} (h : w.Of p forks f) (hforks : forks <+: forks') :
    w.Of p forks' f :=
  ⟨h.fork, owner_mono hforks h.owner, h.source.mono hforks, h.resume⟩

/-- The end of a path adds a rollback at most. -/
theorem adds_endPath_of {source : String} {resume : Nat}
    (he : ∀ x, p.within? resume = some x → mode = .stackGuard →
      E ⟨source, committedId x, ⟨.rollback, some "rollback"⟩⟩)
    (h : d.endPath p mode source resume = .ok d') : Adds N E d d' := by
  unfold endPath at h
  split at h
  · cases h
    exact .refl
  · split at h
    · split at h
      · exact adds_connectPc (fun x hx => he x hx rfl) h
      · cases h
        exact .refl
    · cases h
      exact .refl

theorem adds_endPath {source : String} (hf : f.Of p) (hsource : f.Has forks source)
    (h : d.endPath p mode source f.resume = .ok d') : Adds N (UnrolledEdge p mode forks) d d' :=
  adds_endPath_of (fun _ hx hmode => .rollback hf hsource hx hmode) h

/-- The paths that go on from a path belong to its fork, and so do the contexts they open. -/
theorem of_branchOff {w : Pending} (hw : w.Of p forks f) (hlen : forks.length = d.contexts)
    (pc budget : Nat) (on : Onward) :
    ∃ forks', forks <+: forks' ∧ forks'.length = d.contexts + on.opened ∧
      ∀ w' ∈ branchOff w pc budget d.contexts on, w'.Of p forks' f := by
  cases on with
  | ends => exact ⟨forks, List.prefix_rfl, hlen, fun _ hw' => absurd hw' List.not_mem_nil⟩
  | continues pc' =>
    refine ⟨forks, List.prefix_rfl, hlen, fun w' hw' => ?_⟩
    cases List.mem_singleton.1 hw'
    exact ⟨hw.fork, hw.owner, .path hw.owner, hw.resume⟩
  | forks taken next =>
    have hforks : forks <+: forks ++ [f, f] := List.prefix_append _ _
    refine ⟨forks ++ [f, f], hforks, ?_, fun w' hw' => ?_⟩
    · rw [List.length_append, hlen]
      rfl
    · have hsource : f.Has (forks ++ [f, f]) (unrolledId w.context pc) :=
        .path (owner_mono hforks hw.owner)
      rcases List.mem_pair.1 hw' with rfl | rfl
      · exact ⟨hw.fork, by simp [← hlen], hsource, hw.resume⟩
      · exact ⟨hw.fork, by simp [← hlen], hsource, hw.resume⟩

theorem grows_follow {w : Pending} {ws : List Pending} (hw : w.Of p forks f)
    (hlen : forks.length = d.contexts) (h : follow p mode d w = .ok (ws, d')) :
    ∃ forks', forks <+: forks' ∧ forks'.length = d'.contexts ∧
      Grows (UnrolledNode p) (UnrolledEdge p mode forks) d.graph d'.graph ∧
      ∀ w' ∈ ws, w'.Of p forks' f := by
  -- a path that does not go on opens no context
  have ended {d₁ : Draft} (hadds : Adds (UnrolledNode p) (UnrolledEdge p mode forks) d d₁) :
      ∃ forks', forks <+: forks' ∧ forks'.length = d₁.contexts ∧
        Grows (UnrolledNode p) (UnrolledEdge p mode forks) d.graph d₁.graph ∧
        ∀ w' ∈ ([] : List Pending), w'.Of p forks' f :=
    ⟨forks, List.prefix_rfl, hlen.trans hadds.contexts.symm, hadds.graph,
      fun _ hw' => absurd hw' List.not_mem_nil⟩
  have hresume := hw.resume
  unfold follow at h
  split at h
  · next pc budget _ _ =>
    have hedge : UnrolledEdge p mode forks
        ⟨w.source, unrolledId w.context pc, ⟨.speculative, none⟩⟩ := .path hw.owner hw.source
    dsimp only at h
    split at h
    · obtain ⟨d₁, h₁, h⟩ := bind_eq_ok_iff.1 h
      cases h
      exact ended (adds_connect hedge h₁)
    · split at h
      · cases h
      · next e he =>
        obtain ⟨d₁, h₁, h⟩ := bind_eq_ok_iff.1 h
        obtain ⟨d₂, h₂, h⟩ := bind_eq_ok_iff.1 h
        have hadds : Adds (UnrolledNode p) (UnrolledEdge p mode forks) d d₂ :=
          (adds_addNode ⟨pc, e, w, he, rfl⟩ h₁).trans (adds_connect hedge h₂)
        obtain ⟨on, -, h⟩ := bind_eq_ok_iff.1 h
        split at h
        · obtain ⟨d₃, h₃, h⟩ := bind_eq_ok_iff.1 h
          cases h
          rw [hresume] at h₃
          exact ended (hadds.trans (adds_endPath hw.fork (.path hw.owner) h₃))
        · cases h
          obtain ⟨forks', hforks, hlen', hws⟩ :=
            of_branchOff hw (hlen.trans hadds.contexts.symm) pc budget on
          exact ⟨forks', hforks, hlen', hadds.graph, hws⟩
  · obtain ⟨d₁, h₁, h⟩ := bind_eq_ok_iff.1 h
    cases h
    rw [hresume] at h₁
    exact ended (adds_endPath hw.fork hw.source h₁)

theorem grows_unroll {stack : List Pending} (hstack : ∀ w ∈ stack, ∃ f, w.Of p forks f)
    (hlen : forks.length = d.contexts) (h : unroll p mode d stack = .ok d') :
    ∃ forks', forks <+: forks' ∧ forks'.length = d'.contexts ∧
      Grows (UnrolledNode p) (UnrolledEdge p mode forks') d.graph d'.graph := by
  fun_induction unroll p mode d stack generalizing forks with
  | case1 d =>
    cases h
    exact ⟨forks, List.prefix_rfl, hlen, .refl⟩
  | case2 d w rest e he => cases h
  | case3 d w rest ws d₁ hfollow ih =>
    obtain ⟨f, hw⟩ := hstack w List.mem_cons_self
    obtain ⟨forks₁, hforks₁, hlen₁, hgrows₁, hws⟩ := grows_follow hw hlen hfollow
    have hstack₁ : ∀ w' ∈ ws ++ rest, ∃ f, w'.Of p forks₁ f := by
      intro w' hw'
      rcases List.mem_append.1 hw' with hw' | hw'
      · exact ⟨f, hws w' hw'⟩
      · obtain ⟨f', hf'⟩ := hstack w' (List.mem_cons_of_mem _ hw')
        exact ⟨f', hf'.mono hforks₁⟩
    obtain ⟨forks', hforks, hlen', hgrows⟩ := ih hstack₁ hlen₁ h
    refine ⟨forks', hforks₁.trans hforks, hlen', ?_⟩
    exact (hgrows₁.mono (fun _ h => h) fun _ h => h.mono (hforks₁.trans hforks)).trans hgrows

/-- A direction of a branch that is followed in a new context. -/
theorem grows_firstPending {window pc speculated resume : Nat} (hf : Fork.Of p ⟨pc, resume⟩)
    (hlen : forks.length = d.contexts)
    (h : unroll p mode ⟨d.graph, d.contexts + 1⟩
      [firstPending p pc window d.contexts speculated resume] = .ok d') :
    ∃ forks', forks <+: forks' ∧ forks'.length = d'.contexts ∧
      Grows (UnrolledNode p) (UnrolledEdge p mode forks') d.graph d'.graph := by
  have hforks : forks <+: forks ++ [⟨pc, resume⟩] := List.prefix_append _ _
  have hfirst : (firstPending p pc window d.contexts speculated resume).Of p
      (forks ++ [⟨pc, resume⟩]) ⟨pc, resume⟩ :=
    ⟨hf, by simp [firstPending, ← hlen], .branch, rfl⟩
  have hlen' : (forks ++ [Fork.mk pc resume]).length = d.contexts + 1 := by
    rw [List.length_append, hlen]
    rfl
  obtain ⟨forks', hforks', hgrows⟩ := grows_unroll (d := ⟨d.graph, d.contexts + 1⟩)
    (by simpa using ⟨_, hfirst⟩) hlen' h
  exact ⟨forks', hforks.trans hforks', hgrows⟩

theorem grows_addUnrolled {window pc : Nat} (hpc : pc ∈ branches p)
    (hlen : forks.length = d.contexts) (h : d.addUnrolled p mode window pc = .ok d') :
    ∃ forks', forks <+: forks' ∧ forks'.length = d'.contexts ∧
      Grows (UnrolledNode p) (UnrolledEdge p mode forks') d.graph d'.graph := by
  obtain ⟨taken, htaken, h⟩ := bind_eq_ok_iff.1 h
  obtain ⟨d₁, h₁, h⟩ := bind_eq_ok_iff.1 h
  obtain ⟨forks₁, hforks₁, hlen₁, hgrows₁⟩ :=
    grows_firstPending ⟨hpc, taken, htaken, .inr rfl⟩ hlen h₁
  obtain ⟨forks₂, hforks₂, hlen₂, hgrows₂⟩ :=
    grows_firstPending ⟨hpc, taken, htaken, .inl rfl⟩ hlen₁ h
  refine ⟨forks₂, hforks₁.trans hforks₂, hlen₂, ?_⟩
  exact (hgrows₁.mono (fun _ h => h) fun _ h => h.mono hforks₂).trans hgrows₂

theorem grows_unrolled {window : Nat} {pcs : List Nat} (hpcs : ∀ pc ∈ pcs, pc ∈ branches p)
    (hlen : forks.length = d.contexts)
    (h : pcs.foldlM (fun d pc => d.addUnrolled p mode window pc) d = .ok d') :
    ∃ forks', Grows (UnrolledNode p) (UnrolledEdge p mode forks') d.graph d'.graph ∧
      forks <+: forks' := by
  induction pcs generalizing d forks with
  | nil =>
    cases h
    exact ⟨forks, .refl, List.prefix_rfl⟩
  | cons pc pcs ih =>
    rw [List.foldlM_cons] at h
    obtain ⟨d₁, h₁, h⟩ := bind_eq_ok_iff.1 h
    obtain ⟨forks₁, hforks₁, hlen₁, hgrows₁⟩ :=
      grows_addUnrolled (hpcs pc List.mem_cons_self) hlen h₁
    obtain ⟨forks', hgrows, hforks⟩ :=
      ih (fun pc' hpc' => hpcs pc' (List.mem_cons_of_mem _ hpc')) hlen₁ h
    exact ⟨forks', (hgrows₁.mono (fun _ h => h) fun _ h => h.mono hforks).trans hgrows,
      hforks₁.trans hforks⟩

end Forks

/-! ## Both layouts -/

/-- The nodes of speculation in this layout. -/
def SpecNode (p : Program) : Layout → Node → Prop
  | .light => LightNode p
  | .unrolled => UnrolledNode p

/-- The links of speculation in this layout. -/
def SpecEdge (p : Program) (mode : SpeculationMode) (forks : List Fork) : Layout → Edge → Prop
  | .light => LightEdge p mode
  | .unrolled => UnrolledEdge p mode forks

/-- A graph is built in two stages: committed control flow, then speculation. -/
theorem exists_stages {o : BuildOptions} (h : Draft.ofProgram p o = .ok d) :
    ∃ d₀ forks, committed p = .ok d₀ ∧
      Grows (SpecNode p o.layout) (SpecEdge p o.speculation forks o.layout) d₀.graph d.graph := by
  unfold Draft.ofProgram at h
  split at h
  · cases h
  · obtain ⟨d₀, hd₀, h⟩ := bind_eq_ok_iff.1 h
    have hcontexts : d₀.contexts = 0 := (adds_committed hd₀).contexts
    cases hlayout : o.layout with
    | light =>
      have hadd : addSpeculation p o = fun d pc => d.addMarkers p o.speculation pc := by
        funext d pc
        rw [addSpeculation, hlayout]
      rw [hadd] at h
      refine ⟨d₀, [], hd₀, grows_light ?_ h⟩
      rw [hcontexts]
      rfl
    | unrolled =>
      have hadd : addSpeculation p o =
          fun d pc => d.addUnrolled p o.speculation o.windowSize.toNat pc := by
        funext d pc
        rw [addSpeculation, hlayout]
      rw [hadd] at h
      have hnone : ([] : List Fork).length = d₀.contexts := hcontexts.symm
      obtain ⟨forks, hgrows, -⟩ := grows_unrolled (fun _ h => h) hnone h
      exact ⟨d₀, forks, hd₀, hgrows⟩

/-- A node has an instruction of the program and shows its text, or it has none and shows none. -/
theorem instr_cases_of_ofProgram {o : BuildOptions} (h : Draft.ofProgram p o = .ok d) {n : Node}
    (hn : n ∈ d.graph.nodes) :
    (n.instr = none ∧ n.text = none) ∨
      ∃ e ∈ p.entries, n.instr = some e.instr ∧ n.text = some e.instr.render := by
  obtain ⟨d₀, forks, hd₀, hgrows⟩ := exists_stages h
  obtain ⟨ns, hns, hspec⟩ := hgrows.nodes_eq ((adds_committed hd₀).graph.indexed .empty)
  rw [hns, nodes_committed hd₀] at hn
  rcases List.mem_append.1 hn with hn | hn
  · obtain ⟨e, he, rfl⟩ := List.mem_map.1 hn
    exact .inr ⟨e, he, rfl, rfl⟩
  · have hnode := hspec n hn
    cases hlayout : o.layout with
    | light =>
      rw [hlayout] at hnode
      left
      cases hnode with
      | begins => exact ⟨rfl, rfl⟩
      | ends => exact ⟨rfl, rfl⟩
    | unrolled =>
      rw [hlayout] at hnode
      obtain ⟨pc, e, w, he, rfl⟩ := hnode
      exact .inr ⟨e, List.mem_of_getElem? he, rfl, rfl⟩

end Draft

/-! ## Properties that building keeps -/

/-- A property of graphs that building keeps. The links that are added are rollbacks only if the
    speculation of the build is `stackGuard`. -/
structure Kept (mode : SpeculationMode) (P : SpecGraph → Prop) : Prop where
  empty : P .empty
  insertNode : ∀ {g g' : SpecGraph} {n : Node}, P g → g.insertNode n = .ok g' → P g'
  insertEdge : ∀ {g g' : SpecGraph} {e : Edge}, P g →
    (e.link.kind = .rollback → mode = .stackGuard) → g.insertEdge e = .ok g' → P g'

/-- What building keeps, growth keeps. -/
theorem Kept.of_grows {mode : SpeculationMode} {P : SpecGraph → Prop} {N : Node → Prop}
    {E : Edge → Prop} {g g' : SpecGraph} (hP : Kept mode P)
    (hE : ∀ e, E e → e.link.kind = .rollback → mode = .stackGuard) (hg : P g)
    (h : Grows N E g g') : P g' := by
  induction h with
  | refl => exact hg
  | node _ _ added ih => exact hP.insertNode ih added
  | edge _ mem added ih => exact hP.insertEdge ih (hE _ mem) added

namespace Draft

theorem guarded_of_specEdge {p : Program} {mode : SpeculationMode} {layout : Layout}
    {forks : List Fork} {e : Edge} (he : SpecEdge p mode forks layout e)
    (hkind : e.link.kind = .rollback) : mode = .stackGuard := by
  cases layout with
  | light =>
    cases he with
    | rollback branch guarded => exact guarded
    | mispredict | direction | squash => cases hkind
  | unrolled =>
    cases he with
    | rollback fork start resume guarded => exact guarded
    | path => cases hkind

end Draft

theorem buildSource_eq_ok {source : String} {o : BuildOptions}
    (h : (buildSource source o).result.toOption.isSome = true) :
    (buildSource source o).result = .ok ((buildSource source o).result.toOption.getD .empty) := by
  cases hbuilt : (buildSource source o).result with
  | ok g => rfl
  | error e =>
    rw [hbuilt] at h
    cases h

/-- Nothing is built without a window. -/
theorem windowSize_pos {p : Program} {o : BuildOptions} {d : Draft}
    (h : Draft.ofProgram p o = .ok d) : 0 < o.windowSize := by
  unfold Draft.ofProgram at h
  split at h
  · cases h
  · next hpos => exact not_le.1 hpos

/-- The graph of a source is that of a program. -/
theorem exists_program_of_buildSource {source : String} {o : BuildOptions} {g : SpecGraph}
    (h : (buildSource source o).result = .ok g) : ∃ p d, Draft.ofProgram p o = .ok d ∧
      d.graph = g := by
  unfold buildSource at h
  split at h
  · cases h
  · next p _ =>
    unfold build at h
    dsimp only at h
    split at h
    · cases h
    · next d hd =>
      cases h
      exact ⟨p, d, hd, rfl⟩

theorem Kept.of_buildSource {P : SpecGraph → Prop} {source : String} {o : BuildOptions}
    {g : SpecGraph} (hP : Kept o.speculation P) (h : (buildSource source o).result = .ok g) :
    P g := by
  obtain ⟨p, d, hd, rfl⟩ := exists_program_of_buildSource h
  obtain ⟨d₀, forks, hd₀, hgrows⟩ := Draft.exists_stages hd
  have hflow : ∀ e, Draft.FlowEdge e → e.link.kind = .rollback → o.speculation = .stackGuard := by
    intro e he hkind
    cases he.symm.trans hkind
  have hP₀ : P d₀.graph := hP.of_grows hflow hP.empty (Draft.adds_committed hd₀).graph
  exact hP.of_grows (fun _ => Draft.guarded_of_specEdge) hP₀ hgrows

/-! ## Rollbacks -/

/-- No link is a rollback. -/
def NoRollback (g : SpecGraph) : Prop :=
  ∀ head tail link, g.graph.edge? head tail = some link → link.kind ≠ .rollback

theorem NoRollback.linksFrom {g : SpecGraph} (hg : g.NoRollback) {index : Nat} {l : Located}
    (h : l ∈ g.linksFrom index) : l.link.kind ≠ .rollback :=
  hg l.head l.tail l.link (mem_linksFrom_iff.1 h).2.1

theorem kept_noRollback : Kept .discard NoRollback where
  empty := by
    intro head tail link h
    cases h
  insertNode := by
    intro g g' n hg h head tail link hedge
    rw [edge?_insertNode h] at hedge
    exact hg head tail link hedge
  insertEdge := by
    intro g g' e hg hkind h head tail link hedge
    obtain ⟨head', tail', -, -, hgraph, -⟩ := insertEdge_eq_ok_iff.1 h
    rw [Digraph.edge?_insertEdge hgraph] at hedge
    split at hedge
    · cases hedge
      intro hrollback
      cases hkind hrollback
    · exact hg head tail link hedge

/-- A graph that is built to discard mispredicted paths has no rollbacks. -/
theorem noRollback_of_buildSource {source : String} {o : BuildOptions} {g : SpecGraph}
    (ho : o.speculation = .discard) (h : (buildSource source o).result = .ok g) : g.NoRollback :=
  Kept.of_buildSource (ho ▸ kept_noRollback) h

end SpecGraph

end Mispredict
