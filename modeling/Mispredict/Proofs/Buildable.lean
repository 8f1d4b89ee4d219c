/-
  Which programs have a graph, and why the others have none.

  A jump or a branch whose target is not known to be in the program, or just after it, has no
  place to go (`Program.fault?`). The first such entry is the only reason for which building
  fails, apart from a window that is not positive (`outcome_build`).

  All else succeeds: the builder never adds a node or a link twice, and the ends of a link are
  there before it (`Ready`). What it builds is valid, since a mispredicted path returns from
  a speculative node to a committed one, and it returns only under the stack guard.
-/
import Mispredict.Proofs.Unrolling

namespace Mispredict

open MuAsm (Instr Program Entry Expr Jump)

theorem exists_ok_bind {ε α β : Type} {x : Except ε α} {f : α → Except ε β} {a : α}
    {Q : β → Prop} (hx : x = .ok a) (hf : ∃ b, f a = .ok b ∧ Q b) :
    ∃ b, (x >>= f) = .ok b ∧ Q b := by
  subst hx
  exact hf

/-- A loop that can always go on comes to its end. -/
theorem exists_foldlM_ok {ε α β : Type} {f : β → α → Except ε β} {I : β → Prop} {l : List α}
    {b : β} (hf : ∀ a ∈ l, ∀ b, I b → ∃ b', f b a = .ok b' ∧ I b') (hb : I b) :
    ∃ b', l.foldlM f b = .ok b' ∧ I b' := by
  induction l generalizing b with
  | nil => exact ⟨b, rfl, hb⟩
  | cons a l ih =>
    obtain ⟨b₁, h₁, hb₁⟩ := hf a List.mem_cons_self b hb
    rw [List.foldlM_cons]
    exact exists_ok_bind h₁ (ih (fun a' ha' => hf a' (List.mem_cons_of_mem _ ha')) hb₁)

/-! ## Targets outside of the program -/

namespace MuAsm.Program

/-- What is wrong with the target of an entry, if it is a jump or a branch that is not bound to a
    program counter up to the end of the program. -/
def fault? (p : Program) (e : Entry) : Option Error :=
  match e.instr with
  | .jmp target (.pc n) =>
    if n ≤ p.length then none else some (.unresolvedJump e.pc target.render)
  | .jmp target _ => some (.unresolvedJump e.pc target.render)
  | .beqz _ target (some n) =>
    if n ≤ p.length then none
    else some (.source (.atLine e.sourceLine (.branchOutOfRange target)))
  | .beqz _ target none => some (.source (.atLine e.sourceLine (.undefinedLabel target)))
  | _ => none

variable {p : Program} {e : Entry}

theorem jumpTarget_cases {target : Expr} {resolved : Jump} (hi : e.instr = .jmp target resolved) :
    (p.fault? e = none ∧ ∃ n, p.jumpTarget e.pc target resolved = .ok n) ∨
      ∃ err, p.fault? e = some err ∧ p.jumpTarget e.pc target resolved = .error err := by
  unfold fault? jumpTarget
  rw [hi]
  cases resolved with
  | pc n =>
    by_cases hn : n ≤ p.length
    · exact .inl ⟨by simp [hn], n, by simp [hn]⟩
    · exact .inr ⟨_, if_neg hn, if_neg hn⟩
  | label name => exact .inr ⟨_, rfl, rfl⟩
  | dynamic => exact .inr ⟨_, rfl, rfl⟩

theorem branchTarget_cases (he : p.entry? e.pc = some e) (hi : e.instr.isBranch = true) :
    (p.fault? e = none ∧ ∃ n, p.branchTarget e.pc = .ok n) ∨
      ∃ err, p.fault? e = some err ∧ p.branchTarget e.pc = .error err := by
  unfold fault? branchTarget
  rw [he]
  dsimp only
  cases hinstr : e.instr with
  | beqz cond target resolved =>
    cases resolved with
    | none => exact .inr ⟨_, rfl, rfl⟩
    | some n =>
      by_cases hn : n ≤ p.length
      · exact .inl ⟨by simp [hn], n, by simp [hn]⟩
      · exact .inr ⟨_, if_neg hn, if_neg hn⟩
  | _ =>
    rw [hinstr] at hi
    cases hi

/-- All targets are in the program or just after it. -/
def Faultless (p : Program) : Prop := ∀ e ∈ p.entries, p.fault? e = none

theorem Numbered.entry? (hp : p.Numbered) (he : e ∈ p.entries) : p.entry? e.pc = some e := by
  obtain ⟨i, hi⟩ := List.mem_iff_getElem?.1 he
  rw [hp i e hi]
  exact hi

theorem Faultless.exists_branchTarget (hr : p.Faultless) (hp : p.Numbered) {pc : Nat}
    (hpc : pc ∈ SpecGraph.Draft.branches p) : ∃ n, p.branchTarget pc = .ok n := by
  obtain ⟨e, he, rfl⟩ := List.mem_map.1 hpc
  obtain ⟨he, hbranch⟩ := List.mem_filter.1 he
  rcases branchTarget_cases (hp.entry? he) hbranch with ⟨-, hn⟩ | ⟨err, herr, -⟩
  · exact hn
  · rw [hr e he] at herr
    cases herr

/-- A mispredicted path knows how to go on after every instruction. -/
theorem Faultless.exists_onward (hr : p.Faultless) (hp : p.Numbered) {pc : Nat}
    (he : p.entry? pc = some e) : ∃ on, SpecGraph.Draft.onward p pc e.instr = .ok on := by
  have hmem : e ∈ p.entries := List.mem_of_getElem? he
  cases hp pc e he
  unfold SpecGraph.Draft.onward
  split
  · exact ⟨_, rfl⟩
  · next hinstr =>
    rcases branchTarget_cases he (by rw [hinstr]; rfl) with ⟨-, n, hn⟩ | ⟨err, herr, -⟩
    · rw [hn]
      exact ⟨_, rfl⟩
    · rw [hr e hmem] at herr
      cases herr
  · next hinstr =>
    rcases jumpTarget_cases (p := p) hinstr with ⟨-, n, hn⟩ | ⟨err, herr, -⟩
    · rw [hn]
      exact ⟨_, rfl⟩
    · rw [hr e hmem] at herr
      cases herr
  · exact ⟨_, rfl⟩

end MuAsm.Program

namespace SpecGraph

/-! ## What can be added -/

/-- There is a node with this id, and it is of this kind. -/
def HasKind (g : SpecGraph) (id : String) (kind : NodeKind) : Prop :=
  ∃ i n, g.node? i = some n ∧ n.id = id ∧ n.kind = kind

theorem HasKind.hasNode {g : SpecGraph} {id : String} {kind : NodeKind} (h : g.HasKind id kind)
    (hg : g.Indexed) : g.hasNode id = true := by
  obtain ⟨i, n, hn, rfl, -⟩ := h
  rw [SpecGraph.hasNode, hg.index?_id hn]
  rfl

theorem HasKind.of_grows {N : Node → Prop} {E : Edge → Prop} {g g' : SpecGraph} {id : String}
    {kind : NodeKind} (h : g.HasKind id kind) (hg : g.Indexed) (hgrows : Grows N E g g') :
    g'.HasKind id kind := by
  obtain ⟨i, n, hn, hid, hkind⟩ := h
  exact ⟨i, n, (hgrows.node?_of_lt hg (hg.lt hn)).trans hn, hid, hkind⟩

theorem exists_node_of_hasNode {g : SpecGraph} (hg : g.Indexed) {id : String}
    (h : g.hasNode id = true) : ∃ i n, g.node? i = some n ∧ n.id = id := by
  obtain ⟨i, hi⟩ := Option.isSome_iff_exists.1 h
  exact ⟨i, (hg.named id i).1 hi⟩

theorem validate_eq_ok_iff {g : SpecGraph} :
    g.validate = .ok () ↔ ∀ l ∈ g.links, l.isPlaced = true := by
  unfold validate
  cases hfind : g.links.find? (!·.isPlaced) with
  | none => simpa using List.find?_eq_none.1 hfind
  | some l =>
    simp only [reduceCtorEq, false_iff, not_forall]
    have hbad := List.find?_some hfind
    exact ⟨l, List.mem_of_find?_eq_some hfind, by simpa using hbad⟩

namespace Draft

variable {p : Program} {mode : SpeculationMode} {d d' : Draft} {e : Entry}

theorem hasKind_addNode {n : Node} (h : d.addNode n = .ok d') : d'.graph.HasKind n.id n.kind := by
  obtain ⟨g, hg, heq⟩ := bind_eq_ok_iff.1 h
  cases heq
  exact ⟨_, n, by rw [node?_insertNode hg, if_pos rfl], rfl, rfl⟩

/-- A draft to which the builder can add: the committed nodes are there, and it is valid so far. -/
structure Ready (p : Program) (d : Draft) : Prop where
  indexed : d.graph.Indexed
  committed : ∀ pc, pc < p.length → d.graph.HasKind (committedId pc) .committed
  valid : d.graph.validate = .ok ()

/-- More contexts make no difference. -/
theorem Ready.withContexts (h : Ready p d) (contexts : Nat) : Ready p ⟨d.graph, contexts⟩ :=
  ⟨h.indexed, h.committed, h.valid⟩

theorem Ready.hasNode_committedId (h : Ready p d) {pc : Nat} (hpc : pc < p.length) :
    d.graph.hasNode (committedId pc) = true :=
  (h.committed pc hpc).hasNode h.indexed

theorem Ready.addNode {n : Node} (h : Ready p d) (hnew : d.graph.hasNode n.id = false) :
    ∃ d', d.addNode n = .ok d' ∧ Ready p d' := by
  have hnone : d.graph.index? n.id = none := by
    rwa [hasNode, Option.isSome_eq_false_iff, Option.isNone_iff_eq_none] at hnew
  obtain ⟨g, hg⟩ := h.indexed.exists_insertNode hnone
  have hadd : d.addNode n = .ok { d with graph := g } := bind_eq_ok_iff.2 ⟨g, hg, rfl⟩
  have hadds : Adds (fun _ => True) (fun _ => True) d { d with graph := g } :=
    adds_addNode trivial hadd
  refine ⟨_, hadd, h.indexed.insertNode hg,
    fun pc hpc => (h.committed pc hpc).of_grows h.indexed hadds.graph, ?_⟩
  refine validate_eq_ok_iff.2 fun l hl => validate_eq_ok_iff.1 h.valid l ?_
  -- links join nodes that were there before
  obtain ⟨hedge, hsource, htarget⟩ := mem_links_iff.1 hl
  rw [edge?_insertNode hg] at hedge
  obtain ⟨hhead, htail⟩ := h.indexed.joined _ _ _ hedge
  rw [node?_insertNode hg, if_neg hhead.ne] at hsource
  rw [node?_insertNode hg, if_neg htail.ne] at htarget
  exact mem_links_iff.2 ⟨hedge, hsource, htarget⟩

theorem Ready.connect {source target : String} (h : Ready p d) (kind : LinkKind)
    (label : Option String) (hsource : d.graph.hasNode source = true)
    (htarget : d.graph.hasNode target = true) (hkind : kind = .rollback →
      d.graph.HasKind source .speculative ∧ d.graph.HasKind target .committed) :
    ∃ d', d.connect source target kind label = .ok d' ∧ Ready p d' := by
  obtain ⟨head, n, hn, rfl⟩ := exists_node_of_hasNode h.indexed hsource
  obtain ⟨tail, m, hm, rfl⟩ := exists_node_of_hasNode h.indexed htarget
  unfold Draft.connect
  split
  · exact ⟨d, rfl, h⟩
  · next hnew =>
    have hnone : d.graph.graph.edge? head tail = none := by
      rw [hasEdge, h.indexed.index?_id hn, h.indexed.index?_id hm] at hnew
      simpa [Digraph.hasEdge] using hnew
    obtain ⟨g, hg, hedges⟩ := h.indexed.exists_insertEdge
      (l := ⟨head, n, tail, m, ⟨kind, label⟩⟩) hn hm hnone
    refine exists_ok_bind hg ⟨_, rfl, h.indexed.insertEdge hg, fun pc hpc => ?_, ?_⟩
    · obtain ⟨i, n', hn', hid⟩ := h.committed pc hpc
      exact ⟨i, n', (node?_insertEdge hg i).trans hn', hid⟩
    · refine validate_eq_ok_iff.2 fun l hl => ?_
      obtain ⟨hedge, hs, ht⟩ := mem_links_iff.1 hl
      dsimp only at hedge hs ht
      rw [node?_insertEdge hg] at hs ht
      rw [hedges] at hedge
      split at hedge
      · next heq =>
        -- the new link is a rollback only from a speculative to a committed node
        obtain ⟨hhead, htail⟩ := heq
        rw [hhead, hn] at hs
        rw [htail, hm] at ht
        have hlink := Option.some.inj hedge
        rw [Located.isPlaced, ← hlink, ← Option.some.inj hs, ← Option.some.inj ht]
        by_cases hrollback : kind = .rollback
        · obtain ⟨⟨i, n', hn', hid, hspec⟩, ⟨j, m', hm', hid', hcomm⟩⟩ := hkind hrollback
          rw [h.indexed.eq_of_id hn' hn hid, hn] at hn'
          rw [h.indexed.eq_of_id hm' hm hid', hm] at hm'
          rw [Option.some.inj hn', Option.some.inj hm', hspec, hcomm]
          simp
        · simp [hrollback]
      · exact validate_eq_ok_iff.1 h.valid l (mem_links_iff.2 ⟨hedge, hs, ht⟩)

theorem Ready.connectPc {source : String} {pc : Option Nat} (h : Ready p d) (kind : LinkKind)
    (label : Option String) (hsource : d.graph.hasNode source = true)
    (hpc : ∀ x, pc = some x → x < p.length)
    (hkind : kind = .rollback → d.graph.HasKind source .speculative) :
    ∃ d', d.connectPc source pc kind label = .ok d' ∧ Ready p d' := by
  unfold Draft.connectPc
  split
  · next x =>
    have hx := hpc x rfl
    exact h.connect kind label hsource (h.hasNode_committedId hx)
      fun hrollback => ⟨hkind hrollback, h.committed x hx⟩
  · exact ⟨d, rfl, h⟩

theorem lt_of_within? {pc x : Nat} (h : p.within? pc = some x) : x < p.length :=
  (Program.within?_eq_some_iff.1 h).2

theorem lt_of_next? {pc x : Nat} (h : p.next? pc = some x) : x < p.length := by
  unfold Program.next? at h
  exact lt_of_within? h

theorem hasNode_connectPc {source : String} {pc : Option Nat} {kind : LinkKind}
    {label : Option String} (h : d.connectPc source pc kind label = .ok d') (id : String) :
    d'.graph.hasNode id = d.graph.hasNode id := by
  unfold Draft.connectPc at h
  split at h
  · exact hasNode_connect h id
  · cases h
    rfl

/-! ## Committed control flow -/

/-- The links of an entry can be added, unless its target is not in the program. -/
theorem Ready.addFlow (h : Ready p d) (he : p.entry? e.pc = some e) :
    (p.fault? e = none ∧ ∃ d', addFlow p d e = .ok d' ∧ Ready p d') ∨
      ∃ err, p.fault? e = some err ∧ addFlow p d e = .error err := by
  have hpc : e.pc < p.length := (List.getElem?_eq_some_iff.1 he).1
  have hsource := h.hasNode_committedId hpc
  unfold Draft.addFlow
  dsimp only
  split
  · next target resolved hinstr =>
    rcases Program.jumpTarget_cases (p := p) hinstr with ⟨hnone, n, hn⟩ | ⟨err, herr, hn⟩
    · exact .inl ⟨hnone, exists_ok_bind hn
        (h.connectPc .committed _ hsource (fun _ => lt_of_within?) nofun)⟩
    · exact .inr ⟨err, herr, by rw [hn]; rfl⟩
  · next hinstr =>
    rcases Program.branchTarget_cases he (by rw [hinstr]; rfl) with ⟨hnone, n, hn⟩ | ⟨err, herr, hn⟩
    · refine .inl ⟨hnone, exists_ok_bind hn ?_⟩
      obtain ⟨d₁, h₁, hready⟩ := h.connectPc .committed (some "taken") hsource
        (fun _ (hx : p.within? n = some _) => lt_of_within? hx) nofun
      refine exists_ok_bind h₁ (hready.connectPc .committed _ ?_ (fun _ => lt_of_next?) nofun)
      rw [hasNode_connectPc h₁]
      exact hsource
    · exact .inr ⟨err, herr, by rw [hn]; rfl⟩
  · next hjmp hbeqz =>
    refine .inl ⟨?_, h.connectPc .committed _ hsource (fun _ => lt_of_next?) nofun⟩
    unfold Program.fault?
    cases hinstr : e.instr with
    | jmp target resolved => exact absurd hinstr (hjmp target resolved)
    | beqz cond label target => exact absurd hinstr (hbeqz cond label target)
    | _ => rfl

theorem Ready.foldlM_addFlow {es : List Entry} (h : Ready p d)
    (hes : ∀ e ∈ es, p.entry? e.pc = some e) :
    (es.findSome? p.fault? = none ∧ ∃ d', es.foldlM (Draft.addFlow p) d = .ok d' ∧ Ready p d') ∨
      ∃ err, es.findSome? p.fault? = some err ∧ es.foldlM (Draft.addFlow p) d = .error err := by
  induction es generalizing d with
  | nil => exact .inl ⟨rfl, d, rfl, h⟩
  | cons e es ih =>
    rw [List.findSome?_cons, List.foldlM_cons]
    rcases h.addFlow (hes e List.mem_cons_self) with ⟨hnone, d₁, h₁, hready⟩ | ⟨err, herr, h₁⟩
    · rw [hnone, h₁]
      exact ih hready fun e' he' => hes e' (List.mem_cons_of_mem _ he')
    · exact .inr ⟨err, by rw [herr], by rw [h₁]; rfl⟩

theorem foldlM_addNode_eq (ns : List Node) (d : Draft) :
    ns.foldlM Draft.addNode d = (d.graph.insertNodes ns).map fun g => { d with graph := g } := by
  unfold insertNodes
  induction ns generalizing d with
  | nil => rfl
  | cons n ns ih =>
    rw [List.foldlM_cons, List.foldlM_cons, Draft.addNode]
    cases d.graph.insertNode n with
    | error err => rfl
    | ok g => exact ih { d with graph := g }

/-- The nodes of the entries can be added, as these have different program counters. -/
theorem exists_committedNodes (hp : p.Numbered) :
    ∃ d, (p.entries.map committedNode).foldlM Draft.addNode empty = .ok d ∧ Ready p d := by
  have hdistinct : (p.entries.map committedNode).Pairwise fun a b => a.id ≠ b.id := by
    refine List.pairwise_map.2 (List.pairwise_iff_getElem.2 fun i j hi hj hlt hid => ?_)
    have hpc := committedId_inj.1 hid
    rw [hp i _ (List.getElem?_eq_getElem hi), hp j _ (List.getElem?_eq_getElem hj)] at hpc
    omega
  obtain ⟨g, hg, hindexed, hnodes, hedges⟩ :=
    Indexed.empty.exists_insertNodes (fun _ _ => by simp [index?, SpecGraph.empty]) hdistinct
  have hempty : (Draft.empty).graph.insertNodes (p.entries.map committedNode) = .ok g := hg
  refine ⟨{ empty with graph := g }, by rw [foldlM_addNode_eq, hempty]; rfl, hindexed,
    fun pc hpc => ?_, ?_⟩
  · have he : p.entry? pc = some (p.entries.get ⟨pc, hpc⟩) := List.getElem?_eq_getElem hpc
    refine ⟨pc, committedNode (p.entries.get ⟨pc, hpc⟩), ?_, ?_, rfl⟩
    · rw [← hindexed.getElem?_nodes, hnodes]
      show (p.entries.map committedNode)[pc]? = _
      rw [List.getElem?_map]
      exact congrArg _ he
    · show committedId (p.entries.get ⟨pc, hpc⟩).pc = committedId pc
      rw [hp pc _ he]
  · refine validate_eq_ok_iff.2 fun l hl => ?_
    have hedge := (mem_links_iff.1 hl).1
    rw [show g.graph.edge? l.head l.tail = none from hedges l.head l.tail] at hedge
    cases hedge

/-- Committed control flow can be built, unless the target of an entry is not in the program. -/
theorem committed_cases (hp : p.Numbered) :
    (p.entries.findSome? p.fault? = none ∧ ∃ d, Draft.committed p = .ok d ∧ Ready p d) ∨
      ∃ err, p.entries.findSome? p.fault? = some err ∧ Draft.committed p = .error err := by
  obtain ⟨d, hd, hready⟩ := exists_committedNodes hp
  unfold Draft.committed
  rw [hd]
  exact hready.foldlM_addFlow fun e he => hp.entry? he

/-! ## The light layout -/

theorem Adds.hasNode_eq {E : Edge → Prop} (h : Adds (fun _ => False) E d d') (id : String) :
    d'.graph.hasNode id = d.graph.hasNode id := by
  obtain ⟨hgrows, -⟩ := h
  generalize d'.graph = g' at hgrows ⊢
  induction hgrows with
  | refl => rfl
  | node _ mem _ _ => exact mem.elim
  | edge _ _ added ih => rw [hasNode, index?_insertEdge added, ← hasNode, ih]

/-- The markers of contexts that are not open yet are not there. -/
def MarkersAhead (d : Draft) : Prop :=
  ∀ context, d.contexts ≤ context →
    d.graph.hasNode (beginId context) = false ∧ d.graph.hasNode (endId context) = false

/-- The nodes of a pair of markers, which are the next ones. -/
theorem Ready.addMarkerNodes (h : Ready p d) (hahead : MarkersAhead d) (pc : Nat) :
    ∃ d₁ d₂, Draft.addNode ⟨d.graph, d.contexts + 1⟩ (beginNode pc d.contexts) = .ok d₁ ∧
      d₁.addNode (endNode pc d.contexts) = .ok d₂ ∧ Ready p d₂ ∧ MarkersAhead d₂ ∧
      d₂.graph.hasNode (beginId d.contexts) = true ∧
      d₂.graph.HasKind (endId d.contexts) .speculative := by
  obtain ⟨hbegin, hend⟩ := hahead d.contexts le_rfl
  obtain ⟨d₁, h₁, hr₁⟩ :=
    (h.withContexts (d.contexts + 1)).addNode (n := beginNode pc d.contexts) hbegin
  have hn₁ : ∀ id, d₁.graph.hasNode id = (decide (id = beginId d.contexts) ||
      d.graph.hasNode id) := fun id => hasNode_addNode h₁ id
  have hend₁ : d₁.graph.hasNode (endNode pc d.contexts).id = false := by
    show d₁.graph.hasNode (endId d.contexts) = false
    rw [hn₁, hend]
    simp [(beginId_ne_endId _ _).symm]
  obtain ⟨d₂, h₂, hr₂⟩ := hr₁.addNode hend₁
  have hn₂ : ∀ id, d₂.graph.hasNode id = (decide (id = endId d.contexts) ||
      (decide (id = beginId d.contexts) || d.graph.hasNode id)) := fun id => by
    rw [hasNode_addNode h₂, hn₁]
    rfl
  have hcontexts : d₂.contexts = d.contexts + 1 :=
    (adds_addNode (N := fun _ => True) (E := fun _ => True) trivial h₂).contexts.trans
      (adds_addNode (N := fun _ => True) (E := fun _ => True) trivial h₁).contexts
  refine ⟨d₁, d₂, h₁, h₂, hr₂, fun context hle => ?_, by rw [hn₂]; simp, ?_⟩
  · obtain ⟨hb, he⟩ := hahead context (by omega)
    have hne : context ≠ d.contexts := by omega
    rw [hn₂, hn₂, hb, he]
    simp [beginId_inj, endId_inj, beginId_ne_endId, (beginId_ne_endId _ _).symm, hne]
  · exact hasKind_addNode h₂

theorem Ready.addMarkers {pc taken : Nat} (h : Ready p d) (hahead : MarkersAhead d)
    (hpc : pc < p.length) (htaken : p.branchTarget pc = .ok taken) (mode : SpeculationMode) :
    ∃ d', d.addMarkers p mode pc = .ok d' ∧ Ready p d' ∧ MarkersAhead d' := by
  obtain ⟨d₁, d₂, h₁, h₂, hr₂, hahead₂, hbegin, hend⟩ := h.addMarkerNodes hahead pc
  -- from here on only links are added
  have ahead : ∀ {d'}, Adds (fun _ => False) (fun _ => True) d₂ d' → MarkersAhead d' := by
    intro d' hadds context hle
    rw [hadds.hasNode_eq, hadds.hasNode_eq]
    exact hahead₂ context (hadds.contexts ▸ hle)
  obtain ⟨d₃, h₃, hr₃⟩ :=
    hr₂.connect .speculative (some "mispredict") (hr₂.hasNode_committedId hpc) hbegin nofun
  have ha₃ : Adds (fun _ => False) (fun _ => True) d₂ d₃ := adds_connect trivial h₃
  obtain ⟨d₄, h₄, hr₄⟩ := hr₃.connectPc .speculative (some "taken")
    ((ha₃.hasNode_eq _).trans hbegin) (fun _ (hx : p.within? taken = some _) => lt_of_within? hx)
    nofun
  have ha₄ := ha₃.trans (adds_connectPc (fun _ _ => trivial) h₄)
  obtain ⟨d₅, h₅, hr₅⟩ := hr₄.connectPc .speculative (some "not-taken")
    ((ha₄.hasNode_eq _).trans hbegin) (fun _ (hx : p.next? pc = some _) => lt_of_next? hx) nofun
  have ha₅ := ha₄.trans (adds_connectPc (fun _ _ => trivial) h₅)
  obtain ⟨d₆, h₆, hr₆⟩ := hr₅.connect .speculative (some "squash") ((ha₅.hasNode_eq _).trans hbegin)
    ((ha₅.hasNode_eq _).trans (hend.hasNode hr₂.indexed)) nofun
  have ha₆ := ha₅.trans (adds_connect trivial h₆)
  unfold Draft.addMarkers
  refine exists_ok_bind h₁ (exists_ok_bind h₂ (exists_ok_bind h₃ (exists_ok_bind htaken
    (exists_ok_bind h₄ (exists_ok_bind h₅ (exists_ok_bind h₆ ?_))))))
  cases mode with
  | discard => exact ⟨d₆, rfl, hr₆, ahead ha₆⟩
  | stackGuard =>
    have hend₆ := hend.of_grows hr₂.indexed ha₆.graph
    obtain ⟨d₇, h₇, hr₇⟩ := hr₆.connect .rollback (some "rollback") (hend₆.hasNode hr₆.indexed)
      (hr₆.hasNode_committedId hpc) fun _ => ⟨hend₆, hr₆.committed pc hpc⟩
    exact ⟨d₇, h₇, hr₇, ahead (ha₆.trans (adds_connect trivial h₇))⟩

/-! ## The unrolled layout -/

theorem Ready.endPath (h : Ready p d) (mode : SpeculationMode) (source : String) (resume : Nat) :
    ∃ d', d.endPath p mode source resume = .ok d' ∧ Ready p d' := by
  unfold Draft.endPath
  split
  · exact ⟨d, rfl, h⟩
  · split
    · next i n hfind =>
      obtain ⟨hn, hid⟩ := h.indexed.find?_eq_some_iff.1 hfind
      split
      · next hspec =>
        have hsource : d.graph.HasKind source .speculative := ⟨i, n, hn, hid, eq_of_beq hspec⟩
        exact h.connectPc .rollback _ (hsource.hasNode h.indexed) (fun _ => lt_of_within?)
          fun _ => hsource
      · exact ⟨d, rfl, h⟩
    · exact ⟨d, rfl, h⟩

/-- The path goes on from a node that is there, and to an instruction of the program. -/
structure Pending.Grounded (p : Program) (d : Draft) (w : Pending) : Prop where
  source : d.graph.hasNode w.source = true
  pc : ∀ x, w.pc = some x → x < p.length

theorem Pending.Grounded.of_grows {N : Node → Prop} {E : Edge → Prop} {w : Pending}
    (h : w.Grounded p d) (hd : d.graph.Indexed) (hgrows : Grows N E d.graph d'.graph) :
    w.Grounded p d' :=
  ⟨hasNode_of_grows hgrows hd h.source, h.pc⟩

theorem grounded_of_branchOff {w w' : Pending} {pc b contexts : Nat} {on : Onward}
    (he : p.entry? pc = some e) (hon : onward p pc e.instr = .ok on)
    (hnode : d.graph.hasNode (unrolledId w.context pc) = true)
    (hw' : w' ∈ branchOff w pc b contexts on) : w'.Grounded p d := by
  obtain ⟨-, hsource, -, hsucc, -⟩ := of_mem_branchOff (Program.instr?_eq_some he) hon hw'
  refine ⟨?_, fun x hx => (Program.lt_of_mem_successors (hsucc x hx)).2⟩
  rw [hsource]
  exact hnode

/-- A path can be followed by an instruction. -/
theorem Ready.follow {w : Pending} (h : Ready p d) (hp : p.Numbered) (hf : p.Faultless)
    (hw : w.Grounded p d) (mode : SpeculationMode) :
    ∃ r, follow p mode d w = .ok r ∧ Ready p r.2 ∧ (∀ w' ∈ r.1, w'.Grounded p r.2) ∧
      Grows (fun _ => True) (fun _ => True) d.graph r.2.graph := by
  have none_left : ∀ {d'}, ∀ w' ∈ ([] : List Pending), w'.Grounded p d' :=
    fun _ hw' => absurd hw' List.not_mem_nil
  have hend : ∀ {d₁ d₂ : Draft} {source resume}, d₁.endPath p mode source resume = .ok d₂ →
      Grows (fun _ => True) (fun _ => True) d₁.graph d₂.graph := fun h₁ =>
    (adds_endPath_of (fun _ _ _ => trivial) h₁).graph
  unfold Draft.follow
  split
  · next pc b hpc hb =>
    dsimp only
    split
    · next hnode =>
      obtain ⟨d₁, h₁, hr₁⟩ := h.connect .speculative none hw.source hnode nofun
      exact exists_ok_bind h₁ ⟨_, rfl, hr₁, none_left, (adds_connect trivial h₁).graph⟩
    · next hnew =>
      have he : p.entry? pc = some (p.entries.get ⟨pc, hw.pc pc hpc⟩) :=
        List.getElem?_eq_getElem (hw.pc pc hpc)
      rw [he]
      dsimp only
      generalize p.entries.get ⟨pc, hw.pc pc hpc⟩ = e at he ⊢
      obtain ⟨d₁, h₁, hr₁⟩ := h.addNode (n := unrolledNode e pc w) (Bool.eq_false_iff.2 hnew)
      have hnode₁ : d₁.graph.hasNode (unrolledId w.context pc) = true := by
        rw [hasNode_addNode h₁]
        simp [unrolledNode, Node.withInstr]
      have ha₁ : Adds (fun _ => True) (fun _ => True) d d₁ := adds_addNode trivial h₁
      obtain ⟨d₂, h₂, hr₂⟩ := hr₁.connect .speculative none
        (hasNode_of_grows ha₁.graph h.indexed hw.source) hnode₁ nofun
      have ha₂ := ha₁.trans (adds_connect trivial h₂)
      obtain ⟨on, hon⟩ := hf.exists_onward hp he
      refine exists_ok_bind h₁ (exists_ok_bind h₂ (exists_ok_bind hon ?_))
      split
      · obtain ⟨d₃, h₃, hr₃⟩ := hr₂.endPath mode (unrolledId w.context pc) w.resume
        exact exists_ok_bind h₃ ⟨_, rfl, hr₃, none_left, ha₂.graph.trans (hend h₃)⟩
      · have hnode₂ : d₂.graph.hasNode (unrolledId w.context pc) = true := by
          rw [hasNode_connect h₂]
          exact hnode₁
        exact ⟨_, rfl, hr₂.withContexts _,
          fun w' hw' => grounded_of_branchOff he hon hnode₂ hw', ha₂.graph⟩
  · obtain ⟨d₁, h₁, hr₁⟩ := h.endPath mode w.source w.resume
    exact exists_ok_bind h₁ ⟨_, rfl, hr₁, none_left, hend h₁⟩

theorem Ready.unroll {stack : List Pending} (h : Ready p d) (hp : p.Numbered) (hf : p.Faultless)
    (hstack : ∀ w ∈ stack, w.Grounded p d) (mode : SpeculationMode) :
    ∃ d', unroll p mode d stack = .ok d' ∧ Ready p d' := by
  fun_induction Draft.unroll p mode d stack with
  | case1 d => exact ⟨d, rfl, h⟩
  | case2 d w rest err herr =>
    obtain ⟨r, hr, -⟩ := h.follow hp hf (hstack w List.mem_cons_self) mode
    rw [herr] at hr
    cases hr
  | case3 d w rest ws d₁ hfollow ih =>
    obtain ⟨r, hr, hr₁, hws, hgrows⟩ := h.follow hp hf (hstack w List.mem_cons_self) mode
    rw [hfollow] at hr
    cases hr
    refine ih hr₁ fun w' hw' => ?_
    rcases List.mem_append.1 hw' with hw' | hw'
    · exact hws w' hw'
    · exact (hstack w' (List.mem_cons_of_mem _ hw')).of_grows h.indexed hgrows

theorem Ready.addUnrolled {pc taken : Nat} (h : Ready p d) (hp : p.Numbered) (hf : p.Faultless)
    (hpc : pc < p.length) (htaken : p.branchTarget pc = .ok taken) (mode : SpeculationMode)
    (window : Nat) : ∃ d', d.addUnrolled p mode window pc = .ok d' ∧ Ready p d' := by
  have start : ∀ {d : Draft} {speculated resume : Nat}, Ready p d →
      ∀ w ∈ [firstPending p pc window d.contexts speculated resume],
        w.Grounded p ⟨d.graph, d.contexts + 1⟩ := by
    intro d speculated resume hr w hw
    rw [List.mem_singleton.1 hw]
    exact ⟨hr.hasNode_committedId hpc, fun x => lt_of_within?⟩
  obtain ⟨d₁, h₁, hr₁⟩ := (h.withContexts (d.contexts + 1)).unroll hp hf (start h) mode
  unfold Draft.addUnrolled
  exact exists_ok_bind htaken (exists_ok_bind h₁
    ((hr₁.withContexts (d₁.contexts + 1)).unroll hp hf (start hr₁) mode))

/-! ## Whole programs -/

theorem exists_committedId_of_hasNode {id : String} (h : Draft.committed p = .ok d)
    (hid : d.graph.hasNode id = true) : ∃ pc, id = committedId pc := by
  have hindexed := (isFlow_committed h).indexed
  obtain ⟨i, n, hn, rfl⟩ := exists_node_of_hasNode hindexed hid
  have hmem := hindexed.mem_nodes_iff.2 ⟨i, hn⟩
  rw [nodes_committed h] at hmem
  obtain ⟨e, -, rfl⟩ := List.mem_map.1 hmem
  exact ⟨e.pc, rfl⟩

theorem markersAhead_committed (h : Draft.committed p = .ok d) : MarkersAhead d := by
  have hnone : ∀ {id : String}, id.toList.head? = some 's' → d.graph.hasNode id = false := by
    intro id hs
    rw [Bool.eq_false_iff]
    intro hid
    obtain ⟨pc, rfl⟩ := exists_committedId_of_hasNode h hid
    exact committedId_ne hs rfl
  exact fun context _ => ⟨hnone (by simp [beginId]), hnone (by simp [endId])⟩

theorem Ready.foldlM_addSpeculation (h : Ready p d) (hd : Draft.committed p = .ok d)
    (hp : p.Numbered) (hf : p.Faultless) (o : BuildOptions) :
    ∃ d', (branches p).foldlM (addSpeculation p o) d = .ok d' ∧ Ready p d' := by
  have htarget : ∀ pc ∈ branches p, pc < p.length ∧ ∃ taken, p.branchTarget pc = .ok taken := by
    intro pc hpc
    obtain ⟨i, hi, -⟩ := (mem_branches_iff hp).1 hpc
    exact ⟨Program.lt_of_instr? hi, hf.exists_branchTarget hp hpc⟩
  unfold addSpeculation
  cases o.layout with
  | light =>
    obtain ⟨d', h', hr, -⟩ := exists_foldlM_ok (I := fun d => Ready p d ∧ MarkersAhead d)
      (fun pc hpc d hd => by
        obtain ⟨hlt, taken, htaken⟩ := htarget pc hpc
        exact hd.1.addMarkers hd.2 hlt htaken o.speculation) ⟨h, markersAhead_committed hd⟩
    exact ⟨d', h', hr⟩
  | unrolled =>
    refine exists_foldlM_ok (fun pc hpc d hd => ?_) h
    obtain ⟨hlt, taken, htaken⟩ := htarget pc hpc
    exact hd.addUnrolled hp hf hlt htaken o.speculation o.windowSize.toNat

theorem ofProgram_cases {o : BuildOptions} (hp : p.Numbered) (ho : 0 < o.windowSize) :
    (p.entries.findSome? p.fault? = none ∧ ∃ d, Draft.ofProgram p o = .ok d ∧ Ready p d) ∨
      ∃ err, p.entries.findSome? p.fault? = some err ∧ Draft.ofProgram p o = .error err := by
  unfold Draft.ofProgram
  rw [if_neg (by omega)]
  rcases committed_cases hp with ⟨hnone, d, hd, hr⟩ | ⟨err, herr, hd⟩
  · refine .inl ⟨hnone, exists_ok_bind hd ?_⟩
    exact hr.foldlM_addSpeculation hd hp (List.findSome?_eq_none_iff.1 hnone) o
  · exact .inr ⟨err, herr, by rw [hd]; rfl⟩

end Draft

theorem build_result (p : Program) (o : BuildOptions) :
    (build p o).result = (Draft.ofProgram p o).map (·.graph) := by
  unfold build
  cases Draft.ofProgram p o <;> rfl

/-- A source that has a graph is that of a program without faults. -/
theorem exists_ready_of_buildSource {source : String} {o : BuildOptions} {g : SpecGraph}
    (h : (buildSource source o).result = .ok g) :
    ∃ p d, Program.parse source = .ok p ∧ p.Faultless ∧ Draft.ofProgram p o = .ok d ∧
      d.graph = g ∧ Draft.Ready p d := by
  obtain ⟨p, hp⟩ := exists_parse_of_buildSource h
  obtain ⟨d, hd, rfl⟩ := exists_draft_of_parse hp h
  rcases Draft.ofProgram_cases (Program.numbered_of_parse hp) (windowSize_pos hd) with
    ⟨hnone, d', hd', hready⟩ | ⟨err, -, hd'⟩
  · cases hd.symm.trans hd'
    exact ⟨p, d, hp, List.findSome?_eq_none_iff.1 hnone, hd, rfl, hready⟩
  · cases hd.symm.trans hd'

/-- Rollbacks are laid only under the stack guard. -/
theorem guarded_of_ofProgram {p : Program} {o : BuildOptions} {d : Draft}
    (h : Draft.ofProgram p o = .ok d) {l : Located} (hl : l ∈ d.graph.links)
    (hkind : l.link.kind = .rollback) : o.speculation = .stackGuard := by
  obtain ⟨d₀, forks, hd₀, hgrows⟩ := Draft.exists_stages h
  have hflow := Draft.isFlow_committed hd₀
  rcases hgrows.edge?_cases hflow.indexed (mem_links_iff.1 hl).1 with hedge | ⟨e, he, hlink, -⟩
  · cases hkind.symm.trans (hflow.edge _ _ _ hedge)
  · exact Draft.guarded_of_specEdge he (hlink ▸ hkind)

/-- The faults of targets are no faults of the builder. -/
theorem errorClass_of_fault? {p : Program} {e : Entry} {err : Error} (h : p.fault? e = some err) :
    (∃ target, err = .unresolvedJump e.pc target) ∨
      ∃ fault, err = .source (.atLine e.sourceLine fault) := by
  unfold Program.fault? at h
  split at h
  · split at h
    · cases h
    · exact .inl ⟨_, (Option.some.inj h).symm⟩
  · exact .inl ⟨_, (Option.some.inj h).symm⟩
  · split at h
    · cases h
    · exact .inr ⟨_, (Option.some.inj h).symm⟩
  · exact .inr ⟨_, (Option.some.inj h).symm⟩
  · cases h

/-- A graph as it comes out of the builder. -/
structure WellBuilt (o : BuildOptions) (g : SpecGraph) : Prop where
  valid : g.validate = .ok ()
  distinct : g.nodes.Pairwise fun n m => n.id ≠ m.id
  rollbacks : ∀ l ∈ g.links, l.link.kind = .rollback → o.speculation = .stackGuard ∧
    l.source.kind = .speculative ∧ l.target.kind = .committed

/-- What building comes to. -/
structure BuildOutcome (p : Program) (o : BuildOptions) (result : Except Error SpecGraph) :
    Prop where
  window : (∃ size, result = .error (.invalidWindowSize size)) ↔ o.windowSize ≤ 0
  /-- With a window, the error is that of the first entry whose target is not in the program. -/
  fault : 0 < o.windowSize → ∀ err, result = .error err ↔
    ∃ before e after, p.entries = before ++ e :: after ∧ p.fault? e = some err ∧
      ∀ e' ∈ before, p.fault? e' = none
  built : 0 < o.windowSize → (∀ e ∈ p.entries, p.fault? e = none) → ∃ g, result = .ok g
  wellBuilt : ∀ g, result = .ok g → WellBuilt o g
  /-- The builder breaks no rule of graphs, and does not miss what it has laid itself. -/
  noFault : ∀ err, result = .error err → (∀ fault, err ≠ .graph fault) ∧
    (∀ index, err ≠ .vertexNotFound index) ∧ ∀ fault, err ≠ .internal fault

/-- Building fails for a window that is not positive, and otherwise for the first entry whose target
    is not in the program, and for nothing else. What is built is a valid graph, in which rollbacks
    lead from speculative to committed nodes, if there are any. -/
theorem outcome_build (p : Program) (o : BuildOptions) (hp : p.Numbered) :
    BuildOutcome p o (build p o).result := by
  rw [build_result]
  by_cases ho : o.windowSize ≤ 0
  · have hresult : Draft.ofProgram p o = .error (.invalidWindowSize o.windowSize) := by
      unfold Draft.ofProgram
      rw [if_pos ho]
    rw [hresult]
    refine ⟨⟨fun _ => ho, fun _ => ⟨_, rfl⟩⟩, fun hpos => by omega, fun hpos => by omega,
      fun g hg => (by cases hg), fun err herr => ?_⟩
    cases herr
    exact ⟨by simp, by simp, by simp⟩
  · have hpos : 0 < o.windowSize := by omega
    rcases Draft.ofProgram_cases hp hpos with ⟨hnone, d, hd, hr⟩ | ⟨err, herr, hd⟩
    · rw [hd]
      refine ⟨⟨?_, fun hle => absurd hle ho⟩, fun _ err => ⟨fun herr => (by cases herr),
        fun hfirst => ?_⟩, fun _ _ => ⟨_, rfl⟩, fun g hg => ?_, fun err herr => by cases herr⟩
      · rintro ⟨size, hsize⟩
        cases hsize
      · rw [← List.findSome?_eq_some_iff, hnone] at hfirst
        cases hfirst
      · cases hg
        refine ⟨hr.valid, hr.indexed.pairwise_nodes, fun l hl hkind => ?_⟩
        have hplaced := validate_eq_ok_iff.1 hr.valid l hl
        exact ⟨guarded_of_ofProgram hd hl hkind, by simpa [Located.isPlaced, hkind] using hplaced⟩
    · rw [hd]
      have hfirst := List.findSome?_eq_some_iff.1 herr
      obtain ⟨before, e, after, hentries, hfault, -⟩ := List.findSome?_eq_some_iff.1 herr
      have hclass := errorClass_of_fault? hfault
      refine ⟨⟨?_, fun hle => absurd hle ho⟩, fun _ err' => ?_, fun _ hall => ?_,
        fun g hg => (by cases hg), ?_⟩
      · rintro ⟨size, hsize⟩
        cases hsize
        rcases hclass with ⟨target, h⟩ | ⟨fault, h⟩ <;> cases h
      · rw [← List.findSome?_eq_some_iff, herr]
        exact ⟨fun h => congrArg some (Except.error.inj h), fun h => congrArg _ (Option.some.inj h)⟩
      · have hmem : e ∈ p.entries := by rw [hentries]; simp
        rw [hall e hmem] at hfault
        cases hfault
      · intro err' herr'
        cases herr'
        rcases hclass with ⟨target, rfl⟩ | ⟨fault, rfl⟩
        · exact ⟨by simp, by simp, by simp⟩
        · exact ⟨by simp, by simp, by simp⟩

/-- The target of the first jump is known only when the program runs, that of the second one is
    beyond the end. -/
def dangling : String := "beqz c, E\njmp r + 1\njmp 9\nE:"

def danglingProgram : Program := (Program.parse dangling).toOption.getD ⟨[], ∅⟩

/-- A loop with a way out to the end of the program. -/
def looping : String := "L: beqz c, E\nx <- 1\njmp L\nE:"

def loopingProgram : Program := (Program.parse looping).toOption.getD ⟨[], ∅⟩

theorem outcome_build_dangling :
    danglingProgram.Numbered ∧ loopingProgram.Numbered ∧
      (build danglingProgram {}).result = .error (.unresolvedJump 1 "r + 1") ∧
      ∃ g, (build loopingProgram ⟨3, .unrolled, .stackGuard⟩).result = .ok g ∧
        g.validate = .ok () := by
  have hdangling : danglingProgram.Numbered :=
    Program.numbered_of_parse (Program.parse_eq_ok (by decide +kernel))
  have hlooping : loopingProgram.Numbered :=
    Program.numbered_of_parse (Program.parse_eq_ok (by decide +kernel))
  have hfails := outcome_build danglingProgram {} hdangling
  have hbuilds := outcome_build loopingProgram ⟨3, .unrolled, .stackGuard⟩ hlooping
  have hfault : danglingProgram.entries.findSome? danglingProgram.fault? =
      some (.unresolvedJump 1 "r + 1") := by decide +kernel
  obtain ⟨g, hg⟩ := hbuilds.built (by decide) (by decide +kernel)
  exact ⟨hdangling, hlooping, (hfails.fault (by decide) _).2 (List.findSome?_eq_some_iff.1 hfault),
    g, hg, (hbuilds.wellBuilt g hg).valid⟩

end SpecGraph

end Mispredict
