/-
  Why an analysis fails.

  The reasons are listed by `SpecGraph.FailsFor`: a misplaced rollback, an entry that is not
  there, a window that is not positive, one of the two limits, and a node whose text stands
  for no instruction. What the machine looks up while it runs is always found: a point is
  queued only together with its state (`Supplied`), and a point that has a state has a node,
  since moves lead from nodes to nodes (`Stores.bounded`).

  The nodes of a graph that was built have their instructions at hand, and what is built is
  valid. So an analysis of a source fails in building for a reason that the source gives,
  and otherwise for its options only (`analysis_error_cases`).
-/
import Mispredict.Proofs.Buildable
import Mispredict.Proofs.Finite
import Mispredict.Proofs.Stored

namespace Mispredict

open MuAsm (Instr Program)
open Machine

namespace SpecGraph

/-! ## Reasons -/

/-- The reasons for which the analysis of a graph can fail. -/
inductive FailsFor (g : SpecGraph) (o : Options) : Error → Prop where
  /-- A rollback does not lead from a speculative to a committed node. -/
  | misplaced {l : Located} (mem : l ∈ g.links) (rollback : l.link.kind = .rollback)
      (place : ¬ (l.source.kind = .speculative ∧ l.target.kind = .committed)) :
      FailsFor g o (.graph (.misplacedRollback l.source.id l.target.id))
  | noEntry {id : String} (asked : o.entryNode = some id) (missing : g.hasNode id = false) :
      FailsFor g o (.graph (.missingEntry id))
  | noWindow (window : o.specWindow ≤ 0) : FailsFor g o (.invalidSpecWindow o.specWindow)
  | steps : FailsFor g o (.maxStepsExceeded o.maxSteps)
  | changes : FailsFor g o (.iterationCapExceeded o.iterationCap)
  /-- A node has only a text, which cannot be read. -/
  | unreadable {n : Node} {text : String} {e : MuAsm.SourceError} (mem : n ∈ g.nodes)
      (bare : n.instr = none) (shown : n.text = some text) (unread : Instr.parse text = .error e) :
      FailsFor g o (.unsupportedInstruction n.id e.message)

/-- Whatever is named or numbered in the graph can be looked up. -/
structure Resolves (g : SpecGraph) : Prop where
  /-- Every link joins two nodes. -/
  links : ∀ head tail link, (head, tail, link) ∈ g.graph.edges →
    ∃ l ∈ g.links, l.head = head ∧ l.tail = tail ∧ l.link = link
  /-- The links out of a node are found by its id. -/
  linksOut : ∀ i n, g.node? i = some n → g.linksOut n.id = .ok (g.linksFrom i)
  /-- Both ends of a link are found by their ids. -/
  ends : ∀ l ∈ g.links,
    g.find? l.source.id = some (l.head, l.source) ∧ g.find? l.target.id = some (l.tail, l.target)

variable {g : SpecGraph} {o : Options} {e : Error}

theorem FailsFor.errorClass (h : g.FailsFor o e) : e.errorClass ≠ .internal := by
  cases h <;> simp [Error.errorClass]

theorem Indexed.find?_of_node (hg : g.Indexed) {i : Nat} {n : Node} (h : g.node? i = some n) :
    g.find? n.id = some (i, n) :=
  hg.find?_eq_some_iff.2 ⟨h, rfl⟩

theorem Indexed.resolves (hg : g.Indexed) : g.Resolves where
  links := by
    intro head tail link hmem
    have hedge := Digraph.mem_edges_iff.1 hmem
    obtain ⟨hhead, htail⟩ := hg.joined _ _ _ hedge
    obtain ⟨n, hn⟩ := hg.exists_node hhead
    obtain ⟨n', hn'⟩ := hg.exists_node htail
    exact ⟨⟨head, n, tail, n', link⟩, mem_links_iff.2 ⟨hedge, hn, hn'⟩, rfl, rfl, rfl⟩
  linksOut := by
    intro i n hn
    unfold SpecGraph.linksOut
    rw [indexOf_eq_ok_iff.2 (hg.index?_id hn)]
    rfl
  ends := by
    intro l hl
    obtain ⟨-, hsource, htarget⟩ := mem_links_iff.1 hl
    exact ⟨hg.find?_of_node hsource, hg.find?_of_node htarget⟩

theorem failsFor_of_validate (h : g.validate = .error e) : g.FailsFor o e := by
  unfold validate at h
  split at h
  · next l hfind =>
    cases h
    have hbad : l.isPlaced = false := by simpa using List.find?_some hfind
    simp only [Located.isPlaced, Bool.or_eq_false_iff, bne_eq_false_iff_eq] at hbad
    refine .misplaced (List.mem_of_find?_eq_some hfind) hbad.1 ?_
    rintro ⟨hsource, htarget⟩
    simp [hsource, htarget] at hbad
  · cases h

end SpecGraph

open SpecGraph

theorem Setup.failsFor_of_entryKey {s : Setup} {e : Error} (hg : s.graph.Indexed)
    (h : s.entryKey = .error e) : s.graph.FailsFor s.options e := by
  unfold entryKey at h
  split at h
  · next id hid =>
    split at h
    · cases h
    · next hfind =>
      cases h
      refine .noEntry hid ?_
      rw [Bool.eq_false_iff]
      intro hnode
      obtain ⟨i, n, hn, rfl⟩ := exists_node_of_hasNode hg hnode
      rw [hg.find?_of_node hn] at hfind
      cases hfind
  · cases h

theorem Setup.failsFor_of_checkedEntry {s : Setup} {e : Error} (hg : s.graph.Indexed)
    (h : s.checkedEntry = .error e) : s.graph.FailsFor s.options e := by
  unfold checkedEntry at h
  cases hvalid : s.graph.validate with
  | error e' =>
    rw [hvalid] at h
    cases h
    exact failsFor_of_validate hvalid
  | ok _ =>
    rw [hvalid] at h
    by_cases hwindow : s.options.specWindow ≤ 0
    · simp only [hwindow, if_true] at h
      cases h
      exact .noWindow hwindow
    · simp only [hwindow, if_false] at h
      exact failsFor_of_entryKey hg h

theorem Node.failsFor_of_transfer {n : Node} {st : State} {mode : Mode} {g : SpecGraph}
    {o : Options} {e : Error} (hn : n ∈ g.nodes) (h : n.transfer st mode = .error e) :
    g.FailsFor o e := by
  unfold transfer executes at h
  split at h
  · cases h
  · next hinstr =>
    split at h
    · cases h
    · next text htext =>
      split at h
      · cases h
      · next e' hparse =>
        cases h
        exact .unreadable hn hinstr htext hparse

/-! ## Runs -/

namespace Machine

variable {s : Setup} {cap : Option Nat} {entry : Key} {m m' : Machine}

/-- Every point that is to be visited has a state. -/
def Supplied (m : Machine) : Prop := ∀ k ∈ m.queue.toList, ∃ st, m.table[k]? = some st

theorem supplied_start (s : Setup) (entry : Key) : (start s entry).Supplied := by
  intro k hk
  cases List.mem_singleton.1 (show k ∈ [entry] from hk)
  refine ⟨s.initial, ?_⟩
  rw [start, getElem?_insert_table, if_pos rfl]

theorem Supplied.mono (h : m.Supplied) (htable : m'.table = m.table)
    (hqueue : ∀ k ∈ m'.queue.toList, k ∈ m.queue.toList) : m'.Supplied := by
  intro k hk
  rw [htable]
  exact h k (hqueue k hk)

theorem Supplied.pass {target : Key} {new : State} {p : Progress} (h : m.Supplied)
    (hp : Progress.OfPass m target new p) : p.machine.Supplied := by
  have hstored : ∀ m' : Machine, m'.table = m.table.insert target new →
      (∀ k ∈ m'.queue.toList, k = target ∨ k ∈ m.queue.toList) → m'.Supplied := by
    intro m' htable hqueue k hk
    rw [htable, getElem?_insert_table]
    by_cases htarget : k = target
    · exact ⟨new, if_pos htarget⟩
    · rw [if_neg htarget]
      exact h k ((hqueue k hk).resolve_left htarget)
  cases hp with
  | settled => exact h
  | stored fresh table trace queue => exact hstored _ table fun k hk => (queue k).1 hk
  | capped fresh table trace queue => exact hstored _ table fun k hk => .inr (queue ▸ hk)

theorem Supplied.step {p : Progress} (h : m.Supplied) (hstep : Progress.OfStep s cap m p) :
    p.machine.Supplied := by
  cases hstep with
  | done => exact h
  | fails queue table => exact h.mono table fun k hk => queue ▸ List.mem_cons_of_mem _ hk
  | violates node held after violation table trace queue =>
    exact h.mono table fun k hk => queue ▸ List.mem_cons_of_mem _ hk
  | passes node held after violation queue table trace result =>
    rw [← result]
    refine propagateAll_keeps (fun target payload _ m₁ p h₁ hp => h₁.pass hp) ?_
    exact h.mono table fun k hk => queue ▸ List.mem_cons_of_mem _ hk

/-- Passing on stops at the limit on changes only. -/
theorem cap_of_propagateAll {out : State} {moves : List (Key × Payload)}
    {outcome : Except Error Verdict} (h : m.propagateAll s cap out moves = .stopped m' outcome) :
    ∃ limit, cap = some limit ∧ outcome = .error (.iterationCapExceeded limit) := by
  induction moves generalizing m with
  | nil => cases h
  | cons move moves ih =>
    obtain ⟨target, payload⟩ := move
    rw [propagateAll] at h
    split at h
    · exact ih h
    · next heq =>
      cases h
      unfold propagate at heq
      dsimp only at heq
      split at heq
      · cases heq
      · split at heq
        · split at heq
          · cases heq
            exact ⟨_, rfl, rfl⟩
          · cases heq
        · cases heq

/-- A step that stops with an error does so for one of the reasons. -/
theorem failsFor_of_step {e : Error} (hg : s.graph.Indexed) (hentry : s.InBounds entry)
    (hm : Accounted s entry m) (hs : m.Supplied)
    (h : Progress.OfStep s (some s.options.iterationCap) m (.stopped m' (.error e))) :
    s.graph.FailsFor s.options e := by
  cases h with
  | @fails _ k _ queue table trace cause =>
    -- the point has a state, and therefore a node
    obtain ⟨st, hst⟩ := hs k (queue ▸ List.mem_cons_self)
    obtain ⟨n, hn⟩ := ((hm.stored k st hst).bounded hentry).1.node
    rcases cause with hnode | ⟨n', hn', ⟨hnone, -⟩ | ⟨st', -, htransfer⟩⟩
    · rw [nodeAt, hn] at hnode
      cases hnode
    · rw [hst] at hnone
      cases hnone
    · exact n'.failsFor_of_transfer (hg.mem_nodes_iff.2 ⟨_, hn'⟩) htransfer
  | passes node held after violation queue table trace result =>
    obtain ⟨limit, hlimit, heq⟩ := cap_of_propagateAll result
    cases hlimit
    cases heq
    exact .changes

theorem failsFor_of_run {e : Error} (hg : s.graph.Indexed) (hentry : s.InBounds entry)
    (fuel : Nat)
    (h : ((start s entry).run s (some s.options.iterationCap)
      (.maxStepsExceeded s.options.maxSteps) fuel).outcome = .error e) :
    s.graph.FailsFor s.options e := by
  refine run_spec (P := fun m => Accounted s entry m ∧ m.Supplied)
    (Q := fun _ outcome => ∀ e, outcome = .error e → s.graph.FailsFor s.options e)
    ?_ ?_ ?_ fuel _ ⟨accounted_start s entry, supplied_start s entry⟩ e h
  · intro m m' hm hstep
    exact ⟨hm.1.step hstep, hm.2.step hstep⟩
  · intro m m' outcome hm hstep e he
    cases he
    exact failsFor_of_step hg hentry hm.1 hm.2 hstep
  · intro m _ e he
    cases he
    exact .steps

end Machine

/-- An analysis fails for one of the reasons. -/
theorem SpecGraph.Indexed.failsFor_of_outcome {g : SpecGraph} (hg : g.Indexed) {o : Options}
    {e : Error} (h : (Setup.of g o).run.outcome = .error e) : g.FailsFor o e := by
  cases hchecked : (Setup.of g o).checkedEntry with
  | error e' =>
    rw [Setup.run, hchecked] at h
    cases h
    exact Setup.failsFor_of_checkedEntry (s := Setup.of g o) hg hchecked
  | ok found =>
    cases found with
    | none =>
      rw [Setup.run, hchecked] at h
      cases h
    | some entry =>
      rw [Setup.run_of_entry hchecked] at h
      have hentry := Setup.inBounds_entry (Setup.entryKey_of_checkedEntry hchecked)
      exact failsFor_of_run (s := Setup.of g o) hg hentry _ h

/-- An error of a report is the error of the analysis. -/
theorem SpecGraph.exists_outcome_of_error {g : SpecGraph} {o : Options} {info : ErrorInfo}
    (h : (g.analyze o).result.error = some info) :
    ∃ e, (Setup.of g o).run.outcome = .error e ∧ info = e.info := by
  simp only [analyze, Report.ofFinished] at h
  split at h
  · cases h
  · next e he =>
    cases h
    exact ⟨e, he, rfl⟩

/-! ## Sources -/

namespace SpecGraph

/-- Building fails for a reason that the source or the options give. -/
inductive BuildFailsFor : Error → Prop where
  | source (e : MuAsm.SourceError) : BuildFailsFor (.source e)
  | jump (pc : Nat) (target : String) : BuildFailsFor (.unresolvedJump pc target)
  | window (size : Int) : BuildFailsFor (.invalidWindowSize size)

/-- A source has a graph, which can be analysed, or gives a reason why it has none. -/
theorem buildSource_cases (source : String) (b : BuildOptions) :
    (∃ e, (buildSource source b).result = .error e ∧ BuildFailsFor e) ∨
      ∃ g, (buildSource source b).result = .ok g ∧ g.Indexed ∧ g.validate = .ok () ∧
        ∀ n ∈ g.nodes, n.instr = none → n.text = none := by
  unfold buildSource
  cases hparse : Program.parse source with
  | error e => exact .inl ⟨_, rfl, .source e⟩
  | ok p =>
    dsimp only
    rw [build_result]
    by_cases hwindow : b.windowSize ≤ 0
    · refine .inl ⟨.invalidWindowSize b.windowSize, ?_, .window _⟩
      rw [Draft.ofProgram, if_pos hwindow]
      rfl
    · rcases Draft.ofProgram_cases (Program.numbered_of_parse hparse) (by omega : 0 < b.windowSize)
        with ⟨-, d, hd, hready⟩ | ⟨e, he, hd⟩
      · rw [hd]
        refine .inr ⟨d.graph, rfl, hready.indexed, hready.valid, fun n hn hbare => ?_⟩
        obtain ⟨-, htext⟩ | ⟨e, -, hinstr, -⟩ := Draft.instr_cases_of_ofProgram hd hn
        · exact htext
        · cases hbare.symm.trans hinstr
      · rw [hd]
        obtain ⟨entry, -, hfault⟩ := List.exists_of_findSome?_eq_some he
        refine .inl ⟨e, rfl, ?_⟩
        rcases errorClass_of_fault? hfault with ⟨target, rfl⟩ | ⟨fault, rfl⟩
        · exact .jump ..
        · exact .source _

end SpecGraph

/-- The error of an analysis of a source is one of building, or one of the options for the graph
    that was built. -/
theorem exists_error_of_analyzeSource {source : String} {b : BuildOptions} {o : Options}
    {info : ErrorInfo} (h : (analyzeSource source b o).result.error = some info) :
    ∃ e, info = e.info ∧ (BuildFailsFor e ∨ ∃ g, (buildSource source b).result = .ok g ∧
      g.FailsFor o e ∧ (∀ node detail, e ≠ .unsupportedInstruction node detail) ∧
      ∀ source target, e ≠ .graph (.misplacedRollback source target)) := by
  unfold analyzeSource at h
  rcases buildSource_cases source b with ⟨e, he, hfails⟩ | ⟨g, hg, hindexed, hvalid, hbound⟩
  · simp only [he, Report.failed] at h
    cases h
    exact ⟨e, rfl, .inl hfails⟩
  · simp only [hg] at h
    obtain ⟨e, he, rfl⟩ := exists_outcome_of_error h
    have hfails := hindexed.failsFor_of_outcome he
    refine ⟨e, rfl, .inr ⟨g, hg, hfails, ?_, ?_⟩⟩
    · rintro node detail rfl
      cases hfails with
      | unreadable mem bare shown unread =>
        rw [hbound _ mem bare] at shown
        cases shown
    · rintro source target rfl
      cases hfails with
      | misplaced mem rollback place =>
        have hplaced := validate_eq_ok_iff.1 hvalid _ mem
        refine place ?_
        simpa [Located.isPlaced, rollback] using hplaced

/-- What a report says of a source that could not be analysed. -/
theorem error_cases_of_analyzeSource {source : String} {b : BuildOptions} {o : Options}
    {info : ErrorInfo} (h : (analyzeSource source b o).result.error = some info) :
    info.errorClass ≠ .internal ∧
      (∀ node, info.detail ≠ some (.obj [("nodeId", .str node)])) ∧
      (info.errorClass = .parse → info.detail = none → ∃ g id,
        (buildSource source b).result = .ok g ∧ o.entryNode = some id ∧ g.hasNode id = false ∧
        info.message = (Error.graph (.missingEntry id)).message) := by
  obtain ⟨e, rfl, hfails | ⟨g, hg, hfails, hread, hplaced⟩⟩ := exists_error_of_analyzeSource h
  · cases hfails <;> simp [Error.info, Error.errorClass, Error.detail]
  · cases hfails with
    | misplaced => exact absurd rfl (hplaced _ _)
    | unreadable => exact absurd rfl (hread _ _)
    | noEntry asked missing =>
      exact ⟨by simp [Error.info, Error.errorClass], by simp [Error.info, Error.detail],
        fun _ _ => ⟨g, _, hg, asked, missing, rfl⟩⟩
    | noWindow | steps | changes => simp [Error.info, Error.errorClass, Error.detail]

/-- How the analysis of a graph can fail. -/
structure SpecGraph.FailsOrderly (g : SpecGraph) (o : Options) : Prop where
  resolves : g.Resolves
  notInternal : ∀ info, (g.analyze o).result.error = some info → info.errorClass ≠ .internal
  reason : ∀ info, (g.analyze o).result.error = some info → ∃ e, info = e.info ∧ g.FailsFor o e

/-- What the error of an analysis of a source can be. -/
structure SourceFailsFor (source : String) (b : BuildOptions) (o : Options) (e : Error) :
    Prop where
  notInternal : e.errorClass ≠ .internal
  readable : ∀ node detail, e ≠ .unsupportedInstruction node detail
  /-- A fault of the graph is the want of the node at which to start. -/
  noEntry : ∀ fault, e = .graph fault → ∃ g id, (buildSource source b).result = .ok g ∧
    o.entryNode = some id ∧ g.hasNode id = false ∧
    fault.message = (GraphFault.missingEntry id).message

/-- The analysis of a graph fails for one of the reasons, whichever calls have put the graph
    together, since all that it looks up is there. The error is not an internal one.

    The analysis of a source does not fail for an internal error, nor for an instruction that cannot
    be read, and for a fault of the graph only if it is to start at a node that is not there. -/
theorem analysis_error_cases :
    (∀ (calls : List Insertion) (o : Options), (ofInsertions calls).FailsOrderly o) ∧
      ∀ (source : String) (b : BuildOptions) (o : Options) (e : Error),
        (analyzeSource source b o).result.error = some e.info → SourceFailsFor source b o e := by
  refine ⟨fun calls o => ?_, fun source b o e h => ?_⟩
  · have hindexed := indexed_ofInsertions calls
    have hreason : ∀ info, ((ofInsertions calls).analyze o).result.error = some info →
        ∃ e, info = e.info ∧ (ofInsertions calls).FailsFor o e := by
      intro info h
      obtain ⟨e, he, rfl⟩ := exists_outcome_of_error h
      exact ⟨e, rfl, hindexed.failsFor_of_outcome he⟩
    refine ⟨hindexed.resolves, fun info h => ?_, hreason⟩
    obtain ⟨e, rfl, hfails⟩ := hreason info h
    exact hfails.errorClass
  · obtain ⟨hclass, hdetail, hgraph⟩ := error_cases_of_analyzeSource h
    refine ⟨hclass, ?_, ?_⟩
    · rintro node detail rfl
      exact hdetail node rfl
    · rintro fault rfl
      obtain ⟨g, id, hg, hid, hnode, hmessage⟩ := hgraph rfl rfl
      exact ⟨g, id, hg, hid, hnode, (String.append_right_inj _).1 hmessage⟩

/-- Two nodes and a link; a second link has no end and is not added. The text of the second node is
    that of no instruction. -/
def unread : List Insertion :=
  [.node { id := "n0", pc := 0, kind := .committed, text := some "x <- 1" },
    .node { id := "n1", pc := 1, kind := .committed, text := some "goto 0" },
    .edge ⟨"n0", "n1", ⟨.committed, none⟩⟩, .edge ⟨"n1", "n2", ⟨.committed, none⟩⟩]

theorem analysis_error_cases_unread :
    ((ofInsertions unread).analyze {}).result.error =
        some (Error.unsupportedInstruction "n1" "Expected `<-`, found `0`").info ∧
      (∃ e, (Error.unsupportedInstruction "n1" "Expected `<-`, found `0`").info = e.info ∧
        (ofInsertions unread).FailsFor {} e) ∧
      (analyzeSource "skip" {} { entryNode := some "n7" }).result.error =
        some (Error.graph (.missingEntry "n7")).info ∧
      ∃ g id, (buildSource "skip" {}).result = .ok g ∧ some "n7" = some id ∧
        g.hasNode id = false := by
  have hunread : ((ofInsertions unread).analyze {}).result.error =
      some (Error.unsupportedInstruction "n1" "Expected `<-`, found `0`").info := by
    decide +kernel
  have hentry : (analyzeSource "skip" {} { entryNode := some "n7" }).result.error =
      some (Error.graph (.missingEntry "n7")).info := by
    decide +kernel
  obtain ⟨hgraphs, hsources⟩ := analysis_error_cases
  obtain ⟨g, id, hg, hid, hnode, -⟩ := (hsources _ _ _ _ hentry).noEntry _ rfl
  exact ⟨hunread, (hgraphs unread {}).reason _ hunread, hentry, g, id, hg, hid, hnode⟩

end Mispredict
