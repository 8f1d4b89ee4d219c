/-
  Rollbacks in unrolled graphs.

  The nodes of a mispredicted path belong to a fork: a branch, and the direction in which
  committed execution goes on while the other one is followed. The path is entered at the
  branch only. The branch passes its state on in the order of the nodes, and committed nodes
  come first, so that the point at which committed execution resumes is reached before any
  point of the path (`Moment.resumes`). When the path rolls back, the point has a state: in
  whatever order points are visited, nothing is invented (`Stages.not_invents_unrolled`).
-/
import Mispredict.Proofs.Flow
import Mispredict.Proofs.Invention
import Mispredict.Proofs.Reached

namespace Mispredict

open MuAsm (Program)

namespace SpecGraph.Draft

variable {p : Program} {forks : List Fork} {f : Fork}

/-- A node of a mispredicted path belongs to the fork of its context. -/
theorem Fork.Has.owner {context pc : Nat} (h : f.Has forks (unrolledId context pc)) :
    forks[context]? = some f := by
  generalize hid : unrolledId context pc = id at h
  cases h with
  | branch => exact absurd hid.symm (committedId_ne (by simp [unrolledId]))
  | path owner => exact context_of_unrolledId hid ▸ owner

/-- A committed node belongs to a fork only as its branch. -/
theorem Fork.Has.eq_branch {pc : Nat} (h : f.Has forks (committedId pc)) : pc = f.branch := by
  generalize hid : committedId pc = id at h
  cases h with
  | branch => exact committedId_inj.1 hid
  | path => exact absurd hid (committedId_ne (by simp [unrolledId]))

/-- Committed execution resumes in one of the directions of the branch. -/
theorem Fork.Of.resumes_at (hf : f.Of p) {x : Nat} (hx : p.within? f.resume = some x) :
    ∃ taken, p.branchTarget f.branch = .ok taken ∧
      (p.within? taken = some x ∨ p.next? f.branch = some x) := by
  obtain ⟨taken, htaken, hresume⟩ := hf.resume
  refine ⟨taken, htaken, hresume.imp (fun heq => by rw [← heq, hx]) fun heq => ?_⟩
  have hlt : f.branch < p.length := by
    rw [heq, Program.within?] at hx
    split at hx
    · omega
    · cases hx
  rw [Program.next?_of_lt hlt, ← heq, hx]

/-- A speculative link follows a mispredicted path within its fork. -/
theorem UnrolledEdge.of_speculative {mode : SpeculationMode} {e : Edge}
    (h : UnrolledEdge p mode forks e) (hkind : e.link.kind = .speculative) :
    ∃ f context pc, forks[context]? = some f ∧ f.Has forks e.source ∧
      e.target = unrolledId context pc := by
  cases h with
  | path owner start => exact ⟨_, _, _, owner, start, rfl⟩
  | rollback => cases hkind

/-- A rollback leads to where the fork resumes. -/
theorem UnrolledEdge.of_rollback {mode : SpeculationMode} {e : Edge}
    (h : UnrolledEdge p mode forks e) (hkind : e.link.kind = .rollback) :
    ∃ f x, Fork.Of p f ∧ f.Has forks e.source ∧ p.within? f.resume = some x ∧
      e.target = committedId x := by
  cases h with
  | path => cases hkind
  | rollback fork start resume => exact ⟨_, _, fork, start, resume, rfl⟩

end SpecGraph.Draft

/-- What a committed point passes on to committed points it passes on first: they have smaller
    numbers than speculative ones. -/
theorem Machine.Moment.reached_of_lt {s : Setup} {cap : Option Nat} {entry k target : Key}
    {m : Machine} {out : State} {payload : Payload} {rest : List (Key × Payload)}
    (h : Moment s cap entry m k out ((target, payload) :: rest)) (hmode : k.mode = .committed)
    {move : Key × Payload} (hmove : move ∈ s.moves k) (hlt : move.1.node < target.node) :
    m.Reached move.1 := by
  rcases h.progress with ⟨-, -, hnil⟩ | ⟨done, hmoves, hdone⟩
  · cases hnil
  · have horder := s.pairwise_moves hmode
    rw [hmoves] at hmove horder
    rcases List.mem_append.1 hmove with hmove | hmove
    · exact hdone move hmove
    · have hle : target.node ≤ move.1.node := by
        rcases List.mem_cons.1 hmove with rfl | hmove
        · exact le_rfl
        · exact (List.rel_of_pairwise_cons (List.pairwise_append.1 horder).2.1 hmove).le
      omega

namespace SpecGraph

open Draft Machine

variable {p : Program} {mode : SpeculationMode} {forks : List Fork} {c g : SpecGraph} {o : Options}
  {cap : Option Nat} {entry k : Key} {m : Machine} {out : State} {rest : List (Key × Payload)}

/-- The points of mispredicted paths are speculative nodes, and where committed execution resumes
    after the fork of such a node has been reached. -/
def Resumes (p : Program) (forks : List Fork) (c g : SpecGraph) (m : Machine) : Prop :=
  ∀ q, m.Reached q → q.mode = .speculative →
    ∃ n, g.node? q.node = some n ∧ n.kind = .speculative ∧
      ∀ f : Fork, f.Of p → f.Has forks n.id → ∀ x, p.within? f.resume = some x →
        ∀ j, c.index? (committedId x) = some j → m.Reached ⟨j, .committed, []⟩

namespace Stages

variable (h : Stages p (UnrolledNode p) (UnrolledEdge p mode forks) c g)

include h

/-- A speculative link leads to a node of a mispredicted path, of the same fork. -/
theorem unrolled_of_speculative {i : Nat} {l : Located} (hl : l ∈ g.linksFrom i)
    (hkind : l.link.kind = .speculative) :
    l.target.kind = .speculative ∧
      ∀ f : Fork, f.Has forks l.target.id → f.Has forks l.source.id := by
  obtain ⟨f, context, pc, owner, start, hid⟩ :=
    (h.mem_of_link hl (by rw [hkind]; nofun)).of_speculative hkind
  have hid : l.target.id = unrolledId context pc := hid
  refine ⟨?_, fun f' hf' => ?_⟩
  · rcases h.node_cases (mem_linksFrom_iff.1 hl).2.2.2 with hn | ⟨pc, e, w, -, hn⟩
    · obtain ⟨e, -, hn⟩ := h.exists_entry hn
      rw [hn] at hid
      exact absurd hid (committedId_ne (by simp [unrolledId]))
    · rw [hn]
      rfl
  · rw [hid] at hf'
    cases owner.symm.trans hf'.owner
    exact start

/-- No context has an end. -/
theorem marker_of_unrolled {i : Nat} {n : Node} (hn : g.node? i = some n) : n.marker = none := by
  rcases h.node_cases hn with hn | ⟨pc, e, w, -, rfl⟩
  · exact h.core.unmarked hn
  · rfl

/-- Committed execution resumes at an instruction that can follow the branch. -/
theorem linked_of_fork {f : Fork} (hf : f.Of p) {x : Nat} (hx : p.within? f.resume = some x) :
    c.Linked (committedId f.branch) (committedId x) := by
  obtain ⟨taken, htaken, hgoes⟩ := hf.resumes_at hx
  exact h.linked_branch hf.branch htaken hgoes

/-- Nodes of mispredicted paths come after the committed ones. -/
theorem numNodes_le_of_speculative {i : Nat} {n : Node} (hn : g.node? i = some n)
    (hkind : n.kind = .speculative) : c.numNodes ≤ i := by
  by_contra hlt
  obtain ⟨n', hn'⟩ := h.core.flow.indexed.exists_node (not_le.1 hlt)
  obtain ⟨hn', hkind'⟩ := h.core.node.1 hn'
  cases hn.symm.trans hn'
  cases hkind.symm.trans hkind'

/-- Where committed execution resumes is reached before the mispredicted path. -/
theorem resumes (hvalid : g.validate = .ok ()) (hentry : (Setup.of c o).entryKey = .ok (some entry))
    (hm : Moment (Setup.of g o) cap entry m k out rest) : Resumes p forks c g m := by
  induction hm with
  | start =>
    intro q hq hmode
    rw [reached_start.1 hq, (h.core.exists_node_of_entryKey hentry).1] at hmode
    cases hmode
  | visit before visiting ih =>
    intro q hq hmode
    obtain ⟨n, hn, hkind, hresume⟩ := ih q (reached_visited.1 hq) hmode
    exact ⟨n, hn, hkind, fun f hf hhas x hx j hj =>
      reached_visited.2 (hresume f hf hhas x hx j hj)⟩
  | @pass m m' k target out payload rest before running ih =>
    have hstay : ∀ {q}, m.Reached q → m'.Reached q :=
      fun hq => (reached_iff_of_running running).2 (.inr hq)
    intro q hq hmode
    rcases (reached_iff_of_running running).1 hq with rfl | hq
    · have hmove := before.accounted.2.moves _ List.mem_cons_self
      obtain ⟨n, i, hn, -, ⟨-, -, -, index, e, hend, -⟩ | ⟨l, hl, hlink, -⟩⟩ :=
        Setup.moves_cases hmove
      · obtain ⟨context, -, -, -, he, hmarker⟩ := Setup.node_of_contextEnd? hend
        rw [h.marker_of_unrolled he] at hmarker
        cases hmarker
      · obtain ⟨hhead, -, hsource, htarget⟩ := mem_linksFrom_iff.1 hl
        cases hlink with
        | committed kind =>
          -- there are no committed links on a mispredicted path
          obtain ⟨n', hn', hkind, -⟩ := ih k before.reached_self hmode
          rw [hhead] at hsource
          cases hsource.symm.trans hn'
          obtain ⟨-, -, hc, -⟩ := mem_linksFrom_iff.1 (h.core.mem_linksFrom hl kind)
          cases hkind.symm.trans (h.core.node.1 hc).2
        | speculative kind =>
          obtain ⟨hkind, hforks⟩ := h.unrolled_of_speculative hl kind
          refine ⟨l.target, htarget, hkind, fun f hf hhas x hx j hj => hstay ?_⟩
          rw [hhead] at hsource
          cases hk : k.mode with
          | committed =>
            obtain ⟨heq, n', hn'⟩ :=
              h.core.committed_of_reached hvalid hentry before before.reached_self hk
            cases hsource.symm.trans (h.core.node.1 hn').1
            have hbranch : c.index? (committedId f.branch) = some k.node := by
              obtain ⟨e, -, he⟩ := h.exists_entry hn'
              have hhas := hforks f hhas
              rw [he] at hhas
              rw [← hhas.eq_branch, ← h.core.flow.indexed.index?_id hn', he]
              rfl
            have hlt : j < l.tail := (h.core.flow.indexed.lt_of_index? hj).trans_le
              (h.numNodes_le_of_speculative htarget hkind)
            have hmove := h.mem_moves (o := o) (h.linked_of_fork hf hx) hbranch hj
            rw [← heq] at hmove
            exact before.reached_of_lt hk hmove hlt
          | speculative =>
            obtain ⟨n', hn', -, hresume⟩ := ih k before.reached_self hk
            cases hsource.symm.trans hn'
            exact hresume f hf (hforks f hhas) x hx j hj
        | rollback => cases hmode
    · obtain ⟨n, hn, hkind, hresume⟩ := ih q hq hmode
      exact ⟨n, hn, hkind, fun f hf hhas x hx j hj => hstay (hresume f hf hhas x hx j hj)⟩

/-- In unrolled graphs rollbacks invent nothing. -/
theorem not_invents_unrolled (hvalid : g.validate = .ok ())
    (hentry : (Setup.of c o).entryKey = .ok (some entry)) (q : Key) :
    ¬ Invents (Setup.of g o) cap entry q := by
  intro hinvents
  obtain ⟨m, k, out, rest, l, hm, hk, hl, kind, htarget, rfl, hnone⟩ :=
    h.core.exists_rollback hvalid hentry hinvents
  obtain ⟨hhead, -, hsource, -⟩ := mem_linksFrom_iff.1 hl
  obtain ⟨n, hn, -, hresume⟩ := h.resumes hvalid hentry hm k hm.reached_self hk
  rw [hhead] at hsource
  cases hsource.symm.trans hn
  obtain ⟨f, x, hf, hhas, hx, hid⟩ :=
    (h.mem_of_link hl (by rw [kind]; nofun)).of_rollback kind
  refine hnone (hresume f hf hhas x hx l.tail ?_)
  rw [← show l.target.id = committedId x from hid]
  exact h.core.flow.indexed.index?_id htarget

end Stages

end SpecGraph

end Mispredict
