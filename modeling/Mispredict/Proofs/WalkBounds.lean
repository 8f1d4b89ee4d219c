/-
  Bounds on mispredicted paths.

  A path closes a loop where it comes back to a node of its context, so that walks of speculative
  links need not end. But they do not come far: the nodes of a context were laid with
  different budgets, and what follows a branch was laid with less than all that came before
  (`Dearer`). So a walk comes to no more nodes than there are instructions in the window
  (`IsCharted.card_toFinset_le`), and if no path closes a loop, the window bounds the walks
  themselves.

  Under the stack guard every path that ends is rolled back. A path that closes a loop does not
  end. Where no loop can be reached, walks cannot go on for ever, and so they come to a
  rollback (`IsCharted.exists_rollsBack`).
-/
import Mathlib.Data.Finset.Card
import Mathlib.Data.List.Duplicate
import Mathlib.Order.Interval.Finset.Nat
import Mispredict.Proofs.Walks

namespace Mispredict

open MuAsm (Program)

/-- All that can follow the instruction at `pc` is inside the program. -/
def MuAsm.Program.KeepsInside (p : Program) (pc : Nat) : Prop :=
  ∀ instr ∈ p.instr? pc, ∀ x ∈ instr.goesTo pc, x < p.length

instance (p : Program) (pc : Nat) : Decidable (p.KeepsInside pc) :=
  inferInstanceAs (Decidable (∀ instr ∈ p.instr? pc, ∀ x ∈ instr.goesTo pc, x < p.length))

namespace SpecGraph

/-- A rollback leaves the node with this number. -/
def RollsBack (g : SpecGraph) (i : Nat) : Prop :=
  ∃ j, (g.graph.edge? i j).map (·.kind) = some .rollback

/-! ## Long walks -/

section Loops

variable {g : SpecGraph} {u v : Nat} {is : List Nat}

/-- As long as there is a way on, walks can be of any length. -/
theorem exists_isChain_of_serial {P : Nat → Prop} (hnext : ∀ v, P v → ∃ u, g.SpecLinked v u ∧ P u)
    (hv : P v) (n : Nat) : ∃ is, is.length = n ∧ (v :: is).IsChain g.SpecLinked := by
  induction n generalizing v with
  | zero => exact ⟨[], rfl, .singleton v⟩
  | succ n ih =>
    obtain ⟨u, hvu, hu⟩ := hnext v hv
    obtain ⟨is, hlen, hchain⟩ := ih hu
    exact ⟨u :: is, congrArg (· + 1) hlen, .cons_cons hvu hchain⟩

/-- From a node before a loop there are walks of any length. -/
theorem exists_isChain_of_loop (hloop : Relation.TransGen g.SpecLinked u u)
    (hv : Relation.ReflTransGen g.SpecLinked v u) (n : Nat) :
    ∃ is, is.length = n ∧ (v :: is).IsChain g.SpecLinked := by
  refine exists_isChain_of_serial (P := fun v => Relation.ReflTransGen g.SpecLinked v u)
    (fun v hv => ?_) hv n
  rcases hv.cases_head with rfl | ⟨w, hvw, hwu⟩
  · obtain ⟨w, hvw, hwu⟩ := Relation.TransGen.head'_iff.1 hloop
    exact ⟨w, hvw, hwu⟩
  · exact ⟨w, hvw, hwu⟩

/-- A walk that comes to a node twice goes round a loop. -/
theorem exists_loop_of_not_nodup (hchain : (v :: is).IsChain g.SpecLinked)
    (htwice : ¬ (v :: is).Nodup) :
    ∃ u, Relation.ReflTransGen g.SpecLinked v u ∧ Relation.TransGen g.SpecLinked u u := by
  obtain ⟨u, hu⟩ := List.exists_duplicate_iff_not_nodup.2 htwice
  have hpair : (v :: is).Pairwise (Relation.TransGen g.SpecLinked) :=
    List.isChain_iff_pairwise.1 (hchain.imp fun _ _ => .single)
  refine ⟨u, ?_, ?_⟩
  · rcases List.mem_cons.1 hu.mem with rfl | hmem
    · exact .refl
    · exact (List.rel_of_pairwise_cons hpair hmem).to_reflTransGen
  · exact List.rel_of_pairwise_cons (hpair.sublist (List.duplicate_iff_sublist.1 hu))
      List.mem_cons_self

end Loops

/-- The node `j` belongs to the context of `i`, or to one in which all nodes were laid with less
    than those of the context of `i`. -/
def Dearer (g : SpecGraph) (budget : Nat → Nat → Nat) (i j : Nat) : Prop :=
  ∀ context x, g.index? (unrolledId context x) = some i →
    ∃ context' y, g.index? (unrolledId context' y) = some j ∧ (context = context' ∨
      ∀ x y, g.Laid context x → g.Laid context' y → budget context' y < budget context x)

theorem laid_of_index? {g : SpecGraph} {context x i : Nat}
    (h : g.index? (unrolledId context x) = some i) : g.Laid context x := by
  rw [Laid, hasNode, h]
  rfl

theorem Linked.exists_source {g : SpecGraph} {source target : String}
    (h : g.Linked source target) : ∃ i, g.index? source = some i := by
  obtain ⟨i, -, -, hi, -⟩ := h
  exact ⟨i, hi⟩

theorem Dearer.refl {g : SpecGraph} {budget : Nat → Nat → Nat} {i : Nat} : g.Dearer budget i i :=
  fun context x hi => ⟨context, x, hi, .inl rfl⟩

theorem Dearer.trans {g : SpecGraph} {budget : Nat → Nat → Nat} {i j k : Nat}
    (hij : g.Dearer budget i j) (hjk : g.Dearer budget j k) : g.Dearer budget i k := by
  intro context x hi
  obtain ⟨context', y, hj, hcases⟩ := hij context x hi
  obtain ⟨context'', z, hk, hcases'⟩ := hjk context' y hj
  refine ⟨context'', z, hk, ?_⟩
  rcases hcases with rfl | hless
  · exact hcases'
  · rcases hcases' with rfl | hless'
    · exact .inr hless
    · exact .inr fun x' z' hx' hz' =>
        (hless' y z' (laid_of_index? hj) hz').trans (hless x' y hx' (laid_of_index? hj))

/-- The node belongs to a context that was opened in speculation on the fork. -/
def InFork (g : SpecGraph) (openings : List Draft.Opening) (f : Draft.Fork) (i : Nat) : Prop :=
  ∃ context x o, g.index? (unrolledId context x) = some i ∧ openings[context]? = some o ∧
    o.fork = f

namespace IsCharted

variable {p : Program} {mode : SpeculationMode} {window : Nat} {forks : List Draft.Fork}
  {openings : List Draft.Opening} {budget : Nat → Nat → Nat} {c : SpecGraph} {d : Draft}
  {i j v pc context x y : Nat} {is : List Nat} {f : Draft.Fork}
  (h : IsCharted p mode window forks openings budget c d)

include h

/-! ## How many nodes walks come to -/

theorem dearer_of_specLinked (hlinked : d.graph.SpecLinked i j) : d.graph.Dearer budget i j := by
  intro context x hi
  obtain ⟨context', y, hj, hlinked⟩ := h.linked_of_specLinked hlinked hi
  refine ⟨context', y, hj, ?_⟩
  have henters := h.charts.opened.link _ _ _ hlinked
  generalize hsource : unrolledId context x = source at henters
  cases henters with
  | within laid plain => exact .inl (unrolledId_inj.1 hsource).1
  | opens opened =>
    obtain ⟨-, hlaid, hbranch, -⟩ := h.charts.opened.outer opened hsource.symm
    refine .inr fun x' y' hx' hy' => ?_
    calc budget context' y'
        < budget context x := h.charts.spends.inner _ y' _ _ _ hy' opened hsource.symm
      _ ≤ budget context x' := h.charts.spends.last _ x x' hlaid hbranch hx'

theorem pairwise_dearer (hchain : is.IsChain d.graph.SpecLinked) :
    is.Pairwise (d.graph.Dearer budget) := by
  have : IsTrans Nat (d.graph.Dearer budget) := ⟨fun _ _ _ => Dearer.trans⟩
  exact List.isChain_iff_pairwise.1 (hchain.imp fun _ _ => h.dearer_of_specLinked)

/-- A walk comes to nodes of mispredicted paths only. -/
theorem exists_index?_of_isChain (hchain : (i :: is).IsChain d.graph.SpecLinked) :
    ∀ j ∈ is, ∃ context x, d.graph.index? (unrolledId context x) = some j := by
  induction is generalizing i with
  | nil => exact fun _ hj => absurd hj List.not_mem_nil
  | cons k is ih =>
    obtain ⟨hik, hchain⟩ := List.isChain_cons_cons.1 hchain
    intro j hj
    rcases List.mem_cons.1 hj with rfl | hj
    · obtain ⟨-, context, x, -, hk, -⟩ := h.specLinked_iff.1 hik
      exact ⟨context, x, hk⟩
    · exact ih hchain j hj

/-- Whichever of two nodes of a walk comes first, what comes after it was laid with less. -/
theorem dearer_or_dearer (hchain : is.IsChain d.graph.SpecLinked) (hi : i ∈ is) (hj : j ∈ is) :
    d.graph.Dearer budget i j ∨ d.graph.Dearer budget j i := by
  have : Std.Symm fun i j => d.graph.Dearer budget i j ∨ d.graph.Dearer budget j i :=
    ⟨fun _ _ => Or.symm⟩
  have hpair : is.Pairwise fun i j => d.graph.Dearer budget i j ∨ d.graph.Dearer budget j i :=
    (h.pairwise_dearer hchain).imp .inl
  exact hpair.forall_of_forall (fun _ _ => .inl .refl) hi hj

theorem eq_of_budget_eq {context x context' y : Nat} (hij : d.graph.Dearer budget i j)
    (hi : d.graph.index? (unrolledId context x) = some i)
    (hj : d.graph.index? (unrolledId context' y) = some j)
    (heq : budget context x = budget context' y) : i = j := by
  obtain ⟨context'', y', hj', hcases⟩ := hij context x hi
  obtain ⟨rfl, rfl⟩ := unrolledId_inj.1 (h.indexed.id_unique hj' hj)
  rcases hcases with rfl | hless
  · cases h.charts.spends.once _ x y' (laid_of_index? hi) (laid_of_index? hj) heq
    exact Option.some.inj (hi.symm.trans hj)
  · exact absurd heq (hless x y' (laid_of_index? hi) (laid_of_index? hj)).ne'

/-- A walk comes to no more nodes than there are budgets for them. -/
theorem card_toFinset_le (hchain : is.IsChain d.graph.SpecLinked)
    (hpath : ∀ i ∈ is, ∃ context x, d.graph.index? (unrolledId context x) = some i) :
    is.toFinset.card ≤ window := by
  choose! context pc hindex using hpath
  calc is.toFinset.card
      ≤ (Finset.Icc 1 window).card := by
        refine Finset.card_le_card_of_injOn (fun i => budget (context i) (pc i)) ?_ ?_
        · intro i hi
          have hlaid := laid_of_index? (hindex i (List.mem_toFinset.1 hi))
          exact Finset.mem_coe.2 (Finset.mem_Icc.2 (h.charts.spends.range _ _ hlaid))
        · intro i hi j hj heq
          have hi := List.mem_toFinset.1 hi
          have hj := List.mem_toFinset.1 hj
          rcases h.dearer_or_dearer hchain hi hj with hij | hji
          · exact h.eq_of_budget_eq hij (hindex i hi) (hindex j hj) heq
          · exact (h.eq_of_budget_eq hji (hindex j hj) (hindex i hi) heq.symm).symm
    _ = window := by rw [Nat.card_Icc, Nat.add_sub_cancel]

/-! ## The branch that is speculated on -/

/-- What leads into a context belongs to its fork, or is the branch of that fork. -/
theorem inFork_cases {source : String} (hlinked : d.graph.SpecLinked i j)
    (hi : d.graph.index? source = some i) : ∃ f, d.graph.InFork openings f j ∧
      (source = committedId f.branch ∨ d.graph.InFork openings f i) := by
  obtain ⟨context, x, hj, hlinked⟩ := h.linked_of_specLinked hlinked hi
  have hopened := h.charts.opened
  obtain ⟨o, ho⟩ := hopened.exists_opening (hopened.laid _ _ (laid_of_index? hj))
  refine ⟨o.fork, ⟨context, x, o, hj, ho, rfl⟩, ?_⟩
  refine (hopened.exists_of_enters (hopened.link _ _ _ hlinked) ho).imp_right ?_
  rintro ⟨outer, q, o', rfl, -, ho', hfork⟩
  exact ⟨outer, q, o', hi, ho', hfork⟩

theorem inFork_unique {f' : Draft.Fork} (hf : d.graph.InFork openings f i)
    (hf' : d.graph.InFork openings f' i) : f = f' := by
  obtain ⟨context, x, o, hi, ho, rfl⟩ := hf
  obtain ⟨context', x', o', hi', ho', rfl⟩ := hf'
  obtain ⟨rfl, rfl⟩ := unrolledId_inj.1 (h.indexed.id_unique hi hi')
  rw [Option.some.inj (ho.symm.trans ho')]

/-- Walks stay in the contexts of a fork. -/
theorem inFork_of_specLinked (hlinked : d.graph.SpecLinked i j)
    (hf : d.graph.InFork openings f i) : d.graph.InFork openings f j := by
  obtain ⟨context, x, o, hi, ho, hfork⟩ := hf
  obtain ⟨f', hj, hid | hi'⟩ := h.inFork_cases hlinked hi
  · exact absurd hid.symm (committedId_ne_unrolledId _ _ _)
  · rwa [h.inFork_unique ⟨context, x, o, hi, ho, hfork⟩ hi']

/-- A walk that starts at a committed branch stays in the contexts of that branch. -/
theorem inFork_of_reach (hreach : Relation.ReflTransGen d.graph.SpecLinked i v)
    (hi : d.graph.index? (committedId pc) = some i) :
    v = i ∨ ∃ f, f.branch = pc ∧ d.graph.InFork openings f v := by
  induction hreach with
  | refl => exact .inl rfl
  | @tail u v _ huv ih =>
    right
    rcases ih with rfl | ⟨f, hbranch, hf⟩
    · obtain ⟨f, hv, hid | ⟨context, x, -, hi', -⟩⟩ := h.inFork_cases huv hi
      · exact ⟨f, (committedId_inj.1 hid).symm, hv⟩
      · exact absurd (h.indexed.id_unique hi hi') (committedId_ne_unrolledId _ _ _)
    · exact ⟨f, hbranch, h.inFork_of_specLinked huv hf⟩

/-- Every node of a fork is reached from its branch. -/
theorem reach_of_inFork (hf : d.graph.InFork openings f v)
    (hi : d.graph.index? (committedId f.branch) = some i) :
    Relation.ReflTransGen d.graph.SpecLinked i v := by
  obtain ⟨context, x, o, hv, ho, rfl⟩ := hf
  have htrails := h.charts.returns.reached context x o (laid_of_index? hv) ho
  generalize unrolledId context x = target at hv htrails
  induction htrails generalizing v with
  | refl =>
    rw [Option.some.inj (hi.symm.trans hv)]
  | tail _ hstep ih =>
    obtain ⟨hlinked, context', x', rfl⟩ := hstep
    obtain ⟨u, hu⟩ := hlinked.exists_source
    obtain ⟨v', hv', huv⟩ := h.specLinked_of_linked hu hlinked
    cases hv.symm.trans hv'
    exact (ih hu).tail huv

/-- The branch of a fork has a committed node. -/
theorem exists_branch (hf : d.graph.InFork openings f v) :
    ∃ i, d.graph.index? (committedId f.branch) = some i := by
  obtain ⟨context, x, o, hv, ho, rfl⟩ := hf
  have htrails := h.charts.returns.reached context x o (laid_of_index? hv) ho
  rcases htrails.cases_head with heq | ⟨_, ⟨hlinked, -⟩, -⟩
  · exact absurd heq (committedId_ne_unrolledId _ _ _)
  · exact hlinked.exists_source

theorem exists_inFork (hv : d.graph.index? (unrolledId context x) = some v) :
    ∃ f, f.Of p ∧ d.graph.InFork openings f v := by
  have hopened := h.charts.opened
  obtain ⟨o, ho⟩ := hopened.exists_opening (hopened.laid _ _ (laid_of_index? hv))
  exact ⟨o.fork, hopened.fork o (List.mem_of_getElem? ho), context, x, o, hv, ho, rfl⟩

/-! ## Ways out -/

theorem rollsBack_or_specLinked (hmode : mode = .stackGuard) (hf : d.graph.InFork openings f i)
    (hy : p.within? f.resume = some y) :
    d.graph.RollsBack i ∨ ∃ j, d.graph.SpecLinked i j := by
  obtain ⟨context, x, o, hi, ho, rfl⟩ := hf
  obtain ⟨target, head, tail, link, hhead, -, hedge⟩ :=
    (h.charts.returns.ends hmode context x o y (laid_of_index? hi) ho hy).resolve_right
      fun ⟨_, hw, _⟩ => List.not_mem_nil hw
  cases hi.symm.trans hhead
  rcases h.added_of_edge? hedge (h.ne_committed hedge (.inl hi)) with ⟨hkind, -⟩ | ⟨hkind, -⟩
  · exact .inr ⟨tail, Option.map_eq_some_iff.2 ⟨link, hedge, hkind⟩⟩
  · exact .inl ⟨tail, Option.map_eq_some_iff.2 ⟨link, hedge, hkind⟩⟩

/-- From a node from which no loop can be reached one can come to a rollback. -/
theorem exists_rollsBack (hmode : mode = .stackGuard) (hf : d.graph.InFork openings f v)
    (hy : p.within? f.resume = some y)
    (hloop : ∀ u, Relation.ReflTransGen d.graph.SpecLinked v u →
      ¬ Relation.TransGen d.graph.SpecLinked u u) :
    ∃ u, Relation.ReflTransGen d.graph.SpecLinked v u ∧ d.graph.RollsBack u := by
  by_contra hnone
  -- without a rollback, walks go on for ever
  have hnext : ∀ v, d.graph.InFork openings f v ∧ (∀ u,
      Relation.ReflTransGen d.graph.SpecLinked v u → ¬ d.graph.RollsBack u) →
      ∃ u, d.graph.SpecLinked v u ∧ d.graph.InFork openings f u ∧
        ∀ w, Relation.ReflTransGen d.graph.SpecLinked u w → ¬ d.graph.RollsBack w := by
    rintro v ⟨hf, hnone⟩
    obtain ⟨u, hvu⟩ := (h.rollsBack_or_specLinked hmode hf hy).resolve_left (hnone v .refl)
    exact ⟨u, hvu, h.inFork_of_specLinked hvu hf, fun w hw => hnone w (.head hvu hw)⟩
  obtain ⟨is, hlen, hchain⟩ := exists_isChain_of_serial hnext
    ⟨hf, fun u hu hback => hnone ⟨u, hu, hback⟩⟩ window
  have hpath : ∀ i ∈ v :: is, ∃ context x, d.graph.index? (unrolledId context x) = some i := by
    obtain ⟨context, x, -, hv, -⟩ := hf
    exact List.forall_mem_cons.2 ⟨⟨context, x, hv⟩, h.exists_index?_of_isChain hchain⟩
  -- one that comes to more nodes than the window allows comes to one of them twice
  have htwice : ¬ (v :: is).Nodup := by
    intro hnodup
    have hcard := h.card_toFinset_le hchain hpath
    rw [List.toFinset_card_of_nodup hnodup, List.length_cons, hlen] at hcard
    omega
  obtain ⟨u, hu, hround⟩ := exists_loop_of_not_nodup hchain htwice
  exact hloop u hu hround

/-- The window bounds the walks from committed nodes exactly if there is no loop. -/
theorem length_le_iff : (∀ i n is, d.graph.node? i = some n → n.kind = .committed →
      (i :: is).IsChain d.graph.SpecLinked → is.length ≤ window) ↔
    ∀ u, ¬ Relation.TransGen d.graph.SpecLinked u u := by
  constructor
  · intro hbound u hloop
    -- a walk that goes round the loop starts at the branch of its fork
    obtain ⟨t, -, htu⟩ := Relation.TransGen.tail'_iff.1 hloop
    obtain ⟨-, context, x, -, hu, -⟩ := h.specLinked_iff.1 htu
    obtain ⟨f, -, hf⟩ := h.exists_inFork hu
    obtain ⟨i, hi⟩ := h.exists_branch hf
    obtain ⟨e, -, hn⟩ := h.node_of_committed hi
    obtain ⟨is, hlen, hchain⟩ :=
      exists_isChain_of_loop hloop (h.reach_of_inFork hf hi) (window + 1)
    have hle := hbound i _ is hn rfl hchain
    omega
  · intro hnone i n is _ _ hchain
    have hnodup : (i :: is).Nodup := by
      by_contra htwice
      obtain ⟨u, -, hloop⟩ := exists_loop_of_not_nodup hchain htwice
      exact hnone u hloop
    rw [← List.toFinset_card_of_nodup hnodup.of_cons]
    exact h.card_toFinset_le hchain.of_cons (h.exists_index?_of_isChain hchain)

end IsCharted

/-- Execution resumes inside the program if all that can follow the branch is inside of it. -/
theorem Draft.Fork.Of.exists_resume {p : Program} {f : Draft.Fork} (h : f.Of p)
    (hinside : p.KeepsInside f.branch) : ∃ y, p.within? f.resume = some y := by
  obtain ⟨taken, htaken, hresume⟩ := h.resume
  obtain ⟨cond, label, hinstr⟩ := Program.branchTarget_eq_ok htaken
  refine ⟨f.resume, Program.within?_eq_some_iff.2 ⟨rfl, hinside _ hinstr _ ?_⟩⟩
  exact List.mem_pair.2 hresume

/-- How an unrolled graph bounds speculation on the program. -/
structure BoundsSpeculation (p : Program) (o : BuildOptions) (g : SpecGraph) : Prop where
  /-- A walk of speculative links comes to no more nodes than the window has instructions, all of
      them speculative. -/
  nodes : ∀ i is, (i :: is).IsChain g.SpecLinked →
    (∀ j ∈ is, ∃ n, g.node? j = some n ∧ n.kind = .speculative) ∧
      (is.toFinset.card : Int) ≤ o.windowSize
  /-- The window bounds the walks from committed nodes, every node counted as often as it comes
      up, exactly if no walk goes round a loop. -/
  walks : (∀ i n is, g.node? i = some n → n.kind = .committed → (i :: is).IsChain g.SpecLinked →
    (is.length : Int) ≤ o.windowSize) ↔ ∀ u, ¬ Relation.TransGen g.SpecLinked u u
  /-- A speculative node is reached from one committed branch. Under the stack guard, if all that
      can follow this branch is inside the program and no loop can be reached from the node, a
      rollback can. -/
  branch : ∀ v n, g.node? v = some n → n.kind = .speculative → ∃ b, p.IsBranchAt b ∧
    (∀ b' i, g.index? (committedId b') = some i →
      (Relation.ReflTransGen g.SpecLinked i v ↔ b' = b)) ∧
    (o.speculation = .stackGuard → p.KeepsInside b →
      (∀ u, Relation.ReflTransGen g.SpecLinked v u → ¬ Relation.TransGen g.SpecLinked u u) →
      ∃ u, Relation.ReflTransGen g.SpecLinked v u ∧ g.RollsBack u)

/-- Unrolled graphs bound speculation by the number of nodes, and where no path closes a loop, by
    the length of walks and with a way back. -/
theorem speculation_bounded {source : String} {p : Program} {o : BuildOptions} {g : SpecGraph}
    (hp : Program.parse source = .ok p) (ho : o.layout = .unrolled)
    (hg : (buildSource source o).result = .ok g) : BoundsSpeculation p o g := by
  have hpos : 0 < o.windowSize := by
    obtain ⟨d, hd, -⟩ := exists_draft_of_parse hp hg
    exact windowSize_pos hd
  obtain ⟨forks, openings, budget, c, d, rfl, h⟩ := exists_isCharted hp ho hg
  refine ⟨fun i is hchain => ?_, ?_, fun v n hn hkind => ?_⟩
  · have hpath := h.exists_index?_of_isChain hchain
    refine ⟨fun j hj => ?_, ?_⟩
    · obtain ⟨context, x, hj⟩ := hpath j hj
      obtain ⟨e, w, -, -, hn⟩ := h.node_of_path hj
      exact ⟨_, hn, rfl⟩
    · have hcard := h.card_toFinset_le hchain.of_cons hpath
      omega
  · rw [← h.length_le_iff]
    have hcast : ∀ is : List Nat, (is.length : Int) ≤ o.windowSize ↔
        is.length ≤ o.windowSize.toNat := fun is => by omega
    simp only [hcast]
  · rcases h.index?_cases hn with ⟨hcommitted, -⟩ | ⟨-, context, x, hv⟩
    · cases hkind.symm.trans hcommitted
    · obtain ⟨fork, hfork, hf⟩ := h.exists_inFork hv
      refine ⟨fork.branch, (mem_branches_iff h.numbered).1 hfork.branch,
        fun b' i hi => ⟨fun hreach => ?_, fun heq => ?_⟩, fun hmode hinside hloop => ?_⟩
      · rcases h.inFork_of_reach hreach hi with rfl | ⟨f, rfl, hf'⟩
        · exact absurd (h.indexed.id_unique hi hv) (committedId_ne_unrolledId _ _ _)
        · rw [h.inFork_unique hf' hf]
      · subst heq
        exact h.reach_of_inFork hf hi
      · obtain ⟨y, hy⟩ := hfork.exists_resume hinside
        exact h.exists_rollsBack hmode hf hy hloop

/-- Both directions of the branch lead into a loop. -/
def closing : String := "beqz c, L\nL: jmp L"

def closingProgram : Program := (Program.parse closing).toOption.getD ⟨[], ∅⟩

def closingGraph : SpecGraph :=
  (buildSource closing ⟨2, .unrolled, .stackGuard⟩).result.toOption.getD .empty

/-- With a window of two instructions there is a walk over three speculative nodes, all of them the
    same, from which no rollback can be reached. -/
theorem not_bounded_closing :
    (buildSource closing ⟨2, .unrolled, .stackGuard⟩).result = .ok closingGraph ∧
      closingGraph.SpecWalk 0 0 [2, 2, 2] [1, 1, 1] ∧ closingProgram.KeepsInside 0 ∧
      ∀ u, Relation.ReflTransGen closingGraph.SpecLinked 2 u → ¬ closingGraph.RollsBack u := by
  have hnode : closingGraph.SpecAt 2 1 := by decide +kernel
  have honly : ∀ out ∈ closingGraph.graph.edgesOut 2, out.1 = 2 ∧ out.2.kind = .speculative := by
    decide +kernel
  refine ⟨buildSource_eq_ok (by decide +kernel), ⟨by decide +kernel, by decide +kernel,
    .cons hnode (.cons hnode (.cons hnode .nil))⟩, by decide +kernel, fun u hu => ?_⟩
  have hsame : u = 2 := by
    induction hu with
    | refl => rfl
    | tail _ hlinked ih =>
      subst ih
      obtain ⟨link, hedge, -⟩ := Option.map_eq_some_iff.1 hlinked
      exact (honly (_, link) (Digraph.mem_edgesOut_iff.2 hedge)).1
  subst hsame
  rintro ⟨j, hrollback⟩
  obtain ⟨link, hedge, hkind⟩ := Option.map_eq_some_iff.1 hrollback
  cases hkind.symm.trans (honly (j, link) (Digraph.mem_edgesOut_iff.2 hedge)).2

/-- One direction of the branch leads to a barrier, the other one into a loop. -/
def orbiting : String := "beqz c, E\nL: skip\njmp L\nE: spbarr\nskip"

def orbitingProgram : Program := (Program.parse orbiting).toOption.getD ⟨[], ∅⟩

def orbitingGraph : SpecGraph :=
  (buildSource orbiting ⟨3, .unrolled, .stackGuard⟩).result.toOption.getD .empty

/-- However often a walk goes round the loop, the window bounds the nodes it comes to; it does not
    bound the walk. From the barrier, where there is no loop, a rollback can be reached. -/
theorem speculation_bounded_orbiting :
    [0, 6, 7, 6, 7].IsChain orbitingGraph.SpecLinked ∧ ([6, 7, 6, 7].toFinset.card : Int) ≤ 3 ∧
      (∃ i is, (i :: is).IsChain orbitingGraph.SpecLinked ∧ 3 < is.length) ∧
      Relation.ReflTransGen orbitingGraph.SpecLinked 0 5 ∧
      ∃ u, Relation.ReflTransGen orbitingGraph.SpecLinked 5 u ∧ orbitingGraph.RollsBack u := by
  have hp : Program.parse orbiting = .ok orbitingProgram := Program.parse_eq_ok (by decide +kernel)
  have hg : (buildSource orbiting ⟨3, .unrolled, .stackGuard⟩).result = .ok orbitingGraph :=
    buildSource_eq_ok (by decide +kernel)
  have hbounds := speculation_bounded hp rfl hg
  have hchain : [0, 6, 7, 6, 7].IsChain orbitingGraph.SpecLinked := by decide +kernel
  have hloop : Relation.TransGen orbitingGraph.SpecLinked 6 6 :=
    .tail (.single (by decide +kernel : orbitingGraph.SpecLinked 6 7)) (by decide +kernel)
  have hlong : ∃ i is, (i :: is).IsChain orbitingGraph.SpecLinked ∧ 3 < is.length := by
    by_contra hnone
    refine hbounds.walks.1 (fun i n is _ _ hchain => ?_) 6 hloop
    by_contra hlt
    exact hnone ⟨i, is, hchain, by dsimp only at hlt; omega⟩
  have hnode : (orbitingGraph.node? 5).map (·.kind) = some .speculative := by decide +kernel
  obtain ⟨n, hn, hkind⟩ := Option.map_eq_some_iff.1 hnode
  obtain ⟨b, -, hb, hback⟩ := hbounds.branch 5 n hn hkind
  have hfrom : Relation.ReflTransGen orbitingGraph.SpecLinked 0 5 :=
    .single (by decide +kernel)
  cases (hb 0 0 (by decide +kernel)).1 hfrom
  -- nothing speculative follows the barrier
  have hlast : ∀ out ∈ orbitingGraph.graph.edgesOut 5, out.2.kind ≠ .speculative := by
    decide +kernel
  have hstops : ∀ u, ¬ orbitingGraph.SpecLinked 5 u := by
    intro u hlinked
    obtain ⟨link, hedge, hspec⟩ := Option.map_eq_some_iff.1 hlinked
    exact hlast (u, link) (Digraph.mem_edgesOut_iff.2 hedge) hspec
  refine ⟨hchain, (hbounds.nodes 0 _ hchain).2, hlong, hfrom,
    hback rfl (by decide +kernel) fun u hu hround => ?_⟩
  rcases hu.cases_head with rfl | ⟨w, hw, -⟩
  · obtain ⟨w, hw, -⟩ := Relation.TransGen.head'_iff.1 hround
    exact hstops w hw
  · exact hstops w hw

end SpecGraph

end Mispredict
