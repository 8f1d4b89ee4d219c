/-
  What is written as JSON can be read again.

  A value is read back if what stands for it is read as the value (`Json.ReadsBack`). Records
  follow field by field, each of which is found by its name among the others, or left out
  for want of a value. For that the value of a field must not itself be written as `null`.

  Numbers are read as machine words only, so a graph must hold no others (`FitsWords`).
  A graph is not copied but put together anew, of its nodes and then its links, and checked:
  so it must be valid. Then a report on it can be read back (`Indexed.readsBack_analyze`),
  since its steps are numbered below their limit and details of errors and warnings are
  there or left out, but not `null`.
-/
import Mispredict.Analysis.Wire
import Mispredict.Proofs.Indexed
import Mispredict.Proofs.TraceShape

namespace Mispredict

open MuAsm (Expr Instr Jump BinOp)

/-! ## Reading back -/

namespace SortedMap

variable {κ ν : Type} [Ord κ] [Std.TransOrd κ] [Std.LawfulEqOrd κ] [DecidableEq κ]

/-- A map is the map of its entries. -/
theorem ofList_entries (m : SortedMap κ ν) : ofList m.entries = m := by
  refine ext_get? fun k => ?_
  have hget := get?_foldl_insert_entries id m.increasing .empty k
  rw [Option.map_id, get?_empty, Option.or_none] at hget
  exact hget

end SortedMap

theorem ok_bind {ε α β : Type} (a : α) (f : α → Except ε β) : (Except.ok a >>= f) = f a := rfl

namespace Json

variable {α β : Type} {decode : Json → Decoded α} {encode : α → Json} {a : α}
  {fields : List (String × Json)} {name : String}

/-- What stands for the value is read as the value, also where `null` stands for none. -/
structure ReadsBack (decode : Json → Decoded α) (encode : α → Json) (a : α) : Prop where
  read : decode (encode a) = .ok a
  ne_null : encode a ≠ .null

theorem readsBack_string (s : String) : ReadsBack asString .str s := ⟨rfl, by simp⟩

/-- All texts can be read back, if there are any. -/
theorem readsBack_text (s : Option String) : ∀ x ∈ s, ReadsBack asString .str x :=
  fun x _ => readsBack_string x

theorem readsBack_bool (b : Bool) : ReadsBack asBool .bool b := ⟨rfl, by simp⟩

theorem readsBack_nat {n : Nat} (h : n < UInt64.size) : ReadsBack asNat .nat n := by
  refine ⟨?_, by simp [nat]⟩
  rw [nat, asNat, if_pos ⟨Int.natCast_nonneg n, h⟩]
  rfl

theorem readsBack_int64 (v : Int64) : ReadsBack asInt64 (fun v => .int v.toInt) v := by
  refine ⟨?_, by simp⟩
  rw [asInt64, asInt, if_pos ⟨v.minValue_le_toInt, v.toInt_le⟩]
  exact congrArg Except.ok (Int64.ofInt_toInt v)

theorem readsBack_name {alternatives : List (String × α)} {name : α → String}
    (h : alternatives.find? (·.1 == name a) = some (name a, a)) :
    ReadsBack (asName alternatives) (fun a => .str (name a)) a := by
  refine ⟨?_, by simp⟩
  simp only [asName, choice, bind, Except.bind, pure, Except.pure, h]

theorem ReadsBack.required (h : ReadsBack decode encode a)
    (hfield : fields.filter (·.1 == name) = [(name, encode a)]) :
    Json.required fields name decode = .ok a := by
  unfold Json.required member
  rw [hfield]
  exact h.read

theorem ReadsBack.asOption (h : ReadsBack decode encode a) :
    Json.asOption decode (encode a) = .ok (some a) := by
  unfold Json.asOption
  split
  · exact absurd ‹_› h.ne_null
  · rw [h.read]
    rfl

theorem optional_eq_ok {a : Option α} (h : ∀ x ∈ a, ReadsBack decode encode x)
    (hfield : fields.filter (·.1 == name) = member? name encode a) :
    Json.optional fields name decode = .ok a := by
  unfold Json.optional withDefault member
  rw [hfield]
  cases a with
  | none => rfl
  | some x => exact (h x rfl).asOption

/-- The same for a field that is `null` for want of a value. -/
theorem optional_nullable_eq_ok {a : Option α} (h : ∀ x ∈ a, ReadsBack decode encode x)
    (hfield : fields.filter (·.1 == name) = [(name, nullable encode a)]) :
    Json.optional fields name decode = .ok a := by
  unfold Json.optional withDefault member
  rw [hfield]
  cases a with
  | none => rfl
  | some x => exact (h x rfl).asOption

/-- A field that is left out is not there under any name. -/
@[simp] theorem filter_member? (name' : String) (encode : α → Json) (a : Option α) :
    (member? name' encode a).filter (·.1 == name) =
      if name' = name then member? name encode a else [] := by
  cases a with
  | none => simp [member?]
  | some x =>
    by_cases h : name' = name
    · simp [member?, h]
    · simp [member?, h]

theorem readsBack_list {l : List α} (h : ∀ a ∈ l, ReadsBack decode encode a) :
    ReadsBack (asList decode) (fun l => .arr (l.map encode)) l := by
  refine ⟨?_, by simp⟩
  have hmapM : (l.map encode).mapM decode = .ok l := by
    induction l with
    | nil => rfl
    | cons a l ih =>
      rw [List.map_cons, List.mapM_cons, (h a List.mem_cons_self).read,
        ih fun a ha => h a (List.mem_cons_of_mem _ ha)]
      rfl
  exact hmapM

theorem readsBack_map {m : SortedMap String α} (h : ∀ e ∈ m.entries, ReadsBack decode encode e.2) :
    ReadsBack (asMap decode) (fun m => .obj (m.entries.map fun e => (e.1, encode e.2))) m := by
  refine ⟨?_, by simp⟩
  have hentries : ∀ l : List (String × α), (∀ e ∈ l, ReadsBack decode encode e.2) →
      asEntries decode (.obj (l.map fun e => (e.1, encode e.2))) = .ok l := by
    intro l hl
    induction l with
    | nil => rfl
    | cons e l ih =>
      have hrest := ih fun e he => hl e (List.mem_cons_of_mem _ he)
      unfold asEntries at hrest ⊢
      dsimp only at hrest ⊢
      rw [List.map_cons, List.mapM_cons, hrest]
      dsimp only
      rw [(hl e List.mem_cons_self).read]
      rfl
  rw [asMap, hentries _ h]
  exact congrArg Except.ok (SortedMap.ofList_entries m)

/-- A list that is left out if it is empty. -/
theorem withDefault_list_eq_ok {l : List α} (h : ∀ a ∈ l, ReadsBack decode encode a)
    (hfield : fields.filter (·.1 == name) =
      if l.isEmpty then [] else [(name, .arr (l.map encode))]) :
    Json.withDefault fields name (asList decode) [] = .ok l := by
  unfold withDefault member
  rw [hfield]
  cases l with
  | nil => rfl
  | cons a l => exact (readsBack_list h).read

/-- Reads a field and goes on. -/
theorem bind_required {f : α → Decoded β} {b : β} (h : ReadsBack decode encode a)
    (hfield : fields.filter (·.1 == name) = [(name, encode a)]) (hf : f a = .ok b) :
    (Json.required fields name decode >>= f) = .ok b :=
  bind_eq_ok_iff.2 ⟨a, h.required hfield, hf⟩

theorem bind_optional {f : Option α → Decoded β} {b : β} {a : Option α}
    (h : ∀ x ∈ a, ReadsBack decode encode x)
    (hfield : fields.filter (·.1 == name) = member? name encode a) (hf : f a = .ok b) :
    (Json.optional fields name decode >>= f) = .ok b :=
  bind_eq_ok_iff.2 ⟨a, optional_eq_ok h hfield, hf⟩

end Json

/-! ## Instructions -/

namespace MuAsm

open Json

theorem BinOp.readsBack (op : BinOp) :
    ReadsBack (asName BinOp.names) (fun op => .str op.name) op :=
  readsBack_name (by cases op <;> rfl)

theorem Expr.readsBack (e : Expr) : ReadsBack ofJson toJson e := by
  refine ⟨?_, by cases e <;> simp [toJson]⟩
  induction e with
  | register name => rfl
  | constant value =>
    rw [toJson, ofJson, (readsBack_int64 value).read]
    rfl
  | binary op lhs rhs ihl ihr =>
    rw [toJson, ofJson, op.readsBack.read, ihl, ihr]
    rfl

/-- The numbers in an instruction. -/
def Instr.words : Instr → List Nat
  | .beqz _ _ (some targetPc) => [targetPc]
  | .jmp _ (.pc n) => [n]
  | _ => []

theorem Jump.readsBack {j : Jump} (h : ∀ n, j = .pc n → n < UInt64.size) :
    ReadsBack ofJson toJson j := by
  refine ⟨?_, by cases j <;> simp [toJson]⟩
  cases j with
  | pc n =>
    simp only [toJson, ofJson, choice, ok_bind, (readsBack_nat (h n rfl)).read]
    rfl
  | label name => rfl
  | dynamic => rfl

theorem Instr.readsBack {i : Instr} (h : ∀ n ∈ i.words, n < UInt64.size) :
    ReadsBack ofJson toJson i := by
  refine ⟨?_, by cases i <;> simp [toJson]⟩
  cases i with
  | skip => rfl
  | spbarr => rfl
  | assign dest expr =>
    simp only [toJson, ofJson, choice, members, ok_bind]
    exact bind_required (readsBack_string dest) rfl (bind_required expr.readsBack rfl rfl)
  | load dest addr =>
    simp only [toJson, ofJson, choice, members, ok_bind]
    exact bind_required (readsBack_string dest) rfl (bind_required addr.readsBack rfl rfl)
  | store src addr =>
    simp only [toJson, ofJson, choice, members, ok_bind]
    exact bind_required (readsBack_string src) rfl (bind_required addr.readsBack rfl rfl)
  | beqz cond target targetPc =>
    simp only [toJson, ofJson, choice, members, ok_bind]
    have htarget : ∀ n ∈ targetPc, ReadsBack asNat .nat n := by
      rintro n rfl
      exact readsBack_nat (h n List.mem_cons_self)
    refine bind_required cond.readsBack rfl (bind_required (readsBack_string target) rfl ?_)
    exact bind_eq_ok_iff.2 ⟨_, optional_nullable_eq_ok htarget rfl, rfl⟩
  | jmp target resolved =>
    simp only [toJson, ofJson, choice, members, ok_bind]
    refine bind_required target.readsBack rfl (bind_required (Jump.readsBack ?_) rfl rfl)
    rintro n rfl
    exact h n List.mem_cons_self
  | cmov dest cond value =>
    simp only [toJson, ofJson, choice, members, ok_bind]
    exact bind_required (readsBack_string dest) rfl
      (bind_required cond.readsBack rfl (bind_required value.readsBack rfl rfl))

end MuAsm

/-! ## Graphs -/

open Json

/-- The numbers in a node. -/
def Node.words (n : Node) : List Nat :=
  (n.origin.elim [] fun o => [o.branchPc, o.context]) ++ (n.marker.elim [] fun m => [m.context]) ++
    n.instr.elim [] Instr.words

theorem Origin.readsBack {o : Origin} (hpc : o.branchPc < UInt64.size)
    (hcontext : o.context < UInt64.size) : ReadsBack ofJson toJson o := by
  refine ⟨?_, by simp [toJson]⟩
  simp only [toJson, ofJson, record, Json.fields, ok_bind]
  exact bind_required (readsBack_nat hpc) rfl (bind_required (readsBack_nat hcontext) rfl rfl)

theorem Marker.readsBack {m : Marker} (h : m.context < UInt64.size) :
    ReadsBack ofJson toJson m := by
  refine ⟨?_, by simp [toJson]⟩
  have hphase : ReadsBack (asName Phase.names) (fun phase => .str phase.name) m.phase :=
    readsBack_name (by cases m.phase <;> rfl)
  simp only [toJson, ofJson, record, Json.fields, ok_bind]
  exact bind_required (readsBack_nat h) rfl (bind_required hphase rfl rfl)

theorem Node.readsBack {n : Node} (h : ∀ w ∈ n.words, w < UInt64.size) :
    ReadsBack ofJson toJson n := by
  refine ⟨?_, by simp [toJson]⟩
  have hkind : ReadsBack (asName NodeKind.names) (fun kind => .str kind.name) n.kind :=
    readsBack_name (by cases n.kind <;> rfl)
  have horigin : ∀ o ∈ n.origin, ReadsBack Origin.ofJson Origin.toJson o := by
    intro o ho
    rw [Option.mem_def] at ho
    exact Origin.readsBack (h _ (by simp [words, ho])) (h _ (by simp [words, ho]))
  have hmarker : ∀ m ∈ n.marker, ReadsBack Marker.ofJson Marker.toJson m := by
    intro m hm
    rw [Option.mem_def] at hm
    exact Marker.readsBack (h _ (by simp [words, hm]))
  have hinstr : ∀ i ∈ n.instr, ReadsBack Instr.ofJson Instr.toJson i := by
    intro i hi
    rw [Option.mem_def] at hi
    exact Instr.readsBack fun w hw => h w (by simp [words, hi, hw])
  simp only [toJson, ofJson, record, Json.fields, ok_bind]
  refine bind_required (readsBack_string n.id) (by simp) ?_
  refine bind_required (readsBack_int64 n.pc) (by simp) ?_
  refine bind_optional (readsBack_text n.label) (by simp) ?_
  refine bind_required hkind (by simp) ?_
  refine bind_optional horigin (by simp) ?_
  refine bind_optional hmarker (by simp) ?_
  refine bind_optional (readsBack_text n.text) (by simp) ?_
  refine bind_optional hinstr (by simp) ?_
  rfl

theorem Edge.readsBack (e : Edge) : ReadsBack ofJson toJson e := by
  refine ⟨?_, by simp [toJson]⟩
  have hkind : ReadsBack (asName LinkKind.names) (fun kind => .str kind.name) e.link.kind :=
    readsBack_name (by cases e.link.kind <;> rfl)
  simp only [toJson, ofJson, record, Json.fields, ok_bind]
  refine bind_required (readsBack_string e.source) (by simp) ?_
  refine bind_required (readsBack_string e.target) (by simp) ?_
  refine bind_required hkind (by simp) ?_
  exact bind_optional (readsBack_text e.link.label) (by simp) rfl

namespace SpecGraph

variable {g : SpecGraph}

/-- All numbers in the graph are machine words. -/
def FitsWords (g : SpecGraph) : Prop := ∀ n ∈ g.nodes, ∀ w ∈ n.words, w < UInt64.size

instance (g : SpecGraph) : Decidable g.FitsWords :=
  inferInstanceAs (Decidable (∀ n ∈ g.nodes, ∀ w ∈ n.words, w < UInt64.size))

/-- The written form of a list of nodes and a list of links. -/
def listsJson (ns : List Node) (es : List Edge) : Json :=
  .obj [("nodes", .arr (ns.map Node.toJson)), ("edges", .arr (es.map Edge.toJson))]

/-- Lists that are written are put together when they are read. -/
theorem ofJson_listsJson {ns : List Node} (hwords : ∀ n ∈ ns, ∀ w ∈ n.words, w < UInt64.size)
    (es : List Edge) :
    ofJson (listsJson ns es) =
      match ofLists ns es with
      | .ok g => .ok g
      | .error e => .error (.rejected e.message) := by
  have hnodes : ReadsBack (asList Node.ofJson) (fun l => .arr (l.map Node.toJson)) ns :=
    readsBack_list fun n hn => Node.readsBack (hwords n hn)
  have hedges : ReadsBack (asList Edge.ofJson) (fun l => .arr (l.map Edge.toJson)) es :=
    readsBack_list fun e _ => e.readsBack
  simp only [listsJson, ofJson, record, Json.fields, ok_bind]
  rw [hnodes.required rfl, ok_bind, hedges.required rfl, ok_bind]
  rfl

theorem ofLists_eq_ok_iff {ns : List Node} {es : List Edge} : ofLists ns es = .ok g ↔
    ∃ g₁, empty.insertNodes ns = .ok g₁ ∧ g₁.insertEdges es = .ok g ∧ g.validate = .ok () := by
  constructor
  · intro h
    obtain ⟨g₁, h₁, h⟩ := bind_eq_ok_iff.1 h
    obtain ⟨g₂, h₂, h⟩ := bind_eq_ok_iff.1 h
    obtain ⟨_, hvalid, h⟩ := bind_eq_ok_iff.1 h
    cases h
    exact ⟨g₁, h₁, h₂, hvalid⟩
  · rintro ⟨g₁, h₁, h₂, hvalid⟩
    exact bind_eq_ok_iff.2 ⟨g₁, h₁, bind_eq_ok_iff.2 ⟨g, h₂, bind_eq_ok_iff.2 ⟨(), hvalid, rfl⟩⟩⟩

/-- A valid graph is put together again of what it lists: nodes get the numbers again by which
    they are listed. -/
theorem Indexed.ofLists_self (hg : g.Indexed) (hvalid : g.validate = .ok ()) :
    ofLists g.nodes g.edges = .ok g := by
  obtain ⟨g₁, h₁, h₂⟩ := hg.exists_insert_all (fun _ => Iff.rfl) g.pairwise_links
  exact ofLists_eq_ok_iff.2 ⟨g₁, h₁, h₂, hvalid⟩

theorem Indexed.readsBack (hg : g.Indexed) (hwords : g.FitsWords) (hvalid : g.validate = .ok ()) :
    ReadsBack ofJson toJson g := by
  refine ⟨?_, by simp [toJson]⟩
  have hread := ofJson_listsJson hwords g.edges
  rw [hg.ofLists_self hvalid] at hread
  exact hread

end SpecGraph

/-! ## Traces -/

theorem Value.readsBack (v : Value) : ReadsBack ofJson toJson v := by
  refine ⟨?_, by simp [toJson]⟩
  have hlevel : ∀ l : Level, ReadsBack (asName Level.names) (fun l => .str l.name) l :=
    fun l => readsBack_name (by cases l <;> rfl)
  simp only [toJson, ofJson, record, Json.fields, ok_bind]
  exact bind_required (hlevel v.committed) rfl (bind_required (hlevel v.speculative) rfl rfl)

theorem State.readsBack (st : State) : ReadsBack ofJson toJson st := by
  refine ⟨?_, by simp [toJson]⟩
  have hvalues (m : SortedMap String Value) := readsBack_map (m := m) fun e _ => e.2.readsBack
  have hrelation : ∀ r : Relation, ReadsBack (asName Relation.names) (fun r => .str r.name) r :=
    fun r => readsBack_name (by cases r <;> rfl)
  have hrelations (m : Observations) := readsBack_map (m := m) fun e _ => hrelation e.2
  simp only [toJson, ofJson, record, Json.fields, ok_bind]
  refine bind_required (hvalues st.regs) rfl (bind_required (hvalues st.mem) rfl ?_)
  exact bind_required (hrelations st.obsMem) rfl (bind_required (hrelations st.obsCtrl) rfl rfl)

theorem Step.readsBack {step : Step} (h : step.id < UInt64.size) :
    ReadsBack ofJson toJson step := by
  refine ⟨?_, by simp [toJson]⟩
  have hmode : ReadsBack (asName Mode.names) (fun mode => .str mode.name) step.mode :=
    readsBack_name (by cases step.mode <;> rfl)
  simp only [toJson, ofJson, record, Json.fields, ok_bind]
  refine bind_required (readsBack_nat h) (by simp) ?_
  refine bind_required (readsBack_string step.nodeId) (by simp) ?_
  refine bind_required (readsBack_int64 step.pc) (by simp) ?_
  refine bind_required hmode (by simp) ?_
  refine bind_optional (readsBack_text step.description) (by simp) ?_
  refine bind_required step.state.readsBack (by simp) ?_
  exact bind_required (readsBack_bool step.isViolation) (by simp) rfl

/-! ## Reports -/

/-- A detail is read as it stands. -/
theorem Json.readsBack_detail {j : Json} (h : j ≠ .null) : ReadsBack .ok id j := ⟨rfl, h⟩

theorem ErrorInfo.readsBack {info : ErrorInfo} (h : info.detail ≠ some .null) :
    ReadsBack ofJson toJson info := by
  refine ⟨?_, by simp [toJson]⟩
  have hclass : ReadsBack (asName ErrorClass.names) (fun c => .str c.name) info.errorClass :=
    readsBack_name (by cases info.errorClass <;> rfl)
  simp only [toJson, ofJson, record, Json.fields, ok_bind]
  refine bind_required hclass (by simp) ?_
  refine bind_required (readsBack_string info.message) (by simp) ?_
  refine bind_optional (fun j hj => readsBack_detail ?_) (by simp) rfl
  rintro rfl
  exact h hj

theorem Warning.readsBack {w : Warning} (h : w.detail ≠ some .null) :
    ReadsBack ofJson toJson w := by
  refine ⟨?_, by simp [toJson]⟩
  have hkind : ReadsBack (asName WarningKind.names) (fun kind => .str kind.name) w.kind :=
    readsBack_name (by cases w.kind; rfl)
  simp only [toJson, ofJson, record, Json.fields, ok_bind]
  refine bind_required hkind (by simp) ?_
  refine bind_optional (fun j hj => readsBack_detail ?_) (by simp) rfl
  rintro rfl
  exact h hj

theorem Error.detail_ne_null (e : Error) : e.info.detail ≠ some .null := by
  cases e <;> simp [Error.info, Error.detail]

namespace Report

variable {r : Report}

/-- A report can be read if its graph can be, if its steps are numbered by words, and if no detail
    is `null`. -/
theorem readsBack (hgraph : ReadsBack SpecGraph.ofJson SpecGraph.toJson r.graph)
    (htrace : ∀ step ∈ r.trace, step.id < UInt64.size)
    (herror : ∀ info ∈ r.error, info.detail ≠ some .null)
    (hwarnings : ∀ w ∈ r.warnings, w.detail ≠ some .null) : ReadsBack ofJson toJson r := by
  refine ⟨?_, by simp [toJson]⟩
  have hsteps : ReadsBack traceOfJson
      (fun l => .obj [("steps", .arr (l.map Step.toJson))]) r.trace := by
    refine ⟨?_, by simp⟩
    simp only [traceOfJson, record, Json.fields, ok_bind]
    exact (readsBack_list fun step hstep => Step.readsBack (htrace step hstep)).required rfl
  have hmode : ReadsBack (asName TraceMode.names) (fun mode => .str mode.name) r.traceMode :=
    readsBack_name (by cases r.traceMode <;> rfl)
  have hverdict : ReadsBack (asName Verdict.names) (fun v => .str v.name) r.verdict :=
    readsBack_name (by cases r.verdict <;> rfl)
  have hcheck : checkField ("schemaVersion", .str r.schemaVersion) = .ok () := rfl
  simp only [toJson, ofJson, record, Json.fields, ok_bind]
  -- of the fields before the graph, which are checked first, there is one
  refine bind_eq_ok_iff.2 ⟨(), ?_, ?_⟩
  · simp [List.takeWhile, hcheck]
  refine bind_required hgraph (by simp) ?_
  refine bind_required (readsBack_string r.schemaVersion) (by simp) ?_
  refine bind_required hsteps (by simp) ?_
  refine bind_required hmode (by simp) ?_
  refine bind_required hverdict (by simp) ?_
  refine bind_optional (fun info h => ErrorInfo.readsBack (herror info h)) (by simp) ?_
  exact bind_eq_ok_iff.2 ⟨r.warnings,
    withDefault_list_eq_ok (fun w h => Warning.readsBack (hwarnings w h)) (by simp), rfl⟩

theorem detail_ne_null_of_warning {p : Policy} {w : Warning} (h : w ∈ policyWarnings p) :
    w.detail ≠ some .null := by
  rcases List.mem_append.1 h with h | h <;>
    obtain ⟨e, -, rfl⟩ := List.mem_map.1 h <;> simp

theorem readsBack_failed (o : Options) (e : Error) : ReadsBack ofJson toJson (failed o e) := by
  refine readsBack (SpecGraph.Indexed.empty.readsBack ?_ rfl) (by simp [failed]) ?_
    fun w => detail_ne_null_of_warning
  · intro n hn
    cases hn
  · rintro info ⟨⟩
    exact e.detail_ne_null

end Report

/-! ## Analyses -/

namespace Machine

variable {s : Setup} {cap : Option Nat}

theorem size_trace_step_le (s : Setup) (cap : Option Nat) (m : Machine) :
    (m.step s cap).machine.trace.size ≤ m.trace.size + 1 := by
  have hstep := step_ofStep s cap m
  generalize m.step s cap = p at hstep
  cases hstep with
  | done => exact Nat.le_succ _
  | fails queue table trace => exact trace ▸ Nat.le_succ _
  | violates node held after violation table trace => rw [Progress.machine, trace, Array.size_push]
  | passes node held after violation queue table trace result =>
    rw [← result, trace_propagateAll, trace, Array.size_push]

theorem size_trace_run_le {late : Error} (fuel : Nat) (m : Machine) :
    (m.run s cap late fuel).machine.trace.size ≤ m.trace.size + fuel := by
  induction fuel generalizing m with
  | zero => exact Nat.le_refl _
  | succ fuel ih =>
    have hstep := size_trace_step_le s cap m
    rw [run]
    cases hp : m.step s cap with
    | running m₁ =>
      rw [hp] at hstep
      calc
        (m₁.run s cap late fuel).machine.trace.size ≤ m₁.trace.size + fuel := ih m₁
        _ ≤ m.trace.size + 1 + fuel := Nat.add_le_add_right hstep fuel
        _ = m.trace.size + (fuel + 1) := by omega
    | stopped m₁ outcome =>
      rw [hp] at hstep
      exact hstep.trans (by omega)

end Machine

/-- The steps of a trace have numbers below the limit of steps. -/
theorem id_lt_of_mem_trace {g : SpecGraph} {o : Options} {step : Step}
    (h : step ∈ (g.analyze o).result.trace) : step.id < o.maxSteps := by
  have hnumbered := (Setup.endsOrderly_run (Setup.of g o)).numbered
  have hid : step.id ∈ (Setup.of g o).run.machine.trace.toList.map (·.id) := List.mem_map_of_mem h
  rw [hnumbered, List.mem_range, Array.length_toList] at hid
  refine hid.trans_le ?_
  rcases (Setup.of g o).run_cases with ⟨hmachine, -⟩ | ⟨entry, hentry⟩
  · rw [hmachine]
    exact Nat.zero_le _
  · rw [Setup.run_of_entry hentry]
    exact (Machine.size_trace_run_le ..).trans_eq (Nat.zero_add _)

/-- What is found out about a valid graph can be read back, if its numbers are machine words. -/
theorem SpecGraph.Indexed.readsBack_analyze {g : SpecGraph} (hg : g.Indexed) (hwords : g.FitsWords)
    (hvalid : g.validate = .ok ()) {o : Options} (ho : o.maxSteps < UInt64.size) :
    ReadsBack Report.ofJson Report.toJson (g.analyze o).result := by
  refine Report.readsBack (hg.readsBack hwords hvalid)
    (fun step hstep => (id_lt_of_mem_trace hstep).trans ho) ?_
    fun w => Report.detail_ne_null_of_warning
  intro info hinfo
  simp only [analyze, Report.ofFinished] at hinfo
  split at hinfo
  · cases hinfo
  · cases hinfo
    exact Error.detail_ne_null _

end Mispredict
