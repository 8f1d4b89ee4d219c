/-
  The language of source texts, and the programs that they stand for.

  A text is of the language (`IsSource`) if every line holds something, no label stands on two
  lines and every branch goes to a label. `Builds` says which program it stands for: one entry
  for each instruction line, with its number, and each label bound to the number of instruction
  lines before its own.

  While lines are read, all that matters of a draft is its entries and the table that it would
  bind its labels to; `Records` says what both are after some lines, and `Records.add` that one
  more line keeps it. `parse_iff_isSource`: a text is accepted exactly if it is of the language,
  it then gives the program it stands for, and otherwise the error is on the first line that
  offends or, where no line does, on the first branch to a label that is not there.
-/
import Mathlib.Data.List.Forall2
import Mispredict.Proofs.SourceLine

namespace Mispredict.MuAsm.Program

/-! ## What a source text says -/

/-- The labels of some lines, in order. -/
def labelsOf (ls : List Line) : List String := ls.filterMap (·.label)

/-- The instructions of some lines, in order. -/
def instrsOf (ls : List Line) : List Instr := ls.filterMap (·.instr)

/-- The instructions of some lines, each with the number of its line, counted from 1. -/
def numbered (ls : List Line) : List (Nat × Instr) :=
  (ls.zipIdx 1).filterMap fun l => l.1.instr.map (l.2, ·)

/-- The label to which an instruction branches. -/
def branchTarget? : Instr → Option String
  | .beqz _ target _ => some target
  | _ => none

/-- A source text is of the language, and its lines hold this. -/
structure IsSource (source : String) (ls : List Line) : Prop where
  reads : List.Forall₂ Reads (Text.lines source.toList) ls
  nodup : (labelsOf ls).Nodup
  targets : ∀ i ∈ instrsOf ls, ∀ target ∈ branchTarget? i, target ∈ labelsOf ls

/-! ## The program of a source text -/

/-- An instruction with its target looked up. A jump to a lone name goes to that label or, if there
    is none, to the name; a jump to a constant that is not negative goes to that program counter. -/
inductive Resolved (labels : Std.ExtTreeMap String Nat) : Instr → Instr → Prop where
  | branch {cond : Expr} {target : String} {known : Option Nat} {pc : Nat}
      (bound : labels[target]? = some pc) :
      Resolved labels (.beqz cond target known) (.beqz cond target (some pc))
  | jumpLabel {name : String} {known : Jump} {pc : Nat} (bound : labels[name]? = some pc) :
      Resolved labels (.jmp (.register name) known) (.jmp (.register name) (.pc pc))
  | jumpName {name : String} {known : Jump} (free : labels[name]? = none) :
      Resolved labels (.jmp (.register name) known) (.jmp (.register name) (.label name))
  | jumpConstant {target : Expr} {known : Jump} {value : Int64}
      (constant : target.constant? = some value) (nonneg : 0 ≤ value.toInt) :
      Resolved labels (.jmp target known) (.jmp target (.pc value.toInt.toNat))
  | jumpDynamic {target : Expr} {known : Jump} (compound : ∀ name, target ≠ .register name)
      (dynamic : ∀ value ∈ target.constant?, value.toInt < 0) :
      Resolved labels (.jmp target known) (.jmp target .dynamic)
  | plain {i : Instr} (branch : ∀ cond target known, i ≠ .beqz cond target known)
      (jump : ∀ target known, i ≠ .jmp target known) : Resolved labels i i

/-- A label is bound to the number of instruction lines before its own line. -/
def Binds (ls : List Line) (label : String) (pc : Nat) : Prop :=
  ∃ before l after, ls = before ++ l :: after ∧ l.label = some label ∧
    pc = (instrsOf before).length

/-- The program that these lines stand for. -/
structure Builds (ls : List Line) (p : Program) : Prop where
  length : p.length = (numbered ls).length
  entries : ∀ n e, p.entry? n = some e → e.pc = n ∧
    ∃ i, (numbered ls)[n]? = some (e.sourceLine, i) ∧ Resolved p.labels i e.instr
  labels : ∀ label pc, p.labelPc? label = some pc ↔ Binds ls label pc

/-! ## Errors of a source text -/

/-- The line with this index offends: it cannot be read, or an earlier line has its label. -/
def Offends (lines : List (List Char)) (n : Nat) : Prop :=
  ∃ line, lines[n]? = some line ∧ ((∀ l, ¬ Reads line l) ∨
    ∃ label, HasLabel line label ∧ ∃ earlier ∈ lines.take n, HasLabel earlier label)

/-- The error of these lines is on the first line that offends or, where no line does, on the first
    branch without its label. -/
inductive Reports (lines : List (List Char)) (e : SourceError) : Prop where
  | line {n : Nat} (offends : Offends lines n) (first : ∀ m < n, ¬ Offends lines m)
      (line : e.line = some (n + 1)) (text : e.fault.missesLabel = false)
  | target {ls : List Line} {before after : List (Nat × Instr)} {n : Nat} {i : Instr}
      {target : String} (wellFormed : ∀ n, ¬ Offends lines n) (reads : List.Forall₂ Reads lines ls)
      (split : numbered ls = before ++ (n, i) :: after) (branch : branchTarget? i = some target)
      (missing : target ∉ labelsOf ls)
      (first : ∀ j ∈ before, ∀ target ∈ branchTarget? j.2, target ∈ labelsOf ls)
      (eq : e = .atLine n (.undefinedLabel target))

/-! ## Lines one after another -/

section Lists

variable {ls : List Line} {l : Line} {label : String} {pc : Nat}

@[simp] theorem labelsOf_append (ls ls' : List Line) :
    labelsOf (ls ++ ls') = labelsOf ls ++ labelsOf ls' :=
  List.filterMap_append

theorem labelsOf_singleton (l : Line) : labelsOf [l] = l.label.toList := by
  cases hl : l.label <;> simp [labelsOf, hl]

@[simp] theorem instrsOf_append (ls ls' : List Line) :
    instrsOf (ls ++ ls') = instrsOf ls ++ instrsOf ls' :=
  List.filterMap_append

theorem numbered_concat (ls : List Line) (l : Line) :
    numbered (ls ++ [l]) = numbered ls ++ (l.instr.map (ls.length + 1, ·)).toList := by
  rw [numbered, List.zipIdx_append, List.filterMap_append, ← numbered]
  cases hi : l.instr <;> simp [hi, Nat.add_comm]

theorem map_snd_numbered (ls : List Line) : (numbered ls).map (·.2) = instrsOf ls := by
  have hmap : instrsOf ls = ((ls.zipIdx 1).map Prod.fst).filterMap (·.instr) := by
    rw [List.zipIdx_map_fst, instrsOf]
  rw [hmap, numbered, List.map_filterMap, List.filterMap_map]
  refine congrArg (List.filterMap · _) (funext fun l => ?_)
  cases hi : l.1.instr <;> simp [hi]

theorem binds_append {ls' : List Line} : Binds (ls ++ ls') label pc ↔
    Binds ls label pc ∨ ∃ n, Binds ls' label n ∧ pc = (instrsOf ls).length + n := by
  constructor
  · rintro ⟨before, l, after, hsplit, hlabel, rfl⟩
    obtain ⟨mid, rfl, rfl⟩ | ⟨mid, rfl, hmid⟩ := List.append_eq_append_iff.1 hsplit
    · exact .inr ⟨_, ⟨mid, l, after, rfl, hlabel, rfl⟩, by simp⟩
    · cases mid with
      | nil => exact .inr ⟨0, ⟨[], l, after, hmid.symm, hlabel, rfl⟩, by simp⟩
      | cons l' mid =>
        obtain ⟨rfl, -⟩ := List.cons_eq_cons.1 hmid
        exact .inl ⟨before, l, mid, rfl, hlabel, rfl⟩
  · rintro (⟨before, l, after, rfl, hlabel, rfl⟩ | ⟨n, ⟨before, l, after, rfl, hlabel, rfl⟩, rfl⟩)
    · exact ⟨before, l, after ++ ls', by simp, hlabel, rfl⟩
    · exact ⟨ls ++ before, l, after, by simp, hlabel, by simp⟩

theorem binds_singleton : Binds [l] label pc ↔ l.label = some label ∧ pc = 0 := by
  constructor
  · rintro ⟨before, l', after, hsplit, hlabel, rfl⟩
    cases before with
    | nil =>
      obtain ⟨rfl, -⟩ := List.cons_eq_cons.1 hsplit
      exact ⟨hlabel, rfl⟩
    | cons => simp at hsplit
  · rintro ⟨hlabel, rfl⟩
    exact ⟨[], l, [], rfl, hlabel, rfl⟩

theorem binds_concat : Binds (ls ++ [l]) label pc ↔
    Binds ls label pc ∨ l.label = some label ∧ pc = (instrsOf ls).length := by
  simp [binds_append, binds_singleton]

theorem mem_labelsOf_iff_binds : label ∈ labelsOf ls ↔ ∃ pc, Binds ls label pc := by
  rw [labelsOf, List.mem_filterMap]
  constructor
  · rintro ⟨l, hmem, hlabel⟩
    obtain ⟨before, after, rfl⟩ := List.append_of_mem hmem
    exact ⟨_, before, l, after, rfl, hlabel, rfl⟩
  · rintro ⟨pc, before, l, after, rfl, hlabel, -⟩
    exact ⟨l, by simp, hlabel⟩

theorem mem_labelsOf_iff_hasLabel {lines : List (List Char)} (h : List.Forall₂ Reads lines ls) :
    label ∈ labelsOf ls ↔ ∃ line ∈ lines, HasLabel line label := by
  induction h with
  | nil => simp [labelsOf]
  | @cons line l lines ls hread _ ih =>
    have hcons : labelsOf (l :: ls) = l.label.toList ++ labelsOf ls := by
      rw [← labelsOf_singleton, ← labelsOf_append, List.singleton_append]
    rw [hcons, List.mem_append, ih, Option.mem_toList, ← hread.hasLabel_iff]
    simp

theorem Offends.lt {lines : List (List Char)} {n : Nat} (h : Offends lines n) :
    n < lines.length := by
  obtain ⟨line, hline, -⟩ := h
  exact (List.getElem?_eq_some_iff.1 hline).1

/-- The next line offends unless it can be read and its label is new. -/
theorem offends_length_iff {lines later : List (List Char)} {line : List Char}
    (h : List.Forall₂ Reads lines ls) : Offends (lines ++ line :: later) lines.length ↔
      ¬ ∃ l, Reads line l ∧ ∀ label ∈ l.label, label ∉ labelsOf ls := by
  have hline : (lines ++ line :: later)[lines.length]? = some line := by simp
  have htake : (lines ++ line :: later).take lines.length = lines := by simp
  simp only [Offends, hline, htake, Option.some.injEq, exists_eq_left',
    ← mem_labelsOf_iff_hasLabel h]
  constructor
  · rintro (hnone | ⟨label, hlabel, hmem⟩) ⟨l, hread, hnew⟩
    · exact hnone l hread
    · exact hnew label (hread.hasLabel_iff.1 hlabel) hmem
  · intro hnone
    by_cases hreads : ∃ l, Reads line l
    · obtain ⟨l, hread⟩ := hreads
      right
      by_contra hnew
      refine hnone ⟨l, hread, fun label hlabel hmem => hnew ?_⟩
      exact ⟨label, hread.hasLabel_iff.2 hlabel, hmem⟩
    · exact .inl fun l hread => hreads ⟨l, hread⟩

end Lists

/-- What a draft has after these lines. -/
structure Draft.Records (d : Draft) (ls : List Line) : Prop where
  entries : d.entries.toList.map (fun e => (e.sourceLine, e.instr)) = numbered ls
  pcs : d.entries.toList.map (·.pc) = List.range d.entries.size
  labels : ∀ label pc, d.bindWaiting[label]? = some pc ↔ Binds ls label pc

namespace Draft

section

variable {d d' : Draft} {ls : List Line} {l : Line}

theorem records_empty : Records empty [] where
  entries := rfl
  pcs := rfl
  labels := by simp [empty, bindWaiting, Binds]

theorem Records.mem_bindWaiting (h : Records d ls) {label : String} :
    label ∈ d.bindWaiting ↔ label ∈ labelsOf ls := by
  rw [mem_labelsOf_iff_binds, Std.ExtTreeMap.mem_iff_isSome_getElem?, Option.isSome_iff_exists]
  simp only [h.labels]

theorem Records.size_entries (h : Records d ls) : d.entries.size = (instrsOf ls).length := by
  rw [← map_snd_numbered, ← h.entries]
  simp

theorem bindWaiting_withInstr (d : Draft) (number : Nat) (i : Option Instr) :
    (d.withInstr number i).bindWaiting = d.bindWaiting := by
  cases i <;> rfl

theorem bindWaiting_withLabel (d : Draft) (label : String) :
    (d.withLabel (some label)).bindWaiting = d.bindWaiting.insert label d.entries.size := by
  simp [withLabel, bindWaiting]

theorem entries_withLabel (d : Draft) (label? : Option String) :
    (d.withLabel label?).entries = d.entries := by
  cases label? <;> rfl

/-- One more line keeps what a draft has in step with the lines. -/
theorem Records.add (h : Records d ls) (hnew : ∀ label ∈ l.label, label ∉ labelsOf ls) :
    Records (d.add (ls.length + 1) l) (ls ++ [l]) where
  entries := by
    rw [numbered_concat, ← h.entries, Draft.add, ← entries_withLabel d l.label]
    cases l.instr <;> simp [withInstr, addInstr]
  pcs := by
    have hpcs := h.pcs
    rw [← entries_withLabel d l.label] at hpcs
    rw [Draft.add]
    cases l.instr with
    | none => exact hpcs
    | some i => simp [withInstr, addInstr, hpcs, List.range_succ]
  labels := by
    intro label pc
    rw [binds_concat, Draft.add, bindWaiting_withInstr, ← h.labels, ← h.size_entries]
    cases hl : l.label with
    | none => simp [withLabel]
    | some label' =>
      have hfree : d.bindWaiting[label']? = none := by
        refine Std.ExtTreeMap.getElem?_eq_none ?_
        rw [h.mem_bindWaiting]
        exact hnew label' hl
      rw [bindWaiting_withLabel, Std.ExtTreeMap.getElem?_insert]
      by_cases heq : label' = label
      · subst heq
        simp [hfree, eq_comm]
      · simp [heq]

/-- What comes of reading these lines: a draft that has them all, or the error of the first line
    that offends. -/
def Outcome (lines : List (List Char)) : Except SourceError Draft → Prop
  | .ok d => ∃ ls, List.Forall₂ Reads lines ls ∧ (labelsOf ls).Nodup ∧ Records d ls ∧
      ∀ n, ¬ Offends lines n
  | .error e => ∃ n, Offends lines n ∧ (∀ m < n, ¬ Offends lines m) ∧ e.line = some (n + 1) ∧
      e.fault.missesLabel = false

theorem outcome_readLines {lines later : List (List Char)} (h : Records d ls)
    (hreads : List.Forall₂ Reads lines ls) (hnodup : (labelsOf ls).Nodup)
    (hfirst : ∀ m < lines.length, ¬ Offends (lines ++ later) m) :
    Outcome (lines ++ later) (d.readLines (ls.length + 1) later) := by
  induction later generalizing d ls lines with
  | nil =>
    refine ⟨ls, by simpa using hreads, hnodup, h, fun m hm => hfirst m ?_ hm⟩
    simpa using hm.lt
  | cons line later ih =>
    have hlength : lines.length = ls.length := hreads.length_eq
    rw [readLines]
    cases hline : d.readLine (ls.length + 1) (Text.cutComment line) with
    | error e =>
      have hoffends : Offends (lines ++ line :: later) lines.length := by
        rw [offends_length_iff hreads]
        rintro ⟨l, hread, hnew⟩
        simp only [← h.mem_bindWaiting] at hnew
        have hok : d.readLine (ls.length + 1) (Text.cutComment line) = .ok (d.add _ l) :=
          readLine_eq_ok_iff.2 ⟨l, hread, hnew, rfl⟩
        simp [hline] at hok
      obtain ⟨hnumber, hfault⟩ := blames_readLine d _ _ e hline
      exact ⟨lines.length, hoffends, hfirst, by rw [hnumber, hlength], hfault⟩
    | ok d' =>
      obtain ⟨l, hread, hnew, rfl⟩ := readLine_eq_ok_iff.1 hline
      simp only [h.mem_bindWaiting] at hnew
      have hreads' : List.Forall₂ Reads (lines ++ [line]) (ls ++ [l]) :=
        List.rel_append hreads (.cons hread .nil)
      have hnodup' : (labelsOf (ls ++ [l])).Nodup := by
        rw [labelsOf_append, labelsOf_singleton, List.nodup_append]
        refine ⟨hnodup, by cases l.label <;> simp, fun a ha b hb heq => ?_⟩
        exact hnew b (Option.mem_toList.1 hb) (heq ▸ ha)
      have hfirst' : ∀ m < (lines ++ [line]).length, ¬ Offends (lines ++ [line] ++ later) m := by
        intro m hm hoffends
        rw [List.append_assoc, List.singleton_append] at hoffends
        obtain hlt | rfl := Nat.lt_or_eq_of_le (Nat.le_of_lt_succ (by simpa using hm))
        · exact hfirst m hlt hoffends
        · exact (offends_length_iff hreads).1 hoffends ⟨l, hread, hnew⟩
      have hrest := ih (h.add hnew) hreads' hnodup' hfirst'
      rwa [List.append_assoc, List.length_append] at hrest

end

end Draft

/-! ## Targets -/

section Targets

variable {labels : Std.ExtTreeMap String Nat} {i i' : Instr} {es es' : List Entry}

theorem jumpOfTarget_of_compound {target : Expr} (h : ∀ name, target ≠ .register name) :
    Jump.ofTarget labels target = match target.constant? with
      | some value => if 0 ≤ value.toInt then .pc value.toInt.toNat else .dynamic
      | none => .dynamic := by
  cases target with
  | register name => exact absurd rfl (h name)
  | constant value => rfl
  | binary op lhs rhs => rfl

theorem resolved_jump (labels : Std.ExtTreeMap String Nat) (target : Expr) (known : Jump) :
    Resolved labels (.jmp target known) (.jmp target (.ofTarget labels target)) := by
  by_cases hcompound : ∀ name, target ≠ .register name
  · rw [jumpOfTarget_of_compound hcompound]
    cases hconstant : target.constant? with
    | none => exact .jumpDynamic hcompound (by simp [hconstant])
    | some value =>
      by_cases hnonneg : 0 ≤ value.toInt
      · simpa [hnonneg] using Resolved.jumpConstant hconstant hnonneg
      · simpa [hnonneg] using Resolved.jumpDynamic hcompound (by simpa [hconstant] using hnonneg)
  · simp only [ne_eq, not_forall, not_not] at hcompound
    obtain ⟨name, rfl⟩ := hcompound
    cases hbound : labels[name]? with
    | none => simpa [Jump.ofTarget, hbound] using Resolved.jumpName hbound
    | some pc => simpa [Jump.ofTarget, hbound] using Resolved.jumpLabel hbound

theorem resolve_eq_ok_iff : i.resolve labels = .ok i' ↔ Resolved labels i i' := by
  constructor
  · intro h
    unfold Instr.resolve at h
    split at h
    case h_1 cond target known =>
      split at h
      case h_1 pc hbound =>
        obtain rfl := Except.ok.inj h
        exact .branch hbound
      case h_2 => simp at h
    case h_2 target known =>
      obtain rfl := Except.ok.inj h
      exact resolved_jump labels target known
    case h_3 hbranch hjump =>
      obtain rfl := Except.ok.inj h
      exact .plain hbranch hjump
  · intro h
    cases h with
    | branch hbound => simp [Instr.resolve, hbound]
    | jumpLabel hbound => simp [Instr.resolve, Jump.ofTarget, hbound]
    | jumpName hfree => simp [Instr.resolve, Jump.ofTarget, hfree]
    | @jumpConstant target _ value hconstant hnonneg =>
      have hcompound : ∀ name, target ≠ .register name := by
        rintro name rfl
        simp [Expr.constant?] at hconstant
      simp [Instr.resolve, jumpOfTarget_of_compound hcompound, hconstant, hnonneg]
    | @jumpDynamic target _ hcompound hdynamic =>
      rw [Instr.resolve, jumpOfTarget_of_compound hcompound]
      cases hconstant : target.constant? with
      | none => rfl
      | some value => simp [Int.not_le.2 (hdynamic value hconstant)]
    | plain hbranch hjump =>
      unfold Instr.resolve
      split
      case h_1 => exact absurd rfl (hbranch _ _ _)
      case h_2 => exact absurd rfl (hjump _ _)
      case h_3 => rfl

theorem resolve_eq_error {fault : Fault} (h : i.resolve labels = .error fault) :
    ∃ target, branchTarget? i = some target ∧ target ∉ labels ∧ fault = .undefinedLabel target := by
  unfold Instr.resolve at h
  split at h
  case h_1 cond target known =>
    split at h
    case h_1 => simp at h
    case h_2 hfree =>
      refine ⟨target, rfl, ?_, (Except.error.inj h).symm⟩
      rw [Std.ExtTreeMap.mem_iff_isSome_getElem?, hfree]
      simp
  all_goals simp at h

theorem Resolved.mem_of_branchTarget? (h : Resolved labels i i') {target : String}
    (htarget : branchTarget? i = some target) : target ∈ labels := by
  cases h with
  | branch hbound =>
    obtain rfl := Option.some.inj htarget
    exact Std.ExtTreeMap.mem_iff_isSome_getElem?.2 (Option.isSome_of_mem hbound)
  | plain hbranch =>
    unfold branchTarget? at htarget
    split at htarget
    · exact absurd rfl (hbranch _ _ _)
    · simp at htarget
  | _ => simp [branchTarget?] at htarget

theorem resolveEntries_cons (e : Entry) (es : List Entry) :
    resolveEntries labels (e :: es) =
      (e.instr.resolve labels).mapError (.atLine e.sourceLine) >>= fun i =>
        resolveEntries labels es >>= fun es => .ok ({ e with instr := i } :: es) := by
  simp only [resolveEntries, List.mapM_cons, bind_assoc, pure_bind]
  rfl

theorem forall₂_of_resolveEntries (h : resolveEntries labels es = .ok es') :
    List.Forall₂ (fun e e' => e'.pc = e.pc ∧ e'.sourceLine = e.sourceLine ∧
      Resolved labels e.instr e'.instr) es es' := by
  induction es generalizing es' with
  | nil =>
    obtain rfl := Except.ok.inj h
    exact .nil
  | cons e es ih =>
    simp only [resolveEntries_cons, bind_eq_ok_iff, mapError_eq_ok_iff, resolve_eq_ok_iff] at h
    obtain ⟨i, hi, es'', hes, heq⟩ := h
    obtain rfl := Except.ok.inj heq
    exact .cons ⟨rfl, rfl, hi⟩ (ih hes)

/-- Targets are looked up until one is missing. -/
theorem exists_missing_of_resolveEntries {x : SourceError}
    (h : resolveEntries labels es = .error x) :
    ∃ before e after target, es = before ++ e :: after ∧ branchTarget? e.instr = some target ∧
      target ∉ labels ∧ (∀ e' ∈ before, ∀ target ∈ branchTarget? e'.instr, target ∈ labels) ∧
      x = .atLine e.sourceLine (.undefinedLabel target) := by
  induction es with
  | nil => cases h
  | cons e es ih =>
    rw [resolveEntries_cons] at h
    cases hi : e.instr.resolve labels with
    | error fault =>
      obtain ⟨target, htarget, hmissing, rfl⟩ := resolve_eq_error hi
      rw [hi] at h
      exact ⟨[], e, es, target, rfl, htarget, hmissing, by simp, (Except.error.inj h).symm⟩
    | ok i =>
      rw [hi] at h
      cases hes : resolveEntries labels es with
      | error x' =>
        rw [hes] at h
        obtain rfl := Except.error.inj h
        obtain ⟨before, e', after, target, rfl, htarget, hmissing, hbefore, hx⟩ := ih hes
        refine ⟨e :: before, e', after, target, rfl, htarget, hmissing, ?_, hx⟩
        intro f hf target' htarget'
        obtain rfl | hf := List.mem_cons.1 hf
        · exact (resolve_eq_ok_iff.1 hi).mem_of_branchTarget? htarget'
        · exact hbefore f hf target' htarget'
      | ok es' =>
        rw [hes] at h
        cases h

end Targets

/-! ## The whole text -/

section Parse

variable {source : String} {ls : List Line} {lines : List (List Char)}

theorem exists_of_forall₂_of_getElem? {α β : Type} {R : α → β → Prop} {as : List α} {bs : List β}
    (h : List.Forall₂ R as bs) {n : Nat} {b : β} (hb : bs[n]? = some b) :
    ∃ a, as[n]? = some a ∧ R a b := by
  obtain ⟨hlt, rfl⟩ := List.getElem?_eq_some_iff.1 hb
  have hlt' : n < as.length := h.length_eq ▸ hlt
  exact ⟨as[n], List.getElem?_eq_getElem hlt', h.get hlt' hlt⟩

theorem not_offends_of_nodup (h : List.Forall₂ Reads lines ls) (hnodup : (labelsOf ls).Nodup)
    (n : Nat) : ¬ Offends lines n := by
  intro hoffends
  have hlt : n < ls.length := h.length_eq ▸ hoffends.lt
  obtain ⟨line, hline, hread⟩ := exists_of_forall₂_of_getElem? h (List.getElem?_eq_getElem hlt)
  obtain ⟨line', hline', hnone | ⟨label, hlabel, hearlier⟩⟩ := hoffends
  all_goals obtain rfl := Option.some.inj (hline.symm.trans hline')
  · exact hnone _ hread
  · rw [← mem_labelsOf_iff_hasLabel (List.forall₂_take n h)] at hearlier
    have hlater : label ∈ labelsOf (ls.drop n) := by
      rw [List.drop_eq_getElem_cons hlt, labelsOf, List.mem_filterMap]
      exact ⟨ls[n], List.mem_cons_self, hread.hasLabel_iff.1 hlabel⟩
    rw [← List.take_append_drop n ls, labelsOf_append, List.nodup_append] at hnodup
    exact hnodup.2.2 label hearlier label hlater rfl

theorem builds_of_resolveEntries {d : Draft} {es : List Entry} (h : d.Records ls)
    (hes : resolveEntries d.bindWaiting d.entries.toList = .ok es) :
    Builds ls ⟨es, d.bindWaiting⟩ where
  length := by
    have hlength := (forall₂_of_resolveEntries hes).length_eq
    rw [← h.entries, List.length_map, hlength]
    rfl
  entries := by
    intro n e' he'
    obtain ⟨e, he, hpc, hline, hresolved⟩ :=
      exists_of_forall₂_of_getElem? (forall₂_of_resolveEntries hes) he'
    refine ⟨?_, e.instr, ?_, hresolved⟩
    · have hmap : (d.entries.toList.map (·.pc))[n]? = some e.pc := by simp [he]
      rw [h.pcs, List.getElem?_eq_some_iff] at hmap
      obtain ⟨hlt, heq⟩ := hmap
      rw [hpc, ← heq, List.getElem_range]
    · rw [← h.entries, List.getElem?_map, he, hline]
      rfl
  labels := h.labels

/-- What comes of a source text: the program that it stands for, or its error. -/
def Outcome (source : String) : Except SourceError Program → Prop
  | .ok p => ∃ ls, IsSource source ls ∧ Builds ls p
  | .error e => Reports (Text.lines source.toList) e

theorem isSource_of_resolveEntries {d : Draft} {es : List Entry} (h : d.Records ls)
    (hreads : List.Forall₂ Reads (Text.lines source.toList) ls) (hnodup : (labelsOf ls).Nodup)
    (hes : resolveEntries d.bindWaiting d.entries.toList = .ok es) : IsSource source ls where
  reads := hreads
  nodup := hnodup
  targets := by
    intro i hi target htarget
    rw [← map_snd_numbered, ← h.entries, List.map_map, List.mem_map] at hi
    obtain ⟨e, he, rfl⟩ := hi
    obtain ⟨n, hn⟩ := List.mem_iff_getElem?.1 he
    obtain ⟨e', -, -, -, hresolved⟩ :=
      exists_of_forall₂_of_getElem? (forall₂_of_resolveEntries hes).flip hn
    exact h.mem_bindWaiting.1 (hresolved.mem_of_branchTarget? htarget)

theorem reports_of_resolveEntries {d : Draft} {e : SourceError} (h : d.Records ls)
    (hreads : List.Forall₂ Reads lines ls) (hnone : ∀ n, ¬ Offends lines n)
    (he : resolveEntries d.bindWaiting d.entries.toList = .error e) : Reports lines e := by
  obtain ⟨before, entry, after, target, hsplit, htarget, hmissing, hbefore, rfl⟩ :=
    exists_missing_of_resolveEntries he
  have hnumbered := h.entries
  rw [hsplit, List.map_append, List.map_cons] at hnumbered
  refine .target hnone hreads hnumbered.symm htarget (fun hmem => ?_) ?_ rfl
  · exact hmissing (h.mem_bindWaiting.2 hmem)
  · intro j hj target' htarget'
    obtain ⟨e', he', rfl⟩ := List.mem_map.1 hj
    exact h.mem_bindWaiting.1 (hbefore e' he' target' htarget')

theorem outcome_parse (source : String) : Outcome source (parse source) := by
  have hread : Draft.Outcome ([] ++ Text.lines source.toList)
      (Draft.empty.readLines 1 (Text.lines source.toList)) :=
    Draft.outcome_readLines Draft.records_empty .nil List.nodup_nil (by simp)
  rw [List.nil_append] at hread
  rw [parse]
  cases hlines : Draft.empty.readLines 1 (Text.lines source.toList) with
  | error e =>
    rw [hlines] at hread
    obtain ⟨n, hoffends, hfirst, hline, hfault⟩ := hread
    exact .line hoffends hfirst hline hfault
  | ok d =>
    rw [hlines] at hread
    obtain ⟨ls, hreads, hnodup, hrecords, hnone⟩ := hread
    cases hes : resolveEntries d.bindWaiting d.entries.toList with
    | error e =>
      have hreports := reports_of_resolveEntries hrecords hreads hnone hes
      simpa [hes, bind, Except.bind, Outcome] using hreports
    | ok es =>
      have hsource := isSource_of_resolveEntries hrecords hreads hnodup hes
      have hbuilds := builds_of_resolveEntries hrecords hes
      simpa [hes, bind, Except.bind, Outcome, pure, Except.pure] using ⟨ls, hsource, hbuilds⟩

theorem IsSource.not_reports {e : SourceError} (h : IsSource source ls) :
    ¬ Reports (Text.lines source.toList) e := by
  intro hreports
  cases hreports with
  | line hoffends => exact not_offends_of_nodup h.reads h.nodup _ hoffends
  | @target ls' before after n i target _ hreads hsplit hbranch hmissing =>
    have hright : Relator.RightUnique Reads := fun _ _ _ h h' => Reads.unique h h'
    obtain rfl : ls = ls' := List.right_unique_forall₂' hright h.reads hreads
    have hi : i ∈ instrsOf ls := by
      rw [← map_snd_numbered, hsplit]
      simp
    exact hmissing (h.targets i hi target hbranch)

/-- A text of the language gives the program that it stands for. -/
theorem IsSource.exists_parse (h : IsSource source ls) :
    ∃ p, parse source = .ok p ∧ Builds ls p := by
  have houtcome := outcome_parse source
  cases hparse : parse source with
  | error e =>
    rw [hparse] at houtcome
    exact absurd houtcome h.not_reports
  | ok p =>
    rw [hparse] at houtcome
    obtain ⟨ls', hsource, hbuilds⟩ := houtcome
    have hright : Relator.RightUnique Reads := fun _ _ _ h h' => Reads.unique h h'
    obtain rfl : ls = ls' := List.right_unique_forall₂' hright h.reads hsource.reads
    exact ⟨p, rfl, hbuilds⟩

/-- A source text is accepted exactly if it is of the language. It then gives the program that it
    stands for. Otherwise the error is on the first line that offends or, where no line does, on the
    first branch without its label. -/
theorem parse_iff_isSource (source : String) :
    ((∃ p, parse source = .ok p) ↔ ∃ ls, IsSource source ls) ∧
      (∀ p, parse source = .ok p → ∃ ls, IsSource source ls ∧ Builds ls p) ∧
      ∀ e, parse source = .error e → Reports (Text.lines source.toList) e := by
  have houtcome := outcome_parse source
  refine ⟨⟨?_, ?_⟩, ?_, ?_⟩
  · rintro ⟨p, hp⟩
    rw [hp] at houtcome
    obtain ⟨ls, hsource, -⟩ := houtcome
    exact ⟨ls, hsource⟩
  · rintro ⟨ls, hsource⟩
    obtain ⟨p, hp, -⟩ := hsource.exists_parse
    exact ⟨p, hp⟩
  · intro p hp
    rwa [hp] at houtcome
  · intro e he
    rwa [he] at houtcome

end Parse

end Mispredict.MuAsm.Program
