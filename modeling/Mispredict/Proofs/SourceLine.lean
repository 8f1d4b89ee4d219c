/-
  One line of a source text.

  `Reads` says what a line may hold, up to its comment: a label before its first colon, and then
  nothing or one instruction. It can hold one thing only (`Reads.unique`). A line is read after
  others exactly if it holds something and its label is new (`Draft.readLine_eq_ok_iff`), and if
  it is refused, the error is on this line and not for want of a label (`blames_readLine`).
-/
import Mathlib.Data.List.Infix
import Mispredict.MuAsm.Program.Parser
import Mispredict.Proofs.Grammar

namespace Mispredict.MuAsm.Program

open Text (isBlank isBlankText trim)

/-! ## What a line says -/

/-- A line without its comment, which begins at the first `//`. -/
inductive Uncommented : (line text : List Char) → Prop where
  | whole {line : List Char} (free : ¬ ['/', '/'] <:+: line) : Uncommented line line
  | cut {text comment : List Char} (first : ¬ ['/', '/'] <:+: text ++ ['/']) :
      Uncommented (text ++ '/' :: '/' :: comment) text

/-- A line splits into its label, which is what stands before the first colon, and the rest. -/
inductive Splits : (line : List Char) → (label : Option String) → (rest : List Char) → Prop where
  | plain {line : List Char} (plain : ':' ∉ line) : Splits line none line
  | label {before rest : List Char} (first : ':' ∉ before)
      (identifier : isIdentifier (trim before) = true) :
      Splits (before ++ ':' :: rest) (some (String.ofList (trim before))) rest

/-- The rest of a line is blank, or it stands for an instruction. -/
inductive Instructs : (rest : List Char) → (instr : Option Instr) → Prop where
  | blank {rest : List Char} (blank : isBlankText rest = true) : Instructs rest none
  | instr {rest : List Char} {i : Instr} (denotes : Instr.Denotes rest i) : Instructs rest (some i)

/-- What a line holds. The targets of its instruction are not looked up. -/
structure Line where
  label : Option String
  instr : Option Instr
  deriving DecidableEq, Repr

/-- A line holds this, up to its comment. -/
def Reads (line : List Char) (l : Line) : Prop :=
  ∃ text rest, Uncommented line text ∧ Splits text l.label rest ∧ Instructs rest l.instr

/-- A line has this label. -/
def HasLabel (line : List Char) (label : String) : Prop :=
  ∃ text rest, Uncommented line text ∧ Splits text (some label) rest

/-! ## One line -/

section Line

variable {line text rest : List Char} {label : Option String} {i : Instr}

theorem exists_cons_of_slashes_prefix {c : Char} (h : ['/', '/'] <+: c :: text) :
    c = '/' ∧ ∃ tail, text = '/' :: tail := by
  obtain ⟨tail, htail⟩ := h
  exact ⟨(List.cons_eq_cons.1 htail).1.symm, tail, (List.cons_eq_cons.1 htail).2.symm⟩

theorem uncommented_cutComment (line : List Char) : Uncommented line (Text.cutComment line) := by
  fun_induction Text.cutComment line with
  | case1 => exact .whole (by simp)
  | case2 comment => exact @Uncommented.cut [] comment (by decide)
  | case3 c cs hslash ih =>
    generalize Text.cutComment cs = text at ih
    cases ih with
    | whole free =>
      refine .whole fun hslashes => ?_
      obtain hstart | hlater := List.infix_cons_iff.1 hslashes
      · obtain ⟨hc, tail, htail⟩ := exists_cons_of_slashes_prefix hstart
        exact hslash tail hc htail
      · exact free hlater
    | @cut text comment first =>
      refine @Uncommented.cut (c :: text) comment fun hslashes => ?_
      obtain hstart | hlater := List.infix_cons_iff.1 hslashes
      · obtain ⟨hc, tail, htail⟩ := exists_cons_of_slashes_prefix hstart
        refine hslash (tail ++ '/' :: comment) hc ?_
        rw [← List.cons_append, ← htail]
        simp
      · exact first hlater

theorem cutComment_of_free (h : ¬ ['/', '/'] <:+: line) : Text.cutComment line = line := by
  fun_induction Text.cutComment line with
  | case1 => rfl
  | case2 comment => exact absurd ⟨[], comment, rfl⟩ h
  | case3 c cs hslash ih => rw [ih fun hlater => h (List.infix_cons hlater)]

theorem cutComment_append {comment : List Char} (h : ¬ ['/', '/'] <:+: text ++ ['/']) :
    Text.cutComment (text ++ '/' :: '/' :: comment) = text := by
  induction text with
  | nil => rfl
  | cons c text ih =>
    rw [List.cons_append, Text.cutComment, ih fun hlater => h (List.infix_cons hlater)]
    rintro tail rfl htail
    refine h (List.IsPrefix.isInfix ?_)
    cases text with
    | nil => exact List.prefix_rfl
    | cons d text =>
      obtain rfl := (List.cons_eq_cons.1 htail).1
      exact ⟨text ++ ['/'], rfl⟩

theorem uncommented_iff : Uncommented line text ↔ text = Text.cutComment line := by
  constructor
  · intro h
    cases h with
    | whole free => exact (cutComment_of_free free).symm
    | cut first => exact (cutComment_append first).symm
  · rintro rfl
    exact uncommented_cutComment line

theorem splitLabel_eq_ok {l : Labelled} (h : splitLabel line = .ok l) :
    Splits line l.label l.rest := by
  have hline := List.takeWhile_append_dropWhile (p := (· != ':')) (l := line)
  have hbefore : ':' ∉ line.takeWhile (· != ':') := by
    intro hmem
    simpa using List.mem_takeWhile_imp hmem
  unfold splitLabel at h
  split at h
  case h_1 hdrop =>
    obtain rfl := Except.ok.inj h
    rw [hdrop, List.append_nil] at hline
    rw [hline] at hbefore
    exact .plain hbefore
  case h_2 c rest hdrop =>
    have hc : c = ':' := by
      have hhead := List.head?_dropWhile_not (· != ':') line
      simpa [hdrop] using hhead
    dsimp only at h
    split at h
    case isTrue hident =>
      obtain rfl := Except.ok.inj h
      rw [hdrop, hc] at hline
      have hsplits : Splits (line.takeWhile (· != ':') ++ ':' :: rest)
          (some (String.ofList (trim (line.takeWhile (· != ':'))))) rest := .label hbefore hident
      rwa [hline] at hsplits
    case isFalse => simp at h

theorem Splits.exists_splitLabel (h : Splits line label rest) :
    ∃ offset, splitLabel line = .ok ⟨label, rest, offset⟩ := by
  cases h with
  | plain hplain =>
    have hdrop : line.dropWhile (· != ':') = [] := by
      rw [List.dropWhile_eq_nil_iff]
      intro c hc
      simpa using ne_of_mem_of_not_mem hc hplain
    exact ⟨0, by simp [splitLabel, hdrop]⟩
  | @label before rest hfirst hident =>
    have hbefore : ∀ c ∈ before, (c != ':') = true := by
      intro c hc
      simpa using ne_of_mem_of_not_mem hc hfirst
    have htake : (before ++ ':' :: rest).takeWhile (· != ':') = before :=
      takeWhile_append_of_stop hbefore (by simp)
    have hdrop : (before ++ ':' :: rest).dropWhile (· != ':') = ':' :: rest := by
      rw [List.dropWhile_append_of_pos hbefore]
      simp
    exact ⟨Text.byteLength before + 1, by simp [splitLabel, htake, hdrop, hident]⟩

theorem Splits.unique {label' : Option String} {rest' : List Char} (h : Splits line label rest)
    (h' : Splits line label' rest') : label = label' ∧ rest = rest' := by
  obtain ⟨offset, hsplit⟩ := h.exists_splitLabel
  obtain ⟨offset', hsplit'⟩ := h'.exists_splitLabel
  rw [hsplit, Except.ok.injEq, Labelled.mk.injEq] at hsplit'
  exact ⟨hsplit'.1, hsplit'.2.1⟩

theorem eq_nil_of_lexes_of_isBlankText {kinds : List TokenKind} (h : Lexes text kinds)
    (hblank : isBlankText text = true) : kinds = [] := by
  induction h with
  | nil => rfl
  | blank _ _ ih => exact ih (by simp_all [isBlankText])
  | token hlexeme =>
    obtain ⟨c, w, rfl, hc⟩ := hlexeme.exists_head
    simp [isBlankText, hc] at hblank

theorem isBlankText_of_denotes (h : Instr.Denotes text i) : isBlankText text = false := by
  obtain ⟨kinds, n, hlexes, hd, -⟩ := h
  rw [Bool.eq_false_iff]
  intro hblank
  obtain rfl := eq_nil_of_lexes_of_isBlankText hlexes hblank
  cases hd

theorem Instructs.unique {j k : Option Instr} (hj : Instructs rest j) (hk : Instructs rest k) :
    j = k := by
  cases hj with
  | blank hblank =>
    cases hk with
    | blank => rfl
    | instr hk => simp [isBlankText_of_denotes hk] at hblank
  | instr hj =>
    cases hk with
    | blank hblank => simp [isBlankText_of_denotes hj] at hblank
    | instr hk => rw [Instr.Denotes.unique hj hk]

/-- A line holds one thing at most. -/
theorem Reads.unique {l l' : Line} (h : Reads line l) (h' : Reads line l') : l = l' := by
  obtain ⟨text, rest, htext, hsplits, hinstr⟩ := h
  obtain ⟨text', rest', htext', hsplits', hinstr'⟩ := h'
  obtain rfl : text = text' := (uncommented_iff.1 htext).trans (uncommented_iff.1 htext').symm
  obtain ⟨hlabel, rfl⟩ := hsplits.unique hsplits'
  cases l
  cases l'
  rw [Line.mk.injEq]
  exact ⟨hlabel, hinstr.unique hinstr'⟩

theorem Reads.hasLabel_iff {l : Line} {label : String} (h : Reads line l) :
    HasLabel line label ↔ l.label = some label := by
  obtain ⟨text, rest, htext, hsplits, -⟩ := h
  constructor
  · rintro ⟨text', rest', htext', hsplits'⟩
    obtain rfl : text = text' := (uncommented_iff.1 htext).trans (uncommented_iff.1 htext').symm
    exact (hsplits.unique hsplits').1
  · intro hlabel
    rw [hlabel] at hsplits
    exact ⟨text, rest, htext, hsplits⟩

theorem splits_of_isBlankText (h : isBlankText text = true) : Splits text none text := by
  refine .plain fun hcolon => ?_
  have hblank : isBlank ':' = true := List.all_eq_true.1 h ':' hcolon
  simp [isBlank, Text.blankRanges] at hblank

end Line

/-! ## One line after others -/

namespace Draft

section

variable {d d' : Draft} {number : Nat} {line : List Char}

/-- The draft after the label of a line, if it has one. -/
def withLabel (d : Draft) : Option String → Draft
  | none => d
  | some label => { d with waiting := d.waiting ++ [label] }

/-- The draft after the instruction of a line, if it has one. -/
def withInstr (d : Draft) (number : Nat) : Option Instr → Draft
  | none => d
  | some i => d.addInstr number i

/-- The draft after a line. -/
def add (d : Draft) (number : Nat) (l : Line) : Draft :=
  (d.withLabel l.label).withInstr number l.instr

/-- Reads the label of a line. -/
def readLabel (d : Draft) (number : Nat) : Option String → Except SourceError Draft
  | none => .ok d
  | some label => (d.addLabel label).mapError (.atLine number)

/-- Reads what follows the label of a line. -/
def readRest (d : Draft) (number : Nat) (l : Labelled) : Except SourceError Draft :=
  if isBlankText l.rest then .ok d
  else do
    let i ← (Instr.ofText l.offset l.rest).mapError (.onLine number)
    return d.addInstr number i

theorem readLine_eq (d : Draft) (number : Nat) (line : List Char) :
    d.readLine number line = if isBlankText line then .ok d
      else (splitLabel line).mapError (.onLine number) >>= fun l =>
        d.readLabel number l.label >>= fun d => d.readRest number l := by
  unfold readLine
  refine if_congr Iff.rfl rfl (congrArg _ (funext fun l => ?_))
  cases hlabel : l.label <;> rfl

/-- The table of labels has those that were bound and those that wait. -/
theorem mem_bindWaiting {label : String} :
    label ∈ d.bindWaiting ↔ label ∈ d.labels ∨ label ∈ d.waiting := by
  unfold bindWaiting
  generalize d.labels = labels
  induction d.waiting generalizing labels with
  | nil => simp
  | cons l waiting ih =>
    rw [List.foldl_cons, ih, Std.ExtTreeMap.mem_insert, List.mem_cons,
      Std.LawfulEqOrd.compare_eq_iff_eq]
    tauto

theorem readLabel_eq_ok_iff {label? : Option String} : d.readLabel number label? = .ok d' ↔
    (∀ label ∈ label?, label ∉ d.bindWaiting) ∧ d' = d.withLabel label? := by
  cases label? with
  | none => simp [readLabel, withLabel, eq_comm]
  | some label =>
    have hmem : (d.labels.contains label || d.waiting.contains label) = true ↔
        label ∈ d.bindWaiting := by
      simp [mem_bindWaiting]
    simp only [readLabel, mapError_eq_ok_iff, addLabel, hmem, withLabel, Option.mem_some_iff,
      forall_eq']
    split
    case isTrue h => simp [h]
    case isFalse h => simp [h, eq_comm]

theorem readRest_eq_ok_iff {l : Labelled} : d.readRest number l = .ok d' ↔
    ∃ i, Instructs l.rest i ∧ d' = d.withInstr number i := by
  unfold readRest
  split
  case isTrue hblank =>
    rw [Except.ok.injEq]
    constructor
    · rintro rfl
      exact ⟨none, .blank hblank, rfl⟩
    · rintro ⟨i, hi, rfl⟩
      obtain rfl := hi.unique (.blank hblank)
      rfl
  case isFalse hblank =>
    simp only [bind_eq_ok_iff, mapError_eq_ok_iff, Instr.ofText_eq_ok_iff]
    constructor
    · rintro ⟨i, hi, h⟩
      exact ⟨some i, .instr hi, (Except.ok.inj h).symm⟩
    · rintro ⟨i, hi, rfl⟩
      cases hi with
      | blank h => exact absurd h hblank
      | instr hi => exact ⟨_, hi, rfl⟩

/-- A line is read exactly if it holds something and its label is new. -/
theorem readLine_eq_ok_iff : d.readLine number (Text.cutComment line) = .ok d' ↔
    ∃ l, Reads line l ∧ (∀ label ∈ l.label, label ∉ d.bindWaiting) ∧ d' = d.add number l := by
  have htext := uncommented_cutComment line
  rw [readLine_eq]
  split
  case isTrue hblank =>
    have hread : Reads line ⟨none, none⟩ :=
      ⟨_, _, htext, splits_of_isBlankText hblank, .blank hblank⟩
    rw [Except.ok.injEq]
    constructor
    · rintro rfl
      exact ⟨⟨none, none⟩, hread, by simp, rfl⟩
    · rintro ⟨l, hl, -, rfl⟩
      rw [hl.unique hread]
      rfl
  case isFalse hblank =>
    simp only [bind_eq_ok_iff, mapError_eq_ok_iff, readLabel_eq_ok_iff, readRest_eq_ok_iff]
    constructor
    · rintro ⟨⟨label, rest, offset⟩, hsplit, _, ⟨hnew, rfl⟩, i, hi, rfl⟩
      exact ⟨⟨label, i⟩, ⟨_, rest, htext, splitLabel_eq_ok hsplit, hi⟩, hnew, rfl⟩
    · rintro ⟨⟨label, i⟩, ⟨text, rest, htext', hsplits, hi⟩, hnew, rfl⟩
      obtain rfl := uncommented_iff.1 htext'
      obtain ⟨offset, hsplit⟩ := hsplits.exists_splitLabel
      exact ⟨_, hsplit, _, ⟨hnew, rfl⟩, i, hi, rfl⟩

end

end Draft

/-! ### Faults -/

/-- Where an operation fails, it is for the text of this line. -/
def Blames {α : Type} (number : Nat) (x : Except SourceError α) : Prop :=
  ∀ e, x = .error e → e.line = some number ∧ e.fault.missesLabel = false

section Blames

variable {α β : Type} {number : Nat} {x : Except SourceError α}

theorem blames_ok (number : Nat) (a : α) : Blames number (.ok a) := by
  intro e h
  simp at h

theorem Blames.bind {f : α → Except SourceError β} (hx : Blames number x)
    (hf : ∀ a, Blames number (f a)) : Blames number (x >>= f) := by
  intro e h
  cases x with
  | error e' => exact hx e (congrArg Except.error (Except.error.inj h))
  | ok a => exact hf a e h

theorem blames_onLine (hx : Textual x) : Blames number (x.mapError (.onLine number)) := by
  intro e h
  cases x with
  | error e' =>
    obtain rfl := Except.error.inj h
    exact ⟨rfl, hx e' rfl⟩
  | ok a =>
    obtain ⟨e', he', -⟩ := mapError_eq_error_iff.1 h
    cases he'

theorem textual_splitLabel (line : List Char) : Textual (splitLabel line) := by
  unfold splitLabel
  split
  · exact textual_ok _
  · dsimp only
    split
    · exact textual_ok _
    · exact textual_atColumn rfl

theorem blames_readLabel (d : Draft) (number : Nat) (label? : Option String) :
    Blames number (d.readLabel number label?) := by
  cases label? with
  | none => exact blames_ok number d
  | some label =>
    rw [Draft.readLabel, Draft.addLabel]
    split
    · intro e h
      obtain rfl := Except.error.inj h
      exact ⟨rfl, rfl⟩
    · exact blames_ok number _

/-- The error of a line is on this line. -/
theorem blames_readLine (d : Draft) (number : Nat) (line : List Char) :
    Blames number (d.readLine number line) := by
  rw [Draft.readLine_eq]
  split
  · exact blames_ok number d
  · refine (blames_onLine (textual_splitLabel line)).bind fun l =>
      (blames_readLabel d number l.label).bind fun d => ?_
    unfold Draft.readRest
    split
    · exact blames_ok number d
    · exact (blames_onLine (Instr.textual_ofText _ _)).bind fun i => blames_ok number _

end Blames

end Mispredict.MuAsm.Program
