/-
  A program that was read can be written and read again.

  The text of a program has, for every program counter, its labels and then its instruction,
  each on its own line. `sheet` is the list of what these lines hold. It has the instructions of
  the source that was read and binds the same labels to the same program counters, so that the
  text stands for a program with equal labels and instructions (`parse_render`).
-/
import Mathlib.Data.List.Nodup
import Mispredict.Proofs.Language
import Mispredict.Proofs.Rendering

namespace Mispredict.MuAsm.Program

open Text (isBlank isBlankText trim)

/-! ## Texts of lines -/

section Lines

variable {text : List Char} {l : Line}

theorem linesFrom_append (h : '\n' ∉ text) (cur rest : List Char) :
    Text.linesFrom cur (text ++ rest) = Text.linesFrom (text.reverse ++ cur) rest := by
  induction text generalizing cur with
  | nil => rfl
  | cons c text ih =>
    obtain ⟨hc, htext⟩ : '\n' ≠ c ∧ '\n' ∉ text := by simpa using h
    rw [List.cons_append, Text.linesFrom, ih htext, List.reverse_cons, List.append_assoc]
    · rfl
    · exact fun heq => hc heq.symm

theorem dropReturn_of_not_mem (h : '\r' ∉ text) : Text.dropReturn text = text := by
  unfold Text.dropReturn
  split
  · simp at h
  · rfl

/-- Texts without line breaks are the lines of the text in which each is ended by one. -/
theorem lines_flatMap {texts : List (List Char)} (h : ∀ text ∈ texts, '\n' ∉ text ∧ '\r' ∉ text) :
    Text.lines (texts.flatMap (· ++ ['\n'])) = texts := by
  induction texts with
  | nil => rfl
  | cons text texts ih =>
    obtain ⟨hnewline, hreturn⟩ := h text List.mem_cons_self
    have hrest := ih fun text htext => h text (List.mem_cons_of_mem _ htext)
    have hdrop : Text.dropReturn text.reverse = text.reverse :=
      dropReturn_of_not_mem (by simpa using hreturn)
    rw [List.flatMap_cons, List.append_assoc, Text.lines, linesFrom_append hnewline,
      List.append_nil, List.singleton_append, Text.linesFrom, hdrop, List.reverse_reverse]
    exact congrArg _ hrest

/-- What stands after the label of a line as it is rendered. -/
def Line.body (l : Line) : List Char := l.instr.elim [] fun i => "    ".toList ++ i.render.toList

/-- A line as it is rendered. -/
def Line.render (l : Line) : List Char :=
  (l.label.elim [] fun label => label.toList ++ [':']) ++ l.body

/-- A line that some source text can have. -/
structure Line.Valid (l : Line) : Prop where
  label : ∀ label ∈ l.label, isIdentifier label.toList = true
  instr : ∀ i ∈ l.instr, ∃ text, Instr.Denotes text i

theorem Reads.valid {line : List Char} (h : Reads line l) : l.Valid := by
  obtain ⟨text, rest, -, hsplits, hinstr⟩ := h
  constructor
  · intro label hlabel
    rw [show l.label = some label from hlabel] at hsplits
    cases hsplits with
    | label _ hident => simpa using hident
  · intro i hi
    rw [show l.instr = some i from hi] at hinstr
    cases hinstr with
    | instr hdenotes => exact ⟨rest, hdenotes⟩

theorem trim_of_isIdentifier (h : isIdentifier text = true) : trim text = text := by
  have hdrop : ∀ cs : List Char, (∀ c ∈ cs, isIdentChar c = true) → cs.dropWhile isBlank = cs := by
    intro cs hcs
    cases cs with
    | nil => rfl
    | cons c cs => simp [isBlank_of_isIdentChar (hcs c List.mem_cons_self)]
  have hall : ∀ c ∈ text, isIdentChar c = true := fun c hc => isIdentChar_of_mem h hc
  have hreverse : ∀ c ∈ text.reverse, isIdentChar c = true := by simpa using hall
  rw [trim, hdrop text hall, hdrop text.reverse hreverse, List.reverse_reverse]

namespace Line.Valid

theorem inline_body (h : l.Valid) : l.body.all isInline = true := by
  cases hi : l.instr with
  | none => simp [body, hi]
  | some i =>
    obtain ⟨text, hdenotes⟩ := h.instr i hi
    simpa [body, hi, isInline] using hdenotes.render.2

theorem instructs (h : l.Valid) : Instructs l.body l.instr := by
  unfold body
  cases hi : l.instr with
  | none => exact .blank rfl
  | some i =>
    obtain ⟨text, hdenotes⟩ := h.instr i hi
    obtain ⟨kinds, n, hlexes, hd, hn⟩ := hdenotes.render.1
    have hblank : isBlank ' ' = true := by decide
    have htext := Lexes.blank hblank (.blank hblank (.blank hblank (.blank hblank hlexes)))
    exact .instr ⟨kinds, n, htext, hd, hn⟩

theorem not_mem_render (h : l.Valid) {c : Char} (hc : isInline c = false) (hcolon : c ≠ ':') :
    c ∉ l.render := by
  have hbody : c ∉ l.body := not_mem_of_inline h.inline_body hc
  cases hl : l.label with
  | none => simpa [render, hl] using hbody
  | some label =>
    have hlabel : c ∉ label.toList :=
      not_mem_of_inline (inline_of_isIdentifier (h.label label hl)) hc
    simp [render, hl, hbody, hlabel, hcolon]

/-- A rendered line holds what it was rendered of. -/
theorem reads (h : l.Valid) : Reads l.render l := by
  have hslash : ¬ ['/', '/'] <:+: l.render := by
    intro hslashes
    exact h.not_mem_render (by decide) (by decide) (hslashes.subset List.mem_cons_self)
  refine ⟨l.render, l.body, .whole hslash, ?_, h.instructs⟩
  have hbody : ':' ∉ l.body := not_mem_of_inline h.inline_body (by decide)
  cases hl : l.label with
  | none => simpa [render, hl] using Splits.plain hbody
  | some label =>
    have hident := h.label label hl
    have hcolon : ':' ∉ label.toList :=
      not_mem_of_inline (inline_of_isIdentifier hident) (by decide)
    have htrim := trim_of_isIdentifier hident
    have hsplits : Splits (label.toList ++ ':' :: l.body) _ l.body := .label hcolon (by rwa [htrim])
    simpa [render, hl, htrim] using hsplits

end Line.Valid

end Lines

/-! ## The lines of a program -/

/-- What the lines of one program counter hold. -/
def sheetAt (labels : List (String × Nat)) (instrs : List Instr) (pc : Nat) : List Line :=
  ((labels.filter (·.2 == pc)).map fun l => ⟨some l.1, none⟩) ++
    (instrs[pc]?.map fun i => ⟨none, some i⟩).toList

/-- What the lines of the program counters below `n` hold. -/
def sheet (labels : List (String × Nat)) (instrs : List Instr) (n : Nat) : List Line :=
  (List.range n).flatMap (sheetAt labels instrs)

section Sheet

variable {labels : List (String × Nat)} {instrs : List Instr} {n pc : Nat} {label : String}

theorem sheet_succ (labels : List (String × Nat)) (instrs : List Instr) (n : Nat) :
    sheet labels instrs (n + 1) = sheet labels instrs n ++ sheetAt labels instrs n := by
  simp [sheet, List.range_succ]

theorem instrsOf_sheetAt : instrsOf (sheetAt labels instrs pc) = instrs[pc]?.toList := by
  cases hi : instrs[pc]? <;> simp [sheetAt, instrsOf, hi]

theorem labelsOf_sheetAt :
    labelsOf (sheetAt labels instrs pc) = (labels.filter (·.2 == pc)).map (·.1) := by
  cases hi : instrs[pc]? <;> simp [sheetAt, labelsOf, hi]

theorem mem_map_filter :
    label ∈ (labels.filter (·.2 == pc)).map (·.1) ↔ (label, pc) ∈ labels := by
  simp

theorem instrsOf_sheet : instrsOf (sheet labels instrs n) = instrs.take n := by
  induction n with
  | zero => rfl
  | succ n ih => rw [sheet_succ, instrsOf_append, ih, instrsOf_sheetAt, List.take_add_one]

theorem mem_labelsOf_sheet :
    label ∈ labelsOf (sheet labels instrs n) ↔ ∃ pc < n, (label, pc) ∈ labels := by
  induction n with
  | zero => simp [sheet, labelsOf]
  | succ n ih =>
    rw [sheet_succ, labelsOf_append, List.mem_append, ih, labelsOf_sheetAt, mem_map_filter]
    constructor
    · rintro (⟨pc, hpc, hmem⟩ | hmem)
      · exact ⟨pc, by omega, hmem⟩
      · exact ⟨n, by omega, hmem⟩
    · rintro ⟨pc, hpc, hmem⟩
      obtain hlt | rfl := Nat.lt_succ_iff_lt_or_eq.1 hpc
      · exact .inl ⟨pc, hlt, hmem⟩
      · exact .inr hmem

theorem nodup_labelsOf_sheet (h : (labels.map (·.1)).Nodup) :
    (labelsOf (sheet labels instrs n)).Nodup := by
  induction n with
  | zero => simp [sheet, labelsOf]
  | succ n ih =>
    rw [sheet_succ, labelsOf_append, labelsOf_sheetAt, List.nodup_append]
    refine ⟨ih, h.sublist (List.filter_sublist.map _), ?_⟩
    rintro label hlabel _ hlabel' rfl
    obtain ⟨pc, hpc, hmem⟩ := mem_labelsOf_sheet.1 hlabel
    have heq := List.inj_on_of_nodup_map h hmem (mem_map_filter.1 hlabel') rfl
    rw [Prod.mk.injEq] at heq
    omega

theorem binds_iff_of_instrsOf_eq_nil {ls : List Line} (h : instrsOf ls = []) :
    Binds ls label pc ↔ label ∈ labelsOf ls ∧ pc = 0 := by
  have hzero : ∀ {pc}, Binds ls label pc → pc = 0 := by
    rintro pc ⟨before, l, after, rfl, -, rfl⟩
    rw [instrsOf_append, List.append_eq_nil_iff] at h
    simp [h.1]
  rw [mem_labelsOf_iff_binds]
  constructor
  · intro hbinds
    exact ⟨⟨pc, hbinds⟩, hzero hbinds⟩
  · rintro ⟨⟨pc', hbinds⟩, rfl⟩
    rwa [hzero hbinds] at hbinds

theorem binds_sheetAt {k : Nat} :
    Binds (sheetAt labels instrs pc) label k ↔ (label, pc) ∈ labels ∧ k = 0 := by
  have hnil : instrsOf ((labels.filter (·.2 == pc)).map fun l => ⟨some l.1, none⟩) = [] := by
    simp [instrsOf]
  have hinstr : ∀ n, ¬ Binds (instrs[pc]?.map fun i => ⟨none, some i⟩).toList label n := by
    intro n hbinds
    have hmem := mem_labelsOf_iff_binds.2 ⟨n, hbinds⟩
    cases hi : instrs[pc]? <;> simp [hi, labelsOf] at hmem
  rw [sheetAt, binds_append, binds_iff_of_instrsOf_eq_nil hnil]
  simp [hinstr, labelsOf]

/-- The lines of a program bind each label to its program counter. -/
theorem binds_sheet (h : n ≤ instrs.length + 1) :
    Binds (sheet labels instrs n) label pc ↔ (label, pc) ∈ labels ∧ pc < n := by
  induction n with
  | zero => simp [sheet, Binds]
  | succ n ih =>
    rw [sheet_succ, binds_append, ih (by omega), instrsOf_sheet, List.length_take]
    simp only [binds_sheetAt]
    constructor
    · rintro (⟨hmem, hlt⟩ | ⟨k, ⟨hmem, rfl⟩, hpc⟩)
      · exact ⟨hmem, by omega⟩
      · obtain rfl : pc = n := by omega
        exact ⟨hmem, by omega⟩
    · rintro ⟨hmem, hlt⟩
      obtain hlt | rfl := Nat.lt_succ_iff_lt_or_eq.1 hlt
      · exact .inl ⟨hmem, hlt⟩
      · exact .inr ⟨0, ⟨hmem, rfl⟩, by omega⟩

end Sheet

/-! ## Writing and reading again -/

section RoundTrip

variable {source : String} {p : Program} {ls : List Line}

theorem Resolved.render {labels : Std.ExtTreeMap String Nat} {i i' : Instr}
    (h : Resolved labels i i') : i'.render = i.render := by
  cases h <;> rfl

theorem Resolved.unique {labels : Std.ExtTreeMap String Nat} {i j j' : Instr}
    (h : Resolved labels i j) (h' : Resolved labels i j') : j = j' :=
  Except.ok.inj ((resolve_eq_ok_iff.2 h).symm.trans (resolve_eq_ok_iff.2 h'))

theorem Builds.length_eq (h : Builds ls p) : p.length = (instrsOf ls).length := by
  rw [h.length, ← map_snd_numbered, List.length_map]

/-- A program has the instructions of its lines, with their targets looked up. -/
theorem Builds.rel_instr? (h : Builds ls p) (pc : Nat) :
    Option.Rel (Resolved p.labels) (instrsOf ls)[pc]? (p.instr? pc) := by
  cases he : p.entry? pc with
  | none =>
    have hnone : (instrsOf ls)[pc]? = none := by
      rw [List.getElem?_eq_none_iff, ← h.length_eq]
      exact List.getElem?_eq_none_iff.1 he
    simp [instr?, he, hnone]
  | some e =>
    obtain ⟨-, i, hi, hresolved⟩ := h.entries pc e he
    have hsome : (instrsOf ls)[pc]? = some i := by
      rw [← map_snd_numbered, List.getElem?_map, hi]
      rfl
    simpa [instr?, he, hsome] using hresolved

theorem toList_renderAt (h : Builds ls p) (labels : List (String × Nat)) (pc : Nat) :
    (p.renderAt labels pc).flatMap String.toList =
      ((sheetAt labels (instrsOf ls) pc).map Line.render).flatMap (· ++ ['\n']) := by
  have hrel := h.rel_instr? pc
  rw [renderAt, sheetAt, List.flatMap_append, List.map_append, List.flatMap_append]
  congr 1
  · simp [List.flatMap_map, Line.render, Line.body]
  · cases hi : (instrsOf ls)[pc]? with
    | none =>
      cases hi' : p.instr? pc with
      | none => rfl
      | some i' => simp [hi, hi'] at hrel
    | some i =>
      cases hi' : p.instr? pc with
      | none => simp [hi, hi'] at hrel
      | some i' =>
        have hresolved : Resolved p.labels i i' := by simpa [hi, hi'] using hrel
        simp [Line.render, Line.body, hresolved.render]

theorem toList_render (h : Builds ls p) : p.render.toList =
    ((sheet p.labels.toList (instrsOf ls) (p.length + 1)).map Line.render).flatMap
      (· ++ ['\n']) := by
  rw [render, String.toList_join, List.flatMap_assoc, sheet, List.map_flatMap, List.flatMap_assoc]
  exact congrArg (List.flatMap · _) (funext (toList_renderAt h p.labels.toList))

/-- The text of a program has its instructions. -/
theorem Builds.instrsOf_sheet (h : Builds ls p) :
    instrsOf (sheet p.labels.toList (instrsOf ls) (p.length + 1)) = instrsOf ls := by
  rw [Program.instrsOf_sheet, List.take_of_length_le]
  rw [h.length_eq]
  omega

/-- The text of a program binds its labels. -/
theorem Builds.binds_sheet (h : Builds ls p) {label : String} {pc : Nat} :
    Binds (sheet p.labels.toList (instrsOf ls) (p.length + 1)) label pc ↔ Binds ls label pc := by
  rw [Program.binds_sheet (by rw [h.length_eq]), Std.ExtTreeMap.mem_toList_iff_getElem?_eq_some,
    show p.labels[label]? = some pc ↔ Binds ls label pc from h.labels label pc]
  refine and_iff_left_of_imp ?_
  rintro ⟨before, l, after, rfl, -, rfl⟩
  rw [h.length_eq, instrsOf_append, List.length_append]
  omega

theorem Builds.mem_labelsOf_sheet (h : Builds ls p) {label : String} :
    label ∈ labelsOf (sheet p.labels.toList (instrsOf ls) (p.length + 1)) ↔
      label ∈ labelsOf ls := by
  simp only [mem_labelsOf_iff_binds, h.binds_sheet]

theorem IsSource.valid_of_mem_sheet (h : IsSource source ls) (hbuilds : Builds ls p) :
    ∀ l ∈ sheet p.labels.toList (instrsOf ls) (p.length + 1), l.Valid := by
  have hvalid : ∀ l ∈ ls, l.Valid := by
    intro l hl
    obtain ⟨n, hn⟩ := List.mem_iff_getElem?.1 hl
    obtain ⟨line, -, hread⟩ := exists_of_forall₂_of_getElem? h.reads hn
    exact hread.valid
  intro l hl
  constructor
  · intro label hlabel
    have hmem := hbuilds.mem_labelsOf_sheet.1 (List.mem_filterMap.2 ⟨l, hl, hlabel⟩)
    obtain ⟨l', hl', hlabel'⟩ := List.mem_filterMap.1 hmem
    exact (hvalid l' hl').label label hlabel'
  · intro i hi
    have hmem : i ∈ instrsOf (sheet p.labels.toList (instrsOf ls) (p.length + 1)) :=
      List.mem_filterMap.2 ⟨l, hl, hi⟩
    rw [hbuilds.instrsOf_sheet] at hmem
    obtain ⟨l', hl', hi'⟩ := List.mem_filterMap.1 hmem
    exact (hvalid l' hl').instr i hi'

/-- The text of a program is of the language. -/
theorem IsSource.render (h : IsSource source ls) (hbuilds : Builds ls p) :
    IsSource p.render (sheet p.labels.toList (instrsOf ls) (p.length + 1)) where
  reads := by
    have hvalid := h.valid_of_mem_sheet hbuilds
    rw [toList_render hbuilds, lines_flatMap, List.forall₂_map_left_iff, List.forall₂_same]
    · exact fun l hl => (hvalid l hl).reads
    · intro text htext
      obtain ⟨l, hl, rfl⟩ := List.mem_map.1 htext
      exact ⟨(hvalid l hl).not_mem_render (by decide) (by decide),
        (hvalid l hl).not_mem_render (by decide) (by decide)⟩
  nodup := by
    refine nodup_labelsOf_sheet ?_
    rw [Std.ExtTreeMap.map_fst_toList_eq_keys]
    exact Std.ExtTreeMap.nodup_keys
  targets := by
    intro i hi target htarget
    rw [hbuilds.instrsOf_sheet] at hi
    exact hbuilds.mem_labelsOf_sheet.2 (h.targets i hi target htarget)

/-- A program that was read is read again of its own text, with the same labels and the same
    instruction at every program counter. -/
theorem parse_render (h : parse source = .ok p) : ∃ q, parse p.render = .ok q ∧
    q.labels = p.labels ∧ q.length = p.length ∧ ∀ pc, q.instr? pc = p.instr? pc := by
  have houtcome := outcome_parse source
  rw [h] at houtcome
  obtain ⟨ls, hsource, hbuilds⟩ := houtcome
  obtain ⟨q, hq, hbuilds'⟩ := (hsource.render hbuilds).exists_parse
  have hlabels : q.labels = p.labels := by
    refine Std.ExtTreeMap.ext_getElem? fun label => Option.ext fun pc => ?_
    calc q.labels[label]? = some pc ↔ Binds _ label pc := hbuilds'.labels label pc
      _ ↔ Binds ls label pc := hbuilds.binds_sheet
      _ ↔ p.labels[label]? = some pc := (hbuilds.labels label pc).symm
  refine ⟨q, hq, hlabels, ?_, fun pc => ?_⟩
  · rw [hbuilds'.length_eq, hbuilds.instrsOf_sheet, hbuilds.length_eq]
  · have hrel := hbuilds.rel_instr? pc
    have hrel' := hbuilds'.rel_instr? pc
    rw [hbuilds.instrsOf_sheet, hlabels] at hrel'
    generalize (instrsOf ls)[pc]? = i, q.instr? pc = j', p.instr? pc = j at hrel hrel' ⊢
    cases hrel with
    | none =>
      cases hrel'
      rfl
    | some hresolved =>
      cases hrel' with
      | some hresolved' => rw [hresolved'.unique hresolved]

/-- A source with two labels of one instruction, a label after the last, a label and a register
    with the name of an instruction, a hexadecimal number and parentheses that are not needed. -/
def tangled : String :=
  "load:\nL: // start\n  x <- ((y - (z - 0x10)) * -3)\nbeqz load & x, end\njmp load\n" ++
    "jmp nowhere\nend:"

/-- The text of `tangled` after it was read. -/
def untangled : String :=
  "L:\nload:\n    x <- (y - (z - 16)) * -3\n    beqz load & x, end\n    jmp load\n" ++
    "    jmp nowhere\nend:\n"

theorem parse_render_tangled : ∃ p, parse tangled = .ok p ∧ p.render = untangled ∧
    ∃ q, parse p.render = .ok q ∧ q.labels = p.labels ∧ q.length = p.length ∧
      ∀ pc, q.instr? pc = p.instr? pc := by
  have hrender : (parse tangled).toOption.map render = some untangled := by decide +kernel
  obtain ⟨p, hp, htext⟩ := Option.map_eq_some_iff.1 hrender
  have hparse : parse tangled = .ok p := by
    cases h : parse tangled with
    | error e => simp [h, Except.toOption] at hp
    | ok p' => simpa [h, Except.toOption] using hp
  exact ⟨p, hparse, htext, parse_render hparse⟩

end RoundTrip

end Mispredict.MuAsm.Program
