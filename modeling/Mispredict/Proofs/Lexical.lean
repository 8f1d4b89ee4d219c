/-
  The words of a line.

  `Lexeme` says which texts stand for which tokens, and `Lexes` how a text is made of them:
  blanks may stand anywhere between tokens, and a name or a number is not followed by
  another letter, digit or underscore, so that it is as long as it can be. `tokenize`
  succeeds on exactly the texts that are made this way, and gives their tokens
  (`tokenize_iff_lexes`).
-/
import Mathlib.Data.List.TakeWhile
import Mispredict.MuAsm.Scan

namespace Mispredict.MuAsm

open Text (isBlank)

/-! ## Texts of tokens -/

/-- A text that stands for a number: digits, or hexadecimal digits after `0x` or `0X`. -/
inductive Numeral : (text : List Char) → (value : Nat) → Prop where
  | decimal {digits : List Char} (nonempty : digits ≠ []) (all : ∀ c ∈ digits, c.isDigit = true) :
      Numeral digits (numeral 10 digits)
  | hexadecimal {x : Char} {digits : List Char} (mark : x = 'x' ∨ x = 'X') (nonempty : digits ≠ [])
      (all : ∀ c ∈ digits, isHexDigit c = true) : Numeral ('0' :: x :: digits) (numeral 16 digits)

/-- The tokens that are marks, with their texts. -/
def marks : List (List Char × TokenKind) :=
  [(['<', '-'], .arrow), ([','], .comma), (['('], .lparen), ([')'], .rparen), (['+'], .plus),
    (['-'], .minus), (['*'], .star), (['&'], .amp), (['?'], .question)]

/-- A text that stands for a token. A number must fit into a machine word. -/
inductive Lexeme : (text : List Char) → (kind : TokenKind) → Prop where
  | name {text : List Char} (identifier : isIdentifier text = true) :
      Lexeme text (.identifier (String.ofList text))
  | number {text : List Char} {value : Nat} (numeral : Numeral text value)
      (fits : (value : Int) ≤ Int64.maxValue.toInt) : Lexeme text (.integer value)
  | mark {text : List Char} {kind : TokenKind} (mem : (text, kind) ∈ marks) : Lexeme text kind

/-- Whether a token is a name or a number, which runs on while letters, digits or underscores
    follow. -/
def TokenKind.runsOn : TokenKind → Bool
  | .identifier _ => true
  | .integer _ => true
  | _ => false

/-- A text does not go on with a letter, a digit or an underscore. -/
def Breaks (text : List Char) : Prop := ∀ c ∈ text.head?, isIdentChar c = false

/-- A text is made of these tokens, with blanks between them. -/
inductive Lexes : (text : List Char) → (kinds : List TokenKind) → Prop where
  | nil : Lexes [] []
  | blank {c : Char} {text : List Char} {kinds : List TokenKind} (blank : isBlank c = true)
      (rest : Lexes text kinds) : Lexes (c :: text) kinds
  | token {lexeme text : List Char} {kind : TokenKind} {kinds : List TokenKind}
      (stands : Lexeme lexeme kind) (breaks : kind.runsOn = true → Breaks text)
      (rest : Lexes text kinds) : Lexes (lexeme ++ text) (kind :: kinds)

/-! ## Classes of characters -/

section Classes

variable {c : Char}

theorem isDigit_iff : c.isDigit = true ↔ 48 ≤ c.toNat ∧ c.toNat ≤ 57 := by
  simp only [Char.isDigit, Bool.and_eq_true, decide_eq_true_eq, UInt32.le_iff_toNat_le, ge_iff_le]
  exact Iff.rfl

theorem isIdentStart_iff : isIdentStart c = true ↔
    65 ≤ c.toNat ∧ c.toNat ≤ 90 ∨ 97 ≤ c.toNat ∧ c.toNat ≤ 122 ∨ c.toNat = 95 := by
  show ((decide (65 ≤ c.val ∧ c.val ≤ 90) ||
    decide (97 ≤ c.val) && decide (c.val ≤ 122)) || c == '_') = true ↔ _
  simp only [Bool.or_eq_true, Bool.and_eq_true, decide_eq_true_eq, UInt32.le_iff_toNat_le,
    beq_iff_eq, ← Char.toNat_inj, or_assoc]
  exact Iff.rfl

theorem isIdentChar_iff : isIdentChar c = true ↔ isIdentStart c = true ∨ c.isDigit = true := by
  simp only [isIdentChar, isIdentStart, Char.isAlphanum, Bool.or_eq_true]
  exact or_right_comm

theorem isHexDigit_iff : isHexDigit c = true ↔ 48 ≤ c.toNat ∧ c.toNat ≤ 57 ∨
    97 ≤ c.toNat ∧ c.toNat ≤ 102 ∨ 65 ≤ c.toNat ∧ c.toNat ≤ 70 := by
  simp only [isHexDigit, Bool.or_eq_true, Bool.and_eq_true, decide_eq_true_eq, isDigit_iff,
    Char.le_def, UInt32.le_iff_toNat_le, or_assoc]
  exact Iff.rfl

theorem isIdentChar_of_isHexDigit (h : isHexDigit c = true) : isIdentChar c = true := by
  rw [isHexDigit_iff] at h
  rw [isIdentChar_iff, isIdentStart_iff, isDigit_iff]
  omega

theorem isIdentChar_of_isDigit (h : c.isDigit = true) : isIdentChar c = true :=
  isIdentChar_iff.2 (.inr h)

theorem isIdentStart_of_isDigit (h : c.isDigit = true) : isIdentStart c = false := by
  rw [isDigit_iff] at h
  rw [Bool.eq_false_iff, ne_eq, isIdentStart_iff]
  omega

theorem isBlank_of_isIdentChar (h : isIdentChar c = true) : isBlank c = false := by
  rw [isIdentChar_iff, isIdentStart_iff, isDigit_iff] at h
  rw [Bool.eq_false_iff]
  intro hblank
  simp only [isBlank, Text.blankRanges, List.any_cons, List.any_nil, Bool.or_eq_true,
    Bool.and_eq_true, decide_eq_true_eq, Bool.or_false] at hblank
  omega

theorem isIdentChar_of_mem {text : List Char} (h : isIdentifier text = true) (hc : c ∈ text) :
    isIdentChar c = true := by
  cases text with
  | nil => simp at hc
  | cons d ds =>
    rw [isIdentifier, Bool.and_eq_true, List.all_eq_true] at h
    obtain rfl | hc := List.mem_cons.1 hc
    · exact isIdentChar_iff.2 (.inl h.1)
    · exact h.2 c hc

end Classes

/-! ## One token -/

section Scan

variable {c : Char} {w rest : List Char} {kind : TokenKind} {n : Nat} {p : Char → Bool}

theorem takeWhile_append_of_stop (hw : ∀ c ∈ w, p c = true)
    (hrest : ∀ c ∈ rest.head?, p c = false) : (w ++ rest).takeWhile p = w := by
  rw [List.takeWhile_append_of_pos hw]
  cases rest with
  | nil => simp
  | cons c rest => simp [hrest c rfl]

theorem breaks_dropWhile (rest : List Char) : Breaks (rest.dropWhile isIdentChar) := by
  intro c hc
  have h := List.head?_dropWhile_not isIdentChar rest
  rw [show (rest.dropWhile isIdentChar).head? = some c from hc] at h
  simpa using h

/-- A text that breaks does not go on with any class of letters and digits. -/
theorem Breaks.stop (h : Breaks rest) (hp : ∀ c, p c = true → isIdentChar c = true) :
    ∀ c ∈ rest.head?, p c = false := by
  intro c hc
  rw [Bool.eq_false_iff]
  intro hpc
  exact Bool.false_ne_true ((h c hc).symm.trans (hp c hpc))

/-- A number is hexadecimal after `0x` or `0X`, and otherwise decimal. -/
theorem numberDigits_cases (c : Char) (rest : List Char) :
    (∃ x rest', c = '0' ∧ (x = 'x' ∨ x = 'X') ∧ rest = x :: rest' ∧
      numberDigits c rest = (16, rest'.takeWhile isHexDigit)) ∨
    numberDigits c rest = (10, c :: rest.takeWhile Char.isDigit) := by
  cases rest with
  | nil => right; rfl
  | cons x rest' =>
    by_cases hx : c = '0' ∧ (x = 'x' ∨ x = 'X')
    · refine .inl ⟨x, rest', hx.1, hx.2, rfl, ?_⟩
      simp [numberDigits, hx]
    · right
      simp [numberDigits, hx]

/-- What is taken for a number stands for one, if it has digits. -/
theorem exists_numeral (hc : c.isDigit = true) (rest : List Char) :
    ∃ w rest', rest = w ++ rest' ∧ numberExtent c rest = w.length ∧
      ((numberDigits c rest).2 ≠ [] →
        Numeral (c :: w) (numeral (numberDigits c rest).1 (numberDigits c rest).2)) := by
  obtain ⟨x, rest', rfl, hx, rfl, heq⟩ | heq := numberDigits_cases c rest
  · refine ⟨x :: rest'.takeWhile isHexDigit, rest'.dropWhile isHexDigit, ?_, ?_, ?_⟩
    · rw [List.cons_append, List.takeWhile_append_dropWhile]
    · rw [numberExtent, heq]
      rfl
    · rw [heq]
      intro hdigits
      exact .hexadecimal hx hdigits fun _ => List.mem_takeWhile_imp
  · refine ⟨rest.takeWhile Char.isDigit, rest.dropWhile Char.isDigit, ?_, ?_, ?_⟩
    · rw [List.takeWhile_append_dropWhile]
    · rw [numberExtent, heq]
      simp
    · rw [heq]
      intro hdigits
      refine .decimal hdigits fun d hd => ?_
      obtain rfl | hd := List.mem_cons.1 hd
      · exact hc
      · exact List.mem_takeWhile_imp hd

/-- A number is taken whole, if the text after it breaks. -/
theorem numberDigits_of_numeral {v : Nat} (h : Numeral (c :: w) v) (hrest : Breaks rest) :
    (numberDigits c (w ++ rest)).2 ≠ [] ∧
      numeral (numberDigits c (w ++ rest)).1 (numberDigits c (w ++ rest)).2 = v ∧
      numberExtent c (w ++ rest) = w.length := by
  cases h with
  | decimal _ hall =>
    have htake : (w ++ rest).takeWhile Char.isDigit = w :=
      takeWhile_append_of_stop (fun d hd => hall d (List.mem_cons_of_mem _ hd))
        (hrest.stop fun _ => isIdentChar_of_isDigit)
    have heq : numberDigits c (w ++ rest) = (10, c :: w) := by
      obtain ⟨x, rest', -, hx, hsplit, -⟩ | heq := numberDigits_cases c (w ++ rest)
      · -- the mark of a hexadecimal number is no digit, and it does not break
        exfalso
        cases w with
        | nil =>
          rw [List.nil_append] at hsplit
          have hbreak := hrest x (by simp [hsplit])
          obtain rfl | rfl := hx <;> simp [isIdentChar] at hbreak
        | cons d w =>
          obtain rfl : d = x := (List.cons_eq_cons.1 hsplit).1
          have hd := hall d (by simp)
          obtain rfl | rfl := hx <;> simp at hd
      · rw [heq, htake]
    simp [heq, numberExtent]
  | @hexadecimal x digits hx hdigits hall =>
    have htake : (digits ++ rest).takeWhile isHexDigit = digits :=
      takeWhile_append_of_stop hall (hrest.stop fun _ => isIdentChar_of_isHexDigit)
    have heq : numberDigits '0' (x :: digits ++ rest) = (16, digits) := by
      simp [numberDigits, hx, htake]
    rw [numberExtent, heq]
    exact ⟨hdigits, rfl, rfl⟩

theorem scanNumber.value_eq_ok_iff {base extent : Nat} {digits lexeme : List Char} :
    scanNumber.value base digits extent lexeme = .ok (kind, n) ↔
      (digits ≠ [] ∧ (numeral base digits : Int) ≤ Int64.maxValue.toInt) ∧
        kind = .integer (numeral base digits) ∧ n = extent := by
  have hdigits : (!digits.isEmpty) = true ↔ digits ≠ [] := by simp
  simp only [scanNumber.value, hdigits]
  split
  case isTrue h =>
    rw [Except.ok.injEq, Prod.mk.injEq, eq_comm, eq_comm (a := extent)]
    exact (and_iff_right h).symm
  case isFalse h => simp [h]

theorem scanNumber_eq_ok_iff : scanNumber c rest = .ok (kind, n) ↔
    Breaks (rest.drop (numberExtent c rest)) ∧ ((numberDigits c rest).2 ≠ [] ∧
      (numeral (numberDigits c rest).1 (numberDigits c rest).2 : Int) ≤ Int64.maxValue.toInt) ∧
      kind = .integer (numeral (numberDigits c rest).1 (numberDigits c rest).2) ∧
      n = numberExtent c rest := by
  unfold scanNumber Breaks
  dsimp only
  cases hnext : (rest.drop (numberExtent c rest)).head? with
  | none => simp [scanNumber.value_eq_ok_iff]
  | some next =>
    cases hchar : isIdentChar next with
    | true => simp [hchar]
    | false => simp [hchar, scanNumber.value_eq_ok_iff]

theorem Numeral.isDigit_head {v : Nat} (h : Numeral (c :: w) v) : c.isDigit = true := by
  cases h with
  | decimal _ hall => exact hall c (by simp)
  | hexadecimal => decide

/-- What the marks have in common. -/
theorem exists_head_of_mem_marks {text : List Char} (h : (text, kind) ∈ marks) :
    kind.runsOn = false ∧ ∃ c w, text = c :: w ∧
      isBlank c = false ∧ isIdentStart c = false ∧ c.isDigit = false ∧
      ∀ rest, scanMark c (w ++ rest) = .ok (kind, w.length) := by
  simp only [marks, List.mem_cons, List.not_mem_nil, Prod.mk.injEq, or_false] at h
  obtain ⟨rfl, rfl⟩ | ⟨rfl, rfl⟩ | ⟨rfl, rfl⟩ | ⟨rfl, rfl⟩ | ⟨rfl, rfl⟩ | ⟨rfl, rfl⟩ | ⟨rfl, rfl⟩ |
    ⟨rfl, rfl⟩ | ⟨rfl, rfl⟩ := h <;>
    exact ⟨rfl, _, _, rfl, by decide, by decide, by decide, fun _ => rfl⟩

theorem mem_marks_of_scanMark (h : scanMark c rest = .ok (kind, n)) :
    ∃ w rest', rest = w ++ rest' ∧ n = w.length ∧ (c :: w, kind) ∈ marks := by
  unfold scanMark at h
  split at h
  case h_1 =>
    cases rest with
    | nil => simp at h
    | cons d rest =>
      by_cases hd : d = '-'
      · simp only [List.head?_cons, hd, beq_self_eq_true, if_true, Except.ok.injEq,
          Prod.mk.injEq] at h
        exact ⟨['-'], rest, by rw [hd]; rfl, h.2.symm, by simp [marks, h.1]⟩
      · simp [hd] at h
  -- every other mark is one character
  all_goals
    simp only [Except.ok.injEq, Prod.mk.injEq, reduceCtorEq] at h
    try exact ⟨[], rest, rfl, h.2.symm, by simp [marks, h.1]⟩

theorem exists_lexeme_of_scanToken (h : scanToken c rest = .ok (kind, n)) :
    ∃ w rest', rest = w ++ rest' ∧ n = w.length ∧ Lexeme (c :: w) kind ∧
      (kind.runsOn = true → Breaks rest') := by
  unfold scanToken at h
  split at h
  case isTrue hstart =>
    simp only [Except.ok.injEq, Prod.mk.injEq] at h
    obtain ⟨rfl, rfl⟩ := h
    refine ⟨rest.takeWhile isIdentChar, rest.dropWhile isIdentChar, ?_, rfl, .name ?_, ?_⟩
    · rw [List.takeWhile_append_dropWhile]
    · rw [isIdentifier, hstart, Bool.true_and, List.all_eq_true]
      exact fun _ => List.mem_takeWhile_imp
    · exact fun _ => breaks_dropWhile rest
  case isFalse =>
    split at h
    case isTrue hdigit =>
      obtain ⟨hbreaks, ⟨hdigits, hfits⟩, rfl, rfl⟩ := scanNumber_eq_ok_iff.1 h
      obtain ⟨w, rest', hsplit, hextent, hnumeral⟩ := exists_numeral hdigit rest
      refine ⟨w, rest', hsplit, hextent, .number (hnumeral hdigits) hfits, fun _ => ?_⟩
      rwa [hextent, hsplit, List.drop_left] at hbreaks
    case isFalse =>
      obtain ⟨w, rest', hsplit, hn, hmem⟩ := mem_marks_of_scanMark h
      refine ⟨w, rest', hsplit, hn, .mark hmem, ?_⟩
      simp [(exists_head_of_mem_marks hmem).1]

theorem scanToken_of_lexeme (h : Lexeme (c :: w) kind)
    (hbreaks : kind.runsOn = true → Breaks rest) :
    scanToken c (w ++ rest) = .ok (kind, w.length) := by
  cases h with
  | name hident =>
    rw [isIdentifier, Bool.and_eq_true, List.all_eq_true] at hident
    have htake : (w ++ rest).takeWhile isIdentChar = w :=
      takeWhile_append_of_stop hident.2 (hbreaks rfl)
    simp [scanToken, hident.1, htake]
  | number hnumeral hfits =>
    have hdigit := hnumeral.isDigit_head
    obtain ⟨hdigits, hvalue, hextent⟩ := numberDigits_of_numeral hnumeral (hbreaks rfl)
    simp only [scanToken, isIdentStart_of_isDigit hdigit, hdigit]
    simp [scanNumber_eq_ok_iff, hdigits, hvalue, hextent, hfits, hbreaks rfl]
  | mark hmem =>
    obtain ⟨-, d, v, heq, -, hstart, hdigit, hscan⟩ := exists_head_of_mem_marks hmem
    obtain ⟨rfl, rfl⟩ := List.cons_eq_cons.1 heq
    simp [scanToken, hstart, hdigit, hscan]

theorem Lexeme.exists_head {text : List Char} (h : Lexeme text kind) :
    ∃ c w, text = c :: w ∧ isBlank c = false := by
  cases h with
  | name hident =>
    cases text with
    | nil => simp [isIdentifier] at hident
    | cons c w =>
      rw [isIdentifier, Bool.and_eq_true] at hident
      exact ⟨c, w, rfl, isBlank_of_isIdentChar (isIdentChar_iff.2 (.inl hident.1))⟩
  | number hnumeral =>
    cases text with
    | nil => cases hnumeral; contradiction
    | cons c w =>
      exact ⟨c, w, rfl, isBlank_of_isIdentChar (isIdentChar_of_isDigit hnumeral.isDigit_head)⟩
  | mark hmem =>
    obtain ⟨-, c, w, rfl, hblank, -⟩ := exists_head_of_mem_marks hmem
    exact ⟨c, w, rfl, hblank⟩

end Scan

/-! ## A whole text -/

section Tokenize

variable {column : Nat} {text : List Char} {kinds : List TokenKind}

theorem exists_tokenize_of_lexes (h : Lexes text kinds) :
    ∀ column, ∃ tokens, tokenize column text = .ok tokens ∧ tokens.map (·.kind) = kinds := by
  induction h with
  | nil => exact fun column => ⟨[], by simp [tokenize], rfl⟩
  | blank hblank _ ih =>
    intro column
    obtain ⟨tokens, htokens, hkinds⟩ := ih (column + 1)
    refine ⟨tokens, ?_, hkinds⟩
    rw [tokenize, if_pos hblank, htokens]
  | @token lexeme text kind kinds hlexeme hbreaks _ ih =>
    intro column
    obtain ⟨c, w, rfl, hblank⟩ := hlexeme.exists_head
    obtain ⟨tokens, htokens, hkinds⟩ := ih (column + 1 + w.length)
    refine ⟨⟨kind, columnWord column⟩ :: tokens, ?_, by simp [hkinds]⟩
    rw [List.cons_append, tokenize, if_neg (by simp [hblank]), scanToken_of_lexeme hlexeme hbreaks]
    simp [htokens]

theorem lexes_of_tokenize {tokens : List Token} (h : tokenize column text = .ok tokens) :
    Lexes text (tokens.map (·.kind)) := by
  fun_induction tokenize column text generalizing tokens with
  | case1 => simp_all; exact .nil
  | case2 column c rest hblank ih => exact .blank hblank (ih h)
  | case3 => simp at h
  | case4 => simp at h
  | case5 column c rest hblank kind n hscan tokens' htokens ih =>
    obtain ⟨w, rest', rfl, rfl, hlexeme, hbreaks⟩ := exists_lexeme_of_scanToken hscan
    simp only [Except.ok.injEq] at h
    subst h
    rw [List.drop_left] at ih htokens
    exact .token hlexeme hbreaks (ih htokens)

/-- The scanner succeeds on exactly the texts that are made of tokens, and gives these tokens. -/
theorem tokenize_iff_lexes : (∃ tokens, tokenize column text = .ok tokens ∧
    tokens.map (·.kind) = kinds) ↔ Lexes text kinds := by
  constructor
  · rintro ⟨tokens, htokens, rfl⟩
    exact lexes_of_tokenize htokens
  · intro h
    exact exists_tokenize_of_lexes h column

/-! ## Faults -/

/-- Whether a fault is a label that is nowhere bound. -/
def Fault.missesLabel : Fault → Bool
  | .undefinedLabel _ => true
  | _ => false

theorem missesLabel_of_scanMark {c : Char} {rest : List Char} {fault : Fault}
    (h : scanMark c rest = .error fault) : fault.missesLabel = false := by
  unfold scanMark at h
  split at h <;> grind [Fault.missesLabel]

theorem missesLabel_of_scanToken {c : Char} {rest : List Char} {fault : Fault}
    (h : scanToken c rest = .error fault) : fault.missesLabel = false := by
  unfold scanToken at h
  split at h
  · simp at h
  · split at h
    · grind [scanNumber, scanNumber.value, Fault.missesLabel]
    · exact missesLabel_of_scanMark h

/-- Where an operation fails, it is not for want of a label. -/
def Textual {α : Type} (x : Except SourceError α) : Prop :=
  ∀ e, x = .error e → e.fault.missesLabel = false

theorem textual_ok {α : Type} (a : α) : Textual (.ok a) := by
  intro e h
  simp at h

theorem textual_atColumn {α : Type} {column : Nat} {fault : Fault}
    (h : fault.missesLabel = false) : Textual (.error (.atColumn column fault) : Except _ α) := by
  intro e he
  obtain rfl := Except.error.inj he
  exact h

theorem Textual.bind {α β : Type} {x : Except SourceError α} {f : α → Except SourceError β}
    (hx : Textual x) (hf : ∀ a, Textual (f a)) : Textual (x >>= f) := by
  intro e h
  cases x with
  | error e' => exact hx e (congrArg Except.error (Except.error.inj h))
  | ok a => exact hf a e h

theorem textual_tokenize (column : Nat) (text : List Char) : Textual (tokenize column text) := by
  fun_induction tokenize column text with
  | case1 => exact textual_ok []
  | case2 column c rest hblank ih => exact ih
  | case3 column c rest hblank fault hscan =>
    exact textual_atColumn (missesLabel_of_scanToken hscan)
  | case4 column c rest hblank kind n hscan e hrest ih => rwa [hrest] at ih
  | case5 column c rest hblank kind n hscan tokens hrest ih => exact textual_ok _

end Tokenize

end Mispredict.MuAsm
