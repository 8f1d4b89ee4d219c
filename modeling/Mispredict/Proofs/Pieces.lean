/-
  Texts in pieces.

  A piece is a token as it stands in a text: the blanks before it, and its lexeme. The scanner
  divides a text into pieces from left to right, up to its end or to a place where no token stands
  (`tokenize_cases`). Nothing is lost on the way: `Covers` says that the text is made of the pieces
  and of blanks at its end, that every token has the column of its lexeme, that names and numbers
  are as long as they can be, and that a number has the value that its digits have in their base.
  Since the texts of tokens stand for these tokens, they are scanned again as such when they are
  written down with one space between them (`tokenize_covers`).
-/
import Mathlib.Data.List.Induction
import Mathlib.Data.Nat.Digits.Defs
import Mathlib.Tactic.IntervalCases
import Mispredict.Proofs.Rendering

namespace Mispredict.MuAsm

open Text (isBlank isBlankText)

/-! ## Numbers -/

/-- The digits of a number in a base, the highest first; letters may be of either case. -/
def Spells (base : Nat) (digits : List Char) (value : Nat) : Prop :=
  ∃ ds : List Nat, ds ≠ [] ∧ (∀ d ∈ ds, d < base) ∧
    digits.map Char.toLower = ds.map Nat.digitChar ∧ value = Nat.ofDigits base ds.reverse

/-- A text is a number: in decimal or, after `0x` or `0X`, in hexadecimal. -/
inductive IsNumber : (text : List Char) → (value : Nat) → Prop where
  | decimal {digits : List Char} {value : Nat} (spells : Spells 10 digits value) :
      IsNumber digits value
  | hexadecimal {x : Char} {digits : List Char} {value : Nat} (mark : x = 'x' ∨ x = 'X')
      (spells : Spells 16 digits value) : IsNumber ('0' :: x :: digits) value

section Numbers

variable {c : Char} {base value : Nat} {digits text : List Char}

theorem digitChar_digitValue (h : isHexDigit c = true) :
    Nat.digitChar (digitValue c) = c.toLower ∧ digitValue c < 16 := by
  have hchar : Char.ofNat c.toNat = c := Char.ofNat_toNat c
  rw [isHexDigit_iff] at h
  generalize c.toNat = n at h hchar
  subst hchar
  obtain ⟨hle, hge⟩ | ⟨hle, hge⟩ | ⟨hle, hge⟩ := h <;> interval_cases n <;> decide

theorem digitValue_lt_ten (h : c.isDigit = true) : digitValue c < 10 := by
  rw [digitValue, if_pos h]
  rw [isDigit_iff] at h
  have hzero : '0'.toNat = 48 := rfl
  omega

theorem isHexDigit_of_isDigit (h : c.isDigit = true) : isHexDigit c = true := by
  simp [isHexDigit, h]

theorem numeral_eq_ofDigits (base : Nat) (digits : List Char) :
    numeral base digits = Nat.ofDigits base (digits.map digitValue).reverse := by
  induction digits using List.reverseRecOn with
  | nil => rfl
  | append_singleton digits c ih =>
    have hlast : numeral base (digits ++ [c]) = base * numeral base digits + digitValue c := by
      simp [numeral]
    rw [hlast, ih, List.map_append, List.reverse_append, List.map_singleton,
      List.reverse_singleton, List.singleton_append, Nat.ofDigits_cons, Nat.add_comm]

theorem spells_numeral (hne : digits ≠ []) (hhex : ∀ c ∈ digits, isHexDigit c = true)
    (hlt : ∀ c ∈ digits, digitValue c < base) : Spells base digits (numeral base digits) := by
  refine ⟨digits.map digitValue, by simpa using hne, by simpa using hlt, ?_,
    numeral_eq_ofDigits base digits⟩
  rw [List.map_map]
  exact List.map_congr_left fun c hc => (digitChar_digitValue (hhex c hc)).1.symm

theorem Numeral.isNumber (h : Numeral text value) : IsNumber text value := by
  cases h with
  | decimal hne hall =>
    exact .decimal (spells_numeral hne (fun c hc => isHexDigit_of_isDigit (hall c hc))
      fun c hc => digitValue_lt_ten (hall c hc))
  | hexadecimal hmark hne hall =>
    exact .hexadecimal hmark (spells_numeral hne hall fun c hc =>
      (digitChar_digitValue (hall c hc)).2)

end Numbers

/-! ## Pieces -/

/-- A token as it stands in a text: the blanks before it, and its lexeme. -/
structure Piece where
  blanks : List Char
  lexeme : List Char
  kind : TokenKind
  deriving DecidableEq, Repr

def Piece.text (p : Piece) : List Char := p.blanks ++ p.lexeme

/-- The text of pieces one after another. -/
def joined (ps : List Piece) : List Char := ps.flatMap Piece.text

@[simp] theorem joined_nil : joined [] = [] := rfl

@[simp] theorem joined_cons (p : Piece) (ps : List Piece) :
    joined (p :: ps) = p.blanks ++ (p.lexeme ++ joined ps) := by
  simp [joined, Piece.text]

/-- The tokens of pieces, of which the first begins at `column`. -/
def placed (column : Nat) : List Piece → List Token
  | [] => []
  | p :: ps =>
    ⟨p.kind, columnWord (column + p.blanks.length)⟩ :: placed (column + p.text.length) ps

/-- The pieces stand in a text before `rest`. -/
inductive Stand : (ps : List Piece) → (rest : List Char) → Prop where
  | nil {rest : List Char} : Stand [] rest
  | cons {p : Piece} {ps : List Piece} {rest : List Char} (blanks : isBlankText p.blanks = true)
      (stands : Lexeme p.lexeme p.kind) (breaks : p.kind.runsOn = true → Breaks (joined ps ++ rest))
      (later : Stand ps rest) : Stand (p :: ps) rest

/-- No token stands at the front of this text. -/
structure Stuck (rest : List Char) : Prop where
  visible : ∃ c ∈ rest.head?, isBlank c = false
  none : ∀ lexeme later kind, rest = lexeme ++ later → Lexeme lexeme kind →
    kind.runsOn = true ∧ ¬ Breaks later

section Pieces

variable {column : Nat} {p : Piece} {ps before after : List Piece} {text rest : List Char}
  {c : Char}

@[simp] theorem map_kind_placed (column : Nat) (ps : List Piece) :
    (placed column ps).map (·.kind) = ps.map (·.kind) := by
  induction ps generalizing column with
  | nil => rfl
  | cons p ps ih => simp [placed, ih]

/-- The column of a token is where its lexeme begins. -/
theorem getElem?_placed (column : Nat) (before after : List Piece) (p : Piece) :
    (placed column (before ++ p :: after))[before.length]? =
      some ⟨p.kind, columnWord (column + (joined before ++ p.blanks).length)⟩ := by
  induction before generalizing column with
  | nil => simp [placed]
  | cons q before ih =>
    rw [List.cons_append, placed, List.length_cons, List.getElem?_cons_succ, ih]
    simp [Piece.text, Nat.add_assoc]

/-- One more blank in front belongs to the first piece. -/
theorem placed_blank (column : Nat) (c : Char) (p : Piece) (ps : List Piece) :
    placed column (⟨c :: p.blanks, p.lexeme, p.kind⟩ :: ps) = placed (column + 1) (p :: ps) := by
  simp [placed, Piece.text, Nat.add_assoc, Nat.add_comm, Nat.add_left_comm]

theorem Stuck.of_scanToken {fault : Fault} (hblank : isBlank c = false)
    (h : scanToken c rest = .error fault) : Stuck (c :: rest) where
  visible := ⟨c, rfl, hblank⟩
  none := by
    intro lexeme later kind heq hlexeme
    by_contra hnot
    obtain ⟨d, w, rfl, -⟩ := hlexeme.exists_head
    rw [List.cons_append, List.cons_eq_cons] at heq
    obtain ⟨rfl, rfl⟩ := heq
    have hbreaks : kind.runsOn = true → Breaks later := by
      intro hruns
      by_contra hbreaks
      exact hnot ⟨hruns, hbreaks⟩
    rw [scanToken_of_lexeme hlexeme hbreaks] at h
    cases h

/-- A text is scanned to its end, or up to a place where no token stands. -/
theorem tokenize_cases (column : Nat) (text : List Char) :
    (∃ ps tail, text = joined ps ++ tail ∧ Stand ps tail ∧ isBlankText tail = true ∧
      tokenize column text = .ok (placed column ps)) ∨
    ∃ ps blanks rest fault, text = joined ps ++ (blanks ++ rest) ∧ Stand ps (blanks ++ rest) ∧
      isBlankText blanks = true ∧ Stuck rest ∧ tokenize column text =
        .error (.atColumn (columnWord (column + (joined ps ++ blanks).length)) fault) := by
  fun_induction tokenize column text with
  | case1 column => exact .inl ⟨[], [], rfl, .nil, rfl, rfl⟩
  | case2 column c rest hblank ih =>
    -- the blank goes to the first piece or, if there is none, to the blanks after the last one
    obtain ⟨ps, tail, rfl, hstand, htail, heq⟩ | ⟨ps, blanks, rest, fault, rfl, hstand, hblanks,
      hstuck, heq⟩ := ih
    · left
      cases hstand with
      | nil => exact ⟨[], c :: tail, rfl, .nil, by simpa [isBlankText, hblank] using htail, heq⟩
      | @cons p ps _ hb hstands hbreaks hlater =>
        refine ⟨⟨c :: p.blanks, p.lexeme, p.kind⟩ :: ps, tail, by simp,
          .cons (by simpa [isBlankText, hblank] using hb) hstands hbreaks hlater, htail, ?_⟩
        rw [heq, placed_blank]
    · right
      cases hstand with
      | nil =>
        refine ⟨[], c :: blanks, rest, fault, rfl, .nil,
          by simpa [isBlankText, hblank] using hblanks, hstuck, ?_⟩
        rw [heq]
        simp [Nat.add_assoc, Nat.add_comm 1]
      | @cons p ps _ hb hstands hbreaks hlater =>
        refine ⟨⟨c :: p.blanks, p.lexeme, p.kind⟩ :: ps, blanks, rest, fault, by simp,
          .cons (by simpa [isBlankText, hblank] using hb) hstands hbreaks hlater, hblanks, hstuck,
          ?_⟩
        rw [heq]
        simp [Nat.add_assoc, Nat.add_comm 1]
  | case3 column c rest hblank fault hscan =>
    right
    exact ⟨[], [], c :: rest, fault, rfl, .nil, rfl,
      .of_scanToken (Bool.eq_false_iff.2 hblank) hscan, rfl⟩
  | case4 column c rest hblank kind n hscan e herror ih =>
    obtain ⟨w, rest, rfl, rfl, hlexeme, hbreaks⟩ := exists_lexeme_of_scanToken hscan
    rw [List.drop_left] at herror ih
    obtain ⟨ps, tail, rfl, hstand, htail, heq⟩ | ⟨ps, blanks, rest, fault, rfl, hstand, hblanks,
      hstuck, heq⟩ := ih
    · cases herror.symm.trans heq
    · right
      refine ⟨⟨[], c :: w, kind⟩ :: ps, blanks, rest, fault, by simp,
        .cons rfl hlexeme hbreaks hstand, hblanks, hstuck, ?_⟩
      rw [← herror, heq]
      simp [Nat.add_assoc, Nat.add_comm 1]
  | case5 column c rest hblank kind n hscan tokens htokens ih =>
    obtain ⟨w, rest, rfl, rfl, hlexeme, hbreaks⟩ := exists_lexeme_of_scanToken hscan
    rw [List.drop_left] at htokens ih
    obtain ⟨ps, tail, rfl, hstand, htail, heq⟩ | ⟨ps, blanks, rest, fault, rfl, hstand, hblanks,
      hstuck, heq⟩ := ih
    · left
      refine ⟨⟨[], c :: w, kind⟩ :: ps, tail, by simp, .cons rfl hlexeme hbreaks hstand, htail, ?_⟩
      rw [Except.ok.inj (htokens.symm.trans heq)]
      simp [placed, Piece.text, Nat.add_assoc, Nat.add_comm 1]
    · cases htokens.symm.trans heq

end Pieces

/-! ## Nothing is lost -/

/-- How a piece stands in a text whose first character has the column `offset`: after `front` and
    before `rest`, as the token `t`. -/
structure Piece.Fits (offset : Nat) (front : List Char) (p : Piece) (rest : List Char) (t : Token) :
    Prop where
  kind : t.kind = p.kind
  column : t.column = columnWord (offset + (front ++ p.blanks).length)
  blanks : isBlankText p.blanks = true
  lexeme : Lexeme p.lexeme p.kind
  /-- A name or a number takes all the letters, digits and underscores that stand there. -/
  breaks : p.kind.runsOn = true → Breaks rest
  /-- A name or a number is as long as it can be: nothing longer in its place is a token. -/
  longest : p.kind.runsOn = true → ∀ more later, rest = more ++ later → more ≠ [] →
    ∀ kind, ¬ Lexeme (p.lexeme ++ more) kind
  number : ∀ value, p.kind = .integer value →
    IsNumber p.lexeme value ∧ (value : Int) ≤ Int64.maxValue.toInt

/-- The tokens of a text cover it, up to blanks. -/
structure Covers (offset : Nat) (text : List Char) (tokens : List Token) (ps : List Piece)
    (tail : List Char) : Prop where
  text : text = joined ps ++ tail
  blank : isBlankText tail = true
  length : tokens.length = ps.length
  fits : ∀ before p after, ps = before ++ p :: after →
    ∃ t, tokens[before.length]? = some t ∧ p.Fits offset (joined before) (joined after ++ tail) t

section Covers

variable {kind : TokenKind} {kinds : List TokenKind} {lexeme rest : List Char} {ps : List Piece}

theorem Numeral.all_isIdentChar {text : List Char} {value : Nat} (h : Numeral text value) :
    ∀ c ∈ text, isIdentChar c = true := by
  cases h with
  | decimal _ hall => exact fun c hc => isIdentChar_of_isDigit (hall c hc)
  | hexadecimal hmark _ hall =>
    intro c hc
    obtain rfl | hc := List.mem_cons.1 hc
    · decide
    · obtain rfl | hc := List.mem_cons.1 hc
      · obtain rfl | rfl := hmark <;> decide
      · exact isIdentChar_of_isHexDigit (hall c hc)

/-- Names and numbers are made of letters, digits and underscores. -/
theorem Lexeme.all_isIdentChar (h : Lexeme lexeme kind) (hruns : kind.runsOn = true) :
    ∀ c ∈ lexeme, isIdentChar c = true := by
  cases h with
  | name hident => exact fun c hc => isIdentChar_of_mem hident hc
  | number hnumeral => exact hnumeral.all_isIdentChar
  | mark hmem => simp [(exists_head_of_mem_marks hmem).1] at hruns

/-- A name or a number before a text that breaks cannot be longer. -/
theorem Lexeme.not_longer {more : List Char} (h : Lexeme lexeme kind) (hruns : kind.runsOn = true)
    (hbreaks : Breaks (more ++ rest)) (hmore : more ≠ []) (kind' : TokenKind) :
    ¬ Lexeme (lexeme ++ more) kind' := by
  intro hlonger
  obtain ⟨c, more, rfl⟩ := List.exists_cons_of_ne_nil hmore
  cases hruns' : kind'.runsOn with
  | true =>
    have hc := hlonger.all_isIdentChar hruns' c (by simp)
    rw [hbreaks c rfl] at hc
    contradiction
  | false =>
    -- a mark does not begin with a letter or a digit
    obtain ⟨d, w, rfl, -⟩ := h.exists_head
    have hd := h.all_isIdentChar hruns d List.mem_cons_self
    cases hlonger with
    | name => simp [TokenKind.runsOn] at hruns'
    | number => simp [TokenKind.runsOn] at hruns'
    | mark hmem =>
      obtain ⟨-, d', w', heq, -, hstart, hdigit, -⟩ := exists_head_of_mem_marks hmem
      rw [List.cons_append, List.cons_eq_cons] at heq
      rw [isIdentChar_iff, heq.1, hstart, hdigit] at hd
      simp at hd

theorem Lexeme.isNumber {value : Nat} (h : Lexeme lexeme (.integer value)) :
    IsNumber lexeme value ∧ (value : Int) ≤ Int64.maxValue.toInt := by
  cases h with
  | number hnumeral hfits => exact ⟨hnumeral.isNumber, hfits⟩
  | mark hmem => exact absurd (exists_head_of_mem_marks hmem).1 (by simp [TokenKind.runsOn])

theorem Stand.piece {before after : List Piece} {p : Piece}
    (h : Stand (before ++ p :: after) rest) : isBlankText p.blanks = true ∧
      Lexeme p.lexeme p.kind ∧ (p.kind.runsOn = true → Breaks (joined after ++ rest)) := by
  induction before with
  | nil =>
    cases h with
    | cons hblanks hstands hbreaks => exact ⟨hblanks, hstands, hbreaks⟩
  | cons q before ih =>
    cases h with
    | cons _ _ _ hlater => exact ih hlater

theorem Stand.fits {before after : List Piece} {p : Piece} (h : Stand (before ++ p :: after) rest)
    (offset : Nat) : p.Fits offset (joined before) (joined after ++ rest)
      ⟨p.kind, columnWord (offset + (joined before ++ p.blanks).length)⟩ := by
  obtain ⟨hblanks, hstands, hbreaks⟩ := h.piece
  refine ⟨rfl, rfl, hblanks, hstands, hbreaks, fun hruns more later hrest hmore => ?_,
    fun value hvalue => ?_⟩
  · rw [hrest] at hbreaks
    exact hstands.not_longer hruns (hbreaks hruns) hmore
  · rw [hvalue] at hstands
    exact hstands.isNumber

/-- The texts of tokens, with one space between them, are made of these tokens. -/
theorem lexes_intercalate (h : ∀ kind ∈ kinds, kind.Writable) :
    Lexes (String.intercalate " " (kinds.map (·.render))).toList kinds := by
  induction kinds with
  | nil => exact .nil
  | cons kind kinds ih =>
    have hlexeme := lexeme_render (h kind List.mem_cons_self)
    have hrest := ih fun kind' hkind' => h kind' (List.mem_cons_of_mem _ hkind')
    cases kinds with
    | nil => simpa using Lexes.token hlexeme (fun _ => breaks_nil) .nil
    | cons kind' kinds =>
      have hspace : Lexes (' ' :: (String.intercalate " " ((kind' :: kinds).map (·.render))).toList)
          (kind' :: kinds) := .blank (by decide) hrest
      have hall := Lexes.token hlexeme (fun _ => breaks_cons (by decide)) hspace
      simpa [String.intercalate_cons_cons] using hall

/-- Scanning loses nothing: the tokens of a text cover it up to blanks, and they are scanned again
    when their texts are written down with one space between them. -/
theorem tokenize_covers {offset : Nat} {text : List Char} {tokens : List Token}
    (h : tokenize offset text = .ok tokens) :
    (∃ ps tail, Covers offset text tokens ps tail) ∧
      ∀ column, ∃ again,
        tokenize column (String.intercalate " " (tokens.map (·.kind.render))).toList = .ok again ∧
          again.map (·.kind) = tokens.map (·.kind) := by
  constructor
  · obtain ⟨ps, tail, htext, hstand, htail, heq⟩ | ⟨ps, blanks, rest, fault, -, -, -, -, heq⟩ :=
      tokenize_cases offset text
    · obtain rfl : tokens = placed offset ps := Except.ok.inj (h.symm.trans heq)
      refine ⟨ps, tail, htext, htail, ?_, ?_⟩
      · rw [← List.length_map (·.kind), map_kind_placed, List.length_map]
      · rintro before p after rfl
        exact ⟨_, getElem?_placed offset before after p, hstand.fits offset⟩
    · cases h.symm.trans heq
  · intro column
    have hlexes := lexes_intercalate (lexes_of_tokenize h).writable
    rw [List.map_map] at hlexes
    exact exists_tokenize_of_lexes hlexes column

/-- `x <- 31 - -7 ? y_1`, with few blanks of several kinds. -/
def crampedMove : List Char := " x<-0x1F--007\u00a0? y_1\u2003".toList

/-- The tokens of the move, if it stands after two characters. -/
def crampedTokens : List Token :=
  [⟨.identifier "x", 3⟩, ⟨.arrow, 4⟩, ⟨.integer 31, 6⟩, ⟨.minus, 10⟩, ⟨.minus, 11⟩,
    ⟨.integer 7, 12⟩, ⟨.question, 16⟩, ⟨.identifier "y_1", 18⟩]

theorem covers_crampedMove :
    tokenize 2 crampedMove = .ok crampedTokens ∧
      (∃ ps tail, Covers 2 crampedMove crampedTokens ps tail) ∧
      ∃ again, tokenize 0 "x <- 31 - - 7 ? y_1".toList = .ok again ∧
        again.map (·.kind) = crampedTokens.map (·.kind) := by
  have h : tokenize 2 crampedMove = .ok crampedTokens := by decide +kernel
  obtain ⟨hcovers, hagain⟩ := tokenize_covers h
  exact ⟨h, hcovers, hagain 0⟩

end Covers

end Mispredict.MuAsm
