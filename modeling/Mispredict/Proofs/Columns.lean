/-
  The columns of errors.

  What is wrong with a line is said here from its text alone, by the division into tokens and the
  grammar: it has one flaw at most (`Flaw.In.unique`), a label that is no name, a place that holds
  no token or a token that is refused, or an instruction that ends too early. A flaw has a place,
  counted in characters, and the column that an error gives for it. The two differ since a column is
  made of counts of different kinds: the part of a line before its first colon and the whole of a
  line that ends too early are counted in bytes, what stands between the colon and a token in
  characters, and a label is always said to be at column 0. `column_eq_place_iff` says for which
  flaws this makes no difference.
-/
import Mispredict.Proofs.ControlFlow
import Mispredict.Proofs.Pieces
import Mispredict.Proofs.Refusal

namespace Mispredict

namespace MuAsm

open Text (isBlank isBlankText trim byteLength)

/-! ## Division into pieces -/

/-- A text is divided into pieces up to its end or to a place where no token stands; `rest` is what
    is left, after blanks. -/
structure Divides (text : List Char) (ps : List Piece) (blanks rest : List Char) : Prop where
  text : text = joined ps ++ (blanks ++ rest)
  stand : Stand ps (blanks ++ rest)
  blank : isBlankText blanks = true
  ends : rest = [] ∨ Stuck rest

section Divides

variable {text blanks blanks' rest rest' : List Char} {ps ps' : List Piece}

/-- Blanks end where a text goes on with something else. -/
theorem append_blanks_inj (h : blanks ++ rest = blanks' ++ rest')
    (hblanks : isBlankText blanks = true) (hblanks' : isBlankText blanks' = true)
    (hrest : ∀ c ∈ rest.head?, isBlank c = false) (hrest' : ∀ c ∈ rest'.head?, isBlank c = false) :
    blanks = blanks' ∧ rest = rest' := by
  have htake := takeWhile_append_of_stop (List.all_eq_true.1 hblanks) hrest
  have htake' := takeWhile_append_of_stop (List.all_eq_true.1 hblanks') hrest'
  rw [h, htake'] at htake
  subst htake
  exact ⟨rfl, List.append_cancel_left h⟩

/-- Only one token stands at the front of a text. -/
theorem append_lexeme_inj {lexeme lexeme' : List Char} {kind kind' : TokenKind}
    (h : lexeme ++ rest = lexeme' ++ rest') (hlexeme : Lexeme lexeme kind)
    (hlexeme' : Lexeme lexeme' kind') (hbreaks : kind.runsOn = true → Breaks rest)
    (hbreaks' : kind'.runsOn = true → Breaks rest') :
    lexeme = lexeme' ∧ kind = kind' ∧ rest = rest' := by
  obtain ⟨c, w, rfl, -⟩ := hlexeme.exists_head
  obtain ⟨c', w', rfl, -⟩ := hlexeme'.exists_head
  rw [List.cons_append, List.cons_append, List.cons_eq_cons] at h
  obtain ⟨rfl, hw⟩ := h
  have hscan := scanToken_of_lexeme hlexeme hbreaks
  rw [hw, scanToken_of_lexeme hlexeme' hbreaks', Except.ok.injEq, Prod.mk.injEq] at hscan
  obtain ⟨rfl, rfl⟩ := List.append_inj hw hscan.2.symm
  exact ⟨rfl, hscan.1.symm, rfl⟩

theorem Divides.visible (h : Divides text ps blanks rest) :
    ∀ c ∈ rest.head?, isBlank c = false := by
  intro c hc
  obtain rfl | hstuck := h.ends
  · cases hc
  · obtain ⟨d, hd, hblank⟩ := hstuck.visible
    rwa [Option.mem_unique hc hd]

theorem Lexeme.visible {lexeme : List Char} {kind : TokenKind} (h : Lexeme lexeme kind) :
    ∀ c ∈ (lexeme ++ rest).head?, isBlank c = false := by
  obtain ⟨d, w, rfl, hd⟩ := h.exists_head
  intro c hc
  obtain rfl := Option.mem_unique hc rfl
  exact hd

/-- Where the division has come to its end, no piece stands. -/
theorem Divides.no_piece {p : Piece} (h : Divides text [] blanks rest)
    (h' : Divides text (p :: ps) blanks' rest') : False := by
  have heq := h.text.symm.trans h'.text
  obtain ⟨-, hstand', -, -⟩ := h'
  cases hstand' with
  | cons hblanks hstands hbreaks hlater =>
    rw [joined_nil, List.nil_append, joined_cons, List.append_assoc, List.append_assoc] at heq
    obtain ⟨-, hrest⟩ := append_blanks_inj heq h.blank hblanks h.visible hstands.visible
    obtain hnil | hstuck := h.ends
    · obtain ⟨c, w, hlexeme, -⟩ := hstands.exists_head
      rw [hnil, hlexeme] at hrest
      cases hrest
    · obtain ⟨hruns, hnot⟩ := hstuck.none _ _ _ hrest hstands
      exact hnot (hbreaks hruns)

/-- A text is divided in one way. -/
theorem Divides.unique (h : Divides text ps blanks rest) (h' : Divides text ps' blanks' rest') :
    ps = ps' ∧ blanks = blanks' ∧ rest = rest' := by
  induction ps generalizing text ps' with
  | nil =>
    cases ps' with
    | nil =>
      exact ⟨rfl, append_blanks_inj (h.text.symm.trans h'.text) h.blank h'.blank h.visible
        h'.visible⟩
    | cons p' ps' => exact (h.no_piece h').elim
  | cons p ps ih =>
    cases ps' with
    | nil => exact (h'.no_piece h).elim
    | cons p' ps' =>
      have heq := h.text.symm.trans h'.text
      obtain ⟨-, hstand, hblank, hends⟩ := h
      obtain ⟨-, hstand', hblank', hends'⟩ := h'
      cases hstand with
      | cons hblanks hstands hbreaks hlater =>
        cases hstand' with
        | cons hblanks' hstands' hbreaks' hlater' =>
          simp only [joined_cons, List.append_assoc] at heq
          obtain ⟨hb, heq⟩ :=
            append_blanks_inj heq hblanks hblanks' hstands.visible hstands'.visible
          obtain ⟨hl, hk, heq⟩ := append_lexeme_inj heq hstands hstands' hbreaks hbreaks'
          have hdivides : Divides (joined ps' ++ (blanks' ++ rest')) ps blanks rest :=
            ⟨heq.symm, hlater, hblank, hends⟩
          obtain ⟨rfl, rfl, rfl⟩ := ih hdivides ⟨rfl, hlater', hblank', hends'⟩
          obtain ⟨b, l, k⟩ := p
          obtain ⟨b', l', k'⟩ := p'
          obtain ⟨rfl, rfl, rfl⟩ : b = b' ∧ l = l' ∧ k = k' := ⟨hb, hl, hk⟩
          exact ⟨rfl, rfl, rfl⟩

/-- A token of pieces stands for one of them. -/
theorem exists_piece_of_placed {column : Nat} {before after : List Token} {t : Token}
    (h : placed column ps = before ++ t :: after) : ∃ front p later, ps = front ++ p :: later ∧
      front.length = before.length ∧
      t.column = columnWord (column + (joined front ++ p.blanks).length) := by
  have hkinds := congrArg (List.map (·.kind)) h
  rw [map_kind_placed, List.map_append, List.map_cons] at hkinds
  obtain ⟨front, _, rfl, hfront, hrest⟩ := List.map_eq_append_iff.1 hkinds
  obtain ⟨p, later, rfl, -, -⟩ := List.map_eq_cons_iff.1 hrest
  have hlength : front.length = before.length := by simpa using congrArg List.length hfront
  have ht := getElem?_placed column front later p
  rw [h, hlength, List.getElem?_append_right le_rfl, Nat.sub_self] at ht
  exact ⟨front, p, later, rfl, hlength, congrArg Token.column (Option.some.inj ht)⟩

end Divides

/-! ## Flaws of an instruction -/

namespace Instr

/-- What keeps a text from being an instruction, by the text before it: a place that holds no token,
    or else a token that is refused; or its end. -/
inductive Flawed (text : List Char) : (before : Option (List Char)) → Prop where
  | character {ps : List Piece} {blanks rest : List Char} {c : Char}
      (divides : Divides text ps blanks (c :: rest)) : Flawed text (some (joined ps ++ blanks))
  | token {before after : List Piece} {p : Piece} {blanks : List Char}
      (divides : Divides text (before ++ p :: after) blanks [])
      (refused : RefusedAt ((before ++ p :: after).map (·.kind)) (some before.length)) :
      Flawed text (some (joined before ++ p.blanks))
  | early {ps : List Piece} {blanks : List Char} (divides : Divides text ps blanks [])
      (refused : RefusedAt (ps.map (·.kind)) none) : Flawed text none

section Flawed

variable {offset : Nat} {text : List Char} {x : SourceError}

/-- A text has one flaw at most. -/
theorem Flawed.unique {before before' : Option (List Char)} (h : Flawed text before)
    (h' : Flawed text before') : before = before' := by
  cases h with
  | character hdivides =>
    cases h' with
    | character hdivides' =>
      obtain ⟨rfl, rfl, -⟩ := hdivides.unique hdivides'
      rfl
    | token hdivides' => cases (hdivides.unique hdivides').2.2
    | early hdivides' => cases (hdivides.unique hdivides').2.2
  | token hdivides hrefused =>
    cases h' with
    | character hdivides' => cases (hdivides.unique hdivides').2.2
    | token hdivides' hrefused' =>
      have hps := (hdivides.unique hdivides').1
      rw [hps] at hrefused
      obtain ⟨rfl, htail⟩ := List.append_inj hps (Option.some.inj (hrefused.unique hrefused'))
      rw [(List.cons_eq_cons.1 htail).1]
    | early hdivides' hrefused' =>
      rw [(hdivides.unique hdivides').1] at hrefused
      cases hrefused.unique hrefused'
  | early hdivides hrefused =>
    cases h' with
    | character hdivides' => cases (hdivides.unique hdivides').2.2
    | token hdivides' hrefused' =>
      rw [(hdivides.unique hdivides').1] at hrefused
      cases hrefused.unique hrefused'
    | early => rfl

theorem Flawed.length_le {before : List Char} (h : Flawed text (some before)) :
    before.length ≤ text.length := by
  cases h with
  | character hdivides => simp [hdivides.text]
  | token hdivides =>
    rw [hdivides.text]
    simp [joined, Piece.text]

/-- An instruction that is not read has a flaw, and the error is at the column of this flaw. -/
theorem exists_flawed_of_ofText (h : ofText offset text = .error x) :
    (∃ before, Flawed text (some before) ∧
      x.column = some (columnWord (offset + before.length))) ∨
    Flawed text none ∧ x.column = some (offset + byteLength text) := by
  rw [ofText] at h
  obtain ⟨ps, tail, htext, hstand, htail, heq⟩ | ⟨ps, blanks, rest, fault, htext, hstand, hblanks,
    hstuck, heq⟩ := tokenize_cases offset text
  · rw [heq] at h
    have hdivides : Divides text ps tail [] :=
      ⟨by rwa [List.append_nil], by rwa [List.append_nil], htail, .inl rfl⟩
    obtain ⟨before, t, after, hsplit, hcolumn, hrefused⟩ | ⟨hcolumn, hrefused⟩ :=
      refusedAt_of_ofTokens h
    · obtain ⟨front, p, later, rfl, hfront, ht⟩ := exists_piece_of_placed hsplit
      rw [map_kind_placed, ← hfront] at hrefused
      exact .inl ⟨_, .token hdivides hrefused, by rw [hcolumn, ht]⟩
    · rw [map_kind_placed] at hrefused
      exact .inr ⟨.early hdivides hrefused, hcolumn⟩
  · rw [heq] at h
    obtain rfl := Except.error.inj h
    obtain ⟨c, hc, -⟩ := hstuck.visible
    obtain ⟨rest, rfl⟩ := List.head?_eq_some_iff.1 hc
    exact .inl ⟨_, .character ⟨htext, hstand, hblanks, .inr hstuck⟩, rfl⟩

end Flawed

end Instr

/-! ## Flaws of a line -/

/-- Columns inside a text that fits into memory do not wrap around. -/
theorem Addressable.byteLength_lt {source : String} {text : List Char} (h : Addressable source)
    (hpart : text.Sublist source.toList) : byteLength text < UInt64.size := by
  have hbytes := Text.byteLength_le_of_sublist hpart
  have hmax : Int64.maxValue.toInt < UInt64.size := by decide
  rw [Text.byteLength_ofList source.toList, String.ofList_toList] at hbytes
  unfold Addressable at h
  omega

namespace Program

/-- What is wrong with a line. -/
inductive Flaw where
  /-- What stands before the first colon is no name. -/
  | label (before : List Char)
  /-- After a part of the line up to its colon, if it has one, and some more of it comes what
      cannot be read. -/
  | token (front before : List Char)
  /-- The line ends too early. -/
  | early (text : List Char)
  deriving DecidableEq, Repr

namespace Flaw

/-- A line without comment has this flaw. -/
inductive In (text : List Char) : (flaw : Flaw) → Prop where
  | label {before rest : List Char} (split : text = before ++ ':' :: rest) (first : ':' ∉ before)
      (invalid : isIdentifier (trim before) = false) : In text (.label before)
  | token {front rest before : List Char} {label : Option String} (split : text = front ++ rest)
      (splits : Splits text label rest) (flawed : Instr.Flawed rest (some before)) :
      In text (.token front before)
  | early {rest : List Char} {label : Option String} (splits : Splits text label rest)
      (visible : isBlankText rest = false) (flawed : Instr.Flawed rest none) : In text (.early text)

/-- How many characters of the line stand before the offending label, without the blanks around it,
    or before the offending token; or how many the line has. -/
def place : Flaw → Nat
  | label before => (before.takeWhile isBlank).length
  | token front before => (front ++ before).length
  | early text => text.length

/-- The column of an error for this flaw. -/
def column : Flaw → Nat
  | label _ => 0
  | token front before => byteLength front + before.length
  | early text => byteLength text

/-- The column is not the place: a label has blanks before it, or a character that is counted in
    bytes takes up more than one. -/
def Shifted : Flaw → Prop
  | label before => ∃ c ∈ before.head?, isBlank c = true
  | token front _ => ∃ c ∈ front, 1 < c.utf8Size
  | early text => ∃ c ∈ text, 1 < c.utf8Size

theorem column_eq_place_iff_not_shifted (flaw : Flaw) :
    flaw.column = flaw.place ↔ ¬ flaw.Shifted := by
  cases flaw with
  | label before =>
    rw [column, place, Shifted, eq_comm, List.length_eq_zero_iff]
    cases before with
    | nil => simp
    | cons c before => simp [List.takeWhile_cons]
  | token front before =>
    rw [column, place, Shifted, List.length_append, Nat.add_right_cancel_iff,
      Text.byteLength_eq_length_iff]
  | early text => exact Text.byteLength_eq_length_iff

end Flaw

section Lines

variable {d : Draft} {number c : Nat} {text : List Char} {x : SourceError} {flaw flaw' : Flaw}

/-- The part of a line before its first colon is one. -/
theorem append_colon_inj {before before' rest rest' : List Char} (hfirst : ':' ∉ before)
    (hfirst' : ':' ∉ before') (h : before ++ ':' :: rest = before' ++ ':' :: rest') :
    before = before' := by
  have hstop : ∀ {before rest : List Char}, ':' ∉ before →
      (before ++ ':' :: rest).takeWhile (· != ':') = before := by
    intro before rest hfirst
    refine takeWhile_append_of_stop (fun c hc => ?_) (by simp)
    simpa using ne_of_mem_of_not_mem hc hfirst
  rw [← hstop hfirst, h, hstop hfirst']

/-- A line with an invalid label does not split. -/
theorem Splits.isIdentifier {before rest rest' : List Char} {label : Option String}
    (h : Splits text label rest') (hfirst : ':' ∉ before) (htext : text = before ++ ':' :: rest) :
    isIdentifier (trim before) = true := by
  cases h with
  | plain hplain => simp [htext] at hplain
  | label hfirst' hident => rwa [append_colon_inj hfirst hfirst' htext.symm]

/-- A line has one flaw at most. -/
theorem Flaw.In.unique (h : In text flaw) (h' : In text flaw') : flaw = flaw' := by
  have hlabel : ∀ {before rest rest' : List Char} {label : Option String},
      isIdentifier (trim before) = false → ':' ∉ before → text = before ++ ':' :: rest →
        ¬ Splits text label rest' := by
    intro before rest rest' label hinvalid hfirst htext hsplits
    rw [hsplits.isIdentifier hfirst htext] at hinvalid
    contradiction
  cases h with
  | label hsplit hfirst hinvalid =>
    cases h' with
    | label hsplit' hfirst' => rw [append_colon_inj hfirst hfirst' (hsplit.symm.trans hsplit')]
    | token _ hsplits => exact absurd hsplits (hlabel hinvalid hfirst hsplit)
    | early hsplits => exact absurd hsplits (hlabel hinvalid hfirst hsplit)
  | token hsplit hsplits hflawed =>
    cases h' with
    | label hsplit' hfirst hinvalid => exact absurd hsplits (hlabel hinvalid hfirst hsplit')
    | token hsplit' hsplits' hflawed' =>
      obtain rfl := (hsplits.unique hsplits').2
      obtain rfl := List.append_cancel_right (hsplit.symm.trans hsplit')
      obtain rfl := Option.some.inj (hflawed.unique hflawed')
      rfl
    | early hsplits' _ hflawed' =>
      obtain rfl := (hsplits.unique hsplits').2
      cases hflawed.unique hflawed'
  | early hsplits hvisible hflawed =>
    cases h' with
    | label hsplit' hfirst hinvalid => exact absurd hsplits (hlabel hinvalid hfirst hsplit')
    | token _ hsplits' hflawed' =>
      obtain rfl := (hsplits.unique hsplits').2
      cases hflawed.unique hflawed'
    | early => rfl

/-! ### Errors and flaws -/

/-- A line has no colon, or what stands before its first one is or is not a label. -/
theorem splitLabel_cases (text : List Char) :
    splitLabel text = .ok ⟨none, text, 0⟩ ∨
    ∃ before rest, text = before ++ ':' :: rest ∧ ':' ∉ before ∧
      splitLabel text = if isIdentifier (trim before) then
          .ok ⟨some (String.ofList (trim before)), rest, byteLength before + 1⟩
        else .error (.atColumn 0 (.invalidLabel (String.ofList (trim before)))) := by
  have htext := List.takeWhile_append_dropWhile (p := (· != ':')) (l := text)
  unfold splitLabel
  split
  case h_1 => exact .inl rfl
  case h_2 colon rest hdrop =>
    have hcolon : colon = ':' := by
      have hhead := List.head?_dropWhile_not (· != ':') text
      simpa [hdrop] using hhead
    rw [hdrop, hcolon] at htext
    refine .inr ⟨_, rest, htext.symm, fun hmem => ?_, rfl⟩
    simpa using List.mem_takeWhile_imp hmem

theorem exists_label_of_splitLabel (h : splitLabel text = .error x) :
    ∃ before, Flaw.In text (.label before) ∧ x.column = some 0 := by
  obtain hsplit | ⟨before, rest, htext, hfirst, hsplit⟩ := splitLabel_cases text
  · cases h.symm.trans hsplit
  · rw [hsplit] at h
    split at h
    case isTrue => cases h
    case isFalse hinvalid =>
      obtain rfl := Except.error.inj h
      exact ⟨before, .label htext hfirst (Bool.eq_false_iff.2 hinvalid), rfl⟩

/-- The rest of a line begins after as many bytes as the part before it has. -/
theorem exists_front_of_splitLabel {l : Labelled} (h : splitLabel text = .ok l) :
    ∃ front, text = front ++ l.rest ∧ l.offset = byteLength front := by
  obtain hsplit | ⟨before, rest, htext, -, hsplit⟩ := splitLabel_cases text
  · obtain rfl := Except.ok.inj (h.symm.trans hsplit)
    exact ⟨[], rfl, rfl⟩
  · rw [hsplit] at h
    split at h
    case isTrue =>
      obtain rfl := Except.ok.inj h
      refine ⟨before ++ [':'], by rw [htext, List.append_cons], ?_⟩
      rw [Text.byteLength_append]
      rfl
    case isFalse => cases h

theorem exists_flaw_of_ofText {l : Labelled} (hsplit : splitLabel text = .ok l)
    (hvisible : isBlankText l.rest = false) (h : Instr.ofText l.offset l.rest = .error x)
    (hfits : byteLength text < UInt64.size) :
    ∃ flaw, Flaw.In text flaw ∧ x.column = some flaw.column := by
  have hsplits := splitLabel_eq_ok hsplit
  obtain ⟨front, htext, hoffset⟩ := exists_front_of_splitLabel hsplit
  have hbytes : byteLength text = l.offset + byteLength l.rest := by
    rw [hoffset, ← Text.byteLength_append, ← htext]
  obtain ⟨before, hflawed, hcolumn⟩ | ⟨hflawed, hcolumn⟩ := Instr.exists_flawed_of_ofText h
  · have hle : before.length ≤ byteLength l.rest :=
      hflawed.length_le.trans (Text.length_le_byteLength _)
    refine ⟨_, .token htext hsplits hflawed, ?_⟩
    rw [hcolumn, columnWord, Nat.mod_eq_of_lt (by omega), hoffset]
    rfl
  · refine ⟨_, .early hsplits hvisible hflawed, ?_⟩
    rw [hcolumn, ← hbytes]
    rfl

/-- A label that is not new is the fault of the whole line. -/
theorem column_of_readLabel {label? : Option String} (h : d.readLabel number label? = .error x) :
    x.column = none := by
  cases label? with
  | none => cases h
  | some label =>
    rw [Draft.readLabel, Draft.addLabel] at h
    split at h
    · obtain rfl := Except.error.inj h
      rfl
    · cases h

/-- If a line is not read for a reason that has a column, it has a flaw, and the column is that of
    the flaw. -/
theorem exists_flaw_of_readLine (h : d.readLine number text = .error x)
    (hcolumn : x.column = some c) (hfits : byteLength text < UInt64.size) :
    ∃ flaw, Flaw.In text flaw ∧ c = flaw.column := by
  rw [Draft.readLine_eq] at h
  split at h
  case isTrue => cases h
  case isFalse =>
    simp only [bind_eq_error_iff, mapError_eq_error_iff, mapError_eq_ok_iff] at h
    obtain ⟨e, hsplit, rfl⟩ | ⟨l, hsplit, hlabel | ⟨d', -, h⟩⟩ := h
    · obtain ⟨before, hin, hzero⟩ := exists_label_of_splitLabel hsplit
      exact ⟨_, hin, Option.some.inj (hcolumn.symm.trans hzero)⟩
    · rw [column_of_readLabel hlabel] at hcolumn
      cases hcolumn
    · unfold Draft.readRest at h
      split at h
      case isTrue => cases h
      case isFalse hvisible =>
        simp only [bind_eq_error_iff, mapError_eq_error_iff] at h
        obtain ⟨e, hi, rfl⟩ | ⟨i, -, h⟩ := h
        · obtain ⟨flaw, hin, hflaw⟩ :=
            exists_flaw_of_ofText hsplit (Bool.eq_false_iff.2 hvisible) hi hfits
          exact ⟨flaw, hin, Option.some.inj (hcolumn.symm.trans hflaw)⟩
        · cases h

/-- Lines are read until one of them is not. -/
theorem exists_line_of_readLines {lines : List (List Char)}
    (h : d.readLines number lines = .error x) : ∃ m line d', lines[m]? = some line ∧
      Draft.readLine d' (number + m) (Text.cutComment line) = .error x := by
  induction lines generalizing d number with
  | nil => cases h
  | cons line lines ih =>
    rw [Draft.readLines, bind_eq_error_iff] at h
    obtain hread | ⟨d', -, hlater⟩ := h
    · exact ⟨0, line, d, rfl, hread⟩
    · obtain ⟨m, line', d'', hline, hread⟩ := ih hlater
      refine ⟨m + 1, line', d'', hline, ?_⟩
      rwa [Nat.add_comm m, ← Nat.add_assoc]

theorem Uncommented.sublist {line : List Char} (h : Uncommented line text) : text.Sublist line := by
  cases h with
  | whole => exact List.Sublist.refl _
  | cut => exact List.sublist_append_left _ _

/-- An error with a column is about a line that has a flaw, and the column is that of the flaw. -/
theorem exists_flaw_of_parse {source : String} (hsource : Addressable source)
    (h : parse source = .error x) (hcolumn : x.column = some c) :
    ∃ m line text flaw, x.line = some (m + 1) ∧ (Text.lines source.toList)[m]? = some line ∧
      Uncommented line text ∧ Flaw.In text flaw ∧ c = flaw.column := by
  rw [parse, bind_eq_error_iff] at h
  obtain hlines | ⟨d, -, h⟩ := h
  · obtain ⟨m, line, d, hline, hread⟩ := exists_line_of_readLines hlines
    have htext := uncommented_cutComment line
    have hpart : (Text.cutComment line).Sublist source.toList :=
      htext.sublist.trans (Text.sublist_of_mem_linesFrom (List.mem_of_getElem? hline))
    obtain ⟨flaw, hin, hflaw⟩ := exists_flaw_of_readLine hread hcolumn (hsource.byteLength_lt hpart)
    refine ⟨m, line, _, flaw, ?_, hline, htext, hin, hflaw⟩
    rw [(blames_readLine _ _ _ _ hread).1, Nat.add_comm]
  · -- a target that is not found is the fault of the whole line
    rw [bind_eq_error_iff] at h
    obtain hentries | ⟨es, -, h⟩ := h
    · obtain ⟨_, _, _, _, _, _, _, _, hx⟩ := exists_missing_of_resolveEntries hentries
      rw [hx] at hcolumn
      cases hcolumn
    · cases h

/-- An error that has a column is about the only flaw of its line, and the column is the place of
    this flaw exactly if the flaw is not one whose column is shifted. -/
theorem column_eq_place_iff {source : String} {n : Nat} (hsource : Addressable source)
    (h : parse source = .error x) (hline : x.line = some n) (hcolumn : x.column = some c) :
    ∃ m line text flaw, n = m + 1 ∧ (Text.lines source.toList)[m]? = some line ∧
      Uncommented line text ∧ (∀ flaw', Flaw.In text flaw' ↔ flaw' = flaw) ∧
      c = flaw.column ∧ (c = flaw.place ↔ ¬ flaw.Shifted) := by
  obtain ⟨m, line, text, flaw, hm, hlines, htext, hin, rfl⟩ :=
    exists_flaw_of_parse hsource h hcolumn
  refine ⟨m, line, text, flaw, Option.some.inj (hline.symm.trans hm), hlines, htext,
    fun flaw' => ?_, rfl, flaw.column_eq_place_iff_not_shifted⟩
  constructor
  · exact fun hin' => hin'.unique hin
  · rintro rfl
    exact hin

end Lines

/-- A line with a label after a space of two bytes, and with one word too many. -/
def doubled : String := "\u00a0L: skip skip"

/-- The second word of the line stands after what is in front of it. -/
def doubledFlaw : Flaw := .token ['\u00a0', 'L', ':'] [' ', 's', 'k', 'i', 'p', ' ']

/-- A word of the line. -/
def skipPiece : Piece := ⟨[' '], ['s', 'k', 'i', 'p'], .identifier "skip"⟩

theorem doubledFlaw_in : Flaw.In doubled.toList doubledFlaw := by
  have hrefused : ¬ Instr.Begins [.identifier "skip", .identifier "skip"] := by
    rintro ⟨us, i, n, hd, -⟩
    generalize hkinds : [.identifier "skip", .identifier "skip"] ++ us = kinds at hd
    cases hd <;> simp at hkinds
  have hskip : Lexeme skipPiece.lexeme skipPiece.kind := by
    have hname : skipPiece.kind = .identifier (String.ofList skipPiece.lexeme) := by decide
    rw [hname]
    exact .name (by decide)
  have hdivides : Divides [' ', 's', 'k', 'i', 'p', ' ', 's', 'k', 'i', 'p']
      ([skipPiece] ++ [skipPiece]) [] [] :=
    ⟨rfl, .cons (by decide) hskip (fun _ => breaks_cons (by decide))
      (.cons (by decide) hskip (fun _ => breaks_nil) .nil), rfl, .inl rfl⟩
  have htext : doubled.toList =
      ['\u00a0', 'L'] ++ ':' :: [' ', 's', 'k', 'i', 'p', ' ', 's', 'k', 'i', 'p'] := by
    decide
  rw [htext]
  exact .token rfl (.label (by decide) (by decide)) (.token hdivides
    (.token rfl (Instr.goesOn_whole .skip (Nat.zero_le _)) hrefused))

theorem column_doubled :
    Addressable doubled ∧
      parse doubled = .error ⟨.trailingToken (.identifier "skip"), some 1, some 10⟩ ∧
      (∃ line text, (Text.lines doubled.toList)[0]? = some line ∧ Uncommented line text ∧
        ∀ flaw, Flaw.In text flaw ↔ flaw = doubledFlaw) ∧
      10 = doubledFlaw.column ∧ doubledFlaw.place = 9 ∧ doubledFlaw.Shifted := by
  have hsource : Addressable doubled := by decide +kernel
  have h : parse doubled = .error ⟨.trailingToken (.identifier "skip"), some 1, some 10⟩ := by
    decide +kernel
  obtain ⟨m, line, text, flaw, hm, hline, htext, hin, hcolumn, hplace⟩ :=
    column_eq_place_iff hsource h rfl rfl
  obtain rfl : 0 = m := Nat.succ.inj hm
  have hdoubled : text = doubled.toList := by
    obtain rfl : doubled.toList = line := Option.some.inj hline
    rw [uncommented_iff.1 htext]
    decide +kernel
  have hflaw : doubledFlaw = flaw := (hin doubledFlaw).1 (hdoubled ▸ doubledFlaw_in)
  subst hflaw
  refine ⟨hsource, h, ⟨line, text, hline, htext, hin⟩, hcolumn, by decide, ?_⟩
  by_contra hnot
  exact absurd (hplace.2 hnot) (by decide)

-- a line of five characters that ends too early
example : parse "x <-\u00a0" = .error ⟨.incompleteExpression, some 1, some 6⟩ := by decide +kernel

-- a label that begins with the third character of its line
example : parse "  1x: skip" = .error ⟨.invalidLabel "1x", some 1, some 0⟩ := by decide +kernel

end Program

end MuAsm

end Mispredict
