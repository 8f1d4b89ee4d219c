/-
  Where a token list stops being an instruction.

  Tokens begin an instruction if they can be completed to one (`Instr.Begins`). After a sign only a
  number can follow; all other beginnings can go on without one, or need not go on at all
  (`Instr.GoesOn`). So a list that is no instruction is refused in one place (`Instr.RefusedAt`):
  at the first token that cannot follow those before it, at a sign that has no number after it, or
  at its end. This place depends on the grammar only (`Instr.RefusedAt.unique`).

  The reader finds it. Wherever it fails, what it has read so far can be completed, since operands
  can be closed off with the parentheses that are open (`Expr.Opened.exists_close`), and it would
  fail in the same way whatever came next. `Fails` says both of a reader, and `Fails.lift` carries
  it over to a larger reader of which the first one is a part.
-/
import Mispredict.Proofs.Grammar

namespace Mispredict.MuAsm

/-! ## Beginnings -/

/-- These tokens do not begin with a number. -/
def NoNumber (kinds : List TokenKind) : Prop := ∀ value, kinds.head? ≠ some (.integer value)

theorem noNumber_nil : NoNumber [] := by
  simp [NoNumber]

theorem NoNumber.append {kinds more : List TokenKind} (h : NoNumber kinds) (hmore : NoNumber more) :
    NoNumber (kinds ++ more) := by
  cases kinds with
  | nil => exact hmore
  | cons => exact h

namespace Instr

/-- These tokens begin an instruction, within the limit. -/
def Begins (kinds : List TokenKind) : Prop :=
  ∃ us i n, Derives (kinds ++ us) i n ∧ n ≤ nestingLimit

/-- These tokens begin an instruction that does not go on with a number. -/
def GoesOn (kinds : List TokenKind) : Prop :=
  ∃ us i n, NoNumber us ∧ Derives (kinds ++ us) i n ∧ n ≤ nestingLimit

/-- The place at which tokens are refused as an instruction: the index of a token, or none for
    their end. -/
inductive RefusedAt (kinds : List TokenKind) : (index : Option Nat) → Prop where
  /-- A token that cannot follow those before it. -/
  | token {before after : List TokenKind} {kind : TokenKind}
      (split : kinds = before ++ kind :: after) (goesOn : GoesOn before)
      (refused : ¬ Begins (before ++ [kind])) : RefusedAt kinds (some before.length)
  /-- A sign, after which only a number can follow, without a number. -/
  | sign {before after : List TokenKind} {kind : TokenKind}
      (split : kinds = before ++ kind :: after) (begins : Begins (before ++ [kind]))
      (sign : ¬ GoesOn (before ++ [kind])) (stray : NoNumber after) :
      RefusedAt kinds (some before.length)
  /-- The end of a beginning. -/
  | early (goesOn : GoesOn kinds) (incomplete : ∀ i n, Derives kinds i n → nestingLimit < n) :
      RefusedAt kinds none

section Beginnings

variable {kinds before after more : List TokenKind} {kind : TokenKind}

theorem GoesOn.begins (h : GoesOn kinds) : Begins kinds := by
  obtain ⟨us, i, n, -, hd, hn⟩ := h
  exact ⟨us, i, n, hd, hn⟩

theorem Begins.of_append (h : Begins (kinds ++ more)) : Begins kinds := by
  obtain ⟨us, i, n, hd, hn⟩ := h
  exact ⟨more ++ us, i, n, by rwa [← List.append_assoc], hn⟩

/-- The longest beginning of an instruction among the prefixes of a token list has this length. -/
structure IsLongest (kinds : List TokenKind) (length : Nat) : Prop where
  le : length ≤ kinds.length
  begins : Begins (kinds.take length)
  longest : ∀ m ≤ kinds.length, Begins (kinds.take m) → m ≤ length

theorem IsLongest.unique {length length' : Nat} (h : IsLongest kinds length)
    (h' : IsLongest kinds length') : length = length' :=
  Nat.le_antisymm (h'.longest _ h.le h.begins) (h.longest _ h'.le h'.begins)

theorem isLongest_of_refused (hbegins : Begins before) (hrefused : ¬ Begins (before ++ [kind])) :
    IsLongest (before ++ kind :: after) before.length where
  le := by simp
  begins := by simpa using hbegins
  longest := by
    intro m _ hm
    by_contra hlt
    obtain ⟨k, rfl⟩ : ∃ k, m = before.length + (k + 1) := ⟨m - before.length - 1, by omega⟩
    rw [List.take_length_add_append, List.take_succ_cons, List.append_cons] at hm
    exact hrefused hm.of_append

theorem isLongest_of_sign (hbegins : Begins (before ++ [kind]))
    (hsign : ¬ GoesOn (before ++ [kind])) (hstray : NoNumber after) :
    IsLongest (before ++ kind :: after) (before.length + 1) where
  le := by simp
  begins := by rwa [List.take_length_add_append]
  longest := by
    intro m hle hm
    by_contra hlt
    -- what follows the sign in a longer beginning is no number
    obtain ⟨k, rfl⟩ : ∃ k, m = before.length + (k + 2) := ⟨m - before.length - 2, by omega⟩
    obtain ⟨us, i, n, hd, hn⟩ := hm
    cases after with
    | nil => simp at hle
    | cons next after =>
      rw [List.take_length_add_append] at hd
      refine hsign ⟨next :: after.take k ++ us, i, n, hstray, ?_, hn⟩
      simpa using hd

/-- The place of refusal is told by the longest beginning. -/
theorem RefusedAt.exists_longest {index : Option Nat} (h : RefusedAt kinds index) :
    ∃ length, IsLongest kinds length ∧
      (GoesOn (kinds.take length) ∧ index = (if length < kinds.length then some length else none) ∨
        ¬ GoesOn (kinds.take length) ∧ index = some (length - 1)) := by
  cases h with
  | @token before after kind hsplit hgoes hrefused =>
    subst hsplit
    exact ⟨before.length, isLongest_of_refused hgoes.begins hrefused, .inl ⟨by simpa, by simp⟩⟩
  | @sign before after kind hsplit hbegins hsign hstray =>
    subst hsplit
    refine ⟨before.length + 1, isLongest_of_sign hbegins hsign hstray, .inr ⟨?_, rfl⟩⟩
    rwa [List.take_length_add_append]
  | early hgoes =>
    refine ⟨kinds.length, ⟨le_rfl, by simpa using hgoes.begins, fun m hm _ => hm⟩, .inl ⟨?_, ?_⟩⟩
    · simpa using hgoes
    · simp

/-- A token list is refused in one place at most. -/
theorem RefusedAt.unique {index index' : Option Nat} (h : RefusedAt kinds index)
    (h' : RefusedAt kinds index') : index = index' := by
  obtain ⟨length, hlongest, hindex⟩ := h.exists_longest
  obtain ⟨length', hlongest', hindex'⟩ := h'.exists_longest
  obtain rfl := hlongest.unique hlongest'
  obtain ⟨hgoes, rfl⟩ | ⟨hgoes, rfl⟩ := hindex <;> obtain ⟨hgoes', rfl⟩ | ⟨hgoes', rfl⟩ := hindex'
  · rfl
  · exact absurd hgoes hgoes'
  · exact absurd hgoes' hgoes
  · rfl

end Beginnings

end Instr

/-! ## Readers that fail -/

/-- How a reader fails: at a token that cannot follow, at a sign without a number, or at the end,
    after tokens that can be completed, and whatever comes next. `goesOn` and `begins` say which
    tokens can be completed without a number next, and at all. -/
inductive Fails {α : Type} (goesOn begins : List TokenKind → Prop)
    (read : Nat → List Token → Except SourceError α) (stop : Nat) (tokens : List Token)
    (e : SourceError) : Prop where
  | token {taken rest : List Token} {t : Token} (split : tokens = taken ++ t :: rest)
      (column : e.column = some t.column) (goes : goesOn (taken.map (·.kind)))
      (refuses : ∀ stop rest a, read stop (taken ++ t :: rest) ≠ .ok a)
  | sign {taken rest : List Token} {t : Token} (split : tokens = taken ++ t :: rest)
      (column : e.column = some t.column) (goes : begins (taken.map (·.kind) ++ [t.kind]))
      (stray : NoNumber (rest.map (·.kind)))
      (refuses : ∀ stop rest a, NoNumber (rest.map (·.kind)) →
        read stop (taken ++ t :: rest) ≠ .ok a)
  | early (column : e.column = some stop) (goes : goesOn (tokens.map (·.kind)))

section Fails

variable {α β : Type} {goesOn begins goesOn' begins' : List TokenKind → Prop}
  {read : Nat → List Token → Except SourceError α} {read' : Nat → List Token → Except SourceError β}
  {stop : Nat} {tokens : List Token} {e : SourceError}

/-- A reader fails with its part, which begins after `front`. -/
theorem Fails.lift (h : Fails goesOn begins read stop tokens e) (front : List Token)
    (hgoes : ∀ ks, goesOn ks → goesOn' (front.map (·.kind) ++ ks))
    (hbegins : ∀ ks, begins ks → begins' (front.map (·.kind) ++ ks))
    (hread : ∀ stop rest, rest.head? = tokens.head? → (∀ a, read stop rest ≠ .ok a) →
      ∀ b, read' stop (front ++ rest) ≠ .ok b) :
    Fails goesOn' begins' read' stop (front ++ tokens) e := by
  have hhead : ∀ {taken rest rest' : List Token} {t : Token}, tokens = taken ++ t :: rest →
      (taken ++ t :: rest').head? = tokens.head? := by
    rintro taken rest rest' t rfl
    cases taken <;> rfl
  cases h with
  | @token taken rest t hsplit hcolumn hcan hrefuses =>
    have hsplit' : front ++ tokens = (front ++ taken) ++ t :: rest := by
      rw [hsplit, List.append_assoc]
    refine .token hsplit' hcolumn ?_ fun stop rest b => ?_
    · simpa using hgoes _ hcan
    · rw [List.append_assoc]
      exact hread stop _ (hhead hsplit) (hrefuses stop rest) b
  | @sign taken rest t hsplit hcolumn hcan hstray hrefuses =>
    have hsplit' : front ++ tokens = (front ++ taken) ++ t :: rest := by
      rw [hsplit, List.append_assoc]
    refine .sign hsplit' hcolumn ?_ hstray fun stop rest b hrest => ?_
    · simpa using hbegins _ hcan
    · rw [List.append_assoc]
      exact hread stop _ (hhead hsplit) (fun a => hrefuses stop rest a hrest) b
  | early hcolumn hcan => exact .early hcolumn (by simpa using hgoes _ hcan)

end Fails

/-! ## Expressions -/

namespace Expr

/-- These tokens begin an expression, within the limit of an instruction that has already had `used`
    operators and opening parentheses. -/
def Begins (used : Nat) (kinds : List TokenKind) : Prop :=
  ∃ us e n, Derives 0 (kinds ++ us) e n ∧ used + n ≤ nestingLimit

/-- These tokens begin an expression that does not go on with a number. -/
def GoesOn (used : Nat) (kinds : List TokenKind) : Prop :=
  ∃ us e n, NoNumber us ∧ Derives 0 (kinds ++ us) e n ∧ used + n ≤ nestingLimit

section Reader

variable {stack : List Pending} {ks ts : List TokenKind} {e : Expr} {base used q n m stop : Nat}
  {tokens : List Token} {x : SourceError}

/-- After an operand, closing parentheses complete what is open. -/
theorem Opened.exists_close (h : Opened stack ks n) (hloose : Loose q stack)
    (hd : Derives q ts e m) : ∃ us e', NoNumber us ∧ Derives 0 (ks ++ ts ++ us) e' (n + m) := by
  induction h generalizing q ts e m with
  | nil =>
    refine ⟨[], e, noNumber_nil, ?_⟩
    simpa using hd.mono (Nat.zero_le q)
  | @group stack ks n below ih =>
    have hgroup : Derives 4 (.lparen :: ts ++ [.rparen]) e (m + 1) :=
      .group (hd.mono (Nat.zero_le q))
    obtain ⟨us, e', -, hclose⟩ := ih (loose_four stack) hgroup
    refine ⟨.rparen :: us, e', by simp [NoNumber], ?_⟩
    simpa [Nat.add_assoc, Nat.add_comm 1] using hclose
  | @operand stack ks ls n l lhs op below hbelow left ih =>
    have hbinary : Derives op.precedence (ls ++ op.token :: ts) (.binary op lhs e) (l + m + 1) :=
      .binary le_rfl left (hd.mono hloose)
    obtain ⟨us, e', hus, hclose⟩ := ih hbelow hbinary
    refine ⟨us, e', hus, ?_⟩
    simpa [Nat.add_assoc, Nat.add_comm 1] using hclose

theorem Opened.goesOn (h : Opened stack ks n) (hd : Derives 4 ts e m)
    (hlimit : base + (n + m) ≤ nestingLimit) : GoesOn base (ks ++ ts) := by
  obtain ⟨us, e', hus, hclose⟩ := h.exists_close (loose_four stack) hd
  exact ⟨us, e', n + m, hus, hclose, hlimit⟩

/-- Where an operand must follow, a name can. -/
theorem Opened.goesOn_operand (h : Opened stack ks n) (hlimit : base + n ≤ nestingLimit) :
    GoesOn base ks := by
  obtain ⟨us, e', -, hclose⟩ := h.exists_close (loose_four stack) (Derives.register "x")
  exact ⟨.identifier "x" :: us, e', n, by simp [NoNumber], by simpa using hclose, hlimit⟩

/-- Where an operand must follow, a number with a sign can. -/
theorem Opened.begins_sign (h : Opened stack ks n) (hlimit : base + n ≤ nestingLimit) :
    Begins base (ks ++ [.minus]) := by
  obtain ⟨us, e', -, hclose⟩ := h.exists_close (loose_four stack) (Derives.negative 0)
  exact ⟨.integer 0 :: us, e', n, by simpa using hclose, hlimit⟩

/-- The reader fails after the tokens `ks`. -/
def FailsAfter (base : Nat) (ks : List TokenKind)
    (read : Nat → List Token → Except SourceError Parsed) (stop : Nat) (tokens : List Token)
    (x : SourceError) : Prop :=
  Fails (fun us => GoesOn base (ks ++ us)) (fun us => Begins base (ks ++ us)) read stop tokens x

/-- Tokens that are read in any case come before those at which the reader fails. -/
theorem FailsAfter.prepend {read read' : Nat → List Token → Except SourceError Parsed}
    {rest : List Token} (taken : List Token)
    (h : FailsAfter base (ks ++ taken.map (·.kind)) read stop rest x)
    (hread : ∀ stop rest, read' stop (taken ++ rest) = read stop rest) :
    FailsAfter base ks read' stop (taken ++ rest) x := by
  refine Fails.lift h taken (fun us hus => ?_) (fun us hus => ?_) fun stop rest _ hnot b => ?_
  · rwa [← List.append_assoc]
  · rwa [← List.append_assoc]
  · rw [hread]
    exact hnot b

/-- All that reading on from a token can come to where an operand must follow: it is read, alone or
    with the number after it, a parenthesis is opened, or the token is refused, for itself or as a
    sign without a number. -/
theorem readOperand_cases (stack : List Pending) (used : Nat) (t : Token) (ts : List Token) :
    (∃ taken rest e, ts = taken ++ rest ∧ Derives 4 ((t :: taken).map (·.kind)) e 0 ∧
      ∀ stop rest, readOperand stop stack used (t :: taken ++ rest) =
        readOperator stop stack used e rest) ∨
    (t.kind = .lparen ∧ used < nestingLimit ∧ ∀ stop rest,
      readOperand stop stack used (t :: rest) =
        readOperand stop (.group :: stack) (used + 1) rest) ∨
    (∃ fault, ∀ stop rest, readOperand stop stack used (t :: rest) =
      .error (.atColumn t.column fault)) ∨
    (t.kind = .minus ∧ NoNumber (ts.map (·.kind)) ∧ ∀ stop rest, NoNumber (rest.map (·.kind)) →
      readOperand stop stack used (t :: rest) = .error (.atColumn t.column .straySign)) := by
  obtain ⟨kind, column⟩ := t
  cases kind with
  | identifier name =>
    exact .inl ⟨[], ts, .register name, rfl, .register name, fun stop rest => rfl⟩
  | integer value =>
    exact .inl ⟨[], ts, .constant (.ofNat value), rfl, .constant value, fun stop rest => rfl⟩
  | minus =>
    by_cases hnumber : NoNumber (ts.map (·.kind))
    · refine .inr (.inr (.inr ⟨rfl, hnumber, fun stop rest hrest => ?_⟩))
      rw [readOperand]
      rintro value column' rest rfl
      exact hrest value rfl
    · left
      simp only [NoNumber, not_forall, not_not, List.head?_map, Option.map_eq_some_iff] at hnumber
      obtain ⟨value, ⟨kind, column'⟩, hhead, rfl⟩ := hnumber
      obtain ⟨rest, rfl⟩ := List.head?_eq_some_iff.1 hhead
      exact ⟨[⟨.integer value, column'⟩], rest, .constant (-Int64.ofNat value), rfl,
        .negative value, fun stop rest => rfl⟩
  | lparen =>
    by_cases hused : used < nestingLimit
    · exact .inr (.inl ⟨rfl, hused, fun stop rest => if_pos hused⟩)
    · exact .inr (.inr (.inl ⟨.nestedTooDeeply, fun stop rest => if_neg hused⟩))
  | _ => exact .inr (.inr (.inl ⟨.notAnOperand _, fun stop rest => rfl⟩))

/-- All that reading on from a token can come to after an operand: the expression ends before it, it
    is an operator or closes a parenthesis, or it is refused. -/
theorem readOperator_cases (stack : List Pending) (used : Nat) (e : Expr) (t : Token) :
    (∀ stop rest, ∃ r, readOperator stop stack used e (t :: rest) = .ok r) ∨
    (∃ op, t.kind = op.token ∧ used < nestingLimit ∧ ∀ stop rest,
      readOperator stop stack used e (t :: rest) =
        readOperand stop (.operand (settle op.precedence e stack).1 op ::
          (settle op.precedence e stack).2) (used + 1) rest) ∨
    (∃ top stack', t.kind = .rparen ∧ (settle 0 e stack).2 = top :: stack' ∧ ∀ stop rest,
      readOperator stop stack used e (t :: rest) =
        readOperator stop stack' used (settle 0 e stack).1 rest) ∨
    ∃ fault, ∀ stop rest, readOperator stop stack used e (t :: rest) =
      .error (.atColumn t.column fault) := by
  cases hop : t.kind.operator? with
  | some op =>
    by_cases hused : used < nestingLimit
    · refine .inr (.inl ⟨op, TokenKind.operator?_eq_some_iff.1 hop, hused, fun stop rest => ?_⟩)
      simp [readOperator, hop, hused]
    · exact .inr (.inr (.inr ⟨.nestedTooDeeply, fun stop rest => by
        simp [readOperator, hop, hused]⟩))
  | none =>
    rcases hsettle : settle 0 e stack with ⟨e', _ | ⟨top, stack'⟩⟩
    · exact .inl fun stop rest => ⟨⟨e', used, t :: rest⟩, by simp [readOperator, hop, hsettle]⟩
    · by_cases ht : t.kind = .rparen
      · refine .inr (.inr (.inl ⟨top, stack', ht, rfl, fun stop rest => ?_⟩))
        simp only [readOperator, hop, hsettle, if_pos ht]
      · exact .inr (.inr (.inr ⟨.expected .rparen (some t.kind), fun stop rest => by
          simp [readOperator, hop, hsettle, ht]⟩))

end Reader

mutual

theorem failsAfter_readOperand {stop used base n : Nat} {stack : List Pending}
    {ks : List TokenKind} {tokens : List Token} {x : SourceError}
    (h : readOperand stop stack used tokens = .error x)
    (hopened : Opened stack ks n) (hused : used = base + n) (hlimit : used ≤ nestingLimit) :
    FailsAfter base ks (fun stop => readOperand stop stack used) stop tokens x := by
  have hgoes : GoesOn base ks := hopened.goesOn_operand (hused ▸ hlimit)
  cases tokens with
  | nil =>
    obtain rfl := Except.error.inj h
    exact .early rfl (by simpa using hgoes)
  | cons t ts =>
    obtain ⟨taken, rest, e, rfl, hd, hread⟩ | ⟨ht, hlt, hread⟩ | ⟨fault, hread⟩ |
      ⟨ht, hstray, hread⟩ := readOperand_cases stack used t ts
    · rw [← List.cons_append, hread] at h
      exact (failsAfter_readOperator h hopened hd hused hlimit).prepend (t :: taken) hread
    · rw [hread] at h
      have hopened' : Opened (.group :: stack) (ks ++ [t].map (·.kind)) (n + 1) := by
        simpa [ht] using hopened.group
      exact (failsAfter_readOperand h hopened' (by omega) hlt).prepend [t] hread
    · rw [hread] at h
      obtain rfl := Except.error.inj h
      exact .token (List.nil_append _).symm rfl (by simpa using hgoes) fun stop rest a => by
        simp [hread]
    · rw [hread stop ts hstray] at h
      obtain rfl := Except.error.inj h
      refine .sign (List.nil_append _).symm rfl ?_ hstray fun stop rest a hrest => ?_
      · simpa [ht] using hopened.begins_sign (hused ▸ hlimit)
      · simp [hread stop rest hrest]
termination_by tokens.length

theorem failsAfter_readOperator {stop used base n m : Nat} {stack : List Pending} {e : Expr}
    {ks ts : List TokenKind} {tokens : List Token} {x : SourceError}
    (h : readOperator stop stack used e tokens = .error x)
    (hopened : Opened stack ks n) (hd : Derives 4 ts e m) (hused : used = base + (n + m))
    (hlimit : used ≤ nestingLimit) :
    FailsAfter base (ks ++ ts) (fun stop => readOperator stop stack used e) stop tokens x := by
  have hgoes : GoesOn base (ks ++ ts) := hopened.goesOn hd (hused ▸ hlimit)
  cases tokens with
  | nil =>
    rw [readOperator] at h
    split at h
    case h_1 => simp at h
    case h_2 =>
      obtain rfl := Except.error.inj h
      exact .early rfl (by simpa using hgoes)
  | cons t us =>
    obtain hread | ⟨op, ht, hlt, hread⟩ | ⟨top, stack', ht, hsettle, hread⟩ | ⟨fault, hread⟩ :=
      readOperator_cases stack used e t
    · obtain ⟨r, hr⟩ := hread stop us
      rw [hr] at h
      cases h
    · -- the operator waits for its right operand
      obtain ⟨ks', ts', n', m', hopened', hloose, hd', hkinds, hcount⟩ :=
        hopened.settle (loose_four stack) hd op.precedence_lt.le
      have hwaiting := hopened'.operand hloose hd'
      rw [← List.append_assoc, hkinds, ← ht] at hwaiting
      rw [hread] at h
      exact (failsAfter_readOperand h hwaiting (by omega) hlt).prepend [t] hread
    · -- the parenthesis that is closed makes an operand
      obtain ⟨ks', ts', n', m', hopened', hloose, hd', hkinds, hcount⟩ :=
        hopened.settle (loose_four stack) hd (Nat.zero_le 4)
      rw [hsettle] at hopened' hloose
      cases hopened' with
      | operand => exact absurd hloose (Nat.not_lt_zero _)
      | @group _ ks'' n'' below =>
        rw [hread] at h
        have hgroup : FailsAfter base (ks'' ++ (.lparen :: ts' ++ [.rparen]))
            (fun stop => readOperator stop stack' used (settle 0 e stack).1) stop us x :=
          failsAfter_readOperator h below (.group hd') (by omega) hlimit
        refine FailsAfter.prepend [t] ?_ hread
        rw [← hkinds]
        simpa [ht] using hgroup
    · rw [hread] at h
      obtain rfl := Except.error.inj h
      exact .token (List.nil_append _).symm rfl (by simpa using hgoes) fun stop rest a => by
        simp [hread]
termination_by tokens.length

end

theorem failsAfter_read {stop used : Nat} {tokens : List Token} {x : SourceError}
    (h : Expr.read stop used tokens = .error x) (hused : used ≤ nestingLimit) :
    FailsAfter used [] (fun stop => Expr.read stop used) stop tokens x :=
  failsAfter_readOperand h .nil rfl hused

end Expr

/-! ## Instructions -/

namespace Instr

section Parts

variable {α : Type} {stop : Nat} {tokens : List Token} {x : SourceError} {kind : TokenKind}
  {kinds front after : List TokenKind} {base : Nat}

/-- A reader that decides at the first token fails there. -/
def FailsAtOnce (read : Nat → List Token → Except SourceError α) (stop : Nat) (tokens : List Token)
    (x : SourceError) : Prop :=
  Fails (· = []) (fun _ => False) read stop tokens x

theorem failsAtOnce_takeName (h : takeName stop tokens = .error x) :
    FailsAtOnce takeName stop tokens x := by
  cases tokens with
  | nil =>
    obtain rfl := Except.error.inj h
    exact .early rfl rfl
  | cons t rest =>
    have hkind : ∀ name, t.kind ≠ .identifier name := by
      intro name ht
      rw [takeName_eq_ok_iff.2 ⟨t, rfl, ht⟩] at h
      cases h
    rw [takeName] at h
    · obtain rfl := Except.error.inj h
      refine .token (List.nil_append _).symm rfl rfl fun stop rest a ha => ?_
      obtain ⟨t', heq, ht'⟩ := takeName_eq_ok_iff.1 ha
      rw [List.nil_append, List.cons_eq_cons] at heq
      exact hkind _ (heq.1 ▸ ht')
    · rintro name column rest' heq
      exact hkind name (by rw [(List.cons_eq_cons.1 heq).1])

theorem failsAtOnce_takeKind (h : takeKind kind stop tokens = .error x) :
    FailsAtOnce (takeKind kind) stop tokens x := by
  cases tokens with
  | nil =>
    obtain rfl := Except.error.inj h
    exact .early rfl rfl
  | cons t rest =>
    rw [takeKind] at h
    split at h
    case isTrue => cases h
    case isFalse hkind =>
      obtain rfl := Except.error.inj h
      exact .token (List.nil_append _).symm rfl rfl fun stop rest a => by simp [takeKind, hkind]

/-- Accepts an instruction if nothing is left after it. -/
def complete (i : Instr) : List Token → Except SourceError Instr
  | [] => .ok i
  | t :: _ => .error (.atColumn t.column (.trailingToken t.kind))

theorem failsAtOnce_complete {i : Instr} (h : complete i tokens = .error x) :
    FailsAtOnce (fun _ => complete i) stop tokens x := by
  cases tokens with
  | nil => cases h
  | cons t rest =>
    obtain rfl := Except.error.inj h
    exact .token (List.nil_append _).symm rfl rfl fun stop rest a => by simp [complete]

theorem ofTokens_eq (stop : Nat) (tokens : List Token) :
    ofTokens stop tokens = Instr.read stop tokens >>= fun r => complete r.1 r.2 := by
  unfold ofTokens
  refine congrArg (Instr.read stop tokens >>= ·) (funext fun r => ?_)
  obtain ⟨i, _ | ⟨t, rest⟩⟩ := r <;> rfl

/-- Reading an instruction fails where a token list is refused. -/
abbrev FailsToRead (stop : Nat) (tokens : List Token) (x : SourceError) : Prop :=
  Fails GoesOn Begins ofTokens stop tokens x

theorem bind_ne_ok {ε α β : Type} {y : Except ε α} {f : α → Except ε β} {b : β}
    (h : ∀ a, y ≠ .ok a) : y >>= f ≠ .ok b := by
  intro hb
  obtain ⟨a, ha, -⟩ := bind_eq_ok_iff.1 hb
  exact h a ha

theorem FailsAtOnce.lift {read : Nat → List Token → Except SourceError α}
    (h : FailsAtOnce read stop tokens x) (front : List Token)
    (hgoes : GoesOn (front.map (·.kind)))
    (hread : ∀ stop rest, rest.head? = tokens.head? →
      ∃ f, ofTokens stop (front ++ rest) = read stop rest >>= f) :
    FailsToRead stop (front ++ tokens) x := by
  refine Fails.lift h front (fun ks hks => ?_) (fun ks hks => hks.elim)
    fun stop rest hhead hnot i hi => ?_
  · rw [hks, List.append_nil]
    exact hgoes
  · obtain ⟨f, hf⟩ := hread stop rest hhead
    exact bind_ne_ok hnot (hf.symm.trans hi)

/-- An instruction fails with one of its expressions. -/
theorem failsToRead_expr {used : Nat}
    (h : Expr.FailsAfter used [] (fun stop => Expr.read stop used) stop tokens x)
    (front : List Token) (hafter : NoNumber after)
    (hderives : ∀ ks e n, Expr.Derives 0 ks e n →
      ∃ i, Derives (front.map (·.kind) ++ (ks ++ after)) i (used + n))
    (hread : ∀ stop rest, rest.head? = tokens.head? →
      ∃ f, ofTokens stop (front ++ rest) = Expr.read stop used rest >>= f) :
    FailsToRead stop (front ++ tokens) x := by
  refine Fails.lift h front (fun ks hks => ?_) (fun ks hks => ?_)
    fun stop rest hhead hnot i hi => ?_
  · obtain ⟨us, e, n, hus, hd, hn⟩ := hks
    obtain ⟨i, hi⟩ := hderives _ e n hd
    exact ⟨us ++ after, i, _, hus.append hafter, by simpa using hi, hn⟩
  · obtain ⟨us, e, n, hd, hn⟩ := hks
    obtain ⟨i, hi⟩ := hderives _ e n hd
    exact ⟨us ++ after, i, _, by simpa using hi, hn⟩
  · obtain ⟨f, hf⟩ := hread stop rest hhead
    exact bind_ne_ok hnot (hf.symm.trans hi)

theorem goesOn_whole {i : Instr} {n : Nat} (hd : Derives kinds i n) (hn : n ≤ nestingLimit) :
    GoesOn kinds :=
  ⟨[], i, n, noNumber_nil, by rwa [List.append_nil], hn⟩

end Parts

/-! ### Step by step -/

section Steps

variable {stop base : Nat} {tokens front rest : List Token} {x : SourceError} {kind : TokenKind}
  {i : Instr}

/-- Of the tokens of an instruction, `front` has been read, and `f` goes on with the others. -/
structure Reached (tokens front rest : List Token)
    (f : Nat → List Token → Except SourceError Instr) : Prop where
  split : tokens = front ++ rest
  /-- What comes next may decide how far an expression goes. -/
  goesOn : ∀ stop later, later.head? = rest.head? → ofTokens stop (front ++ later) = f stop later

theorem Reached.next {t : Token} {f : Nat → List Token → Except SourceError Instr}
    (h : Reached tokens front (t :: rest) f) :
    Reached tokens (front ++ [t]) rest fun stop rest => f stop (t :: rest) := by
  refine ⟨by simp [h.split], fun stop later _ => ?_⟩
  rw [List.append_assoc, List.singleton_append, h.goesOn stop (t :: later) rfl]

theorem Reached.congr {f g : Nat → List Token → Except SourceError Instr}
    (h : Reached tokens front rest f)
    (hfg : ∀ stop later, later.head? = rest.head? → f stop later = g stop later) :
    Reached tokens front rest g :=
  ⟨h.split, fun stop later hhead => (h.goesOn stop later hhead).trans (hfg stop later hhead)⟩

/-- A name is refused, or read. -/
theorem Reached.readsName {f : Nat → String × List Token → Except SourceError Instr}
    (h : Reached tokens front rest fun stop rest => takeName stop rest >>= f stop)
    (hx : ofTokens stop tokens = .error x) (hgoes : GoesOn (front.map (·.kind))) :
    FailsToRead stop tokens x ∨ ∃ t name later, t.kind = .identifier name ∧
      Reached tokens (front ++ [t]) later fun stop later => f stop (name, later) := by
  obtain ⟨rfl, hcont⟩ := h
  rw [hcont stop rest rfl] at hx
  cases hname : takeName stop rest with
  | error x' =>
    rw [hname] at hx
    obtain rfl := Except.error.inj hx
    exact .inl ((failsAtOnce_takeName hname).lift front hgoes fun stop later hhead =>
      ⟨_, hcont stop later hhead⟩)
  | ok r =>
    obtain ⟨name, later⟩ := r
    obtain ⟨t, rfl, ht⟩ := takeName_eq_ok_iff.1 hname
    refine .inr ⟨t, name, later, ht, by simp, fun stop later _ => ?_⟩
    rw [List.append_assoc, List.singleton_append, hcont stop (t :: later) rfl,
      takeName_eq_ok_iff.2 ⟨t, rfl, ht⟩]
    rfl

/-- A token of one kind is refused, or read. -/
theorem Reached.readsKind {f : Nat → List Token → Except SourceError Instr}
    (h : Reached tokens front rest fun stop rest => takeKind kind stop rest >>= f stop)
    (hx : ofTokens stop tokens = .error x) (hgoes : GoesOn (front.map (·.kind))) :
    FailsToRead stop tokens x ∨ ∃ t later, t.kind = kind ∧
      Reached tokens (front ++ [t]) later f := by
  obtain ⟨rfl, hcont⟩ := h
  rw [hcont stop rest rfl] at hx
  cases hkind : takeKind kind stop rest with
  | error x' =>
    rw [hkind] at hx
    obtain rfl := Except.error.inj hx
    exact .inl ((failsAtOnce_takeKind hkind).lift front hgoes fun stop later hhead =>
      ⟨_, hcont stop later hhead⟩)
  | ok later =>
    obtain ⟨t, rfl, ht⟩ := takeKind_eq_ok_iff.1 hkind
    refine .inr ⟨t, later, ht, by simp, fun stop later _ => ?_⟩
    rw [List.append_assoc, List.singleton_append, hcont stop (t :: later) rfl,
      takeKind_eq_ok_iff.2 ⟨t, rfl, ht⟩]
    rfl

/-- An expression is refused, or read. -/
theorem Reached.readsExpr {used : Nat} {after : List TokenKind}
    {f : Nat → Expr.Parsed → Except SourceError Instr}
    (h : Reached tokens front rest fun stop rest => Expr.read stop used rest >>= f stop)
    (hx : ofTokens stop tokens = .error x) (hused : used ≤ nestingLimit) (hafter : NoNumber after)
    (hderives : ∀ ks e n, Expr.Derives 0 ks e n →
      ∃ i, Derives (front.map (·.kind) ++ (ks ++ after)) i (used + n)) :
    FailsToRead stop tokens x ∨ ∃ taken later e n, Expr.Derives 0 (taken.map (·.kind)) e n ∧
      used + n ≤ nestingLimit ∧
      Reached tokens (front ++ taken) later fun stop later => f stop ⟨e, used + n, later⟩ := by
  obtain ⟨rfl, hcont⟩ := h
  rw [hcont stop rest rfl] at hx
  cases hread : Expr.read stop used rest with
  | error x' =>
    rw [hread] at hx
    obtain rfl := Except.error.inj hx
    exact .inl (failsToRead_expr (Expr.failsAfter_read hread hused) front hafter hderives
      fun stop later hhead => ⟨_, hcont stop later hhead⟩)
  | ok r =>
    obtain ⟨taken, n, rfl, hd, hn, hlimit, hyields⟩ := Expr.derives_of_read hread hused
    refine .inr ⟨taken, r.rest, r.expr, n, hd, hn ▸ hlimit, by simp, fun stop later hhead => ?_⟩
    have hyields' : Expr.Yields 0 later := by rwa [Expr.Yields, hhead]
    rw [List.append_assoc, hcont stop _ (by simp [hhead]),
      Expr.read_of_derives hd (hn ▸ hlimit) hyields']
    rfl

/-- What is left after an instruction is refused. -/
theorem Reached.refused (h : Reached tokens front rest fun _ => complete i)
    (hx : ofTokens stop tokens = .error x) (hgoes : GoesOn (front.map (·.kind))) :
    FailsToRead stop tokens x := by
  obtain ⟨rfl, hcont⟩ := h
  rw [hcont stop rest rfl] at hx
  refine (failsAtOnce_complete hx).lift front hgoes fun stop later hhead => ⟨pure, ?_⟩
  rw [hcont stop later hhead, bind_pure]

end Steps

/-! ### Forms of instructions -/

section Forms

variable {stop column : Nat} {tokens rest : List Token} {x : SourceError} {word : String}

/-- The form `word name, expression`. -/
theorem Reached.failsToRead_nameExpr {make : String → Expr → Instr}
    (h : Reached tokens [⟨.identifier word, column⟩] rest fun stop rest =>
      takeName stop rest >>= fun r => takeKind .comma stop r.2 >>= fun rest =>
        Expr.read stop 0 rest >>= fun e => complete (make r.1 e.expr) e.rest)
    (hmake : ∀ name ks e n, Expr.Derives 0 ks e n →
      Derives (.identifier word :: .identifier name :: .comma :: ks) (make name e) n)
    (hx : ofTokens stop tokens = .error x) : FailsToRead stop tokens x := by
  have hmake' : ∀ name, Derives [.identifier word, .identifier name, .comma, .identifier "x"]
      (make name (.register "x")) 0 := fun name => hmake name _ _ _ (.register "x")
  obtain hfails | ⟨t, name, later, ht, h⟩ := h.readsName hx
    ⟨[.identifier "x", .comma, .identifier "x"], _, 0, by simp [NoNumber], hmake' "x",
      Nat.zero_le _⟩
  · exact hfails
  dsimp only at h
  obtain hfails | ⟨u, later, hu, h⟩ := h.readsKind hx
    ⟨[.comma, .identifier "x"], _, 0, by simp [NoNumber], by simpa [ht] using hmake' name,
      Nat.zero_le _⟩
  · exact hfails
  obtain hfails | ⟨taken, later, e, n, hd, hn, h⟩ := h.readsExpr hx (Nat.zero_le _) noNumber_nil
    fun ks e n hd => ⟨make name e, by simpa [ht, hu] using hmake name ks e n hd⟩
  · exact hfails
  dsimp only at h
  exact h.refused hx
    ⟨[], _, 0 + n, noNumber_nil, by simpa [ht, hu] using hmake name _ e n hd, hn⟩

/-- The form `beqz expression, name`. -/
theorem Reached.failsToRead_beqz
    (h : Reached tokens [⟨.identifier "beqz", column⟩] rest fun stop rest =>
      Expr.read stop 0 rest >>= fun e => takeKind .comma stop e.rest >>= fun rest =>
        takeName stop rest >>= fun r => complete (.beqz e.expr r.1 none) r.2)
    (hx : ofTokens stop tokens = .error x) : FailsToRead stop tokens x := by
  obtain hfails | ⟨taken, later, e, n, hd, hn, h⟩ := h.readsExpr hx (Nat.zero_le _)
    (show NoNumber [.comma, .identifier "x"] by simp [NoNumber])
    fun ks e n hd => ⟨_, by simpa using Derives.beqz "x" hd⟩
  · exact hfails
  dsimp only at h
  obtain hfails | ⟨t, later, ht, h⟩ := h.readsKind hx
    ⟨[.comma, .identifier "x"], _, 0 + n, by simp [NoNumber],
      by simpa using Derives.beqz "x" hd, hn⟩
  · exact hfails
  obtain hfails | ⟨u, name, later, hu, h⟩ := h.readsName hx
    ⟨[.identifier "x"], _, 0 + n, by simp [NoNumber], by simpa [ht] using Derives.beqz "x" hd, hn⟩
  · exact hfails
  dsimp only at h
  exact h.refused hx
    ⟨[], _, 0 + n, noNumber_nil, by simpa [ht, hu] using Derives.beqz name hd, hn⟩

/-- The form `jmp expression`. -/
theorem Reached.failsToRead_jmp
    (h : Reached tokens [⟨.identifier "jmp", column⟩] rest fun stop rest =>
      Expr.read stop 0 rest >>= fun e => complete (.jmp e.expr .dynamic) e.rest)
    (hx : ofTokens stop tokens = .error x) : FailsToRead stop tokens x := by
  obtain hfails | ⟨taken, later, e, n, hd, hn, h⟩ := h.readsExpr hx (Nat.zero_le _) noNumber_nil
    fun ks e n hd => ⟨_, by simpa using Derives.jmp hd⟩
  · exact hfails
  dsimp only at h
  exact h.refused hx ⟨[], _, 0 + n, noNumber_nil, by simpa using Derives.jmp hd, hn⟩

/-- What an assignment or a conditional move goes on with after its value. -/
def readCondition (dest : String) (value : Expr) (used stop : Nat) :
    List Token → Except SourceError Instr
  | ⟨.question, _⟩ :: rest =>
    Expr.read stop used rest >>= fun cond => complete (.cmov dest cond.expr value) cond.rest
  | rest => complete (.assign dest value) rest

theorem ofTokens_of_free (hfree : word ∉ mnemonics) :
    ofTokens stop (⟨.identifier word, column⟩ :: rest) =
      takeKind .arrow stop rest >>= fun rest => Expr.read stop 0 rest >>= fun e =>
        readCondition word e.expr e.used stop e.rest := by
  simp only [mnemonics, List.mem_cons, List.not_mem_nil, or_false, not_or] at hfree
  obtain ⟨hskip, hspbarr, hload, hstore, hbeqz, hjmp⟩ := hfree
  rw [ofTokens_eq, Instr.read]
  · simp only [bind_assoc]
    refine congrArg (takeKind .arrow stop rest >>= ·) (funext fun rest => ?_)
    refine congrArg (Expr.read stop 0 rest >>= ·) (funext fun e => ?_)
    obtain ⟨value, used, _ | ⟨⟨kind, column⟩, later⟩⟩ := e
    · rfl
    · cases kind <;> simp only [readCondition, bind_assoc, pure_bind]
  all_goals simp_all

/-- The form `word <- expression`, with or without `? expression`. -/
theorem Reached.failsToRead_arrow
    (h : Reached tokens [⟨.identifier word, column⟩] rest fun stop rest =>
      takeKind .arrow stop rest >>= fun rest => Expr.read stop 0 rest >>= fun e =>
        readCondition word e.expr e.used stop e.rest)
    (hfree : word ∉ mnemonics) (hx : ofTokens stop tokens = .error x) :
    FailsToRead stop tokens x := by
  obtain hfails | ⟨t, later, ht, h⟩ := h.readsKind hx
    ⟨[.arrow, .identifier "x"], _, 0, by simp [NoNumber], .assign hfree (.register "x"),
      Nat.zero_le _⟩
  · exact hfails
  obtain hfails | ⟨taken, later, e, n, hd, hn, h⟩ := h.readsExpr hx (Nat.zero_le _) noNumber_nil
    fun ks e n hd => ⟨_, by simpa [ht] using Derives.assign hfree hd⟩
  · exact hfails
  dsimp only at h
  by_cases hquestion : ∃ column later', later = ⟨.question, column⟩ :: later'
  · obtain ⟨column', later, rfl⟩ := hquestion
    have h := h.next
    obtain hfails | ⟨taken', later, e', m, hd', hm, h⟩ := h.readsExpr hx hn noNumber_nil
      fun ks e' m hd' => ⟨.cmov word e' e, by simpa [ht] using Derives.cmov hfree hd hd'⟩
    · exact hfails
    dsimp only at h
    exact h.refused hx
      ⟨[], _, 0 + n + m, noNumber_nil, by simpa [ht] using Derives.cmov hfree hd hd', hm⟩
  · have hassign : ∀ stop rest, rest.head? = later.head? →
        readCondition word e (0 + n) stop rest = complete (.assign word e) rest := by
      intro stop rest hhead
      rw [readCondition]
      rintro column' rest' rfl
      obtain ⟨later', rfl⟩ := List.head?_eq_some_iff.1 hhead.symm
      exact hquestion ⟨column', later', rfl⟩
    exact (h.congr hassign).refused hx
      ⟨[], _, 0 + n, noNumber_nil, by simpa [ht] using Derives.assign hfree hd, hn⟩

/-- Wherever reading an instruction fails, its tokens are refused. -/
theorem failsToRead_of_error (hx : ofTokens stop tokens = .error x) :
    FailsToRead stop tokens x := by
  have hnil : GoesOn [] :=
    ⟨[.identifier "skip"], .skip, 0, by simp [NoNumber], .skip, Nat.zero_le _⟩
  have hreached : ∀ {t rest f}, (∀ stop rest, ofTokens stop (t :: rest) = f stop rest) →
      Reached (t :: rest) [t] rest f := fun heq => ⟨rfl, fun stop later _ => heq stop later⟩
  -- the first word decides which form it is
  cases tokens with
  | nil =>
    obtain rfl := Except.error.inj hx
    exact .early rfl hnil
  | cons t rest =>
    obtain ⟨kind, column⟩ := t
    cases kind with
    | identifier word =>
      by_cases hword : word ∈ mnemonics
      · simp only [mnemonics, List.mem_cons, List.not_mem_nil, or_false] at hword
        obtain rfl | rfl | rfl | rfl | rfl | rfl := hword
        · exact Reached.refused (i := .skip) (hreached fun stop rest => ofTokens_eq stop _) hx
            (goesOn_whole .skip (Nat.zero_le _))
        · exact Reached.refused (i := .spbarr) (hreached fun stop rest => ofTokens_eq stop _) hx
            (goesOn_whole .spbarr (Nat.zero_le _))
        · refine Reached.failsToRead_nameExpr (hreached fun stop rest => ?_)
            (fun name ks e n => Derives.load name) hx
          simp only [ofTokens_eq, Instr.read, readNameExpr, bind_assoc, pure_bind]
        · refine Reached.failsToRead_nameExpr (hreached fun stop rest => ?_)
            (fun name ks e n => Derives.store name) hx
          simp only [ofTokens_eq, Instr.read, readNameExpr, bind_assoc, pure_bind]
        · refine Reached.failsToRead_beqz (hreached fun stop rest => ?_) hx
          simp only [ofTokens_eq, Instr.read, bind_assoc, pure_bind]
        · refine Reached.failsToRead_jmp (hreached fun stop rest => ?_) hx
          simp only [ofTokens_eq, Instr.read, bind_assoc, pure_bind]
      · exact (hreached fun stop rest => ofTokens_of_free hword).failsToRead_arrow hword hx
    | _ =>
      obtain rfl := Except.error.inj hx
      exact .token (List.nil_append _).symm rfl hnil fun stop rest i hi => by cases hi

end Forms

/-- A completion of these tokens is read. -/
theorem ofTokens_append_of_derives {kinds us : List TokenKind} {i : Instr} {n stop : Nat}
    {tokens : List Token} (hkinds : tokens.map (·.kind) = kinds) (hd : Derives (kinds ++ us) i n)
    (hn : n ≤ nestingLimit) : ofTokens stop (tokens ++ us.map (⟨·, 0⟩)) = .ok i := by
  have hus : (us.map (⟨·, 0⟩ : TokenKind → Token)).map (·.kind) = us := by
    simp [Function.comp_def]
  rw [ofTokens_eq_ok_iff, List.map_append, hkinds, hus]
  exact ⟨n, hn, hd⟩

/-- The reader complains about the place at which its tokens are refused. -/
theorem refusedAt_of_ofTokens {stop : Nat} {tokens : List Token} {x : SourceError}
    (hx : ofTokens stop tokens = .error x) :
    (∃ before t after, tokens = before ++ t :: after ∧ x.column = some t.column ∧
      RefusedAt (tokens.map (·.kind)) (some before.length)) ∨
    x.column = some stop ∧ RefusedAt (tokens.map (·.kind)) none := by
  cases failsToRead_of_error hx with
  | @token before after t hsplit hcolumn hgoes hrefuses =>
    refine .inl ⟨before, t, after, hsplit, hcolumn, ?_⟩
    have hrefused : ¬ Begins (before.map (·.kind) ++ [t.kind]) := by
      rintro ⟨us, i, n, hd, hn⟩
      apply hrefuses 0 (us.map (⟨·, 0⟩)) i
      rw [List.append_cons]
      exact ofTokens_append_of_derives (by simp) hd hn
    rw [← List.length_map (·.kind)]
    exact .token (by rw [hsplit, List.map_append, List.map_cons]) hgoes hrefused
  | @sign before after t hsplit hcolumn hbegins hstray hrefuses =>
    refine .inl ⟨before, t, after, hsplit, hcolumn, ?_⟩
    have hsign : ¬ GoesOn (before.map (·.kind) ++ [t.kind]) := by
      rintro ⟨us, i, n, hus, hd, hn⟩
      apply hrefuses 0 (us.map (⟨·, 0⟩)) i
      · simpa [NoNumber] using hus
      · rw [List.append_cons]
        exact ofTokens_append_of_derives (by simp) hd hn
    rw [← List.length_map (·.kind)]
    exact .sign (by rw [hsplit, List.map_append, List.map_cons]) hbegins hsign hstray
  | early hcolumn hgoes =>
    refine .inr ⟨hcolumn, .early hgoes fun i n hd => ?_⟩
    by_contra hn
    rw [ofTokens_eq_ok_iff.2 ⟨n, Nat.not_lt.1 hn, hd⟩] at hx
    cases hx

end Instr

end Mispredict.MuAsm
