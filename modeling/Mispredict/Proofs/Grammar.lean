/-
  The grammar of expressions and instructions.

  `Expr.Derives p kinds e n` says that a token list is the expression `e`, of which every
  operator outside parentheses binds at least as tightly as `p`, with `n` operators and
  opening parentheses. Operators associate to the left, a sign stands before a number only,
  and four strengths suffice: what is derived at strength 4 is an operand in itself.
  `Instr.Derives` adds the forms of instructions.

  The reader keeps a stack of what is open. `Opened` says which tokens a stack stands for;
  reading on from a stack completes a derivation that begins with these tokens
  (`completes_of_readOperand`), and a derivation is read as a whole over any stack whose top
  binds less tightly (`readOperand_of_derives`). Together: an expression is read from the
  front of a token list exactly if it is derived and stays within the limit, up to where no
  operator follows (`Expr.derives_of_read`, `Expr.read_of_derives`), and an instruction exactly
  if the whole list is derived within the limit (`Instr.ofTokens_eq_ok_iff`,
  `Instr.ofText_eq_ok_iff`).
-/
import Mathlib.Data.List.Basic
import Mispredict.Error
import Mispredict.MuAsm.Instr.Parser
import Mispredict.Proofs.Lexical

namespace Mispredict.MuAsm

/-! ## Expressions -/

/-- The token of an operator. -/
def BinOp.token : BinOp → TokenKind
  | .add => .plus
  | .sub => .minus
  | .mul => .star
  | .and => .amp

theorem TokenKind.operator?_eq_some_iff {kind : TokenKind} {op : BinOp} :
    kind.operator? = some op ↔ kind = op.token := by
  cases kind <;> cases op <;> simp [TokenKind.operator?, BinOp.token]

@[simp] theorem BinOp.operator?_token (op : BinOp) : op.token.operator? = some op :=
  TokenKind.operator?_eq_some_iff.2 rfl

theorem BinOp.precedence_pos (op : BinOp) : 0 < op.precedence := by
  cases op <;> decide

theorem BinOp.precedence_lt (op : BinOp) : op.precedence < 4 := by
  cases op <;> decide

namespace Expr

/-- A token list is the expression `e`. Its operators outside parentheses bind at least as tightly
    as `p`, and `n` is the number of its operators and opening parentheses. -/
inductive Derives : (p : Nat) → (kinds : List TokenKind) → (e : Expr) → (n : Nat) → Prop where
  | register {p : Nat} (name : String) : Derives p [.identifier name] (.register name) 0
  | constant {p : Nat} (value : Nat) :
      Derives p [.integer value] (.constant (Int64.ofNat value)) 0
  | negative {p : Nat} (value : Nat) :
      Derives p [.minus, .integer value] (.constant (-Int64.ofNat value)) 0
  | group {p n : Nat} {kinds : List TokenKind} {e : Expr} (inner : Derives 0 kinds e n) :
      Derives p (.lparen :: kinds ++ [.rparen]) e (n + 1)
  | binary {p n m : Nat} {op : BinOp} {ks us : List TokenKind} {lhs rhs : Expr}
      (strength : p ≤ op.precedence) (left : Derives op.precedence ks lhs n)
      (right : Derives (op.precedence + 1) us rhs m) :
      Derives p (ks ++ op.token :: us) (.binary op lhs rhs) (n + m + 1)

section

variable {p q n m used stop : Nat} {e : Expr} {ks ts : List TokenKind} {tokens rest : List Token}
  {stack : List Pending} {r : Parsed}

theorem Derives.mono (h : Derives q ts e n) (hle : p ≤ q) : Derives p ts e n := by
  cases h with
  | register name => exact .register name
  | constant value => exact .constant value
  | negative value => exact .negative value
  | group inner => exact .group inner
  | binary hq left right => exact .binary (hle.trans hq) left right

/-- The pending operator on top of a stack, if any, binds less tightly than `p`. -/
def Loose (p : Nat) : List Pending → Prop
  | .operand _ op :: _ => op.precedence < p
  | _ => True

theorem Loose.mono (h : Loose p stack) (hle : p ≤ q) : Loose q stack := by
  cases stack with
  | nil => trivial
  | cons top stack =>
    cases top with
    | operand lhs op => exact Nat.lt_of_lt_of_le h hle
    | group => trivial

theorem loose_four (stack : List Pending) : Loose 4 stack := by
  cases stack with
  | nil => trivial
  | cons top stack =>
    cases top with
    | operand lhs op => exact op.precedence_lt
    | group => trivial

theorem settle_of_loose (h : Loose p stack) (e : Expr) : settle p e stack = (e, stack) := by
  cases stack with
  | nil => rfl
  | cons top stack =>
    cases top with
    | operand lhs op => rw [settle, if_neg (Nat.not_le.2 h)]
    | group => rfl

/-! ### What is derived is read -/

/-- No operator that binds more tightly than `p` follows. -/
def Yields (p : Nat) (rest : List Token) : Prop :=
  ∀ t ∈ rest.head?, ∀ op ∈ t.kind.operator?, op.precedence ≤ p

theorem Yields.mono (h : Yields p rest) (hle : p ≤ q) : Yields q rest :=
  fun t ht op hop => (h t ht op hop).trans hle

/-- A pending operator is completed by its operand before an operator that binds no more tightly. -/
theorem readOperator_operand {op : BinOp} {lhs : Expr} (h : Yields op.precedence rest) :
    readOperator stop (.operand lhs op :: stack) used e rest =
      readOperator stop stack used (.binary op lhs e) rest := by
  cases rest with
  | nil => simp [readOperator, settle]
  | cons t ts =>
    cases hop : t.kind.operator? with
    | none => simp [readOperator, hop, settle]
    | some op' => simp [readOperator, hop, settle, h t rfl op' hop]

theorem readOperand_lparen {column : Nat} (h : used < nestingLimit) :
    readOperand stop stack used (⟨.lparen, column⟩ :: rest) =
      readOperand stop (.group :: stack) (used + 1) rest :=
  if_pos h

/-- With nothing open, the expression ends where no operator follows. -/
theorem readOperator_nil (h : Yields 0 rest) :
    readOperator stop [] used e rest = .ok ⟨e, used, rest⟩ := by
  cases rest with
  | nil => rfl
  | cons t ts =>
    have hop : t.kind.operator? = none := by
      rw [Option.eq_none_iff_forall_ne_some]
      intro op hop
      exact absurd (h t rfl op hop) (Nat.not_le.2 op.precedence_pos)
    simp [readOperator, hop, settle]

/-- A derived expression is read as a whole. -/
theorem readOperand_of_derives (h : Derives p ks e n) : ∀ {stack used tokens rest},
    tokens.map (·.kind) = ks → used + n ≤ nestingLimit → Loose p stack → Yields p rest →
      readOperand stop stack used (tokens ++ rest) = readOperator stop stack (used + n) e rest := by
  induction h with
  | register name =>
    intro stack used tokens rest hkinds _ _ _
    obtain ⟨⟨kind, column⟩, rfl, rfl⟩ := List.map_eq_singleton_iff.1 hkinds
    rfl
  | constant value =>
    intro stack used tokens rest hkinds _ _ _
    obtain ⟨⟨kind, column⟩, rfl, rfl⟩ := List.map_eq_singleton_iff.1 hkinds
    rfl
  | negative value =>
    intro stack used tokens rest hkinds _ _ _
    obtain ⟨⟨kind, column⟩, ts, rfl, rfl, hts⟩ := List.map_eq_cons_iff.1 hkinds
    obtain ⟨⟨kind, column⟩, rfl, rfl⟩ := List.map_eq_singleton_iff.1 hts
    rfl
  | @group p n ks e inner ih =>
    intro stack used tokens rest hkinds hused _ _
    rw [List.cons_append] at hkinds
    obtain ⟨⟨kind, column⟩, ts', rfl, rfl, hts'⟩ := List.map_eq_cons_iff.1 hkinds
    obtain ⟨ts, us, rfl, hts, hus⟩ := List.map_eq_append_iff.1 hts'
    obtain ⟨u, rfl, hu⟩ := List.map_eq_singleton_iff.1 hus
    have hlt : used < nestingLimit := by omega
    have hyields : Yields 0 (u :: rest) := by simp [Yields, hu, TokenKind.operator?]
    have hread : readOperand stop (.group :: stack) (used + 1) (ts ++ u :: rest) =
        readOperator stop (.group :: stack) (used + 1 + n) e (u :: rest) :=
      ih hts (by omega) trivial hyields
    rw [List.cons_append, List.append_assoc, List.singleton_append, readOperand_lparen hlt, hread,
      readOperator]
    simp only [hu, TokenKind.operator?, settle, if_true]
    congr 1
    omega
  | @binary p n m op ks us lhs rhs hp left right ihl ihr =>
    intro stack used tokens rest hkinds hused hloose hrest
    obtain ⟨ts, us', rfl, hts, hus'⟩ := List.map_eq_append_iff.1 hkinds
    obtain ⟨t, us, rfl, ht, hus⟩ := List.map_eq_cons_iff.1 hus'
    have hlt : used + n < nestingLimit := by omega
    have hop : t.kind.operator? = some op := by rw [ht, BinOp.operator?_token]
    have hloose : Loose op.precedence stack := hloose.mono hp
    have hyields : Yields op.precedence (t :: us ++ rest) := by simp [Yields, hop]
    have hright : readOperand stop (.operand lhs op :: stack) (used + n + 1) (us ++ rest) =
        readOperator stop (.operand lhs op :: stack) (used + n + 1 + m) rhs rest :=
      ihr hus (by omega) (Nat.lt_succ_self _) (hrest.mono (by omega))
    rw [List.append_assoc, ihl hts (by omega) hloose hyields, List.cons_append, readOperator]
    simp only [hop, hlt, if_true, settle_of_loose hloose, hright]
    rw [readOperator_operand (hrest.mono hp)]
    congr 1
    omega

/-! ### What is read is derived -/

/-- What a stack stands for: the tokens that were read, and the number of operators and opening
    parentheses among them. -/
inductive Opened : (stack : List Pending) → (kinds : List TokenKind) → (n : Nat) → Prop where
  | nil : Opened [] [] 0
  | group {stack : List Pending} {ks : List TokenKind} {n : Nat} (below : Opened stack ks n) :
      Opened (.group :: stack) (ks ++ [.lparen]) (n + 1)
  | operand {stack : List Pending} {ks ts : List TokenKind} {n m : Nat} {lhs : Expr} {op : BinOp}
      (below : Opened stack ks n) (loose : Loose op.precedence stack)
      (left : Derives op.precedence ts lhs m) :
      Opened (.operand lhs op :: stack) (ks ++ (ts ++ [op.token])) (n + m + 1)

/-- Completing pending operators regroups the tokens that were read. -/
theorem Opened.settle (h : Opened stack ks n) (hloose : Loose q stack) (hd : Derives q ts e m)
    (hle : p ≤ q) : ∃ ks' ts' n' m', Opened (settle p e stack).2 ks' n' ∧
      Loose p (settle p e stack).2 ∧ Derives p ts' (settle p e stack).1 m' ∧
      ks' ++ ts' = ks ++ ts ∧ n' + m' = n + m := by
  induction h generalizing q ts e m with
  | nil => exact ⟨[], ts, 0, m, .nil, trivial, hd.mono hle, rfl, rfl⟩
  | group below => exact ⟨_, ts, _, m, .group below, trivial, hd.mono hle, rfl, rfl⟩
  | @operand stack ks ls n l lhs op below hbelow left ih =>
    by_cases hop : p ≤ op.precedence
    · have hbinary : Derives op.precedence (ls ++ op.token :: ts) (.binary op lhs e) (l + m + 1) :=
        .binary le_rfl left (hd.mono hloose)
      obtain ⟨ks', ts', n', m', hopened, hloose', hd', hkinds, hcount⟩ := ih hbelow hbinary hop
      rw [Expr.settle, if_pos hop]
      refine ⟨ks', ts', n', m', hopened, hloose', hd', ?_, ?_⟩
      · simp [hkinds]
      · omega
    · rw [Expr.settle, if_neg hop]
      exact ⟨_, ts, _, m, .operand below hbelow left, Nat.not_le.1 hop, hd.mono hle, rfl, rfl⟩

/-- Where an operand must follow, there is one in itself or an opening parenthesis. -/
theorem readOperand_eq_ok (h : readOperand stop stack used tokens = .ok r) :
    (∃ t taken rest e, tokens = t :: taken ++ rest ∧
      Derives 4 ((t :: taken).map (·.kind)) e 0 ∧ readOperator stop stack used e rest = .ok r) ∨
    ∃ t rest, tokens = t :: rest ∧ t.kind = .lparen ∧ used < nestingLimit ∧
      readOperand stop (.group :: stack) (used + 1) rest = .ok r := by
  rw [readOperand.eq_def] at h
  split at h
  case h_1 => simp at h
  case h_2 t ts =>
    split at h
    case h_1 name ht => exact .inl ⟨t, [], ts, _, rfl, by simp [ht, Derives.register], h⟩
    case h_2 value ht => exact .inl ⟨t, [], ts, _, rfl, by simp [ht, Derives.constant], h⟩
    case h_3 ht =>
      split at h
      case h_1 value column ts' =>
        exact .inl ⟨t, [⟨.integer value, column⟩], ts', _, rfl, by simp [ht, Derives.negative], h⟩
      case h_2 => simp at h
    case h_4 ht =>
      split at h
      case isTrue hused => exact .inr ⟨t, ts, rfl, ht, hused, h⟩
      case isFalse => simp at h
    case h_5 => simp at h

/-- After an operand the expression ends, or an operator or a closing parenthesis follows. -/
theorem readOperator_eq_ok (h : readOperator stop stack used e tokens = .ok r) :
    (settle 0 e stack = (r.expr, []) ∧ r.used = used ∧ r.rest = tokens ∧ Yields 0 tokens) ∨
    (∃ t rest op, tokens = t :: rest ∧ t.kind = op.token ∧ used < nestingLimit ∧
      readOperand stop (.operand (settle op.precedence e stack).1 op ::
        (settle op.precedence e stack).2) (used + 1) rest = .ok r) ∨
    ∃ t rest top stack', tokens = t :: rest ∧ t.kind = .rparen ∧
      (settle 0 e stack).2 = top :: stack' ∧
      readOperator stop stack' used (settle 0 e stack).1 rest = .ok r := by
  rw [readOperator.eq_def] at h
  split at h
  case h_1 =>
    split at h
    case h_1 e' hsettle =>
      obtain rfl := Except.ok.inj h
      exact .inl ⟨hsettle, rfl, rfl, by simp [Yields]⟩
    case h_2 => simp at h
  case h_2 t ts =>
    split at h
    case h_1 op hop =>
      split at h
      case isTrue hused =>
        exact .inr (.inl ⟨t, ts, op, rfl, TokenKind.operator?_eq_some_iff.1 hop, hused, h⟩)
      case isFalse => simp at h
    case h_2 hop =>
      split at h
      case h_1 e' hsettle =>
        obtain rfl := Except.ok.inj h
        exact .inl ⟨hsettle, rfl, rfl, by simp [Yields, hop]⟩
      case h_2 e' top stack' hsettle =>
        split at h
        case isTrue ht =>
          refine .inr (.inr ⟨t, ts, top, stack', rfl, ht, by rw [hsettle], ?_⟩)
          rw [hsettle]
          exact h
        case isFalse => simp at h

/-- The tokens `ks`, which were read, begin an expression that is read to its end. -/
def Completes (base : Nat) (ks : List TokenKind) (tokens : List Token) (r : Parsed) : Prop :=
  ∃ taken n, tokens = taken ++ r.rest ∧ Derives 0 (ks ++ taken.map (·.kind)) r.expr n ∧
    r.used = base + n ∧ r.used ≤ nestingLimit ∧ Yields 0 r.rest

theorem Completes.prepend {base : Nat} (taken : List Token)
    (h : Completes base (ks ++ taken.map (·.kind)) rest r) :
    Completes base ks (taken ++ rest) r := by
  obtain ⟨taken', n, rfl, hd, hrest⟩ := h
  refine ⟨taken ++ taken', n, by simp, ?_, hrest⟩
  simpa using hd

end

mutual

theorem completes_of_readOperand {stop used base n : Nat} {stack : List Pending}
    {ks : List TokenKind} {tokens : List Token} {r : Parsed}
    (h : readOperand stop stack used tokens = .ok r)
    (hopened : Opened stack ks n) (hused : used = base + n) (hlimit : used ≤ nestingLimit) :
    Completes base ks tokens r := by
  obtain ⟨t, taken, rest, e, rfl, hd, h⟩ | ⟨t, rest, rfl, ht, hlt, h⟩ := readOperand_eq_ok h
  · exact (completes_of_readOperator h hopened hd hused hlimit).prepend (t :: taken)
  · have hopened' : Opened (.group :: stack) (ks ++ [t].map (·.kind)) (n + 1) := by
      simpa [ht] using hopened.group
    exact (completes_of_readOperand h hopened' (by omega) hlt).prepend [t]
termination_by tokens.length

theorem completes_of_readOperator {stop used base n m : Nat} {stack : List Pending} {e : Expr}
    {ks ts : List TokenKind} {tokens : List Token} {r : Parsed}
    (h : readOperator stop stack used e tokens = .ok r)
    (hopened : Opened stack ks n) (hd : Derives 4 ts e m) (hused : used = base + (n + m))
    (hlimit : used ≤ nestingLimit) : Completes base (ks ++ ts) tokens r := by
  obtain ⟨hsettle, hr, rfl, hyields⟩ | ⟨t, rest, op, rfl, ht, hlt, h⟩ |
    ⟨t, rest, top, stack', rfl, ht, hsettle, h⟩ := readOperator_eq_ok h
  · -- nothing is open, so that the tokens read are the expression
    obtain ⟨ks', ts', n', m', hopened', -, hd', hkinds, hcount⟩ :=
      hopened.settle (loose_four stack) hd (Nat.zero_le 4)
    rw [hsettle] at hopened' hd'
    cases hopened'
    refine ⟨[], m', rfl, ?_, by omega, by omega, hyields⟩
    simpa [← hkinds] using hd'
  · -- the operator waits for its right operand
    obtain ⟨ks', ts', n', m', hopened', hloose, hd', hkinds, hcount⟩ :=
      hopened.settle (loose_four stack) hd op.precedence_lt.le
    have hwaiting := hopened'.operand hloose hd'
    rw [← List.append_assoc, hkinds, ← ht] at hwaiting
    exact (completes_of_readOperand h hwaiting (by omega) hlt).prepend [t]
  · -- the parenthesis that is closed makes an operand
    obtain ⟨ks', ts', n', m', hopened', hloose, hd', hkinds, hcount⟩ :=
      hopened.settle (loose_four stack) hd (Nat.zero_le 4)
    rw [hsettle] at hopened' hloose
    cases hopened' with
    | operand => exact absurd hloose (Nat.not_lt_zero _)
    | @group _ ks'' n'' below =>
      have hgroup : Completes base (ks'' ++ (.lparen :: ts' ++ [.rparen])) rest r :=
        completes_of_readOperator h below (.group hd') (by omega) hlimit
      refine Completes.prepend [t] ?_
      rw [← hkinds]
      simpa [ht] using hgroup
termination_by tokens.length

end

theorem read_of_derives {stop used n : Nat} {taken rest : List Token} {e : Expr}
    (hd : Derives 0 (taken.map (·.kind)) e n) (hlimit : used + n ≤ nestingLimit)
    (hyields : Yields 0 rest) : Expr.read stop used (taken ++ rest) = .ok ⟨e, used + n, rest⟩ := by
  have hread : readOperand stop [] used (taken ++ rest) =
      readOperator stop [] (used + n) e rest :=
    readOperand_of_derives hd rfl hlimit trivial hyields
  rw [Expr.read, hread, readOperator_nil hyields]

theorem read_all_of_derives {stop used n : Nat} {taken : List Token} {e : Expr}
    (hd : Derives 0 (taken.map (·.kind)) e n) (hlimit : used + n ≤ nestingLimit) :
    Expr.read stop used taken = .ok ⟨e, used + n, []⟩ := by
  have hread : Expr.read stop used (taken ++ []) = .ok ⟨e, used + n, []⟩ :=
    read_of_derives hd hlimit (by simp [Yields])
  rwa [List.append_nil] at hread

theorem derives_of_read {stop used : Nat} {tokens : List Token} {r : Parsed}
    (h : Expr.read stop used tokens = .ok r) (hused : used ≤ nestingLimit) :
    ∃ taken n, tokens = taken ++ r.rest ∧ Derives 0 (taken.map (·.kind)) r.expr n ∧
      r.used = used + n ∧ r.used ≤ nestingLimit ∧ Yields 0 r.rest := by
  simpa [Completes] using completes_of_readOperand h .nil rfl hused

end Expr

/-! ## Instructions -/

/-- The words that an instruction begins with, unless it writes a register by an arrow. -/
def mnemonics : List String := ["skip", "spbarr", "load", "store", "beqz", "jmp"]

namespace Instr

/-- A token list is the instruction `i`, whose targets are not looked up, with `n` operators and
    opening parentheses. -/
inductive Derives : (kinds : List TokenKind) → (i : Instr) → (n : Nat) → Prop where
  | skip : Derives [.identifier "skip"] .skip 0
  | spbarr : Derives [.identifier "spbarr"] .spbarr 0
  | load {ks : List TokenKind} {n : Nat} {addr : Expr} (dest : String)
      (expr : Expr.Derives 0 ks addr n) :
      Derives (.identifier "load" :: .identifier dest :: .comma :: ks) (.load dest addr) n
  | store {ks : List TokenKind} {n : Nat} {addr : Expr} (src : String)
      (expr : Expr.Derives 0 ks addr n) :
      Derives (.identifier "store" :: .identifier src :: .comma :: ks) (.store src addr) n
  | beqz {ks : List TokenKind} {n : Nat} {cond : Expr} (target : String)
      (expr : Expr.Derives 0 ks cond n) :
      Derives (.identifier "beqz" :: ks ++ [.comma, .identifier target]) (.beqz cond target none) n
  | jmp {ks : List TokenKind} {n : Nat} {target : Expr} (expr : Expr.Derives 0 ks target n) :
      Derives (.identifier "jmp" :: ks) (.jmp target .dynamic) n
  | assign {ks : List TokenKind} {n : Nat} {expr : Expr} {dest : String} (free : dest ∉ mnemonics)
      (value : Expr.Derives 0 ks expr n) :
      Derives (.identifier dest :: .arrow :: ks) (.assign dest expr) n
  | cmov {ks us : List TokenKind} {n m : Nat} {value cond : Expr} {dest : String}
      (free : dest ∉ mnemonics) (left : Expr.Derives 0 ks value n)
      (right : Expr.Derives 0 us cond m) :
      Derives (.identifier dest :: .arrow :: ks ++ .question :: us) (.cmov dest cond value) (n + m)

section

variable {stop n : Nat} {kind : TokenKind} {name : String} {e : Expr} {tokens rest : List Token}
  {i : Instr}

theorem takeName_eq_ok_iff : takeName stop tokens = .ok (name, rest) ↔
    ∃ t, tokens = t :: rest ∧ t.kind = .identifier name := by
  unfold takeName
  split
  case h_1 => simp [and_comm]
  case h_2 hname =>
    refine ⟨by simp, ?_⟩
    rintro ⟨⟨kind, column⟩, rfl, rfl⟩
    exact absurd rfl (hname name column rest)

theorem takeKind_eq_ok_iff : takeKind kind stop tokens = .ok rest ↔
    ∃ t, tokens = t :: rest ∧ t.kind = kind := by
  unfold takeKind
  split
  case h_1 => simp
  case h_2 t ts =>
    split
    case isTrue ht => simp [ht]
    case isFalse ht => simp [ht]

theorem readNameExpr_eq_ok (h : readNameExpr stop tokens = .ok (name, e, rest)) :
    ∃ taken ks n, tokens = taken ++ rest ∧ taken.map (·.kind) = .identifier name :: .comma :: ks ∧
      Expr.Derives 0 ks e n ∧ n ≤ nestingLimit := by
  simp only [readNameExpr, bind_eq_ok_iff] at h
  obtain ⟨⟨name', tokens'⟩, hname, ts, hcomma, r, hread, hpure⟩ := h
  obtain ⟨t, rfl, ht⟩ := takeName_eq_ok_iff.1 hname
  obtain ⟨u, rfl, hu⟩ := takeKind_eq_ok_iff.1 hcomma
  obtain ⟨taken, n, rfl, hd, hn, hlimit, -⟩ := Expr.derives_of_read hread (Nat.zero_le _)
  simp only [pure, Except.pure, Except.ok.injEq, Prod.mk.injEq] at hpure
  obtain ⟨rfl, rfl, rfl⟩ := hpure
  exact ⟨t :: u :: taken, taken.map (·.kind), n, rfl, by simp [ht, hu], hd, by omega⟩

theorem readNameExpr_of_derives {taken : List Token} {t u : Token} (ht : t.kind = .identifier name)
    (hu : u.kind = .comma) (hd : Expr.Derives 0 (taken.map (·.kind)) e n) (hn : n ≤ nestingLimit) :
    readNameExpr stop (t :: u :: taken) = .ok (name, e, []) := by
  have hread : Expr.read stop 0 taken = .ok ⟨e, 0 + n, []⟩ :=
    Expr.read_all_of_derives hd (by omega)
  have hname : takeName stop (t :: u :: taken) = .ok (name, u :: taken) :=
    takeName_eq_ok_iff.2 ⟨t, rfl, ht⟩
  have hcomma : takeKind .comma stop (u :: taken) = .ok taken := takeKind_eq_ok_iff.2 ⟨u, rfl, hu⟩
  simp [readNameExpr, hname, hcomma, hread, bind, Except.bind, pure, Except.pure]

theorem derives_of_read (h : Instr.read stop tokens = .ok (i, [])) :
    ∃ n ≤ nestingLimit, Derives (tokens.map (·.kind)) i n := by
  unfold Instr.read at h
  split at h
  case h_1 rest =>
    simp only [Except.ok.injEq, Prod.mk.injEq] at h
    obtain ⟨rfl, rfl⟩ := h
    exact ⟨0, Nat.zero_le _, .skip⟩
  case h_2 rest =>
    simp only [Except.ok.injEq, Prod.mk.injEq] at h
    obtain ⟨rfl, rfl⟩ := h
    exact ⟨0, Nat.zero_le _, .spbarr⟩
  case h_3 rest =>
    simp only [bind_eq_ok_iff, pure, Except.pure, Except.ok.injEq, Prod.mk.injEq] at h
    obtain ⟨⟨dest, addr, rest'⟩, hread, rfl, rfl⟩ := h
    obtain ⟨taken, ks, n, rfl, hkinds, hd, hn⟩ := readNameExpr_eq_ok hread
    refine ⟨n, hn, ?_⟩
    simpa [hkinds] using Derives.load dest hd
  case h_4 rest =>
    simp only [bind_eq_ok_iff, pure, Except.pure, Except.ok.injEq, Prod.mk.injEq] at h
    obtain ⟨⟨src, addr, rest'⟩, hread, rfl, rfl⟩ := h
    obtain ⟨taken, ks, n, rfl, hkinds, hd, hn⟩ := readNameExpr_eq_ok hread
    refine ⟨n, hn, ?_⟩
    simpa [hkinds] using Derives.store src hd
  case h_5 rest =>
    simp only [bind_eq_ok_iff, pure, Except.pure, Except.ok.injEq, Prod.mk.injEq] at h
    obtain ⟨r, hread, rest', hcomma, ⟨target, rest''⟩, hname, rfl, rfl⟩ := h
    obtain ⟨taken, n, rfl, hd, hused, hn, -⟩ := Expr.derives_of_read hread (Nat.zero_le _)
    obtain ⟨t, hrest, ht⟩ := takeKind_eq_ok_iff.1 hcomma
    obtain ⟨u, rfl, hu⟩ := takeName_eq_ok_iff.1 hname
    refine ⟨n, by omega, ?_⟩
    simpa [hrest, ht, hu] using Derives.beqz target hd
  case h_6 rest =>
    simp only [bind_eq_ok_iff, pure, Except.pure, Except.ok.injEq, Prod.mk.injEq] at h
    obtain ⟨r, hread, rfl, hrest⟩ := h
    obtain ⟨taken, n, rfl, hd, hused, hn, -⟩ := Expr.derives_of_read hread (Nat.zero_le _)
    refine ⟨n, by omega, ?_⟩
    simpa [hrest] using Derives.jmp hd
  case h_7 dest column rest hskip hspbarr hload hstore hbeqz hjmp =>
    have hfree : dest ∉ mnemonics := by
      simp only [mnemonics, List.mem_cons, List.not_mem_nil, or_false, not_or]
      exact ⟨hskip, hspbarr, hload, hstore, hbeqz, hjmp⟩
    simp only [bind_eq_ok_iff] at h
    obtain ⟨rest', harrow, r, hread, h⟩ := h
    obtain ⟨t, rfl, ht⟩ := takeKind_eq_ok_iff.1 harrow
    obtain ⟨taken, n, rfl, hd, hused, hn, -⟩ := Expr.derives_of_read hread (Nat.zero_le _)
    split at h
    case h_1 column' rest' hrest =>
      simp only [bind_eq_ok_iff, pure, Except.pure, Except.ok.injEq, Prod.mk.injEq] at h
      obtain ⟨c, hcond, rfl, hend⟩ := h
      obtain ⟨taken', m, rfl, hd', hused', hm, -⟩ := Expr.derives_of_read hcond hn
      refine ⟨n + m, by omega, ?_⟩
      simpa [hrest, hend, ht] using Derives.cmov hfree hd hd'
    case h_2 hrest =>
      simp only [pure, Except.pure, Except.ok.injEq, Prod.mk.injEq] at h
      obtain ⟨rfl, hend⟩ := h
      refine ⟨n, by omega, ?_⟩
      simpa [hend, ht] using Derives.assign hfree hd
  case h_8 => simp at h

theorem read_of_derives (h : Derives (tokens.map (·.kind)) i n) (hn : n ≤ nestingLimit) :
    Instr.read stop tokens = .ok (i, []) := by
  have hlimit : 0 + n ≤ nestingLimit := by omega
  generalize hkinds : tokens.map (·.kind) = kinds at h
  cases h with
  | skip =>
    obtain ⟨⟨_, _⟩, rfl, rfl⟩ := List.map_eq_singleton_iff.1 hkinds
    rfl
  | spbarr =>
    obtain ⟨⟨_, _⟩, rfl, rfl⟩ := List.map_eq_singleton_iff.1 hkinds
    rfl
  | load dest hd =>
    simp only [List.map_eq_cons_iff] at hkinds
    obtain ⟨⟨_, _⟩, _, rfl, rfl, t, _, rfl, ht, u, ts, rfl, hu, rfl⟩ := hkinds
    simp [Instr.read, readNameExpr_of_derives ht hu hd hn]
  | store src hd =>
    simp only [List.map_eq_cons_iff] at hkinds
    obtain ⟨⟨_, _⟩, _, rfl, rfl, t, _, rfl, ht, u, ts, rfl, hu, rfl⟩ := hkinds
    simp [Instr.read, readNameExpr_of_derives ht hu hd hn]
  | beqz target hd =>
    rw [List.cons_append, List.map_eq_cons_iff] at hkinds
    simp only [List.map_eq_append_iff, List.map_eq_cons_iff, List.map_eq_nil_iff] at hkinds
    obtain ⟨⟨_, _⟩, _, rfl, rfl, ts, _, rfl, rfl, t, _, rfl, ht, u, _, rfl, hu, rfl⟩ := hkinds
    have hread : Expr.read stop 0 (ts ++ [t, u]) = .ok ⟨_, 0 + n, [t, u]⟩ :=
      Expr.read_of_derives hd hlimit (by simp [Expr.Yields, ht, TokenKind.operator?])
    have hcomma : takeKind .comma stop [t, u] = .ok [u] := takeKind_eq_ok_iff.2 ⟨t, rfl, ht⟩
    have hname : takeName stop [u] = .ok (target, []) := takeName_eq_ok_iff.2 ⟨u, rfl, hu⟩
    simp [Instr.read, hread, hcomma, hname, bind, Except.bind, pure, Except.pure]
  | jmp hd =>
    obtain ⟨⟨_, _⟩, ts, rfl, rfl, rfl⟩ := List.map_eq_cons_iff.1 hkinds
    simp [Instr.read, Expr.read_all_of_derives hd hlimit]
  | assign hfree hd =>
    simp only [List.map_eq_cons_iff] at hkinds
    obtain ⟨⟨_, _⟩, _, rfl, rfl, t, ts, rfl, ht, rfl⟩ := hkinds
    have harrow : takeKind .arrow stop (t :: ts) = .ok ts := takeKind_eq_ok_iff.2 ⟨t, rfl, ht⟩
    rw [Instr.read]
    · simp [harrow, Expr.read_all_of_derives hd hlimit, bind, Except.bind, pure, Except.pure]
    all_goals
      rintro rfl
      simp [mnemonics] at hfree
  | @cmov ks us n m value cond dest hfree hleft hright =>
    rw [List.cons_append, List.cons_append] at hkinds
    simp only [List.map_eq_append_iff, List.map_eq_cons_iff] at hkinds
    obtain ⟨⟨_, _⟩, _, rfl, rfl, t, _, rfl, ht, ts, _, rfl, rfl, ⟨_, column⟩, vs, rfl, rfl, rfl⟩ :=
      hkinds
    have harrow : takeKind .arrow stop (t :: (ts ++ ⟨.question, column⟩ :: vs)) =
        .ok (ts ++ ⟨.question, column⟩ :: vs) :=
      takeKind_eq_ok_iff.2 ⟨t, rfl, ht⟩
    have hvalue : Expr.read stop 0 (ts ++ ⟨.question, column⟩ :: vs) =
        .ok ⟨value, 0 + n, ⟨.question, column⟩ :: vs⟩ :=
      Expr.read_of_derives hleft (by omega) (by simp [Expr.Yields, TokenKind.operator?])
    have hcond : Expr.read stop (0 + n) vs = .ok ⟨cond, 0 + n + m, []⟩ :=
      Expr.read_all_of_derives hright (by omega)
    rw [Instr.read]
    · simp only [harrow, hvalue, hcond, bind, Except.bind, pure, Except.pure]
    all_goals
      rintro rfl
      simp [mnemonics] at hfree

/-- A token list is read as an instruction exactly if it is derived within the limit. -/
theorem ofTokens_eq_ok_iff : ofTokens stop tokens = .ok i ↔
    ∃ n ≤ nestingLimit, Derives (tokens.map (·.kind)) i n := by
  have hread : ofTokens stop tokens = .ok i ↔ Instr.read stop tokens = .ok (i, []) := by
    rw [ofTokens, bind_eq_ok_iff]
    constructor
    · rintro ⟨⟨i', rest⟩, hread, h⟩
      cases rest with
      | nil =>
        obtain rfl := Except.ok.inj h
        exact hread
      | cons t rest => simp at h
    · intro hread
      exact ⟨(i, []), hread, rfl⟩
  rw [hread]
  exact ⟨derives_of_read, fun ⟨n, hn, h⟩ => read_of_derives h hn⟩

end

/-- A text stands for an instruction, whose targets are not looked up: it is made of tokens of which
    the instruction is derived, within the limit. -/
def Denotes (text : List Char) (i : Instr) : Prop :=
  ∃ kinds n, Lexes text kinds ∧ Derives kinds i n ∧ n ≤ nestingLimit

/-- A text is read as an instruction exactly if it stands for it. -/
theorem ofText_eq_ok_iff {offset : Nat} {text : List Char} {i : Instr} :
    ofText offset text = .ok i ↔ Denotes text i := by
  rw [ofText, bind_eq_ok_iff]
  constructor
  · rintro ⟨tokens, htokens, h⟩
    obtain ⟨n, hn, hd⟩ := ofTokens_eq_ok_iff.1 h
    exact ⟨tokens.map (·.kind), n, lexes_of_tokenize htokens, hd, hn⟩
  · rintro ⟨kinds, n, hlexes, hd, hn⟩
    obtain ⟨tokens, htokens, rfl⟩ := exists_tokenize_of_lexes hlexes offset
    exact ⟨tokens, htokens, ofTokens_eq_ok_iff.2 ⟨n, hn, hd⟩⟩

theorem Denotes.unique {text : List Char} {i j : Instr} (hi : Denotes text i)
    (hj : Denotes text j) : i = j := by
  have hread : ofText 0 text = .ok i := ofText_eq_ok_iff.2 hi
  rw [ofText_eq_ok_iff.2 hj] at hread
  exact (Except.ok.inj hread).symm

end Instr

/-! ## Faults -/

theorem Expr.textual_readOperand_and_readOperator (stop : Nat) :
    (∀ stack used tokens, Textual (readOperand stop stack used tokens)) ∧
      ∀ stack used e tokens, Textual (readOperator stop stack used e tokens) := by
  apply readOperand.mutual_induct
    (fun stack used tokens => Textual (readOperand stop stack used tokens))
    (fun stack used e tokens => Textual (readOperator stop stack used e tokens))
  all_goals
    intros
    rename_i h
    first
    | rw [readOperand.eq_def]
    | rw [readOperator.eq_def]
    grind [textual_ok, textual_atColumn, Fault.missesLabel]

theorem Expr.textual_read (stop used : Nat) (tokens : List Token) :
    Textual (Expr.read stop used tokens) :=
  (Expr.textual_readOperand_and_readOperator stop).1 [] used tokens

theorem textual_takeName (stop : Nat) (tokens : List Token) : Textual (takeName stop tokens) := by
  unfold takeName
  split
  · exact textual_ok _
  · exact textual_atColumn rfl

theorem textual_takeKind (kind : TokenKind) (stop : Nat) (tokens : List Token) :
    Textual (takeKind kind stop tokens) := by
  unfold takeKind
  split
  · exact textual_atColumn rfl
  · split
    · exact textual_ok _
    · exact textual_atColumn rfl

namespace Instr

theorem textual_readNameExpr (stop : Nat) (tokens : List Token) :
    Textual (readNameExpr stop tokens) :=
  (textual_takeName stop tokens).bind fun _ => (textual_takeKind _ _ _).bind fun _ =>
    (Expr.textual_read _ _ _).bind fun _ => textual_ok _

theorem textual_read (stop : Nat) (tokens : List Token) : Textual (Instr.read stop tokens) := by
  unfold Instr.read
  split
  case h_1 => exact textual_ok _
  case h_2 => exact textual_ok _
  case h_3 => exact (textual_readNameExpr _ _).bind fun _ => textual_ok _
  case h_4 => exact (textual_readNameExpr _ _).bind fun _ => textual_ok _
  case h_5 =>
    exact (Expr.textual_read _ _ _).bind fun _ => (textual_takeKind _ _ _).bind fun _ =>
      (textual_takeName _ _).bind fun _ => textual_ok _
  case h_6 => exact (Expr.textual_read _ _ _).bind fun _ => textual_ok _
  case h_7 =>
    refine (textual_takeKind _ _ _).bind fun _ => (Expr.textual_read _ _ _).bind fun value => ?_
    split
    · exact (Expr.textual_read _ _ _).bind fun _ => textual_ok _
    · exact textual_ok _
  case h_8 => exact textual_atColumn rfl

/-- An instruction is refused for its own text, whatever the labels are. -/
theorem textual_ofText (offset : Nat) (text : List Char) : Textual (ofText offset text) := by
  refine (textual_tokenize offset text).bind fun tokens => (textual_read _ tokens).bind ?_
  rintro ⟨i, rest⟩
  cases rest with
  | nil => exact textual_ok i
  | cons t rest => exact textual_atColumn rfl

end Instr

end Mispredict.MuAsm
