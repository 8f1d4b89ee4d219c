/-
  Precedence as a grammar of four kinds of phrases.

  The grammar has a kind of phrase for each strength of an operator, and one for operands. A
  phrase of `Phrase.conjunction` is a whole expression:

    conjunction := conjunction & sum | sum
    sum         := sum + product | sum - product | product
    product     := product * operand | operand
    operand     := name | number | - number | ( conjunction )

  `Produces` has a rule for each of these alternatives. It derives what `Expr.Derives` derives at
  the strength of a phrase (`Produces.exists_derives`, `Derives.produces`), so that an expression
  is read to the end of a token list exactly if the list is a conjunction and stays within the
  limit (`read_followsGrammar`).

  A token list derives one expression at most, whatever its length (`Derives.unique`). An operator
  after tokens that are complete, so that it stands outside of all parentheses and is no sign,
  binds at least as tightly as the whole phrase (`Derives.le_precedence`). If a list could be split
  at two such operators, the later one would bind more tightly than the earlier one, and the
  earlier one at least as tightly as the later (`Derives.not_overlaps`).
-/
import Mispredict.Proofs.Grammar

namespace Mispredict.MuAsm

theorem BinOp.token_injective {op op' : BinOp} (h : op.token = op'.token) : op = op' := by
  have hop := congrArg TokenKind.operator? h
  simpa using hop

namespace Expr

/-! ## Phrases -/

/-- The kinds of phrases. -/
inductive Phrase where
  | conjunction
  | sum
  | product
  | operand
  deriving DecidableEq, Repr

/-- The least strength of the operators of a phrase that stand outside of parentheses. -/
def Phrase.strength : Phrase → Nat
  | .conjunction => 1
  | .sum => 2
  | .product => 3
  | .operand => 4

/-- A token list is a phrase of some kind, and stands for an expression. Operators of one strength
    associate to the left, and a minus before a number is its sign where an operand is due. -/
inductive Produces : Phrase → (kinds : List TokenKind) → (e : Expr) → Prop where
  | and {ks us : List TokenKind} {lhs rhs : Expr} (left : Produces .conjunction ks lhs)
      (right : Produces .sum us rhs) :
      Produces .conjunction (ks ++ .amp :: us) (.binary .and lhs rhs)
  | ofSum {ks : List TokenKind} {e : Expr} (sum : Produces .sum ks e) : Produces .conjunction ks e
  | add {ks us : List TokenKind} {lhs rhs : Expr} (left : Produces .sum ks lhs)
      (right : Produces .product us rhs) :
      Produces .sum (ks ++ .plus :: us) (.binary .add lhs rhs)
  | sub {ks us : List TokenKind} {lhs rhs : Expr} (left : Produces .sum ks lhs)
      (right : Produces .product us rhs) :
      Produces .sum (ks ++ .minus :: us) (.binary .sub lhs rhs)
  | ofProduct {ks : List TokenKind} {e : Expr} (product : Produces .product ks e) :
      Produces .sum ks e
  | mul {ks us : List TokenKind} {lhs rhs : Expr} (left : Produces .product ks lhs)
      (right : Produces .operand us rhs) :
      Produces .product (ks ++ .star :: us) (.binary .mul lhs rhs)
  | ofOperand {ks : List TokenKind} {e : Expr} (operand : Produces .operand ks e) :
      Produces .product ks e
  | register (name : String) : Produces .operand [.identifier name] (.register name)
  | constant (value : Nat) : Produces .operand [.integer value] (.constant (Int64.ofNat value))
  | negative (value : Nat) :
      Produces .operand [.minus, .integer value] (.constant (-Int64.ofNat value))
  | group {ks : List TokenKind} {e : Expr} (inner : Produces .conjunction ks e) :
      Produces .operand (.lparen :: ks ++ [.rparen]) e

section

variable {p q n m l : Nat} {op op' : BinOp} {e e' lhs rhs : Expr} {φ ψ : Phrase}
  {ks us xs ys zs : List TokenKind}

/-- An operator between phrases of its own strength and of the next makes one of its own. -/
theorem exists_derives_own (op : BinOp) (left : ∃ n, Derives op.precedence ks lhs n)
    (right : ∃ n, Derives (op.precedence + 1) us rhs n) :
    ∃ n, Derives op.precedence (ks ++ op.token :: us) (.binary op lhs rhs) n := by
  obtain ⟨n, hleft⟩ := left
  obtain ⟨m, hright⟩ := right
  exact ⟨n + m + 1, .binary le_rfl hleft hright⟩

theorem Produces.exists_derives (h : Produces φ ks e) : ∃ n, Derives φ.strength ks e n := by
  induction h with
  | and _ _ ihl ihr => exact exists_derives_own .and ihl ihr
  | add _ _ ihl ihr => exact exists_derives_own .add ihl ihr
  | sub _ _ ihl ihr => exact exists_derives_own .sub ihl ihr
  | mul _ _ ihl ihr => exact exists_derives_own .mul ihl ihr
  | ofSum _ ih | ofProduct _ ih | ofOperand _ ih =>
    obtain ⟨n, h⟩ := ih
    exact ⟨n, h.mono (by decide)⟩
  | register name => exact ⟨0, .register name⟩
  | constant value => exact ⟨0, .constant value⟩
  | negative value => exact ⟨0, .negative value⟩
  | group _ ih =>
    obtain ⟨n, h⟩ := ih
    exact ⟨n + 1, .group (h.mono (Nat.zero_le _))⟩

/-- A phrase is also one of every weaker kind. -/
theorem Produces.mono (h : Produces ψ ks e) (hle : φ.strength ≤ ψ.strength) :
    Produces φ ks e := by
  cases ψ with
  | conjunction => cases φ with
    | conjunction => exact h
    | _ => exact absurd hle (by decide)
  | sum => cases φ with
    | conjunction => exact .ofSum h
    | sum => exact h
    | _ => exact absurd hle (by decide)
  | product => cases φ with
    | conjunction => exact .ofSum (.ofProduct h)
    | sum => exact .ofProduct h
    | product => exact h
    | operand => exact absurd hle (by decide)
  | operand => cases φ with
    | conjunction => exact .ofSum (.ofProduct (.ofOperand h))
    | sum => exact .ofProduct (.ofOperand h)
    | product => exact .ofOperand h
    | operand => exact h

theorem Phrase.strength_le (φ : Phrase) : φ.strength ≤ Phrase.operand.strength := by
  cases φ <;> decide

/-- What is derived at some strength is a phrase of every kind that is no stronger. As no operator
    has the strength 0, what is derived there is a conjunction. -/
theorem Derives.produces (h : Derives p ks e n) : ∀ φ : Phrase,
    φ.strength ≤ max p 1 → Produces φ ks e := by
  induction h with
  | register name => exact fun φ _ => (Produces.register name).mono φ.strength_le
  | constant value => exact fun φ _ => (Produces.constant value).mono φ.strength_le
  | negative value => exact fun φ _ => (Produces.negative value).mono φ.strength_le
  | group _ ih => exact fun φ _ => (Produces.group (ih .conjunction le_rfl)).mono φ.strength_le
  | @binary p n m op ks us lhs rhs hp _ _ ihl ihr =>
    intro φ hφ
    have hle : φ.strength ≤ op.precedence := hφ.trans (max_le hp op.precedence_pos)
    cases op with
    | and => exact (Produces.and (ihl .conjunction le_rfl) (ihr .sum le_rfl)).mono hle
    | add => exact (Produces.add (ihl .sum le_rfl) (ihr .product le_rfl)).mono hle
    | sub => exact (Produces.sub (ihl .sum le_rfl) (ihr .product le_rfl)).mono hle
    | mul => exact (Produces.mul (ihl .product le_rfl) (ihr .operand le_rfl)).mono hle

/-! ## Counting operators -/

/-- The number of operators and opening parentheses of a token list. Where an operand is due, a
    minus is a sign and not an operator. -/
def weight (due : Bool) : List TokenKind → Nat
  | [] => 0
  | .lparen :: ks => weight true ks + 1
  | k :: ks =>
    match k.operator? with
    | some op => weight true ks + (if due && op == .sub then 0 else 1)
    | none => weight false ks

/-- The number of operators of an expression. -/
def operators : Expr → Nat
  | .binary _ lhs rhs => lhs.operators + rhs.operators + 1
  | _ => 0

theorem weight_token (op : BinOp) (ks : List TokenKind) :
    weight false (op.token :: ks) = weight true ks + 1 := by
  cases op <;> rfl

theorem Derives.weight_append (h : Derives p ks e n) : ∀ us,
    weight true (ks ++ us) = n + weight false us := by
  induction h with
  | register name => exact fun us => (Nat.zero_add _).symm
  | constant value => exact fun us => (Nat.zero_add _).symm
  | negative value => exact fun us => (Nat.zero_add _).symm
  | @group p n ks e _ ih =>
    intro us
    have hinner : weight true (ks ++ .rparen :: us) = n + weight false us := ih (.rparen :: us)
    rw [List.append_assoc, List.singleton_append, List.cons_append, weight, hinner]
    omega
  | binary _ _ _ ihl ihr =>
    intro us
    rw [List.append_assoc, ihl, List.cons_append, weight_token, ihr]
    omega

/-- A derivation counts the operators and parentheses of its tokens. -/
theorem Derives.weight_eq (h : Derives p ks e n) : weight true ks = n := by
  simpa [weight] using h.weight_append []

theorem Derives.operators_le (h : Derives p ks e n) : e.operators ≤ n := by
  induction h with
  | register | constant | negative => exact le_rfl
  | group _ ih => exact ih.trans (Nat.le_succ _)
  | binary _ _ _ ihl ihr =>
    rw [operators]
    omega

/-! ## One expression at most -/

/-- Of two ways to split a list at one of its members, one comes before the other, or they are the
    same. -/
theorem split_cases {α : Type} {t u : α} {ks us xs ys : List α}
    (h : ks ++ t :: us = xs ++ u :: ys) :
    (ks = xs ∧ t = u ∧ us = ys) ∨ (∃ zs, xs = ks ++ t :: zs ∧ us = zs ++ u :: ys) ∨
      ∃ zs, ks = xs ++ u :: zs ∧ ys = zs ++ t :: us := by
  obtain ⟨zs, rfl, hzs⟩ | ⟨zs, rfl, hzs⟩ := List.append_eq_append_iff.1 h
  · obtain ⟨rfl, heq⟩ | ⟨vs, rfl, rfl⟩ := List.cons_eq_append_iff.1 hzs
    · obtain ⟨rfl, rfl⟩ := List.cons.inj heq
      exact .inl ⟨(List.append_nil ks).symm, rfl, rfl⟩
    · exact .inr (.inl ⟨vs, rfl, rfl⟩)
  · obtain ⟨rfl, heq⟩ | ⟨vs, rfl, rfl⟩ := List.cons_eq_append_iff.1 hzs
    · obtain ⟨rfl, rfl⟩ := List.cons.inj heq
      exact .inl ⟨List.append_nil xs, rfl, rfl⟩
    · exact .inr (.inr ⟨vs, rfl, rfl⟩)

/-- Every parenthesis that is closed was opened before, and none is left open. -/
structure Balanced (ks : List TokenKind) : Prop where
  closed : ks.count .rparen = ks.count .lparen
  opened : ∀ {xs ys}, ks = xs ++ ys → xs.count .rparen ≤ xs.count .lparen

@[simp] theorem count_lparen_token (op : BinOp) (ks : List TokenKind) :
    (op.token :: ks).count .lparen = ks.count .lparen := by
  cases op <;> rfl

@[simp] theorem count_rparen_token (op : BinOp) (ks : List TokenKind) :
    (op.token :: ks).count .rparen = ks.count .rparen := by
  cases op <;> rfl

theorem balanced_of_free (hl : .lparen ∉ ks) (hr : .rparen ∉ ks) : Balanced ks where
  closed := by rw [List.count_eq_zero_of_not_mem hl, List.count_eq_zero_of_not_mem hr]
  opened := by
    rintro xs ys rfl
    rw [List.count_eq_zero_of_not_mem fun h => hr (List.mem_append_left _ h)]
    exact Nat.zero_le _

theorem Balanced.binary (hks : Balanced ks) (hus : Balanced us) (op : BinOp) :
    Balanced (ks ++ op.token :: us) where
  closed := by simp [hks.closed, hus.closed]
  opened := by
    intro xs ys h
    obtain ⟨zs, rfl, hzs⟩ | ⟨zs, rfl, -⟩ := List.append_eq_append_iff.1 h
    · obtain ⟨rfl, -⟩ | ⟨vs, rfl, rfl⟩ := List.cons_eq_append_iff.1 hzs
      · simpa using hks.closed.le
      · have hvs := hus.opened rfl
        have hclosed := hks.closed
        simp only [List.count_append, count_lparen_token, count_rparen_token]
        omega
    · exact hks.opened rfl

/-- Within parentheses that enclose a list one is open. -/
theorem Balanced.count_lt (hks : Balanced ks) (h : .lparen :: ks ++ [.rparen] = xs ++ ys)
    (hxs : xs ≠ []) (hys : ys ≠ []) : xs.count .rparen < xs.count .lparen := by
  rw [List.cons_append] at h
  obtain ⟨rfl, -⟩ | ⟨zs, rfl, hzs⟩ := List.cons_eq_append_iff.1 h
  · exact absurd rfl hxs
  · have hzs' : zs.count .rparen ≤ zs.count .lparen := by
      obtain ⟨vs, rfl, hvs⟩ | ⟨vs, rfl, -⟩ := List.append_eq_append_iff.1 hzs
      · obtain ⟨rfl, -⟩ | ⟨-, rfl⟩ := List.singleton_eq_append_iff.1 hvs
        · simpa using hks.closed.le
        · exact absurd rfl hys
      · exact hks.opened rfl
    simp
    omega

theorem Balanced.group (hks : Balanced ks) : Balanced (.lparen :: ks ++ [.rparen]) where
  closed := by simp [hks.closed]
  opened := by
    intro xs ys h
    by_cases hxs : xs = []
    · simp [hxs]
    · by_cases hys : ys = []
      · rw [hys, List.append_nil] at h
        rw [← h]
        simp [hks.closed]
      · exact (hks.count_lt h hxs hys).le

theorem Derives.balanced (h : Derives p ks e n) : Balanced ks := by
  induction h with
  | register | constant | negative => exact balanced_of_free (by simp) (by simp)
  | group _ ih => exact ih.group
  | binary _ _ _ ihl ihr => exact ihl.binary ihr _

/-- Tokens after which an operator is not a sign and stands outside of parentheses. -/
structure Complete (xs : List TokenKind) : Prop where
  closed : xs.count .rparen = xs.count .lparen
  ends : ∃ k ∈ xs.getLast?, k.operator? = none

theorem Complete.ne_nil (h : Complete xs) : xs ≠ [] := by
  rintro rfl
  obtain ⟨k, hk, -⟩ := h.ends
  cases hk

theorem Derives.complete (h : Derives p ks e n) : Complete ks := by
  refine ⟨h.balanced.closed, ?_⟩
  induction h with
  | register | constant | negative => simp [TokenKind.operator?]
  | group => exact ⟨.rparen, by rw [List.getLast?_concat]; rfl, rfl⟩
  | binary _ _ _ _ ihr =>
    obtain ⟨k, hk, hop⟩ := ihr
    exact ⟨k, by simp_all [List.getLast?_cons], hop⟩

/-- What follows an operator outside of parentheses is complete, if all is. -/
theorem Complete.of_append (h : Complete (ks ++ op.token :: zs)) (hks : Complete ks) :
    Complete zs := by
  obtain ⟨hclosed, k, hk, hop⟩ := h
  have hcount := hks.closed
  refine ⟨by simp at hclosed; omega, k, ?_, hop⟩
  cases hlast : zs.getLast? with
  | none =>
    rw [List.getLast?_append, List.getLast?_cons, hlast] at hk
    obtain rfl : op.token = k := by simpa using hk
    rw [BinOp.operator?_token] at hop
    cases hop
  | some k' => simpa [List.getLast?_append, List.getLast?_cons, hlast] using hk

/-- An operator outside of parentheses binds at least as tightly as the expression. -/
theorem Derives.le_precedence (h : Derives p ks e n) (hks : ks = xs ++ op.token :: ys)
    (hxs : Complete xs) : p ≤ op.precedence := by
  induction h generalizing xs ys with
  | register | constant =>
    obtain ⟨rfl, -⟩ | ⟨-, hnil⟩ := List.singleton_eq_append_iff.1 hks
    · exact absurd rfl hxs.ne_nil
    · cases hnil
  | negative value =>
    obtain ⟨rfl, -⟩ | ⟨zs, rfl, hzs⟩ := List.cons_eq_append_iff.1 hks
    · exact absurd rfl hxs.ne_nil
    · have hmem : op.token ∈ [TokenKind.integer value] := by simp [hzs]
      cases op <;> simp [BinOp.token] at hmem
  | group inner =>
    have hlt := inner.balanced.count_lt hks hxs.ne_nil (by simp)
    exact absurd hxs.closed hlt.ne
  | @binary p n m op' ks us lhs rhs hp left right ihl ihr =>
    obtain ⟨rfl, htoken, -⟩ | ⟨zs, rfl, rfl⟩ | ⟨zs, rfl, -⟩ := split_cases hks
    · obtain rfl := BinOp.token_injective htoken
      exact hp
    · have hright := ihr rfl (hxs.of_append left.complete)
      omega
    · exact hp.trans (ihl rfl hxs)

/-- A list is not split at two operators: the later one would have to bind more tightly than the
    earlier one, and the earlier one at least as tightly as the later. -/
theorem Derives.not_overlaps (hks : Derives q ks e n)
    (left : Derives op'.precedence (ks ++ op.token :: zs) lhs m)
    (right : Derives (op.precedence + 1) (zs ++ op'.token :: us) rhs l) : False := by
  have hleft := left.le_precedence rfl hks.complete
  have hright := right.le_precedence rfl (left.complete.of_append hks.complete)
  omega

/-- What is an operand in itself is not split at an operator. -/
theorem Derives.not_split (h : Derives 4 ks e n) (hxs : Derives q xs lhs m) :
    ks ≠ xs ++ op.token :: ys := by
  intro heq
  exact absurd (h.le_precedence heq hxs.complete) (Nat.not_le.2 op.precedence_lt)

/-- A token list derives one expression at most. -/
theorem Derives.unique (h : Derives p ks e n) : ∀ {q us e' m},
    Derives q us e' m → ks = us → e = e' := by
  induction h with
  | register name =>
    intro q us e' m h' heq
    cases h' with
    | register =>
      cases heq
      rfl
    | binary _ left _ => exact absurd heq (Derives.not_split (.register name) left)
    | _ => simp at heq
  | constant value =>
    intro q us e' m h' heq
    cases h' with
    | constant =>
      cases heq
      rfl
    | binary _ left _ => exact absurd heq (Derives.not_split (.constant value) left)
    | _ => simp at heq
  | negative value =>
    intro q us e' m h' heq
    cases h' with
    | negative =>
      cases heq
      rfl
    | binary _ left _ => exact absurd heq (Derives.not_split (.negative value) left)
    | _ => simp at heq
  | group inner ih =>
    intro q us e' m h' heq
    cases h' with
    | group inner' => exact ih inner' (by simpa using heq)
    | binary _ left _ => exact absurd heq (Derives.not_split (.group inner) left)
    | _ => simp at heq
  | @binary p n m op ks us lhs rhs hp left right ihl ihr =>
    intro q vs e' k h' heq
    cases h' with
    | @binary _ _ _ op' ks' us' lhs' rhs' hp' left' right' =>
      obtain ⟨rfl, htoken, rfl⟩ | ⟨zs, rfl, rfl⟩ | ⟨zs, rfl, rfl⟩ := split_cases heq
      · rw [BinOp.token_injective htoken, ihl left' rfl, ihr right' rfl]
      · exact (left.not_overlaps left' right).elim
      · exact (left'.not_overlaps left right').elim
    | register name => exact absurd heq.symm (Derives.not_split (.register name) left)
    | constant value => exact absurd heq.symm (Derives.not_split (.constant value) left)
    | negative value => exact absurd heq.symm (Derives.not_split (.negative value) left)
    | group inner => exact absurd heq.symm (Derives.not_split (.group inner) left)

end

/-! ## Reading -/

/-- Reading an expression from a token list follows the grammar. -/
structure FollowsGrammar (stop : Nat) (tokens : List Token) : Prop where
  /-- Expressions are read to the end of the list exactly if the list is a conjunction, and has no
      more than 512 operators and opening parentheses. -/
  reads : ∀ e, (∃ used, Expr.read stop 0 tokens = .ok ⟨e, used, []⟩) ↔
    Produces .conjunction (tokens.map (·.kind)) e ∧ weight true (tokens.map (·.kind)) ≤ 512
  /-- The grammar is unambiguous, also beyond the limit. -/
  unique : ∀ e e', Produces .conjunction (tokens.map (·.kind)) e →
    Produces .conjunction (tokens.map (·.kind)) e' → e = e'
  /-- The operators of an expression that is read count towards the limit, with those that the
      instruction had before. -/
  operators_le : ∀ used r, used ≤ 512 → Expr.read stop used tokens = .ok r →
    used + r.expr.operators ≤ 512

theorem read_followsGrammar (stop : Nat) (tokens : List Token) : FollowsGrammar stop tokens where
  reads e := by
    constructor
    · rintro ⟨used, hread⟩
      obtain ⟨taken, n, htokens, hd, hused, hlimit, -⟩ := derives_of_read hread (Nat.zero_le _)
      obtain rfl : tokens = taken := by simpa using htokens
      have hweight : weight true (tokens.map (·.kind)) = used :=
        hd.weight_eq.trans (hused.trans (Nat.zero_add n)).symm
      exact ⟨hd.produces .conjunction le_rfl, hweight.trans_le hlimit⟩
    · rintro ⟨hproduces, hweight⟩
      obtain ⟨n, hd⟩ := hproduces.exists_derives
      rw [hd.weight_eq] at hweight
      have hlimit : 0 + n ≤ nestingLimit := by rwa [Nat.zero_add]
      exact ⟨0 + n, read_all_of_derives (hd.mono (Nat.zero_le _)) hlimit⟩
  unique e e' h h' := by
    obtain ⟨n, hd⟩ := h.exists_derives
    obtain ⟨m, hd'⟩ := h'.exists_derives
    exact hd.unique hd' rfl
  operators_le used r hused hread := by
    obtain ⟨taken, n, -, hd, hn, hlimit, -⟩ := derives_of_read hread hused
    have hoperators := hd.operators_le
    have hbound : r.used ≤ 512 := hlimit
    omega

/-- The tokens of `a - -2 * (b & 3)`. -/
def mixedTokens : List Token :=
  [⟨.identifier "a", 0⟩, ⟨.minus, 2⟩, ⟨.minus, 4⟩, ⟨.integer 2, 5⟩, ⟨.star, 7⟩, ⟨.lparen, 9⟩,
    ⟨.identifier "b", 10⟩, ⟨.amp, 12⟩, ⟨.integer 3, 14⟩, ⟨.rparen, 15⟩]

def mixed : Expr :=
  .binary .sub (.register "a")
    (.binary .mul (.constant (-2)) (.binary .and (.register "b") (.constant 3)))

/-- The first minus is an operator and the second one is a sign. -/
theorem followsGrammar_mixed :
    Expr.read 16 0 mixedTokens = .ok ⟨mixed, 4, []⟩ ∧
      Produces .conjunction (mixedTokens.map (·.kind)) mixed ∧
      ∀ e, Produces .conjunction (mixedTokens.map (·.kind)) e → e = mixed := by
  have hread : Expr.read 16 0 mixedTokens = .ok ⟨mixed, 4, []⟩ := by decide
  have hfollows := read_followsGrammar 16 mixedTokens
  have hmixed := ((hfollows.reads mixed).1 ⟨4, hread⟩).1
  exact ⟨hread, hmixed, fun e he => hfollows.unique e mixed he hmixed⟩

end Expr

end Mispredict.MuAsm
