/-
  The text of an instruction is read as this instruction.

  `Expr.kinds` are the tokens of an expression as it is rendered, with parentheses only where
  its structure needs them, and `Expr.nodes` counts its operators and parentheses. The rendered
  text is made of these tokens (`Expr.written_render`), they are the expression
  (`Expr.derives_kinds`), and no derivation of it has fewer operators and parentheses
  (`Expr.nodes_le_of_derives`). The same holds of instructions, of which the text does not give
  what their targets are bound to (`Instr.unresolved`). So whatever text an instruction was read
  of, its rendering is within the limit, too, and stands for the same instruction
  (`Instr.Denotes.render`).
-/
import Mathlib.Data.List.Basic
import Mispredict.Proofs.Grammar

namespace Mispredict.MuAsm

/-! ## Tokens -/

/-- A token that a text can have: a name is an identifier, and a number fits into a machine word. -/
def TokenKind.Writable : TokenKind → Prop
  | .identifier name => isIdentifier name.toList = true
  | .integer value => (value : Int) ≤ Int64.maxValue.toInt
  | _ => True

section Tokens

variable {kind : TokenKind} {kinds : List TokenKind} {text rest : List Char}

theorem TokenKind.writable_of_runsOn (h : kind.runsOn = false) : kind.Writable := by
  cases kind with
  | identifier name => simp [TokenKind.runsOn] at h
  | integer value => simp [TokenKind.runsOn] at h
  | _ => trivial

theorem Lexeme.writable (h : Lexeme text kind) : kind.Writable := by
  cases h with
  | name hident => simpa [TokenKind.Writable] using hident
  | number _ hfits => exact hfits
  | mark hmem => exact TokenKind.writable_of_runsOn (exists_head_of_mem_marks hmem).1

theorem Lexes.writable (h : Lexes text kinds) : ∀ kind ∈ kinds, kind.Writable := by
  induction h with
  | nil => simp
  | blank _ _ ih => exact ih
  | token hlexeme _ _ ih => simpa using ⟨hlexeme.writable, ih⟩

theorem numeral_toString (value : Nat) : Numeral (toString value).toList value := by
  have hall : ∀ c ∈ Nat.toDigits 10 value, c.isDigit = true :=
    fun c hc => Nat.isDigit_of_mem_toDigits (by decide) (by decide) hc
  have hvalue : numeral 10 (Nat.toDigits 10 value) = value :=
    calc numeral 10 (Nat.toDigits 10 value)
        = Nat.ofDigitChars 10 (Nat.toDigits 10 value) 0 :=
          List.foldl_ext _ _ _ fun n c hc => by rw [digitValue, if_pos (hall c hc)]
      _ = value := Nat.ofDigitChars_ten_toDigits
  rw [Nat.toString_eq_ofList_toDigits, String.toList_ofList]
  conv => arg 2; rw [← hvalue]
  exact .decimal Nat.toDigits_ne_nil hall

theorem lexeme_render (h : kind.Writable) : Lexeme kind.render.toList kind := by
  cases kind with
  | identifier name => simpa [TokenKind.render] using Lexeme.name h
  | integer value => exact .number (numeral_toString value) h
  | _ => exact .mark (by decide)

/-- A character that ends neither a line nor a label, and begins no comment. -/
def isInline (c : Char) : Bool := c != '\n' && c != '\r' && c != ':' && c != '/'

theorem isInline_of_isIdentChar {c : Char} (h : isIdentChar c = true) : isInline c = true := by
  simp only [isInline, Bool.and_eq_true, bne_iff_ne]
  refine ⟨⟨⟨?_, ?_⟩, ?_⟩, ?_⟩
  all_goals
    rintro rfl
    revert h
    decide

theorem inline_of_isIdentifier (h : isIdentifier text = true) : text.all isInline = true := by
  rw [List.all_eq_true]
  exact fun c hc => isInline_of_isIdentChar (isIdentChar_of_mem h hc)

theorem not_mem_of_inline {c : Char} (h : text.all isInline = true) (hc : isInline c = false) :
    c ∉ text := by
  intro hmem
  rw [List.all_eq_true.1 h c hmem] at hc
  contradiction

theorem TokenKind.inline_render (h : kind.Writable) : kind.render.toList.all isInline = true := by
  cases kind with
  | identifier name => exact inline_of_isIdentifier h
  | integer value =>
    rw [TokenKind.render, Nat.toString_eq_ofList_toDigits, String.toList_ofList, List.all_eq_true]
    intro c hc
    have hdigit : c.isDigit = true := Nat.isDigit_of_mem_toDigits (by decide) (by decide) hc
    exact isInline_of_isIdentChar (isIdentChar_of_isDigit hdigit)
  | _ => decide

theorem breaks_nil : Breaks [] := by
  simp [Breaks]

theorem breaks_cons {c : Char} (h : isIdentChar c = false) : Breaks (c :: rest) := by
  simpa [Breaks] using h

/-- A text within a line that is made of these tokens. -/
structure Written (text : List Char) (kinds : List TokenKind) : Prop where
  lexes : Lexes text kinds
  inline : text.all isInline = true

namespace Written

theorem nil : Written [] [] := ⟨.nil, rfl⟩

theorem space (h : Written rest kinds) : Written (' ' :: rest) kinds where
  lexes := .blank (by decide) h.lexes
  inline := by simpa [isInline] using h.inline

/-- The text of a name or a number before a text that breaks. -/
theorem word (h : Written rest kinds) (hbreaks : Breaks rest) (kind : TokenKind)
    (hw : kind.Writable) : Written (kind.render.toList ++ rest) (kind :: kinds) where
  lexes := .token (lexeme_render hw) (fun _ => hbreaks) h.lexes
  inline := by rw [List.all_append, TokenKind.inline_render hw, h.inline]; rfl

/-- The text of a mark before any text. -/
theorem mark (h : Written rest kinds) (kind : TokenKind) (hruns : kind.runsOn = false) :
    Written (kind.render.toList ++ rest) (kind :: kinds) where
  lexes := .token (lexeme_render (TokenKind.writable_of_runsOn hruns)) (by simp [hruns]) h.lexes
  inline := by
    rw [List.all_append, TokenKind.inline_render (TokenKind.writable_of_runsOn hruns), h.inline]
    rfl

theorem name (h : Written rest kinds) (hbreaks : Breaks rest) (name : String)
    (hname : isIdentifier name.toList = true) :
    Written (name.toList ++ rest) (.identifier name :: kinds) :=
  h.word hbreaks (.identifier name) hname

/-- A word, a blank and more. -/
theorem keyword (h : Written rest kinds) (name : String) (hname : isIdentifier name.toList = true) :
    Written (name.toList ++ ' ' :: rest) (.identifier name :: kinds) :=
  h.space.name (breaks_cons (by decide)) name hname

end Written

end Tokens

/-! ## Expressions -/

namespace Expr

section

variable {e : Expr} {p n : Nat} {ks us : List TokenKind} {rest : List Char}

/-- The tokens of a machine word. -/
def constantKinds (value : Int64) : List TokenKind :=
  match value.toInt with
  | .ofNat n => [.integer n]
  | .negSucc n => [.minus, .integer (n + 1)]

/-- Tokens in parentheses, if they are wanted. -/
def wrap (parens : Bool) (kinds : List TokenKind) : List TokenKind :=
  if parens then .lparen :: kinds ++ [.rparen] else kinds

/-- The tokens of an expression as it is rendered. -/
def kinds : Expr → List TokenKind
  | .register name => [.identifier name]
  | .constant value => constantKinds value
  | .binary op lhs rhs =>
    wrap (lhs.needsParens op.precedence false) lhs.kinds ++
      op.token :: wrap (rhs.needsParens op.precedence true) rhs.kinds

/-- The number of operators and parentheses of an expression as it is rendered. -/
def nodes : Expr → Nat
  | .binary op lhs rhs =>
    (lhs.nodes + (lhs.needsParens op.precedence false).toNat) +
      (rhs.nodes + (rhs.needsParens op.precedence true).toNat) + 1
  | _ => 0

/-- A right operand is treated like a left operand of an operator that binds one step tighter. -/
theorem needsParens_true (p : Nat) (e : Expr) :
    e.needsParens p true = e.needsParens (p + 1) false := by
  cases e with
  | binary op lhs rhs => exact decide_eq_decide.2 Nat.lt_succ_iff.symm
  | _ => rfl

theorem needsParens_zero (e : Expr) : e.needsParens 0 false = false := by
  cases e <;> simp [needsParens]

theorem derives_constantKinds (p : Nat) (value : Int64) :
    Derives p (constantKinds value) (.constant value) 0 := by
  have hvalue := Int64.ofInt_toInt value
  unfold constantKinds
  cases hint : value.toInt with
  | ofNat n =>
    rw [hint] at hvalue
    rw [← hvalue]
    exact .constant n
  | negSucc n =>
    rw [hint, Int.negSucc_eq, Int64.ofInt_neg] at hvalue
    rw [← hvalue]
    exact .negative (n + 1)

theorem derives_wrap (h : ∀ p, e.needsParens p false = false → Derives p e.kinds e e.nodes)
    (p : Nat) : Derives p (wrap (e.needsParens p false) e.kinds) e
      (e.nodes + (e.needsParens p false).toNat) := by
  cases hparens : e.needsParens p false with
  | false => exact h p hparens
  | true => exact .group (h 0 e.needsParens_zero)

/-- The tokens of an expression are this expression. -/
theorem derives_kinds (e : Expr) :
    ∀ p, e.needsParens p false = false → Derives p e.kinds e e.nodes := by
  induction e with
  | register name => exact fun p _ => .register name
  | constant value => exact fun p _ => derives_constantKinds p value
  | binary op lhs rhs ihl ihr =>
    intro p hparens
    have hp : p ≤ op.precedence := by simpa [needsParens] using hparens
    have hright := derives_wrap ihr (op.precedence + 1)
    rw [← needsParens_true] at hright
    exact .binary hp (derives_wrap ihl op.precedence) hright

/-- Rendering uses no more parentheses than any derivation. -/
theorem nodes_le_of_derives (h : Derives p ks e n) :
    e.nodes + (e.needsParens p false).toNat ≤ n := by
  induction h with
  | register name => simp [nodes, needsParens]
  | constant value => simp [nodes, needsParens]
  | negative value => simp [nodes, needsParens]
  | @group p n ks e inner ih =>
    have hle := Bool.toNat_le (e.needsParens p false)
    rw [needsParens_zero] at ih
    simp at ih
    omega
  | @binary p n m op ks us lhs rhs hp left right ihl ihr =>
    rw [← needsParens_true] at ihr
    have hparens : (Expr.binary op lhs rhs).needsParens p false = false := by
      simpa [needsParens] using hp
    rw [hparens, nodes]
    simp
    omega

theorem toInt_ofNat_of_writable {value : Nat} (h : (TokenKind.integer value).Writable) :
    (Int64.ofNat value).toInt = value := by
  have hmax : (value : Int) ≤ 9223372036854775807 := h
  exact Int64.toInt_ofNat_of_lt (by omega)

theorem toInt_neg_ofNat_of_writable {value : Nat} (h : (TokenKind.integer value).Writable) :
    (-Int64.ofNat value).toInt = -value := by
  have hmax : (value : Int) ≤ 9223372036854775807 := h
  rw [Int64.toInt_neg, toInt_ofNat_of_writable h]
  exact Int.bmod_eq_of_le (by omega) (by omega)

theorem writable_constantKinds {value : Int64}
    (h : (value.toInt.natAbs : Int) ≤ Int64.maxValue.toInt) :
    ∀ kind ∈ constantKinds value, kind.Writable := by
  unfold constantKinds
  cases hint : value.toInt with
  | ofNat n =>
    rw [hint] at h
    simpa [TokenKind.Writable] using h
  | negSucc n =>
    rw [hint] at h
    simpa [TokenKind.Writable] using h

theorem writable_wrap {parens : Bool} :
    (∀ kind ∈ wrap parens ks, kind.Writable) ↔ ∀ kind ∈ ks, kind.Writable := by
  cases parens with
  | false => rfl
  | true => simp [wrap, TokenKind.Writable, or_imp, forall_and]

theorem writable_binary {op : BinOp} {lhs rhs : Expr} :
    (∀ kind ∈ (Expr.binary op lhs rhs).kinds, kind.Writable) ↔
      (∀ kind ∈ lhs.kinds, kind.Writable) ∧ ∀ kind ∈ rhs.kinds, kind.Writable := by
  have hop : op.token.Writable := by cases op <;> trivial
  rw [kinds, List.forall_mem_append, List.forall_mem_cons, writable_wrap, writable_wrap]
  simp [hop]

/-- An expression that is derived of the tokens of a text can be written. -/
theorem writable_of_derives (h : Derives p ks e n) (hks : ∀ kind ∈ ks, kind.Writable) :
    ∀ kind ∈ e.kinds, kind.Writable := by
  induction h with
  | register name => exact hks
  | constant value =>
    have hfits := hks (.integer value) (by simp)
    exact writable_constantKinds (by rwa [toInt_ofNat_of_writable hfits])
  | negative value =>
    have hfits := hks (.integer value) (by simp)
    exact writable_constantKinds (by rwa [toInt_neg_ofNat_of_writable hfits, Int.natAbs_neg])
  | group inner ih =>
    exact ih fun kind hkind => hks kind (by simp [hkind])
  | binary hp left right ihl ihr =>
    rw [writable_binary]
    refine ⟨ihl fun kind hkind => hks kind ?_, ihr fun kind hkind => hks kind ?_⟩
    · simp [hkind]
    · simp [hkind]

theorem written_parenthesise {text : String} (parens : Bool)
    (htext : ∀ {rest us}, Written rest us → Breaks rest → Written (text.toList ++ rest) (ks ++ us))
    (h : Written rest us) (hbreaks : Breaks rest) :
    Written ((parenthesise parens text).toList ++ rest) (wrap parens ks ++ us) := by
  cases parens with
  | false => exact htext h hbreaks
  | true =>
    have hclose : Written (')' :: rest) (.rparen :: us) := h.mark .rparen rfl
    have hopen := (htext hclose (breaks_cons (by decide))).mark .lparen rfl
    simpa [parenthesise, wrap, TokenKind.render] using hopen

/-- The text of an expression is made of its tokens. -/
theorem written_render (e : Expr) (hw : ∀ kind ∈ e.kinds, kind.Writable) : ∀ {rest us},
    Written rest us → Breaks rest → Written (e.render.toList ++ rest) (e.kinds ++ us) := by
  induction e with
  | register name =>
    intro rest us h hbreaks
    exact h.word hbreaks (.identifier name) (hw _ List.mem_cons_self)
  | constant value =>
    intro rest us h hbreaks
    rw [render, kinds, constantKinds]
    rw [kinds, constantKinds] at hw
    cases hint : value.toInt with
    | ofNat n =>
      rw [hint] at hw
      exact h.word hbreaks (.integer n) (hw _ List.mem_cons_self)
    | negSucc n =>
      rw [hint] at hw
      have htext : (toString (Int.negSucc n)).toList = '-' :: (toString (n + 1)).toList := by
        show ("-" ++ toString (n + 1)).toList = _
        simp
      rw [htext]
      exact (h.word hbreaks (.integer (n + 1)) (hw _ (by simp))).mark .minus rfl
  | binary op lhs rhs ihl ihr =>
    intro rest us h hbreaks
    obtain ⟨hl, hr⟩ := writable_binary.1 hw
    have hruns : op.token.runsOn = false := by cases op <;> rfl
    have hsymbol : op.symbol = op.token.render := by cases op <;> rfl
    have hright := written_parenthesise (rhs.needsParens op.precedence true) (ihr hr) h hbreaks
    have hop := (hright.space.mark op.token hruns).space
    have hleft := written_parenthesise (lhs.needsParens op.precedence false) (ihl hl) hop
      (breaks_cons (by decide))
    simpa [render, kinds, hsymbol] using hleft

theorem written_render_end (e : Expr) (hw : ∀ kind ∈ e.kinds, kind.Writable) :
    Written e.render.toList e.kinds := by
  simpa using e.written_render hw .nil breaks_nil

end

end Expr

/-! ## Instructions -/

namespace Instr

section

variable {i : Instr} {n : Nat} {ks : List TokenKind} {text : List Char}

/-- The tokens of an instruction as it is rendered. -/
def kinds : Instr → List TokenKind
  | .skip => [.identifier "skip"]
  | .spbarr => [.identifier "spbarr"]
  | .load dest addr => .identifier "load" :: .identifier dest :: .comma :: addr.kinds
  | .store src addr => .identifier "store" :: .identifier src :: .comma :: addr.kinds
  | .beqz cond target _ => .identifier "beqz" :: cond.kinds ++ [.comma, .identifier target]
  | .jmp target _ => .identifier "jmp" :: target.kinds
  | .assign dest expr => .identifier dest :: .arrow :: expr.kinds
  | .cmov dest cond value => .identifier dest :: .arrow :: value.kinds ++ .question :: cond.kinds

/-- The number of operators and parentheses of an instruction as it is rendered. -/
def nodes : Instr → Nat
  | .assign _ expr => expr.nodes
  | .load _ addr => addr.nodes
  | .store _ addr => addr.nodes
  | .beqz cond _ _ => cond.nodes
  | .jmp target _ => target.nodes
  | .cmov _ cond value => value.nodes + cond.nodes
  | _ => 0

/-- The register that an instruction writes by an arrow. -/
def arrowDest? : Instr → Option String
  | .assign dest _ => some dest
  | .cmov dest _ _ => some dest
  | _ => none

/-- The instruction as it is read, before its target is looked up. -/
def unresolved : Instr → Instr
  | .beqz cond target _ => .beqz cond target none
  | .jmp target _ => .jmp target .dynamic
  | i => i

theorem render_unresolved (i : Instr) : i.unresolved.render = i.render := by
  cases i <;> rfl

/-- The text of an instruction is made of its tokens. -/
theorem written_render (i : Instr) (hw : ∀ kind ∈ i.kinds, kind.Writable) :
    Written i.render.toList i.kinds := by
  cases i with
  | skip => exact Written.nil.name breaks_nil "skip" (by decide)
  | spbarr => exact Written.nil.name breaks_nil "spbarr" (by decide)
  | load dest addr =>
    have haddr := addr.written_render_end fun kind hkind => hw kind (by simp [kinds, hkind])
    have hdest : isIdentifier dest.toList = true := hw (.identifier dest) (by simp [kinds])
    have hcomma := haddr.space.mark .comma rfl
    have htext := (hcomma.name (breaks_cons (by decide)) dest hdest).keyword "load" (by decide)
    simpa [render, kinds, TokenKind.render] using htext
  | store src addr =>
    have haddr := addr.written_render_end fun kind hkind => hw kind (by simp [kinds, hkind])
    have hsrc : isIdentifier src.toList = true := hw (.identifier src) (by simp [kinds])
    have hcomma := haddr.space.mark .comma rfl
    have htext := (hcomma.name (breaks_cons (by decide)) src hsrc).keyword "store" (by decide)
    simpa [render, kinds, TokenKind.render] using htext
  | beqz cond target known =>
    have hcond : ∀ kind ∈ cond.kinds, kind.Writable :=
      fun kind hkind => hw kind (by simp [kinds, hkind])
    have htarget : isIdentifier target.toList = true := hw (.identifier target) (by simp [kinds])
    have hcomma := (Written.nil.name breaks_nil target htarget).space.mark .comma rfl
    have htext :=
      (cond.written_render hcond hcomma (breaks_cons (by decide))).keyword "beqz" (by decide)
    simpa [render, kinds, TokenKind.render] using htext
  | jmp target resolved =>
    have htarget := target.written_render_end fun kind hkind => hw kind (by simp [kinds, hkind])
    have htext := htarget.keyword "jmp" (by decide)
    simpa [render, kinds] using htext
  | assign dest expr =>
    have hexpr := expr.written_render_end fun kind hkind => hw kind (by simp [kinds, hkind])
    have hdest : isIdentifier dest.toList = true := hw (.identifier dest) (by simp [kinds])
    have htext := (hexpr.space.mark .arrow rfl).keyword dest hdest
    simpa [render, kinds, TokenKind.render] using htext
  | cmov dest cond value =>
    have hcond := cond.written_render_end fun kind hkind => hw kind (by simp [kinds, hkind])
    have hvalue : ∀ kind ∈ value.kinds, kind.Writable :=
      fun kind hkind => hw kind (by simp [kinds, hkind])
    have hdest : isIdentifier dest.toList = true := hw (.identifier dest) (by simp [kinds])
    have hquestion := (hcond.space.mark .question rfl).space
    have hbody := value.written_render hvalue hquestion (breaks_cons (by decide))
    have htext := (hbody.space.mark .arrow rfl).keyword dest hdest
    simpa [render, kinds, TokenKind.render] using htext

/-- The tokens of an instruction are this instruction as it is read, unless a register that it
    writes by an arrow has the name of a mnemonic. -/
theorem derives_kinds (i : Instr) (hfree : ∀ dest ∈ i.arrowDest?, dest ∉ mnemonics) :
    Derives i.kinds i.unresolved i.nodes := by
  have hexpr : ∀ e : Expr, Expr.Derives 0 e.kinds e e.nodes :=
    fun e => e.derives_kinds 0 e.needsParens_zero
  cases i with
  | skip => exact .skip
  | spbarr => exact .spbarr
  | load dest addr => exact .load dest (hexpr addr)
  | store src addr => exact .store src (hexpr addr)
  | beqz cond target known => exact .beqz target (hexpr cond)
  | jmp target resolved => exact .jmp (hexpr target)
  | assign dest expr => exact .assign (hfree dest rfl) (hexpr expr)
  | cmov dest cond value => exact .cmov (hfree dest rfl) (hexpr value) (hexpr cond)

theorem Derives.unresolved_eq (h : Derives ks i n) : i.unresolved = i := by
  cases h <;> rfl

theorem Derives.free (h : Derives ks i n) : ∀ dest ∈ i.arrowDest?, dest ∉ mnemonics := by
  cases h with
  | assign hfree _ | cmov hfree _ _ => simpa [arrowDest?] using hfree
  | _ => nofun

theorem Derives.nodes_le (h : Derives ks i n) : i.nodes ≤ n := by
  have hexpr : ∀ {ks e n}, Expr.Derives 0 ks e n → e.nodes ≤ n :=
    fun hd => (Nat.le_add_right _ _).trans (Expr.nodes_le_of_derives hd)
  cases h with
  | skip | spbarr => exact le_rfl
  | load _ hd | store _ hd | beqz _ hd | jmp hd | assign _ hd => exact hexpr hd
  | cmov _ hleft hright => exact Nat.add_le_add (hexpr hleft) (hexpr hright)

/-- An instruction that is derived of the tokens of a text can be written. -/
theorem Derives.writable (h : Derives ks i n) (hks : ∀ kind ∈ ks, kind.Writable) :
    ∀ kind ∈ i.kinds, kind.Writable := by
  cases h with
  | skip | spbarr => exact hks
  | load _ hd | store _ hd | beqz _ hd | jmp hd | assign _ hd =>
    have hexpr := Expr.writable_of_derives hd fun kind hkind => hks kind (by simp [hkind])
    simp_all [kinds, or_imp, forall_and]
  | cmov _ hleft hright =>
    have hvalue := Expr.writable_of_derives hleft fun kind hkind => hks kind (by simp [hkind])
    have hcond := Expr.writable_of_derives hright fun kind hkind => hks kind (by simp [hkind])
    simp_all [kinds, or_imp, forall_and]

/-- An instruction that can be written, and is short enough, is read of its own text. -/
theorem denotes_render (hw : ∀ kind ∈ i.kinds, kind.Writable)
    (hfree : ∀ dest ∈ i.arrowDest?, dest ∉ mnemonics) (hn : i.nodes ≤ nestingLimit) :
    Denotes i.render.toList i.unresolved :=
  ⟨i.kinds, i.nodes, (i.written_render hw).lexes, i.derives_kinds hfree, hn⟩

/-- An instruction that was read of some text is read of its own text, too. -/
theorem Denotes.render (h : Denotes text i) :
    Denotes i.render.toList i ∧ i.render.toList.all isInline = true := by
  obtain ⟨ks, n, hlexes, hd, hn⟩ := h
  have hw := hd.writable hlexes.writable
  have hdenotes := denotes_render hw hd.free (hd.nodes_le.trans hn)
  rw [hd.unresolved_eq] at hdenotes
  exact ⟨hdenotes, (i.written_render hw).inline⟩

end

end Instr

end Mispredict.MuAsm
