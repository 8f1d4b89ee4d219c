/-
  Blank characters, lines and comments of a source text.

  A text is handled as the list of its characters. Blank characters are those
  with the Unicode property White_Space.
-/

namespace Mispredict.Text

/-- Code point ranges, ends included, of the Unicode property White_Space. -/
def blankRanges : List (Nat × Nat) :=
  [(0x09, 0x0D), (0x20, 0x20), (0x85, 0x85), (0xA0, 0xA0), (0x1680, 0x1680), (0x2000, 0x200A),
    (0x2028, 0x2029), (0x202F, 0x202F), (0x205F, 0x205F), (0x3000, 0x3000)]

/-- Whether a character is blank. -/
def isBlank (c : Char) : Bool :=
  blankRanges.any fun r => r.1 ≤ c.toNat && c.toNat ≤ r.2

/-- Whether a text holds blank characters only. -/
def isBlankText (cs : List Char) : Bool := cs.all isBlank

/-- The text without the blank characters at its two ends. -/
def trim (cs : List Char) : List Char :=
  ((cs.dropWhile isBlank).reverse.dropWhile isBlank).reverse

/-- Length of a text in UTF-8 bytes. -/
def byteLength : List Char → Nat
  | [] => 0
  | c :: cs => c.utf8Size + byteLength cs

/-- Drops a carriage return that is the last character read, `cur` being in reverse. -/
def dropReturn : List Char → List Char
  | '\r' :: cur => cur
  | cur => cur

/-- Splits the rest of a text into lines; `cur` is the line read so far, in reverse. -/
def linesFrom (cur : List Char) : List Char → List (List Char)
  | [] => if cur.isEmpty then [] else [cur.reverse]
  | '\n' :: cs => (dropReturn cur).reverse :: linesFrom [] cs
  | c :: cs => linesFrom (c :: cur) cs

/-- The lines of a text. A line ends at a newline, which takes a carriage return right before it
    along; a text that ends in a newline has no empty last line. -/
def lines (cs : List Char) : List (List Char) := linesFrom [] cs

/-- The part of a line before its first `//`. -/
def cutComment : List Char → List Char
  | [] => []
  | '/' :: '/' :: _ => []
  | c :: cs => c :: cutComment cs

/-! ## Bytes and characters -/

theorem byteLength_append (cs ds : List Char) :
    byteLength (cs ++ ds) = byteLength cs + byteLength ds := by
  induction cs with
  | nil => simp [byteLength]
  | cons c cs ih => simp [byteLength, ih, Nat.add_assoc]

theorem byteLength_ofList (cs : List Char) : byteLength cs = (String.ofList cs).utf8ByteSize := by
  induction cs with
  | nil => rfl
  | cons c cs ih =>
    have hsplit : String.ofList (c :: cs) = String.singleton c ++ String.ofList cs := by
      rw [String.singleton_eq_ofList, ← String.ofList_append]
      rfl
    rw [byteLength, ih, hsplit, String.utf8ByteSize_append, String.utf8ByteSize_singleton]

theorem length_le_byteLength (cs : List Char) : cs.length ≤ byteLength cs := by
  induction cs with
  | nil => exact Nat.le_refl _
  | cons c cs ih =>
    have hc := c.utf8Size_pos
    rw [byteLength, List.length_cons]
    omega

theorem byteLength_le_of_sublist {cs ds : List Char} (h : cs.Sublist ds) :
    byteLength cs ≤ byteLength ds := by
  induction h with
  | slnil => exact Nat.le_refl _
  | cons c _ ih => exact Nat.le_trans ih (Nat.le_add_left _ _)
  | cons_cons c _ ih => exact Nat.add_le_add_left ih _

/-- A text has more bytes than characters exactly if one of them takes up more than a byte. -/
theorem byteLength_eq_length_iff {cs : List Char} :
    byteLength cs = cs.length ↔ ¬ ∃ c ∈ cs, 1 < c.utf8Size := by
  induction cs with
  | nil => simp [byteLength]
  | cons c cs ih =>
    have hc := c.utf8Size_pos
    have hcs := length_le_byteLength cs
    simp only [byteLength, List.length_cons, List.mem_cons, exists_eq_or_imp, not_or, ← ih]
    omega

/-! ## Parts of a text -/

/-- A line is part of its text. -/
theorem sublist_of_mem_linesFrom {cur cs line : List Char} (h : line ∈ linesFrom cur cs) :
    line.Sublist (cur.reverse ++ cs) := by
  fun_induction linesFrom cur cs with
  | case1 cur hempty => simp at h
  | case2 cur hempty => simp_all
  | case3 cur cs ih =>
    obtain rfl | hlater := List.mem_cons.1 h
    · refine (List.reverse_sublist.2 ?_).trans (List.sublist_append_left _ _)
      unfold dropReturn
      split
      · exact List.sublist_cons_self _ _
      · exact List.Sublist.refl _
    · exact (ih hlater).trans ((List.sublist_cons_self _ _).trans (List.sublist_append_right _ _))
  | case4 cur c cs hnewline ih => simpa using ih h

/-- Each line but the last takes up a character more than it has. -/
theorem length_flatten_linesFrom_le (cur cs : List Char) :
    (linesFrom cur cs).flatten.length + (linesFrom cur cs).length ≤
      cur.length + cs.length + 1 := by
  induction cs generalizing cur with
  | nil =>
    rw [linesFrom]
    split <;> simp
  | cons c cs ih =>
    rw [linesFrom.eq_def]
    split
    · next h => cases h
    · next cs' h =>
      cases h
      have hline : (dropReturn cur).length ≤ cur.length := by
        unfold dropReturn
        split <;> simp
      have hrest := ih []
      simp only [List.flatten_cons, List.length_append, List.length_reverse, List.length_cons,
        List.length_nil] at hrest ⊢
      omega
    · next c' cs' _ h =>
      cases h
      have hrest := ih (c :: cur)
      simp only [List.length_cons] at hrest ⊢
      omega

end Mispredict.Text
