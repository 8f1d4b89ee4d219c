/-
  Finite maps kept as association lists in strictly increasing key order.

  A map has one representation, so equality of maps is equality of their
  entries and two maps that read the same are the same (`ext_get?`). What is read
  after a write is given by `get?_insert` and `get?_unionWith`. Where an answer
  lists a map, it lists it in the order stored here; for text keys that is the
  order of code points.
-/

namespace Mispredict

universe u v w

/-- Entries in strictly increasing key order. -/
def KeysIncrease {κ : Type u} {ν : Type v} [Ord κ] (entries : List (κ × ν)) : Prop :=
  entries.Pairwise fun a b => compare a.1 b.1 = .lt

/-- A finite map from `κ` to `ν`. -/
structure SortedMap (κ : Type u) (ν : Type v) [Ord κ] where
  entries : List (κ × ν)
  increasing : KeysIncrease entries

namespace SortedMap

variable {κ : Type u} {ν : Type v} {μ : Type w} [Ord κ]

instance [DecidableEq κ] [DecidableEq ν] : DecidableEq (SortedMap κ ν) := fun a b =>
  decidable_of_iff (a.entries = b.entries) <| by
    cases a; cases b; simp

@[ext] theorem ext_entries {a b : SortedMap κ ν} (h : a.entries = b.entries) : a = b := by
  cases a; cases b; simp_all

/-- The map without entries. -/
def empty : SortedMap κ ν := ⟨[], List.Pairwise.nil⟩

instance : Inhabited (SortedMap κ ν) := ⟨empty⟩

/-! ## Reading -/

/-- The value of the first entry with key `k`. -/
def lookup (k : κ) : List (κ × ν) → Option ν
  | [] => none
  | (k', x) :: rest => if compare k k' = .eq then some x else lookup k rest

/-- The value stored under `k`, if any. -/
def get? (m : SortedMap κ ν) (k : κ) : Option ν := lookup k m.entries

/-- The value stored under `k`, or `d`. -/
def getD (m : SortedMap κ ν) (k : κ) (d : ν) : ν := (m.get? k).getD d

/-- Whether a value is stored under `k`. -/
def contains (m : SortedMap κ ν) (k : κ) : Bool := (m.get? k).isSome

/-- The keys in increasing order. -/
def keys (m : SortedMap κ ν) : List κ := m.entries.map (·.1)

/-- The values in key order. -/
def values (m : SortedMap κ ν) : List ν := m.entries.map (·.2)

/-- How many entries there are. -/
def size (m : SortedMap κ ν) : Nat := m.entries.length

/-- Whether there is no entry. -/
def isEmpty (m : SortedMap κ ν) : Bool := m.entries.isEmpty

/-! ## Writing -/

/-- Puts `x` under `k` at its place, replacing what was there. -/
def insertEntry (k : κ) (x : ν) : List (κ × ν) → List (κ × ν)
  | [] => [(k, x)]
  | (k', x') :: rest =>
    match compare k k' with
    | .lt => (k, x) :: (k', x') :: rest
    | .eq => (k, x) :: rest
    | .gt => (k', x') :: insertEntry k x rest

theorem mem_insertEntry {k : κ} {x : ν} {e : κ × ν} {l : List (κ × ν)}
    (h : e ∈ insertEntry k x l) : e = (k, x) ∨ e ∈ l := by
  induction l with
  | nil => simpa [insertEntry] using h
  | cons hd tl ih =>
    obtain ⟨k', x'⟩ := hd
    rw [insertEntry] at h
    split at h
    · simpa using h
    · rcases List.mem_cons.1 h with h | h
      · exact .inl h
      · exact .inr (List.mem_cons_of_mem _ h)
    · rcases List.mem_cons.1 h with h | h
      · exact .inr (h ▸ List.mem_cons_self)
      · exact (ih h).imp_right (List.mem_cons_of_mem _)

/-- Puts `x` under `k` among `entries`, where it is combined with what is there, and goes on by
    `rest` with the entries behind. -/
def mergeEntry (f : ν → ν → ν) (d : ν) (k : κ) (x : ν) (rest : List (κ × ν) → List (κ × ν)) :
    (entries : List (κ × ν)) → List (κ × ν)
  | [] => (k, f x d) :: rest []
  | (l, y) :: entries =>
    match compare k l with
    | .lt => (k, f x d) :: rest ((l, y) :: entries)
    | .eq => (k, f x y) :: rest entries
    | .gt => (l, f d y) :: mergeEntry f d k x rest entries

/-- Merges two lists in key order in one pass. -/
def mergeEntries (f : ν → ν → ν) (d : ν) : List (κ × ν) → List (κ × ν) → List (κ × ν)
  | [] => List.map fun e => (e.1, f d e.2)
  | (k, x) :: entries => mergeEntry f d k x (mergeEntries f d entries)

/-- A key of the merged list is a key of one of the two. -/
theorem mem_keys_mergeEntries (f : ν → ν → ν) (d : ν) {q : κ} {as bs : List (κ × ν)}
    (h : q ∈ (mergeEntries f d as bs).map (·.1)) : q ∈ as.map (·.1) ∨ q ∈ bs.map (·.1) := by
  induction as generalizing bs with
  | nil => exact .inr (by simpa [mergeEntries] using h)
  | cons a as ih =>
    obtain ⟨k, x⟩ := a
    rw [mergeEntries] at h
    induction bs with
    | nil =>
      rcases List.mem_cons.1 h with h | h
      · exact .inl (h ▸ List.mem_cons_self)
      · exact (ih h).imp_left (List.mem_cons_of_mem _)
    | cons b bs ihb =>
      obtain ⟨l, y⟩ := b
      rw [mergeEntry] at h
      split at h
      · rcases List.mem_cons.1 h with h | h
        · exact .inl (h ▸ List.mem_cons_self)
        · exact (ih h).imp_left (List.mem_cons_of_mem _)
      · rcases List.mem_cons.1 h with h | h
        · exact .inl (h ▸ List.mem_cons_self)
        · exact (ih h).imp (List.mem_cons_of_mem _) (List.mem_cons_of_mem _)
      · rcases List.mem_cons.1 h with h | h
        · exact .inr (h ▸ List.mem_cons_self)
        · exact (ihb h).imp_right (List.mem_cons_of_mem _)

theorem keysIncrease_cons_iff {k : κ} {x : ν} {l : List (κ × ν)} :
    KeysIncrease ((k, x) :: l) ↔ (∀ q ∈ l.map (·.1), compare k q = .lt) ∧ KeysIncrease l := by
  simp [KeysIncrease]

section Ordered

variable [Std.TransOrd κ] [Std.LawfulEqOrd κ]

theorem keysIncrease_insertEntry (k : κ) (x : ν) {l : List (κ × ν)} (h : KeysIncrease l) :
    KeysIncrease (insertEntry k x l) := by
  induction l with
  | nil => simp [insertEntry, KeysIncrease]
  | cons hd tl ih =>
    obtain ⟨k', x'⟩ := hd
    obtain ⟨hhd, htl⟩ := List.pairwise_cons.1 h
    rw [insertEntry]
    split
    · next hlt =>
      refine List.pairwise_cons.2 ⟨fun e he => ?_, h⟩
      rcases List.mem_cons.1 he with he | he
      · exact he ▸ hlt
      · exact Std.TransCmp.lt_trans hlt (hhd e he)
    · next heq =>
      have hk : k = k' := Std.LawfulEqCmp.eq_of_compare heq
      exact List.pairwise_cons.2 ⟨fun e he => hk ▸ hhd e he, htl⟩
    · next hgt =>
      refine List.pairwise_cons.2 ⟨fun e he => ?_, ih htl⟩
      rcases mem_insertEntry he with he | he
      · exact he ▸ Std.OrientedCmp.lt_of_gt hgt
      · exact hhd e he

theorem keysIncrease_mergeEntries (f : ν → ν → ν) (d : ν) {as bs : List (κ × ν)}
    (ha : KeysIncrease as) (hb : KeysIncrease bs) : KeysIncrease (mergeEntries f d as bs) := by
  induction as generalizing bs with
  | nil => exact List.pairwise_map.2 hb
  | cons a as ih =>
    obtain ⟨k, x⟩ := a
    obtain ⟨hk, has⟩ := keysIncrease_cons_iff.1 ha
    rw [mergeEntries]
    induction bs with
    | nil =>
      refine keysIncrease_cons_iff.2 ⟨fun q hq => ?_, ih has hb⟩
      rcases mem_keys_mergeEntries f d hq with hq | hq
      · exact hk q hq
      · cases hq
    | cons b bs ihb =>
      obtain ⟨l, y⟩ := b
      obtain ⟨hl, hbs⟩ := keysIncrease_cons_iff.1 hb
      rw [mergeEntry]
      split
      · next hlt =>
        refine keysIncrease_cons_iff.2 ⟨fun q hq => ?_, ih has hb⟩
        rcases mem_keys_mergeEntries f d hq with hq | hq
        · exact hk q hq
        · rcases List.mem_cons.1 hq with hq | hq
          · exact hq ▸ hlt
          · exact Std.TransCmp.lt_trans hlt (hl q hq)
      · next heq =>
        have hkl : k = l := Std.LawfulEqCmp.eq_of_compare heq
        refine keysIncrease_cons_iff.2 ⟨fun q hq => ?_, ih has hbs⟩
        rcases mem_keys_mergeEntries f d hq with hq | hq
        · exact hk q hq
        · exact hkl ▸ hl q hq
      · next hgt =>
        refine keysIncrease_cons_iff.2 ⟨fun q hq => ?_, ihb hbs⟩
        have hq : q ∈ (mergeEntries f d ((k, x) :: as) bs).map (·.1) := hq
        have hlk : compare l k = .lt := Std.OrientedCmp.lt_of_gt hgt
        rcases mem_keys_mergeEntries f d hq with hq | hq
        · rcases List.mem_cons.1 hq with hq | hq
          · exact hq ▸ hlk
          · exact Std.TransCmp.lt_trans hlk (hk q hq)
        · exact hl q hq

/-- The map with `x` under `k`. -/
def insert (m : SortedMap κ ν) (k : κ) (x : ν) : SortedMap κ ν :=
  ⟨insertEntry k x m.entries, keysIncrease_insertEntry k x m.increasing⟩

/-- The map of a list of pairs. Of two pairs with one key the later counts. -/
def ofList (l : List (κ × ν)) : SortedMap κ ν :=
  l.foldl (fun m e => m.insert e.1 e.2) empty

/-- The map on the keys of either side that combines the two readings, an absent key reading as
    `d`. -/
def unionWith (f : ν → ν → ν) (d : ν) (a b : SortedMap κ ν) : SortedMap κ ν :=
  ⟨mergeEntries f d a.entries b.entries, keysIncrease_mergeEntries f d a.increasing b.increasing⟩

end Ordered

/-! ## Reading what was written -/

@[simp] theorem get?_empty (k : κ) : (empty : SortedMap κ ν).get? k = none := rfl

theorem lookup_eq_none_of_lt {k : κ} {l : List (κ × ν)} (h : ∀ e ∈ l, compare k e.1 = .lt) :
    lookup k l = none := by
  induction l with
  | nil => rfl
  | cons hd tl ih =>
    have hne : compare k hd.1 ≠ .eq := by simp [h hd List.mem_cons_self]
    rw [lookup, if_neg hne]
    exact ih fun e he => h e (List.mem_cons_of_mem _ he)

section Lawful

variable [Std.LawfulEqOrd κ] [DecidableEq κ]

theorem lookup_cons (k k' : κ) (x : ν) (l : List (κ × ν)) :
    lookup k ((k', x) :: l) = if k = k' then some x else lookup k l := by
  rw [lookup]
  simp only [Std.LawfulEqOrd.compare_eq_iff_eq]

theorem lookup_insertEntry (k k' : κ) (x : ν) (l : List (κ × ν)) :
    lookup k' (insertEntry k x l) = if k' = k then some x else lookup k' l := by
  induction l with
  | nil => rw [insertEntry, lookup_cons]
  | cons hd tl ih =>
    obtain ⟨k₁, x₁⟩ := hd
    rw [insertEntry]
    split
    · rw [lookup_cons]
    · next h =>
      have h := Std.LawfulEqOrd.eq_of_compare h
      rw [lookup_cons, lookup_cons, h]
      split <;> rfl
    · next h =>
      have h : k₁ ≠ k := fun e => by simp [e] at h
      rw [lookup_cons, lookup_cons, ih]
      by_cases h' : k' = k₁
      · rw [if_pos h', if_neg (h' ▸ h), if_pos h']
      · rw [if_neg h', if_neg h']

theorem lookup_isSome_iff (k : κ) (l : List (κ × ν)) :
    (lookup k l).isSome ↔ k ∈ l.map (·.1) := by
  induction l with
  | nil => simp [lookup]
  | cons hd tl ih =>
    rw [lookup_cons]
    by_cases h : k = hd.1 <;> simp [h, ih]

theorem mem_keys_iff (m : SortedMap κ ν) (k : κ) : k ∈ m.keys ↔ (m.get? k).isSome :=
  (lookup_isSome_iff k m.entries).symm

variable [Std.TransOrd κ]

@[simp] theorem get?_insert (m : SortedMap κ ν) (k k' : κ) (x : ν) :
    (m.insert k x).get? k' = if k' = k then some x else m.get? k' :=
  lookup_insertEntry k k' x m.entries

theorem mem_keys_insert (m : SortedMap κ ν) (k k' : κ) (x : ν) :
    k' ∈ (m.insert k x).keys ↔ k' = k ∨ k' ∈ m.keys := by
  rw [mem_keys_iff, mem_keys_iff, get?_insert]
  by_cases h : k' = k <;> simp [h]

theorem getD_insert (m : SortedMap κ ν) (k k' : κ) (x d : ν) :
    (m.insert k x).getD k' d = if k' = k then x else m.getD k' d := by
  unfold getD
  rw [get?_insert]
  split <;> rfl

/-- What a key reads after values that depend on their keys only were put under several keys. -/
theorem get?_foldl_insert (g : κ → ν) (l : List κ) (m : SortedMap κ ν) (k : κ) :
    (l.foldl (fun m k => m.insert k (g k)) m).get? k =
      if k ∈ l then some (g k) else m.get? k := by
  induction l generalizing m with
  | nil => simp
  | cons k' l ih =>
    rw [List.foldl_cons, ih, get?_insert]
    by_cases h : k ∈ l
    · simp [h]
    · by_cases h' : k = k' <;> simp [h, h']

/-- What a key reads after entries in key order were put into a map. -/
theorem get?_foldl_insert_entries (f : μ → ν) {l : List (κ × μ)} (hl : KeysIncrease l)
    (m : SortedMap κ ν) (k : κ) :
    (l.foldl (fun m e => m.insert e.1 (f e.2)) m).get? k =
      ((lookup k l).map f).or (m.get? k) := by
  induction l generalizing m with
  | nil => rfl
  | cons e l ih =>
    obtain ⟨k', x⟩ := e
    obtain ⟨hk', hl⟩ := List.pairwise_cons.1 hl
    rw [List.foldl_cons, ih hl, get?_insert, lookup_cons]
    by_cases hk : k = k'
    · subst hk
      rw [lookup_eq_none_of_lt hk', if_pos rfl, if_pos rfl]
      rfl
    · rw [if_neg hk, if_neg hk]

/-- What a key reads in a merged list. -/
theorem lookup_mergeEntries (f : ν → ν → ν) (d : ν) {as bs : List (κ × ν)}
    (ha : KeysIncrease as) (hb : KeysIncrease bs) (q : κ) :
    lookup q (mergeEntries f d as bs) =
      ((lookup q as).or (lookup q bs)).map fun _ =>
        f ((lookup q as).getD d) ((lookup q bs).getD d) := by
  induction as generalizing bs with
  | nil =>
    rw [mergeEntries]
    induction bs with
    | nil => rfl
    | cons b bs ihb =>
      rw [List.map_cons, lookup_cons, lookup_cons, ihb (keysIncrease_cons_iff.1 hb).2]
      by_cases h : q = b.1 <;> simp [h, lookup]
  | cons a as ih =>
    obtain ⟨k, x⟩ := a
    obtain ⟨hk, has⟩ := keysIncrease_cons_iff.1 ha
    rw [mergeEntries]
    induction bs with
    | nil =>
      rw [mergeEntry, lookup_cons, lookup_cons, ih has hb]
      by_cases h : q = k <;> simp [h, lookup]
    | cons b bs ihb =>
      obtain ⟨l, y⟩ := b
      obtain ⟨hl, hbs⟩ := keysIncrease_cons_iff.1 hb
      rw [mergeEntry]
      split
      · next hlt =>
        rw [lookup_cons, lookup_cons q k, ih has hb]
        by_cases h : q = k
        · have hnone : lookup k ((l, y) :: bs) = none :=
            lookup_eq_none_of_lt <| List.forall_mem_cons.2
              ⟨hlt, fun e he => Std.TransCmp.lt_trans hlt (hl e.1 (List.mem_map_of_mem he))⟩
          simp [h, hnone]
        · simp [h]
      · next heq =>
        have hkl : k = l := Std.LawfulEqCmp.eq_of_compare heq
        rw [lookup_cons, lookup_cons, lookup_cons, ih has hbs]
        by_cases h : q = l <;> simp [h, hkl]
      · next hgt =>
        have hlk : compare l k = .lt := Std.OrientedCmp.lt_of_gt hgt
        rw [lookup_cons, lookup_cons q l, ihb hbs]
        by_cases h : q = l
        · have hnone : lookup l ((k, x) :: as) = none :=
            lookup_eq_none_of_lt <| List.forall_mem_cons.2
              ⟨hlk, fun e he => Std.TransCmp.lt_trans hlk (hk e.1 (List.mem_map_of_mem he))⟩
          simp [h, hnone]
        · simp [h]

theorem get?_unionWith (f : ν → ν → ν) (d : ν) (a b : SortedMap κ ν) (k : κ) :
    (a.unionWith f d b).get? k =
      ((a.get? k).or (b.get? k)).map fun _ => f (a.getD k d) (b.getD k d) :=
  lookup_mergeEntries f d a.increasing b.increasing k

/-- A union reads as the combination of the two readings. -/
theorem getD_unionWith (f : ν → ν → ν) {d : ν} (hd : f d d = d) (a b : SortedMap κ ν) (k : κ) :
    (a.unionWith f d b).getD k d = f (a.getD k d) (b.getD k d) := by
  rw [getD, get?_unionWith, getD, getD]
  cases a.get? k <;> cases b.get? k <;> simp [hd]

/-- A key is listed by a union if one of the two sides lists it. -/
theorem mem_keys_unionWith (f : ν → ν → ν) (d : ν) (a b : SortedMap κ ν) (k : κ) :
    k ∈ (a.unionWith f d b).keys ↔ k ∈ a.keys ∨ k ∈ b.keys := by
  simp [mem_keys_iff, get?_unionWith]

end Lawful

/-! ## One representation -/

theorem lt_of_lookup_ne_none [Std.LawfulEqOrd κ] [DecidableEq κ] {k k' : κ} {x : ν}
    {l : List (κ × ν)} (hl : KeysIncrease ((k', x) :: l)) (h : lookup k l ≠ none) :
    compare k' k = .lt := by
  have hk : k ∈ l.map (·.1) := (lookup_isSome_iff k l).1 (Option.isSome_iff_ne_none.2 h)
  obtain ⟨e, he, rfl⟩ := List.mem_map.1 hk
  exact (List.pairwise_cons.1 hl).1 e he

theorem entries_eq_of_lookup [Std.TransOrd κ] [Std.LawfulEqOrd κ] [DecidableEq κ]
    {l₁ l₂ : List (κ × ν)} (h₁ : KeysIncrease l₁) (h₂ : KeysIncrease l₂)
    (h : ∀ k, lookup k l₁ = lookup k l₂) : l₁ = l₂ := by
  induction l₁ generalizing l₂ with
  | nil =>
    cases l₂ with
    | nil => rfl
    | cons e₂ t₂ => have := h e₂.1; simp [lookup] at this
  | cons e₁ t₁ ih =>
    obtain ⟨k₁, x₁⟩ := e₁
    cases l₂ with
    | nil => have := h k₁; simp [lookup] at this
    | cons e₂ t₂ =>
      obtain ⟨k₂, x₂⟩ := e₂
      have hk : k₁ = k₂ := by
        by_cases hk : k₁ = k₂
        · exact hk
        · have ha := h k₁
          have hb := h k₂
          rw [lookup_cons, lookup_cons, if_pos rfl, if_neg hk] at ha
          rw [lookup_cons, lookup_cons, if_pos rfl, if_neg (Ne.symm hk)] at hb
          have hlt₁ := lt_of_lookup_ne_none h₂ (ha ▸ Option.some_ne_none x₁)
          have hlt₂ := lt_of_lookup_ne_none h₁ (hb ▸ Option.some_ne_none x₂)
          exact absurd (Std.TransCmp.lt_trans hlt₁ hlt₂) (by simp)
      subst hk
      have hx : x₁ = x₂ := by
        have := h k₁
        rw [lookup_cons, lookup_cons, if_pos rfl, if_pos rfl] at this
        exact Option.some.inj this
      obtain ⟨hd₁, ht₁⟩ := List.pairwise_cons.1 h₁
      obtain ⟨hd₂, ht₂⟩ := List.pairwise_cons.1 h₂
      have ht : t₁ = t₂ := ih ht₁ ht₂ fun k => by
        by_cases hk : k = k₁
        · rw [hk, lookup_eq_none_of_lt hd₁, lookup_eq_none_of_lt hd₂]
        · have := h k
          rwa [lookup_cons, lookup_cons, if_neg hk, if_neg hk] at this
      rw [hx, ht]

theorem lookup_eq_some_iff [Std.LawfulEqOrd κ] [DecidableEq κ] {k : κ} {x : ν} {l : List (κ × ν)}
    (h : KeysIncrease l) : lookup k l = some x ↔ (k, x) ∈ l := by
  induction l with
  | nil => simp [lookup]
  | cons e l ih =>
    obtain ⟨k', x'⟩ := e
    obtain ⟨hk', hl⟩ := keysIncrease_cons_iff.1 h
    rw [lookup_cons, List.mem_cons]
    by_cases hk : k = k'
    · subst hk
      have hnot : (k, x) ∉ l := fun hmem => by
        have hlt := hk' k (List.mem_map_of_mem hmem)
        rw [Std.LawfulEqOrd.compare_eq_iff_eq.2 rfl] at hlt
        cases hlt
      simp [hnot, eq_comm]
    · rw [if_neg hk, ih hl]
      simp [hk]

theorem mem_entries_iff [Std.LawfulEqOrd κ] [DecidableEq κ] (m : SortedMap κ ν) {k : κ} {x : ν} :
    (k, x) ∈ m.entries ↔ m.get? k = some x := (lookup_eq_some_iff m.increasing).symm

/-- Maps that read the same are the same. -/
theorem ext_get? [Std.TransOrd κ] [Std.LawfulEqOrd κ] [DecidableEq κ] {a b : SortedMap κ ν}
    (h : ∀ k, a.get? k = b.get? k) : a = b :=
  ext_entries (entries_eq_of_lookup a.increasing b.increasing h)

/-! ## Keys -/

section Keys

variable [Std.TransOrd κ] [Std.LawfulEqOrd κ] [DecidableEq κ]

/-- Maps that list the same keys list them in the same order. -/
theorem keys_eq_of_mem_iff {a b : SortedMap κ ν} (h : ∀ k, k ∈ a.keys ↔ k ∈ b.keys) :
    a.keys = b.keys := by
  -- without their values the two maps are the same
  let bare (m : SortedMap κ ν) : List (κ × Unit) := m.entries.map fun e => (e.1, ())
  have hkeys : ∀ m, (bare m).map (·.1) = m.keys := fun m => by simp [bare, keys]
  have hsorted : ∀ m, KeysIncrease (bare m) := fun m => List.pairwise_map.2 m.increasing
  have hsame : bare a = bare b := by
    refine entries_eq_of_lookup (hsorted a) (hsorted b) fun k => ?_
    have hsome : (lookup k (bare a)).isSome ↔ (lookup k (bare b)).isSome := by
      rw [lookup_isSome_iff, lookup_isSome_iff, hkeys, hkeys, h]
    cases ha : lookup k (bare a) <;> cases hb : lookup k (bare b) <;> simp_all
  rw [← hkeys, ← hkeys, hsame]

/-- Writing under a key that is listed lists no other. -/
theorem keys_insert_of_mem {m : SortedMap κ ν} {k : κ} (h : k ∈ m.keys) (x : ν) :
    (m.insert k x).keys = m.keys := by
  refine keys_eq_of_mem_iff fun k' => ?_
  rw [mem_keys_insert, or_iff_right_of_imp]
  rintro rfl
  exact h

theorem keys_unionWith_of_eq {a b : SortedMap κ ν} (h : b.keys = a.keys) (f : ν → ν → ν) (d : ν) :
    (a.unionWith f d b).keys = a.keys := by
  refine keys_eq_of_mem_iff fun k => ?_
  rw [mem_keys_unionWith, h, or_self]

theorem insert_insert_comm {k k' : κ} (h : k ≠ k') (m : SortedMap κ ν) (x y : ν) :
    (m.insert k x).insert k' y = (m.insert k' y).insert k x := by
  refine ext_get? fun q => ?_
  simp only [get?_insert]
  by_cases hk : q = k
  · simp [hk, h]
  · simp [hk]

end Keys

end SortedMap

end Mispredict
