/-
  What a visit lets an observer see, and when that is a leak.

  A visit makes at most one observation. Where it is recorded, its `Site`, depends on
  the point alone; the level that it shows depends on registers and memory. The
  observations after a visit are those before it, updated at its site
  (`get?_observations_after`).

  A state is harmless when it lists no observation but `eqLow` and `eqHigh`. From a
  harmless state a visit leads to a harmless one, unless it leaks: it is speculative,
  what it shows is secret, and the state has no committed baseline `eqHigh` for it
  (`harmless_after`). If it leaks, its site is the one violation in the state after it
  (`violations_after`).
-/
import Mispredict.Proofs.Step

namespace Mispredict

open MuAsm (Expr Instr Jump)

/-! ## Entries of a map -/

namespace SortedMap

universe u v

variable {κ : Type u} {ν : Type v} [Ord κ]

/-- If the entry put in is the only one with a property, it is the only one that a filter keeps. -/
theorem filter_insertEntry {p : κ × ν → Bool} {k : κ} {x : ν} {l : List (κ × ν)}
    (hp : p (k, x) = true) (h : ∀ e ∈ l, p e = false) :
    (insertEntry k x l).filter p = [(k, x)] := by
  induction l with
  | nil => simp [insertEntry, hp]
  | cons e l ih =>
    obtain ⟨k', x'⟩ := e
    have hhead : ¬ p (k', x') = true := by simp [h _ List.mem_cons_self]
    have htail : l.filter p = [] :=
      List.filter_eq_nil_iff.2 fun e he => by simp [h e (List.mem_cons_of_mem _ he)]
    rw [insertEntry]
    split
    · rw [List.filter_cons_of_pos hp, List.filter_cons_of_neg hhead, htail]
    · rw [List.filter_cons_of_pos hp, htail]
    · rw [List.filter_cons_of_neg hhead, ih fun e he => h e (List.mem_cons_of_mem _ he)]

end SortedMap

/-! ## Sites -/

/-- The two kinds of observations. -/
inductive Channel where
  | mem
  | ctrl
  deriving DecidableEq, Repr

def Channel.name : Channel → String
  | .mem => "obsMem"
  | .ctrl => "obsCtrl"

/-- Numbers are written without colons. -/
theorem colon_not_mem_toString (n : Int) : ':' ∉ (toString n).toList := by
  have hdigits : ∀ m : Nat, ':' ∉ (Nat.repr m).toList := by
    intro m h
    have hdigit : ':'.isDigit = true :=
      Nat.isDigit_of_mem_toDigits (b := 10) (n := m) (by decide) (by decide)
        (by simpa [Nat.repr] using h)
    cases hdigit
  cases n with
  | ofNat m => exact hdigits m
  | negSucc m =>
    intro h
    rw [show toString (Int.negSucc m) = "-" ++ Nat.repr (m + 1) from rfl, String.toList_append,
      List.mem_append] at h
    rcases h with h | h
    · simp at h
    · exact hdigits _ h

/-- Where an observation is recorded. -/
structure Site where
  channel : Channel
  key : String
  deriving DecidableEq, Repr

namespace MuAsm.Instr

/-- Where the instruction at `pc` records what an observer sees of it. -/
def site? (pc : String) : Instr → Option Site
  | .load _ addr => some ⟨.mem, pc ++ ":" ++ addr.render⟩
  | .store _ addr => some ⟨.mem, pc ++ ":" ++ addr.render⟩
  | .beqz _ _ _ => some ⟨.ctrl, pc⟩
  | .jmp target _ => some ⟨.ctrl, pc ++ ":target:" ++ target.render⟩
  | _ => none

/-- The key of a site starts with the program counter of its instruction. -/
theorem key_of_site? {pc : String} {i : Instr} {site : Site} (h : i.site? pc = some site) :
    site.key = pc ∨ ∃ rest, site.key = pc ++ ":" ++ rest := by
  cases i with
  | load _ addr => cases h; exact .inr ⟨_, rfl⟩
  | store _ addr => cases h; exact .inr ⟨_, rfl⟩
  | beqz _ _ _ => cases h; exact .inl rfl
  | jmp target _ =>
    cases h
    have hsplit : ":target:" = ":" ++ "target:" := by decide
    exact .inr ⟨"target:" ++ target.render, by simp only [hsplit, String.append_assoc]⟩
  | _ => cases h

end MuAsm.Instr

namespace State

def observations (s : State) : Channel → Observations
  | .mem => s.obsMem
  | .ctrl => s.obsCtrl

/-- What is known of the observation at a site; `bot` if it has not been made. -/
def seen (s : State) (site : Site) : Relation := (s.observations site.channel).getD site.key .bot

/-- The value that an instruction shows to an observer. -/
def shown (s : State) : Instr → Value
  | .load _ addr => (s.cell addr.render).join (s.eval addr)
  | .store _ addr => s.eval addr
  | .beqz cond _ _ => s.eval cond
  | .jmp _ (.pc _) => .low
  | .jmp target _ => s.eval target
  | _ => .low

/-- The observations of one channel after a visit that shows `l` at a site, or records nothing. -/
def noticed (s : State) (c : Channel) (site : Option Site) (l : Level) (mode : Mode) :
    Observations :=
  match site with
  | none => s.observations c
  | some site =>
    if site.channel = c then (s.observations c).observe site.key l mode else s.observations c

theorem observations_apply (s : State) (i : Instr) (pc : String) (mode : Mode) (c : Channel) :
    (s.apply i pc mode).observations c =
      s.noticed c (i.site? pc) ((s.shown i).view mode) mode := by
  cases i with
  | jmp target resolved => cases resolved <;> cases mode <;> cases c <;> rfl
  | _ => cases c <;> rfl

end State

namespace Setup

/-- The program counter and the instruction of a point, if it executes one. -/
def executed? (s : Setup) (k : Key) : Option (String × Instr) :=
  match s.graph.node? k.node with
  | none => none
  | some n =>
    match n.executes with
    | .ok (some i) => some (toString n.pc.toInt, i)
    | _ => none

/-- Where a visit of a point records what an observer sees of it. -/
def site? (s : Setup) (k : Key) : Option Site :=
  match s.executed? k with
  | some (pc, i) => i.site? pc
  | none => none

/-- The level that a visit of a point in the state `st` shows. -/
def shown (s : Setup) (k : Key) (st : State) : Level :=
  match s.executed? k with
  | some (_, i) => (st.shown i).view k.mode
  | none => .low

/-- Whether a visit leaks: speculation shows a secret for which the state has no baseline. -/
def leaks (s : Setup) (k : Key) (st : State) : Bool :=
  k.isSpeculative && (s.shown k st).isSecret && (s.site? k).any (st.seen · != .eqHigh)

variable {s : Setup} {k : Key} {st out : State} {site : Site}

theorem leaks_iff : s.leaks k st = true ↔
    k.mode = .speculative ∧ (s.shown k st).isSecret = true ∧
      ∃ site, s.site? k = some site ∧ st.seen site ≠ .eqHigh := by
  simp [leaks, Key.isSpeculative, Option.any_eq_true, and_assoc]

theorem executed?_eq_some_iff {pc : String} {i : Instr} : s.executed? k = some (pc, i) ↔
    ∃ n, s.graph.node? k.node = some n ∧ n.executes = .ok (some i) ∧ toString n.pc.toInt = pc := by
  unfold executed?
  constructor
  · intro h
    split at h
    · cases h
    · next n hn =>
      split at h
      · next i' hi =>
        cases h
        exact ⟨n, hn, hi, rfl⟩
      · cases h
  · rintro ⟨n, hn, hi, rfl⟩
    simp only [hn, hi]

/-- A point that can be visited executes an instruction, or leaves states as they are. -/
theorem after_cases (h : s.after k st = .ok out) :
    s.executed? k = none ∧ out = st ∨
      ∃ pc i, s.executed? k = some (pc, i) ∧ out = st.apply i pc k.mode := by
  obtain ⟨n, hn, h⟩ := after_eq_ok_iff.1 h
  obtain ⟨executed, he, h⟩ := bind_eq_ok_iff.1 h
  rw [executed?, hn]
  dsimp only
  rw [he]
  cases executed with
  | none => cases h; exact .inl ⟨rfl, rfl⟩
  | some i => cases h; exact .inr ⟨_, i, rfl, rfl⟩

theorem observations_after (h : s.after k st = .ok out) (c : Channel) :
    out.observations c = st.noticed c (s.site? k) (s.shown k st) k.mode := by
  rw [site?, shown]
  obtain ⟨he, rfl⟩ | ⟨pc, i, he, rfl⟩ := after_cases h
  · rw [he]
    rfl
  · rw [he]
    exact State.observations_apply ..

theorem key_of_site? (h : s.site? k = some site) :
    ∃ n, s.graph.node? k.node = some n ∧
      (site.key = toString n.pc.toInt ∨ ∃ rest, site.key = toString n.pc.toInt ++ ":" ++ rest) := by
  unfold site? at h
  split at h
  · next pc i he =>
    obtain ⟨n, hn, -, rfl⟩ := executed?_eq_some_iff.1 he
    exact ⟨n, hn, MuAsm.Instr.key_of_site? h⟩
  · cases h

end Setup

/-! ## Harmless states -/

/-- An observation that has been made, of which nothing is known but a level. -/
def Relation.IsHarmless (r : Relation) : Prop := r = .eqLow ∨ r = .eqHigh

namespace Relation.IsHarmless

theorem join {a b : Relation} (ha : a.IsHarmless) (hb : b.IsHarmless) : (a.join b).IsHarmless := by
  rcases ha with rfl | rfl <;> rcases hb with rfl | rfl <;> simp [IsHarmless, Relation.join]

theorem not_isViolation {r : Relation} (h : r.IsHarmless) : r.isViolation = false := by
  rcases h with rfl | rfl <;> rfl

end Relation.IsHarmless

/-- A baseline in a join comes from one of its sides. -/
theorem Relation.eq_eqHigh_of_join {a b : Relation} (ha : a = .bot ∨ a.IsHarmless)
    (hb : b = .bot ∨ b.IsHarmless) (h : a.join b = .eqHigh) : a = .eqHigh ∨ b = .eqHigh := by
  rcases ha with rfl | rfl | rfl <;> rcases hb with rfl | rfl | rfl <;>
    simp_all [Relation.join]

namespace Observations

/-- An event over a harmless observation, or over none, leaves a harmless one; only a speculative
    secret without baseline does not. -/
theorem isHarmless_update {r : Relation} (hr : r = .bot ∨ r.IsHarmless) (l : Level) (mode : Mode)
    (h : mode = .speculative → l.isSecret = true → r = .eqHigh) : (update r l mode).IsHarmless := by
  cases mode with
  | committed =>
    rcases hr with rfl | rfl | rfl <;> cases hl : l.isSecret <;>
      simp [update, hl, Relation.join, Relation.IsHarmless]
  | speculative =>
    cases hl : l.isSecret with
    | true => rw [h rfl hl]; simp [update, hl, Relation.IsHarmless]
    | false =>
      rcases hr with rfl | rfl | rfl <;> simp [update, hl, Relation.join, Relation.IsHarmless]

theorem update_eq_leak {r : Relation} {l : Level} (hl : l.isSecret = true) (h : r ≠ .eqHigh) :
    update r l .speculative = .leak := by
  simp [update, hl, h]

theorem update_eqHigh (l : Level) (mode : Mode) : update .eqHigh l mode = .eqHigh := by
  cases mode <;> cases hl : l.isSecret <;> simp [update, hl, Relation.join]

/-- A baseline was there before, or is made by a committed secret. -/
theorem eq_eqHigh_of_update {r : Relation} (hr : r = .bot ∨ r.IsHarmless) {l : Level} {mode : Mode}
    (h : update r l mode = .eqHigh) : r = .eqHigh ∨ mode = .committed ∧ l.isSecret = true := by
  cases mode <;> cases hl : l.isSecret <;> rcases hr with rfl | rfl | rfl <;>
    simp_all [update, Relation.join]

theorem update_committed_of_isSecret {r : Relation} (hr : r = .bot ∨ r.IsHarmless) {l : Level}
    (hl : l.isSecret = true) : update r l .committed = .eqHigh := by
  rcases hr with rfl | rfl | rfl <;> simp [update, hl, Relation.join]

end Observations

namespace State

/-- Every observation is `eqLow` or `eqHigh`. -/
def Harmless (s : State) : Prop :=
  ∀ c key r, (s.observations c).get? key = some r → r.IsHarmless

theorem seen_of_get?_eq_some {s : State} {c : Channel} {key : String} {r : Relation}
    (h : (s.observations c).get? key = some r) : s.seen ⟨c, key⟩ = r := by
  rw [seen, SortedMap.getD, h]
  rfl

theorem seen_of_get?_eq_none {s : State} {c : Channel} {key : String}
    (h : (s.observations c).get? key = none) : s.seen ⟨c, key⟩ = .bot := by
  rw [seen, SortedMap.getD, h]
  rfl

theorem Harmless.seen {s : State} (h : s.Harmless) (site : Site) :
    s.seen site = .bot ∨ (s.seen site).IsHarmless := by
  cases hr : (s.observations site.channel).get? site.key with
  | none => exact .inl (seen_of_get?_eq_none hr)
  | some r => exact .inr (seen_of_get?_eq_some hr ▸ h site.channel site.key r hr)

theorem harmless_seeded (p : Policy) (registers : List String) : (seeded p registers).Harmless := by
  intro c key r hr
  cases c <;> cases hr

theorem get?_observations_join (s t : State) (c : Channel) (key : String) :
    ((s.join t).observations c).get? key =
      (((s.observations c).get? key).or ((t.observations c).get? key)).map fun _ =>
        (s.seen ⟨c, key⟩).join (t.seen ⟨c, key⟩) := by
  cases c <;> exact SortedMap.get?_unionWith ..

theorem seen_join (s t : State) (site : Site) :
    (s.join t).seen site = (s.seen site).join (t.seen site) := by
  obtain ⟨c, key⟩ := site
  cases c <;> exact SortedMap.getD_unionWith Relation.join rfl ..

theorem observations_joinObservations (s t : State) (c : Channel) :
    (s.joinObservations t).observations c = (s.join t).observations c := by
  cases c <;> rfl

theorem Harmless.join {s t : State} (hs : s.Harmless) (ht : t.Harmless) : (s.join t).Harmless := by
  intro c key r hr
  rw [get?_observations_join] at hr
  cases ha : (s.observations c).get? key with
  | none =>
    cases hb : (t.observations c).get? key with
    | none => rw [ha, hb] at hr; cases hr
    | some b =>
      rw [ha, hb, seen_of_get?_eq_none ha, seen_of_get?_eq_some hb] at hr
      cases hr
      exact ht c key b hb
  | some a =>
    cases hb : (t.observations c).get? key with
    | none =>
      rw [ha, hb, seen_of_get?_eq_some ha, seen_of_get?_eq_none hb, Relation.join_comm] at hr
      cases hr
      exact hs c key a ha
    | some b =>
      rw [ha, hb, seen_of_get?_eq_some ha, seen_of_get?_eq_some hb] at hr
      cases hr
      exact (hs c key a ha).join (ht c key b hb)

theorem Harmless.joinObservations {s t : State} (hs : s.Harmless) (ht : t.Harmless) :
    (s.joinObservations t).Harmless := by
  intro c key r hr
  rw [observations_joinObservations] at hr
  exact hs.join ht c key r hr

/-- What a point receives is harmless when what it held and what is passed on are. -/
theorem Harmless.received {i out : State} {old : Option State} (hi : i.Harmless)
    (hold : ∀ s ∈ old, s.Harmless) (hout : out.Harmless) (p : Payload) :
    (Machine.received i old out p).Harmless := by
  cases p with
  | full =>
    cases old with
    | none => exact hout
    | some s => exact (hold s rfl).join hout
  | observations =>
    cases old with
    | none => exact hi.joinObservations hout
    | some s => exact (hold s rfl).joinObservations hout

/-! ## Violations -/

theorem any_values_iff (o : Observations) :
    o.values.any Relation.isViolation = true ↔
      ∃ key r, o.get? key = some r ∧ r.isViolation = true := by
  rw [SortedMap.values, List.any_map, List.any_eq_true]
  constructor
  · rintro ⟨⟨key, r⟩, he, hr⟩
    exact ⟨key, r, (SortedMap.mem_entries_iff o).1 he, hr⟩
  · rintro ⟨key, r, he, hr⟩
    exact ⟨(key, r), (SortedMap.mem_entries_iff o).2 he, hr⟩

theorem hasViolation_iff (s : State) :
    s.hasViolation = true ↔
      ∃ c key r, (s.observations c).get? key = some r ∧ r.isViolation = true := by
  rw [hasViolation, Bool.or_eq_true, any_values_iff, any_values_iff]
  constructor
  · rintro (h | h)
    · exact ⟨.mem, h⟩
    · exact ⟨.ctrl, h⟩
  · rintro ⟨c, h⟩
    cases c with
    | mem => exact .inl h
    | ctrl => exact .inr h

theorem Harmless.hasViolation {s : State} (h : s.Harmless) : s.hasViolation = false := by
  rw [Bool.eq_false_iff]
  intro hv
  obtain ⟨c, key, r, hr, hv⟩ := (hasViolation_iff s).1 hv
  rw [(h c key r hr).not_isViolation] at hv
  cases hv

theorem violations_eq (s : State) :
    s.violations = violationsIn Channel.mem.name (s.observations .mem) ++
      violationsIn Channel.ctrl.name (s.observations .ctrl) := rfl

theorem violationsIn_eq_nil (name : String) {o : Observations}
    (h : ∀ key r, o.get? key = some r → r.IsHarmless) : violationsIn name o = [] := by
  rw [violationsIn, List.map_eq_nil_iff, List.filter_eq_nil_iff]
  rintro ⟨key, r⟩ he
  simp [(h key r ((SortedMap.mem_entries_iff o).1 he)).not_isViolation]

theorem violationsIn_insert_leak (name : String) {o : Observations} (key : String)
    (h : ∀ key r, o.get? key = some r → r.IsHarmless) :
    violationsIn name (o.insert key .leak) = [⟨name, key, .leak⟩] := by
  have hfilter : (SortedMap.insertEntry key Relation.leak o.entries).filter (·.2.isViolation) =
      [(key, .leak)] := by
    refine SortedMap.filter_insertEntry rfl ?_
    rintro ⟨key', r⟩ he
    exact (h key' r ((SortedMap.mem_entries_iff o).1 he)).not_isViolation
  rw [violationsIn, SortedMap.insert, hfilter]
  rfl

end State

namespace Setup

variable {s : Setup} {k : Key} {st out : State}

theorem get?_observations_after {site : Site} (h : s.after k st = .ok out)
    (hsite : s.site? k = some site) (c : Channel) (key : String) :
    (out.observations c).get? key =
      if site = ⟨c, key⟩ then some (Observations.update (st.seen site) (s.shown k st) k.mode)
      else (st.observations c).get? key := by
  obtain ⟨c', key'⟩ := site
  rw [observations_after h, hsite, State.noticed]
  by_cases hc : c' = c
  · subst hc
    rw [if_pos rfl, Observations.observe, SortedMap.get?_insert]
    by_cases hkey : key = key'
    · rw [if_pos hkey, if_pos (by rw [hkey])]
      rfl
    · rw [if_neg hkey, if_neg fun heq => hkey (Site.mk.inj heq).2.symm]
  · rw [if_neg hc, if_neg fun heq => hc (Site.mk.inj heq).1]

theorem seen_after {site : Site} (h : s.after k st = .ok out) :
    out.seen site =
      if s.site? k = some site then Observations.update (st.seen site) (s.shown k st) k.mode
      else st.seen site := by
  cases hsite : s.site? k with
  | none =>
    rw [State.seen, observations_after h, hsite]
    rfl
  | some site' =>
    rw [State.seen, SortedMap.getD, get?_observations_after h hsite]
    by_cases heq : site' = site
    · subst heq
      rw [if_pos rfl, if_pos rfl]
      rfl
    · rw [if_neg heq, if_neg fun h' => heq (Option.some.inj h')]
      rfl

theorem harmless_after (hst : st.Harmless) (h : s.after k st = .ok out)
    (hleak : s.leaks k st = false) : out.Harmless := by
  intro c key r hr
  cases hsite : s.site? k with
  | none =>
    rw [observations_after h, hsite] at hr
    exact hst c key r hr
  | some site =>
    rw [get?_observations_after h hsite] at hr
    split at hr
    · cases hr
      refine Observations.isHarmless_update (hst.seen site) _ _ fun hmode hsecret => ?_
      by_contra hne
      exact absurd (leaks_iff.2 ⟨hmode, hsecret, site, hsite, hne⟩) (by simp [hleak])
    · exact hst c key r hr

/-- A leak from a harmless state: its site is the only violation after it. -/
theorem violations_after (hst : st.Harmless) (h : s.after k st = .ok out)
    (hleak : s.leaks k st = true) :
    k.mode = .speculative ∧ ∃ site, s.site? k = some site ∧
      (out.observations site.channel).get? site.key = some .leak ∧
      out.violations = [⟨site.channel.name, site.key, .leak⟩] := by
  obtain ⟨hmode, hsecret, site, hsite, hne⟩ := leaks_iff.1 hleak
  have hobserve : out.observations site.channel =
      (st.observations site.channel).insert site.key .leak := by
    rw [observations_after h, hsite, State.noticed, if_pos rfl, Observations.observe, hmode]
    exact congrArg _ (Observations.update_eq_leak hsecret hne)
  have hother : ∀ c, site.channel ≠ c → out.observations c = st.observations c := fun c hc => by
    rw [observations_after h, hsite, State.noticed, if_neg hc]
  refine ⟨hmode, site, hsite, ?_, ?_⟩
  · rw [hobserve, SortedMap.get?_insert, if_pos rfl]
  · rw [State.violations_eq]
    cases hc : site.channel with
    | mem =>
      rw [hc] at hobserve
      rw [hobserve, hother .ctrl (by simp [hc]), State.violationsIn_insert_leak _ _ (hst .mem),
        State.violationsIn_eq_nil _ (hst .ctrl)]
      rfl
    | ctrl =>
      rw [hc] at hobserve
      rw [hobserve, hother .mem (by simp [hc]), State.violationsIn_insert_leak _ _ (hst .ctrl),
        State.violationsIn_eq_nil _ (hst .mem)]
      rfl

/-- A visit that leaks shows a violation. -/
theorem hasViolation_of_leaks (h : s.after k st = .ok out) (hleak : s.leaks k st = true) :
    out.hasViolation = true := by
  obtain ⟨hmode, hsecret, site, hsite, hne⟩ := leaks_iff.1 hleak
  refine (State.hasViolation_iff out).2 ⟨site.channel, site.key, .leak, ?_, rfl⟩
  rw [get?_observations_after h hsite, if_pos rfl, hmode,
    Observations.update_eq_leak hsecret hne]

/-- The state after a visit from a harmless state shows a violation exactly if the visit leaks. -/
theorem hasViolation_after (hst : st.Harmless) (h : s.after k st = .ok out) :
    out.hasViolation = s.leaks k st := by
  cases hleak : s.leaks k st with
  | false => exact (harmless_after hst h hleak).hasViolation
  | true => exact hasViolation_of_leaks h hleak

end Setup

end Mispredict
