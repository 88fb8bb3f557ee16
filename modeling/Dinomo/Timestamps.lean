import Mathlib.Data.Nat.Log
import Mathlib.Data.Set.Insert
import Mathlib.Tactic.Linarith

/-!
# Timestamps of writes

`generate_timestamp` shifts the clock by a power of ten above the thread id and adds the id.  The power is that of the
id at hand, so the stamps of threads whose ids differ in length are not comparable, and the product is a word of 64 bits.
`LWWPairLattice` keeps the pair with the largest stamp, and the last to arrive of equal ones.
-/

namespace Dinomo

open List Option Nat

/-- The loop `while (id >= pow) pow *= 10`, over words of 32 bits. -/
def timestampPow (fuel id pow : ℕ) : Option ℕ :=
  match fuel with
  | 0 => none
  | fuel + 1 => if pow ≤ id then timestampPow fuel id (pow * 10 % 2 ^ 32) else some pow

/-- `generate_timestamp` at a time of the clock.  After 32 rounds the word `pow` is zero for ever, so that `none` says
that the loop does not end. -/
def generateTimestamp (time id : ℕ) : Option ℕ :=
  (timestampPow 33 id 10).map fun pow => (time * pow + id) % 2 ^ 64

/-- `TimestampValuePair`. -/
structure TimestampValuePair (V : Type*) where
  timestamp : ℕ
  value : V
  deriving Repr, DecidableEq

namespace TimestampValuePair

variable {V : Type*}

instance [Inhabited V] : Inhabited (TimestampValuePair V) := ⟨⟨0, default⟩⟩

/-- `LWWPairLattice::do_merge`. -/
def doMerge (element p : TimestampValuePair V) : TimestampValuePair V :=
  if element.timestamp ≤ p.timestamp then p else element

/-- `LWWPairLattice`, made without a pair and merged with pairs in turn. -/
def mergeAll [Inhabited V] (pairs : List (TimestampValuePair V)) : TimestampValuePair V := pairs.foldl doMerge default

variable {element p : TimestampValuePair V}

theorem doMerge_of_le (h : element.timestamp ≤ p.timestamp) :
    element.doMerge p = p := if_pos h

theorem doMerge_of_lt (h : p.timestamp < element.timestamp) :
    element.doMerge p = element := if_neg h.not_ge

theorem timestamp_doMerge_le {q : TimestampValuePair V} (he : element.timestamp ≤ q.timestamp)
    (hp : p.timestamp ≤ q.timestamp) : (element.doMerge p).timestamp ≤ q.timestamp := by
  unfold doMerge
  split_ifs
  · exact hp
  · exact he

/-- A pair that has all others below it stays. -/
theorem foldl_doMerge_of_latest {pairs : List (TimestampValuePair V)}
    (h : ∀ q ∈ pairs, q ≠ element → q.timestamp < element.timestamp) : pairs.foldl doMerge element = element := by
  induction pairs with
  | nil => rfl
  | cons q pairs ih =>
    have hq : element.doMerge q = element := by
      by_cases heq : q = element
      · rw [heq, doMerge_of_le le_rfl]
      · exact doMerge_of_lt (h q mem_cons_self heq)
    rw [foldl_cons, hq]
    exact ih fun q' hq' => h q' (mem_cons_of_mem q hq')

/-- In whatever order pairs are merged, the one that has all others below it is left. -/
theorem foldl_doMerge_eq {pairs : List (TimestampValuePair V)}
    (he : element.timestamp ≤ p.timestamp) (hp : p ∈ pairs) (h : ∀ q ∈ pairs, q ≠ p → q.timestamp < p.timestamp) :
    pairs.foldl doMerge element = p := by
  induction pairs generalizing element with
  | nil => exact absurd hp not_mem_nil
  | cons q pairs ih =>
    have hrest : ∀ q' ∈ pairs, q' ≠ p → q'.timestamp < p.timestamp := fun q' hq' => h q' (mem_cons_of_mem q hq')
    rw [foldl_cons]
    by_cases heq : q = p
    · rw [heq, doMerge_of_le he]
      exact foldl_doMerge_of_latest hrest
    · have hle : q.timestamp ≤ p.timestamp := (h q mem_cons_self heq).le
      exact ih (timestamp_doMerge_le he hle) ((mem_cons.mp hp).resolve_left (Ne.symm heq)) hrest

end TimestampValuePair

/-- A write: the time of the clock and the thread that stamps it, and its value. -/
structure TimedWrite (V : Type*) where
  time : ℕ
  id : ℕ
  value : V
  deriving Repr, DecidableEq

/-- The pair that is sent for a write. -/
def TimedWrite.stamped {V : Type*} (w : TimedWrite V) : Option (TimestampValuePair V) :=
  (generateTimestamp w.time w.id).map fun ts => ⟨ts, w.value⟩

/-- The stamp of a later write is larger, for threads with ids in a set and times of the clock below a bound. -/
def LaterLarger (ids : Set ℕ) (clock : ℕ) : Prop :=
  ∀ a ∈ ids, ∀ b ∈ ids, ∀ t₁ t₂, t₁ < t₂ → t₂ < clock →
    ∃ s₁ s₂, generateTimestamp t₁ a = some s₁ ∧ generateTimestamp t₂ b = some s₂ ∧ s₁ < s₂

/-- The last writer wins, among threads with ids in a set and at times of the clock below a bound. -/
structure LastWriterWins (V : Type*) [Inhabited V] (ids : Set ℕ) (clock : ℕ) : Prop where
  larger : LaterLarger ids clock
  /-- Stamps are those of one time and thread. -/
  distinct : ∀ a ∈ ids, ∀ b ∈ ids, ∀ t₁ t₂, t₁ < clock → t₂ < clock →
    generateTimestamp t₁ a = generateTimestamp t₂ b → t₁ = t₂ ∧ a = b
  /-- In whatever order writes are merged, the one that is later than all others is left. -/
  merged : ∀ (writes : List (TimedWrite V)) (w : TimedWrite V), (∀ v ∈ writes, v.id ∈ ids ∧ v.time < clock) →
    w ∈ writes → (∀ v ∈ writes, v ≠ w → v.time < w.time) →
    (TimestampValuePair.mergeAll (writes.filterMap TimedWrite.stamped)).value = w.value

section Pow

variable {id : ℕ}

/-- A loop goes on from the word it has come to. -/
theorem timestampPow_add (n m pow : ℕ) (hpow : pow < 2 ^ 32) :
    timestampPow (n + m) id pow = (timestampPow n id pow).or (timestampPow m id (pow * 10 ^ n % 2 ^ 32)) := by
  induction n generalizing pow with
  | zero => rw [zero_add, timestampPow, none_or, pow_zero, mul_one, mod_eq_of_lt hpow]
  | succ n ih =>
    rw [succ_add, timestampPow, timestampPow]
    split_ifs with hle
    · rw [ih _ (mod_lt _ (by decide)), mod_mul_mod, mul_assoc, ← pow_succ']
    · rfl

theorem timestampPow_zero (fuel : ℕ) : timestampPow fuel id 0 = none := by
  induction fuel with
  | zero => rfl
  | succ fuel ih => rw [timestampPow, if_pos (zero_le id), zero_mul, zero_mod, ih]

/-- A loop that has not ended after 33 rounds does not end. -/
theorem timestampPow_more (more : ℕ) : timestampPow (33 + more) id 10 = timestampPow 33 id 10 := by
  rw [timestampPow_add 33 more 10 (by decide), show 10 * 10 ^ 33 % 2 ^ 32 = 0 from by decide, timestampPow_zero,
    or_none]

/-- Powers of ten up to that of the id are passed one by one. -/
theorem timestampPow_pow {k : ℕ} (hid : id < 10 ^ 9) (hk : k ≤ Nat.log 10 id) {fuel : ℕ}
    (hfuel : Nat.log 10 id < k + fuel) : timestampPow fuel id (10 ^ (k + 1)) = some (10 ^ (Nat.log 10 id + 1)) := by
  induction fuel generalizing k with
  | zero => omega
  | succ fuel ih =>
    unfold timestampPow
    rcases hk.eq_or_lt with rfl | hlt
    · rw [if_neg (Nat.lt_pow_succ_log_self (by decide) id).not_ge]
    · have hzero : id ≠ 0 := by
        rintro rfl
        simp at hlt
      have hpow : 10 ^ (k + 1) ≤ id := Nat.pow_le_of_le_log hzero hlt
      have hword : 10 ^ (k + 1) * 10 % 2 ^ 32 = 10 ^ (k + 1 + 1) := by
        rw [← pow_succ]
        refine Nat.mod_eq_of_lt ?_
        have hnine : k + 1 < 9 := (Nat.pow_lt_pow_iff_right (by decide)).mp (hpow.trans_lt hid)
        exact (Nat.pow_le_pow_right (by decide) hnine).trans_lt (by decide)
      rw [if_pos hpow, hword]
      exact ih hlt (by omega)

theorem log_lt_nine (hid : id < 10 ^ 9) : log 10 id < 9 := log_lt_of_lt_pow' (by decide) hid

/-- For ids below the ninth power of ten the loop ends with the first power of ten above the id. -/
theorem generateTimestamp_eq (time : ℕ) (hid : id < 10 ^ 9) :
    generateTimestamp time id = some ((time * 10 ^ (log 10 id + 1) + id) % 2 ^ 64) := by
  have hshift : timestampPow 33 id 10 = some (10 ^ (log 10 id + 1)) :=
    timestampPow_pow hid (zero_le _) (by have := log_lt_nine hid; omega)
  rw [generateTimestamp, hshift, map_some]

end Pow

section Stamps

variable {ids : Set ℕ} {clock a b t₁ t₂ : ℕ}

theorem lt_shift (a : ℕ) : a < 10 ^ (log 10 a + 1) := lt_pow_succ_log_self (by decide) a

theorem shift_le (ha : a < 10 ^ 9) : 10 ^ (Nat.log 10 a + 1) ≤ 10 ^ 9 :=
  Nat.pow_le_pow_right (by decide) (log_lt_nine ha)

/-- The words do not wrap round at earlier times either. -/
theorem generateTimestamp_of_clock (ha : a < 10 ^ 9) (hfit : (clock - 1) * 10 ^ (Nat.log 10 a + 1) + a < 2 ^ 64)
    (ht : t₁ < clock) : generateTimestamp t₁ a = some (t₁ * 10 ^ (Nat.log 10 a + 1) + a) := by
  have hle : t₁ * 10 ^ (Nat.log 10 a + 1) ≤ (clock - 1) * 10 ^ (Nat.log 10 a + 1) := Nat.mul_le_mul_right _ (by omega)
  rw [generateTimestamp_eq t₁ ha, Nat.mod_eq_of_lt ((Nat.add_le_add_right hle a).trans_lt hfit)]

/-- With one shift for all threads the time decides. -/
theorem shifted_lt {p : ℕ} (ha : a < p) (h : t₁ < t₂) : t₁ * p + a < t₂ * p + b :=
  calc t₁ * p + a < t₁ * p + p := Nat.add_lt_add_left ha _
    _ = (t₁ + 1) * p := (Nat.succ_mul t₁ p).symm
    _ ≤ t₂ * p := Nat.mul_le_mul_right p h
    _ ≤ t₂ * p + b := Nat.le_add_right _ _

/-- With one shift for all threads the time and the thread can be read off. -/
theorem shifted_inj {p : ℕ} (ha : a < p) (hb : b < p) (h : t₁ * p + a = t₂ * p + b) : t₁ = t₂ ∧ a = b := by
  rcases lt_trichotomy t₁ t₂ with hlt | rfl | hlt
  · exact absurd h (shifted_lt ha hlt).ne
  · exact ⟨rfl, add_left_cancel h⟩
  · exact absurd h (shifted_lt hb hlt).ne'

/-- The pairs of writes are merged to that of the write with the largest stamp. -/
theorem mergeAll_stamped {V : Type*} [Inhabited V] {writes : List (TimedWrite V)} {w : TimedWrite V}
    {p : TimestampValuePair V} (hw : w ∈ writes) (hp : w.stamped = some p)
    (h : ∀ v ∈ writes, v ≠ w → ∀ q, v.stamped = some q → q.timestamp < p.timestamp) :
    TimestampValuePair.mergeAll (writes.filterMap TimedWrite.stamped) = p := by
  refine TimestampValuePair.foldl_doMerge_eq (zero_le _) (mem_filterMap.mpr ⟨w, hw, hp⟩) ?_
  intro q hq hne
  obtain ⟨v, hv, hvq⟩ := mem_filterMap.mp hq
  refine h v hv ?_ q hvq
  rintro rfl
  exact hne (some.inj (hvq.symm.trans hp))

/-- Larger stamps for later writes are enough for the merges. -/
theorem LaterLarger.merged {V : Type*} [Inhabited V] (larger : LaterLarger ids clock) (hids : ∀ a ∈ ids, a < 10 ^ 9)
    {writes : List (TimedWrite V)} {w : TimedWrite V} (hwrites : ∀ v ∈ writes, v.id ∈ ids ∧ v.time < clock)
    (hw : w ∈ writes) (hlast : ∀ v ∈ writes, v ≠ w → v.time < w.time) :
    (TimestampValuePair.mergeAll (writes.filterMap TimedWrite.stamped)).value = w.value := by
  obtain ⟨hid, htime⟩ := hwrites w hw
  obtain ⟨s, hs⟩ : ∃ s, generateTimestamp w.time w.id = some s := ⟨_, generateTimestamp_eq w.time (hids w.id hid)⟩
  have hp : w.stamped = some ⟨s, w.value⟩ := by rw [TimedWrite.stamped, hs, map_some]
  rw [mergeAll_stamped hw hp]
  intro v hv hne q hq
  obtain ⟨s₁, s₂, hs₁, hs₂, hlt⟩ := larger v.id (hwrites v hv).1 w.id hid v.time w.time (hlast v hv hne) htime
  rw [TimedWrite.stamped, hs₁, map_some] at hq
  rw [← some.inj hq, ← some.inj (hs₂.symm.trans hs)]
  exact hlt

/-- A thread with a longer id outruns one with a shorter id that writes one tick later. -/
theorem longer_id_outruns (ha : a < 10 ^ 9) (hb : b < 10 ^ 9) (h : Nat.log 10 a < Nat.log 10 b) :
    ∃ s₁ s₂, generateTimestamp 1 b = some s₁ ∧ generateTimestamp 2 a = some s₂ ∧ s₂ < s₁ := by
  have hshift : 10 ^ (Nat.log 10 a + 1) ≤ 10 ^ Nat.log 10 b := Nat.pow_le_pow_right (by decide) h
  have hpow : 10 ^ (Nat.log 10 b + 1) = 10 ^ Nat.log 10 b * 10 := pow_succ 10 _
  have hpos : 0 < 10 ^ Nat.log 10 b := Nat.pow_pos (by decide)
  have hal := lt_shift a
  have hbl := lt_shift b
  have hble := shift_le hb
  refine ⟨_, _, generateTimestamp_eq 1 hb, generateTimestamp_eq 2 ha, ?_⟩
  rw [Nat.mod_eq_of_lt (by omega), Nat.mod_eq_of_lt (by omega)]
  omega

/-- So no id is shorter than another, if later stamps are larger. -/
theorem LaterLarger.log_le (larger : LaterLarger ids clock) (hids : ∀ a ∈ ids, a < 10 ^ 9) (hclock : 3 ≤ clock)
    (ha : a ∈ ids) (hb : b ∈ ids) : log 10 b ≤ log 10 a := by
  by_contra hlt
  obtain ⟨s₁, s₂, hs₁, hs₂, hgt⟩ := longer_id_outruns (hids a ha) (hids b hb) (not_le.mp hlt)
  obtain ⟨r₁, r₂, hr₁, hr₂, hr⟩ := larger b hb a ha 1 2 (by decide) (by omega)
  have hfirst := some.inj (hs₁.symm.trans hr₁)
  have hsecond := some.inj (hs₂.symm.trans hr₂)
  omega

/-- If the stamps of a thread grow with the clock, then they have not wrapped round. -/
theorem LaterLarger.fits (larger : LaterLarger ids clock) (hmem : a ∈ ids) (ha : a < 10 ^ 9) {t : ℕ} (ht : t < clock) :
    t * 10 ^ (log 10 a + 1) + a < 2 ^ 64 := by
  induction t with
  | zero => omega
  | succ t ih =>
    have hprev := ih (by omega)
    have hshift := shift_le ha
    obtain ⟨s₁, s₂, hs₁, hs₂, hlt⟩ := larger a hmem a hmem t (t + 1) (lt_succ_self t) ht
    rw [generateTimestamp_eq t ha, mod_eq_of_lt hprev] at hs₁
    rw [generateTimestamp_eq (t + 1) ha, succ_mul] at hs₂
    by_contra hge
    rw [succ_mul] at hge
    -- The word goes round once, to less than it was a tick ago.
    have hwrap : s₂ = t * 10 ^ (log 10 a + 1) + 10 ^ (log 10 a + 1) + a - 2 ^ 64 := by
      rw [← some.inj hs₂, mod_eq_sub_mod (by omega), mod_eq_of_lt (by omega)]
    have hfirst := some.inj hs₁
    omega

end Stamps

/-- The last writer wins if and only if the ids of all threads have the same number of digits and the last stamps of the
clock are words. -/
theorem last_writer_wins_iff {V : Type*} [Inhabited V] {ids : Set ℕ} {clock : ℕ} (hids : ∀ a ∈ ids, a < 10 ^ 9)
    (hclock : 3 ≤ clock) :
    LastWriterWins V ids clock ↔
      (∀ a ∈ ids, ∀ b ∈ ids, Nat.log 10 a = Nat.log 10 b) ∧
      ∀ a ∈ ids, (clock - 1) * 10 ^ (Nat.log 10 a + 1) + a < 2 ^ 64 := by
  constructor
  · intro h
    constructor
    · intro a ha b hb
      exact le_antisymm (h.larger.log_le hids hclock hb ha) (h.larger.log_le hids hclock ha hb)
    · intro a ha
      exact h.larger.fits ha (hids a ha) (by omega)
  · rintro ⟨hdigits, hfit⟩
    have hstamp : ∀ a ∈ ids, ∀ t < clock, generateTimestamp t a = some (t * 10 ^ (Nat.log 10 a + 1) + a) :=
      fun a ha t ht => generateTimestamp_of_clock (hids a ha) (hfit a ha) ht
    have larger : LaterLarger ids clock := by
      intro a ha b hb t₁ t₂ hlt ht
      refine ⟨_, _, hstamp a ha t₁ (hlt.trans ht), hstamp b hb t₂ ht, ?_⟩
      rw [hdigits b hb a ha]
      exact shifted_lt (lt_shift a) hlt
    refine ⟨larger, ?_, fun writes w hwrites hw hlast => larger.merged hids hwrites hw hlast⟩
    intro a ha b hb t₁ t₂ ht₁ ht₂ heq
    rw [hstamp a ha t₁ ht₁, hstamp b hb t₂ ht₂, hdigits b hb a ha] at heq
    exact shifted_inj (lt_shift a) (hdigits b hb a ha ▸ lt_shift b) (Option.some.inj heq)

/-- Two threads with ids of one digit, for as long as the shifted clock is a word. -/
theorem last_writer_wins_iff_oneDigit :
    (∀ a ∈ ({3, 7} : Set ℕ), a < 10 ^ 9) ∧ 3 ≤ 2 ^ 60 ∧ LastWriterWins String {3, 7} (2 ^ 60) := by
  have hids : ∀ a ∈ ({3, 7} : Set ℕ), a < 10 ^ 9 := by simp
  have hlog : ∀ a ∈ ({3, 7} : Set ℕ), Nat.log 10 a = 0 := by simp
  refine ⟨hids, by decide, (last_writer_wins_iff hids (by decide)).mpr ⟨?_, ?_⟩⟩
  · intro a ha b hb
    rw [hlog a ha, hlog b hb]
  · intro a ha
    rw [hlog a ha]
    rcases ha with rfl | rfl <;> decide

/-- A write at time 6 by thread 1 loses to one at time 5 by thread 10.  Writes at time 1 by thread 10 and at time 11 by
thread 0 have one stamp, so that the last to arrive wins. -/
theorem later_write_loses :
    generateTimestamp 5 10 = some 510 ∧ generateTimestamp 6 1 = some 61 ∧
    (TimestampValuePair.mergeAll ([⟨5, 10, 'a'⟩, ⟨6, 1, 'b'⟩].filterMap TimedWrite.stamped)).value = 'a' ∧
    generateTimestamp 1 10 = generateTimestamp 11 0 ∧
    (TimestampValuePair.mergeAll ([⟨11, 0, 'b'⟩, ⟨1, 10, 'a'⟩].filterMap TimedWrite.stamped)).value = 'a' ∧
    ¬ LastWriterWins Char {1, 10} 7 := by
  refine ⟨rfl, rfl, rfl, rfl, rfl, ?_⟩
  intro h
  obtain ⟨s₁, s₂, hs₁, hs₂, hlt⟩ := h.larger 10 (by simp) 1 (by simp) 5 6 (by decide) (by decide)
  have hfirst : 510 = s₁ := Option.some.inj hs₁
  have hsecond : 61 = s₂ := Option.some.inj hs₂
  omega

end Dinomo
