import Mathlib.Data.List.Basic
import Mathlib.Algebra.Order.Group.Nat
import Mathlib.Tactic.Ring

/-!
# Buffers of bytes

A buffer of fixed length with copies into it and out of it.  A copy beyond its end fails.  What a buffer holds at an
offset is said by a list of bytes, so that adjacent pieces can be put together and taken apart.  Numbers are stored with
their low byte first.
-/

namespace Dinomo

open List

/-- A number as so many bytes, the low byte first. -/
def leBytes : ℕ → ℕ → List UInt8
  | 0, _ => []
  | k + 1, n => UInt8.ofNat n :: leBytes k (n / 256)

/-- The number of bytes with the low byte first. -/
def ofLeBytes : List UInt8 → ℕ
  | [] => 0
  | b :: bs => b.toNat + 256 * ofLeBytes bs

@[simp] theorem length_leBytes (k n : ℕ) : (leBytes k n).length = k := by
  induction k generalizing n with
  | zero => rfl
  | succ k ih => rw [leBytes, length_cons, ih]

/-- A number that fits is read back. -/
theorem ofLeBytes_leBytes {k n : ℕ} (h : n < 256 ^ k) : ofLeBytes (leBytes k n) = n := by
  induction k generalizing n with
  | zero =>
    rw [pow_zero, Nat.lt_one_iff] at h
    rw [h]
    rfl
  | succ k ih =>
    have hrest : n / 256 < 256 ^ k := Nat.div_lt_of_lt_mul (by rwa [pow_succ'] at h)
    rw [leBytes, ofLeBytes, ih hrest, UInt8.toNat_ofNat']
    exact Nat.mod_add_div n 256

/-- A buffer of `n` bytes. -/
structure Buffer (n : ℕ) where
  bytes : List UInt8
  length_bytes : bytes.length = n

namespace Buffer

variable {n : ℕ} {b : Buffer n} {off : ℕ} {src : List UInt8}

/-- Copy bytes to an offset. -/
def write (b : Buffer n) (off : ℕ) (src : List UInt8) : Option (Buffer n) :=
  if h : off + src.length ≤ n then
    some ⟨b.bytes.take off ++ (src ++ b.bytes.drop (off + src.length)), by
      have := b.length_bytes
      simp only [List.length_append, List.length_take, List.length_drop]
      omega⟩
  else none

/-- Copy bytes from an offset. -/
def read (b : Buffer n) (off len : ℕ) : Option (List UInt8) :=
  if off + len ≤ n then some ((b.bytes.drop off).take len) else none

/-- A buffer has these bytes at an offset. -/
def Holds (b : Buffer n) (off : ℕ) (src : List UInt8) : Prop := b.read off src.length = some src

theorem holds_iff : b.Holds off src ↔ off + src.length ≤ n ∧ (b.bytes.drop off).take src.length = src := by
  unfold Holds read
  split_ifs with h <;> simp [h]

/-- Adjacent pieces. -/
theorem holds_append {src' : List UInt8} :
    b.Holds off (src ++ src') ↔ b.Holds off src ∧ b.Holds (off + src.length) src' := by
  simp only [holds_iff, length_append, take_add, drop_drop]
  constructor
  · rintro ⟨hle, heq⟩
    have hlen : ((b.bytes.drop off).take src.length).length = src.length := by
      rw [length_take, length_drop, b.length_bytes]
      omega
    obtain ⟨hfirst, hsecond⟩ := append_inj heq hlen
    exact ⟨⟨by omega, hfirst⟩, ⟨by omega, hsecond⟩⟩
  · rintro ⟨⟨-, hfirst⟩, ⟨hle, hsecond⟩⟩
    exact ⟨by omega, by rw [hfirst, hsecond]⟩

/-- A copy that fits is done.  The bytes are there after it, and what was before them still is. -/
theorem exists_write (b : Buffer n) (h : off + src.length ≤ n) :
    ∃ b', b.write off src = some b' ∧ b'.Holds off src ∧ ∀ src', src'.length ≤ off → b.Holds 0 src' → b'.Holds 0 src' := by
  have hlen : (b.bytes.take off).length = off := by
    rw [length_take, b.length_bytes]
    omega
  refine ⟨_, dif_pos h, holds_iff.mpr ⟨h, ?_⟩, ?_⟩
  · rw [drop_left' hlen, take_left]
  · intro src' hle hsrc'
    obtain ⟨hfit, heq⟩ := holds_iff.mp hsrc'
    refine holds_iff.mpr ⟨hfit, ?_⟩
    rw [drop_zero, take_append_of_le_length (by omega), take_take, Nat.min_eq_left hle]
    exact heq

theorem holds_nil (b : Buffer n) : b.Holds 0 [] := holds_iff.mpr ⟨Nat.zero_le n, rfl⟩

/-- A copy right after what a buffer begins with. -/
theorem Holds.write {start : List UInt8} (hb : b.Holds 0 start) (h : start.length + src.length ≤ n) :
    ∃ b', b.write start.length src = some b' ∧ b'.Holds 0 (start ++ src) := by
  obtain ⟨b', hwrite, hsrc, hstart⟩ := b.exists_write h
  refine ⟨b', hwrite, holds_append.mpr ⟨hstart start le_rfl hb, ?_⟩⟩
  rwa [Nat.zero_add]

/-- Read a number. -/
def readWord (b : Buffer n) (k off : ℕ) : Option ℕ := (b.read off k).map ofLeBytes

theorem Holds.readWord {k m : ℕ} (hb : b.Holds off (leBytes k m)) (hm : m < 256 ^ k) : b.readWord k off = some m := by
  rw [Holds, length_leBytes] at hb
  rw [Buffer.readWord, hb, Option.map_some, ofLeBytes_leBytes hm]

end Buffer

end Dinomo
