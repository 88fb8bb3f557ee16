import Dinomo.Library.Buffer
import Mathlib.Data.BitVec

/-!
# Byte orders

A host stores a word with its low byte first or with its high byte first.  A word that is converted before it is stored is
in memory with its high byte first on every host, so that another host can read it there and convert it back.
-/

namespace Dinomo

/-- The bytes of a number make the number. -/
theorem leBytes_ofLeBytes (bs : List UInt8) : leBytes bs.length (ofLeBytes bs) = bs := by
  induction bs with
  | nil => rfl
  | cons b bs ih =>
    have hhead : UInt8.ofNat (b.toNat + 256 * ofLeBytes bs) = b := by
      rw [UInt8.ofNat_eq_iff_mod_eq_toNat, Nat.add_mul_mod_self_left]
      exact Nat.mod_eq_of_lt b.toNat_lt
    have htail : (b.toNat + 256 * ofLeBytes bs) / 256 = ofLeBytes bs := by
      have := b.toNat_lt
      omega
    rw [List.length_cons, ofLeBytes, leBytes, hhead, htail, ih]

theorem ofLeBytes_lt (bs : List UInt8) : ofLeBytes bs < 256 ^ bs.length := by
  induction bs with
  | nil => decide
  | cons b bs ih =>
    have := b.toNat_lt
    rw [ofLeBytes, List.length_cons, pow_succ']
    omega

/-- The byte order of a host. -/
inductive Endian
  | little
  | big
deriving DecidableEq

namespace Endian

variable {w k : ℕ} (e : Endian)

/-- A word of `k` bytes in memory. -/
def store (k : ℕ) (x : BitVec w) : List UInt8 :=
  match e with
  | little => leBytes k x.toNat
  | big => (leBytes k x.toNat).reverse

/-- The word in memory. -/
def load (w : ℕ) (bs : List UInt8) : BitVec w :=
  match e with
  | little => .ofNat w (ofLeBytes bs)
  | big => .ofNat w (ofLeBytes bs.reverse)

/-- A word of `k` bytes in network order; the conversion is its own inverse. -/
def hton (k : ℕ) (x : BitVec w) : BitVec w :=
  match e with
  | little => .ofNat w (ofLeBytes (leBytes k x.toNat).reverse)
  | big => x

theorem toNat_swap (hw : 2 ^ w = 256 ^ k) (n : ℕ) : (BitVec.ofNat w (ofLeBytes (leBytes k n).reverse)).toNat =
    ofLeBytes (leBytes k n).reverse := by
  have hlt := ofLeBytes_lt (leBytes k n).reverse
  rw [List.length_reverse, length_leBytes, ← hw] at hlt
  rw [BitVec.toNat_ofNat, Nat.mod_eq_of_lt hlt]

theorem leBytes_swap (k n : ℕ) : leBytes k (ofLeBytes (leBytes k n).reverse) = (leBytes k n).reverse := by
  have hbytes := leBytes_ofLeBytes (leBytes k n).reverse
  rwa [List.length_reverse, length_leBytes] at hbytes

theorem ofNat_leBytes (hw : 2 ^ w = 256 ^ k) (x : BitVec w) : BitVec.ofNat w (ofLeBytes (leBytes k x.toNat)) = x := by
  rw [ofLeBytes_leBytes (hw ▸ x.isLt), BitVec.ofNat_toNat, BitVec.setWidth_eq]

/-- A converted word has its high byte first. -/
theorem store_hton (hw : 2 ^ w = 256 ^ k) (x : BitVec w) : e.store k (e.hton k x) = (leBytes k x.toNat).reverse := by
  cases e with
  | little => rw [store, hton, toNat_swap hw, leBytes_swap]
  | big => rfl

/-- Such a word is read and converted back. -/
theorem hton_load (hw : 2 ^ w = 256 ^ k) (x : BitVec w) : e.hton k (e.load w (leBytes k x.toNat).reverse) = x := by
  cases e with
  | little => rw [hton, load, toNat_swap hw, leBytes_swap, List.reverse_reverse, ofNat_leBytes hw]
  | big => rw [hton, load, List.reverse_reverse, ofNat_leBytes hw]

end Endian

end Dinomo
