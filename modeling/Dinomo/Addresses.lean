import Dinomo.KeyNumbers
import Dinomo.Replication

/-!
# Addresses

The processes know each other by texts.  An address is put together from the address of a node and a port, which is the
number of a thread added to a base for each purpose, and it is taken apart again at its colons.
-/

namespace Dinomo

open KeyText

/-- An address of a node or of a socket. -/
abbrev Address := KeyText

/-- `std::to_string` of an unsigned number. -/
def decimal (n : ℕ) : KeyText := Nat.toDigits 10 n

/-- `kKeyRequestPort`. -/
def kKeyRequestPort : ℕ := 6400

/-- `key_request_connect_address`. -/
def ServerThread.keyRequestConnectAddress {N : Type*} (publicIp : N → Address) (st : ServerThread N) : Address :=
  "tcp://".toList ++ publicIp st.node ++ ":".toList ++ decimal (st.tid + kKeyRequestPort)

/-- Different numbers have different texts. -/
theorem decimal_injective : Function.Injective decimal := fun n m heq => by
  rw [← (value_toDigits n).1, ← (value_toDigits m).1]
  exact congrArg (value 10) heq

/-- The text of a number has digits only. -/
theorem notMem_decimal {c : Char} (hc : isDigit 10 c = false) (n : ℕ) : c ∉ decimal n := fun hin => by
  have hdigit := (value_toDigits n).2.1 c hin
  exact absurd (hdigit.symm.trans hc) (by decide)

/-- What is before the first delimiter is the first item. -/
theorem split_append_delim {delim : Char} {a : KeyText} (ha : delim ∉ a) (b : KeyText) :
    split delim (a ++ delim :: b) = a :: split delim b := by
  induction a with
  | nil => rw [List.nil_append, split, if_pos rfl]
  | cons c a ih =>
    obtain ⟨hc, ha⟩ := not_or.mp (mt List.mem_cons.mpr ha)
    rw [List.cons_append, split, if_neg (Ne.symm hc), ih ha]

/-- The items of an address of a node without colons are the protocol, the node and the port. -/
theorem split_tcp {ip port : KeyText} (hip : ':' ∉ ip) (hport : ':' ∉ port) (hne : port ≠ []) :
    split ':' ("tcp://".toList ++ ip ++ ":".toList ++ port) = ["tcp".toList, "//".toList ++ ip, port] := by
  have htext : "tcp://".toList ++ ip ++ ":".toList ++ port = "tcp".toList ++ ':' :: ("//".toList ++ ip ++ ':' :: port) := by
    simp
  have hnode : ':' ∉ "//".toList ++ ip := fun hin => (List.mem_append.mp hin).elim (fun h => absurd h (by decide)) hip
  rw [htext, split_append_delim (by decide), split_append_delim hnode, split_of_notMem hport hne]

/-- The address at which a thread takes requests is one of them. -/
theorem split_keyRequestConnectAddress {N : Type*} {publicIp : N → Address} {st : ServerThread N}
    (hip : ':' ∉ publicIp st.node) : split ':' (st.keyRequestConnectAddress publicIp) =
      ["tcp".toList, "//".toList ++ publicIp st.node, decimal (st.tid + kKeyRequestPort)] :=
  split_tcp hip (notMem_decimal (by decide) _) Nat.toDigits_ne_nil

end Dinomo
