import Mathlib.Data.BitVec
import Mathlib.Data.List.Basic
import Mathlib.Logic.Function.Basic
import Mathlib.Tactic.IntervalCases

/-!
# Request codes

A request to the storage manager carries a word of immediate data: the rank and the thread of the sender below, and above
them a run of ones that tells the kind of the request.  The manager reads the kind by tests of single bits, from the
longest run to the shortest, shifts the run out, and answers on the queue pair at the index of the rank and the thread.
-/

namespace Dinomo

open List BitVec

/-- The requests of a compute node to the storage manager. -/
inductive RequestKind where
  | preallocate
  | mergeAll
  | failover
  | installIndirect
  | removeIndirect
  | putMeta
  | getMeta
  deriving Repr, DecidableEq

/-- `SET_IMM`. -/
def setImm (x y : ℕ) : BitVec 32 := BitVec.ofNat 32 (x <<< 16) ||| BitVec.ofNat 32 y

namespace RequestKind

/-- The bits that `SET_MERGE_ALL` to `SET_GET_META` set. -/
def typeBits : RequestKind → BitVec 32
  | preallocate => 0
  | mergeAll => 0b1#32 <<< 31
  | failover => 0b11#32 <<< 30
  | installIndirect => 0b111#32 <<< 29
  | removeIndirect => 0b1111#32 <<< 28
  | putMeta => 0b11111#32 <<< 27
  | getMeta => 0b111111#32 <<< 26

/-- The immediate data of a request.  Failover puts the rank of the failed node in the place of the thread. -/
def immData (kind : RequestKind) (rank id : ℕ) : BitVec 32 := setImm rank id ||| kind.typeBits

end RequestKind

/-- `htonl` and `ntohl`: the bytes of a word in reverse order. -/
def htonl (x : BitVec 32) : BitVec 32 :=
  x.extractLsb' 0 8 ++ x.extractLsb' 8 8 ++ x.extractLsb' 16 8 ++ x.extractLsb' 24 8

/-- `IS_MERGE_ALL` to `IS_GET_META`: a test of one bit. -/
def isSet (i : ℕ) (x : BitVec 32) : Bool := 1#32 <<< i &&& x != 0#32

/-- `INVALIDATE_TYPE_BITS`. -/
def invalidateTypeBits (x : BitVec 32) : BitVec 32 := x <<< 6 >>> 6

/-- `GET_RANK`. -/
def getRank (x : BitVec 32) : ℕ := (x >>> 16).toNat

/-- `GET_CLIENT_THREAD_ID`. -/
def getClientThreadId (x : BitVec 32) : ℕ := (1#32 <<< 16 - 1#32 &&& x).toNat

/-- What the manager does for a request. -/
inductive ManagerAction where
  | preallocate
  | getMetadata
  | putMetadata
  | removeIndirect
  | installIndirect
  | mergeFailed (failedNodeRank : ℕ)
  | merge (clientRank clientThreadId : ℕ)
  deriving Repr, DecidableEq

/-- The immediate data of an answer, if it is not one with a payload. -/
inductive ControlMessage where
  | stop
  | commit
  deriving Repr, DecidableEq

/-- What the manager reads from a request, and where and how it answers. -/
structure Dispatch where
  action : ManagerAction
  clientRank : ℕ
  clientThreadId : ℕ
  queuePair : ℕ
  answer : Option ControlMessage
  deriving Repr, DecidableEq

/-- The part of `server_manager_thread` that looks at the immediate data. -/
def serverManager (numConcurrMsgs : ℕ) (data : BitVec 32) : Dispatch :=
  let immData := htonl data
  let raw := invalidateTypeBits immData
  let clientRank := getRank raw
  let clientThreadId := getClientThreadId raw
  let queuePair := clientRank * numConcurrMsgs + clientThreadId
  if !isSet 31 immData then ⟨.preallocate, clientRank, clientThreadId, queuePair, none⟩
  else if isSet 26 immData then ⟨.getMetadata, clientRank, clientThreadId, queuePair, none⟩
  else if isSet 27 immData then ⟨.putMetadata, clientRank, clientThreadId, queuePair, some .commit⟩
  else if isSet 28 immData then ⟨.removeIndirect, clientRank, clientThreadId, queuePair, some .stop⟩
  else if isSet 29 immData then ⟨.installIndirect, clientRank, clientThreadId, queuePair, some .stop⟩
  else if isSet 30 immData then
    ⟨.mergeFailed clientThreadId, clientRank, 0, clientRank * numConcurrMsgs + 0, some .stop⟩
  else ⟨.merge clientRank clientThreadId, clientRank, clientThreadId, queuePair, some .stop⟩

namespace RequestKind

/-- The action that a request is meant for. -/
def action (kind : RequestKind) (rank id : ℕ) : ManagerAction :=
  match kind with
  | preallocate => .preallocate
  | mergeAll => .merge rank id
  | failover => .mergeFailed id
  | installIndirect => .installIndirect
  | removeIndirect => .removeIndirect
  | putMeta => .putMetadata
  | getMeta => .getMetadata

/-- The thread that sends a request: thread 0 for a failover. -/
def sender (kind : RequestKind) (id : ℕ) : ℕ := if kind = failover then 0 else id

/-- The answer that the sender waits for. -/
def awaited : RequestKind → Option ControlMessage
  | preallocate | getMeta => none
  | putMeta => some .commit
  | mergeAll | failover | installIndirect | removeIndirect => some .stop

end RequestKind

/-- A queue pair of a compute node, by the rank of the node and the thread that uses it. -/
abbrev PeerQueuePair := ℕ × ℕ

/-- The handshake with a compute node: its queue pairs are connected to those of the storage node from the index of its
rank on. -/
def connectPeer (numConcurrMsgs rank : ℕ) (connected : ℕ → Option PeerQueuePair) : ℕ → Option PeerQueuePair :=
  (List.range numConcurrMsgs).foldl
    (fun connected j => Function.update connected (rank * numConcurrMsgs + j) (some (rank, j))) connected

/-- The queue pairs of the storage node after handshakes with nodes of these ranks. -/
def connectPeers (numConcurrMsgs : ℕ) (ranks : List ℕ) : ℕ → Option PeerQueuePair :=
  ranks.foldl (fun connected rank => connectPeer numConcurrMsgs rank connected) fun _ => none

/-- Two changes of byte order are none. -/
theorem htonl_htonl (x : BitVec 32) : htonl (htonl x) = x := by
  unfold htonl
  ext i hi
  simp only [BitVec.getElem_append, BitVec.getElem_extractLsb', BitVec.getLsbD_append, BitVec.getLsbD_extractLsb']
  interval_cases i <;> simp

theorem isSet_eq {i : ℕ} (hi : i < 32) (x : BitVec 32) : isSet i x = x.getLsbD i := by
  have hne : twoPow 32 i ≠ 0#32 := by
    intro hzero
    have hbit := congrArg (fun y => y.getLsbD i) hzero
    simp [hi] at hbit
  rw [isSet, ← twoPow_eq, twoPow_and]
  cases hx : x.getLsbD i <;> simp [hne]

section Bits

variable {rank id i : ℕ}

/-- A rank below `2 ^ 10` does not reach the bits of the kind. -/
theorem getLsbD_setImm (hrank : rank < 2 ^ 10) (hid : id < 2 ^ 16) (hi : 26 ≤ i) : (setImm rank id).getLsbD i = false := by
  have hrankBit : rank.testBit (i - 16) = false :=
    Nat.testBit_lt_two_pow (hrank.trans_le (Nat.pow_le_pow_right (by decide) (by omega)))
  have hidBit : id.testBit i = false :=
    Nat.testBit_lt_two_pow (hid.trans_le (Nat.pow_le_pow_right (by decide) (by omega)))
  rw [setImm, getLsbD_or, getLsbD_ofNat, getLsbD_ofNat, Nat.testBit_shiftLeft, hrankBit, hidBit]
  simp

/-- The runs of ones begin above the rank. -/
theorem getLsbD_typeBits (kind : RequestKind) (hi : i < 26) : kind.typeBits.getLsbD i = false := by
  revert i
  cases kind <;> decide

theorem isSet_immData (kind : RequestKind) (hrank : rank < 2 ^ 10) (hid : id < 2 ^ 16) (hle : 26 ≤ i) (hlt : i < 32) :
    isSet i (kind.immData rank id) = kind.typeBits.getLsbD i := by
  rw [isSet_eq hlt, RequestKind.immData, getLsbD_or, getLsbD_setImm hrank hid hle, Bool.false_or]

/-- The shifts leave the rank and the thread. -/
theorem invalidateTypeBits_immData (kind : RequestKind) (hrank : rank < 2 ^ 10) (hid : id < 2 ^ 16) :
    invalidateTypeBits (kind.immData rank id) = setImm rank id := by
  refine eq_of_getLsbD_eq fun i hi => ?_
  rw [invalidateTypeBits, getLsbD_ushiftRight, getLsbD_shiftLeft]
  by_cases hlt : i < 26
  · have hbit : (kind.immData rank id).getLsbD i = (setImm rank id).getLsbD i := by
      rw [RequestKind.immData, getLsbD_or, getLsbD_typeBits kind hlt, Bool.or_false]
    simpa [show 6 + i < 32 by omega] using hbit
  · rw [getLsbD_setImm hrank hid (not_lt.mp hlt)]
    simp [show ¬ 6 + i < 32 by omega]

theorem toNat_setImm (hrank : rank < 2 ^ 10) (hid : id < 2 ^ 16) : (setImm rank id).toNat = rank <<< 16 ||| id := by
  have hshift : rank <<< 16 < 2 ^ 32 := by
    rw [Nat.shiftLeft_eq]
    omega
  rw [setImm, toNat_or, toNat_ofNat, toNat_ofNat, Nat.mod_eq_of_lt hshift,
    Nat.mod_eq_of_lt (by omega)]

theorem getRank_setImm (hrank : rank < 2 ^ 10) (hid : id < 2 ^ 16) : getRank (setImm rank id) = rank := by
  rw [getRank, toNat_ushiftRight, toNat_setImm hrank hid, Nat.shiftRight_or_distrib, Nat.shiftLeft_shiftRight,
    Nat.shiftRight_eq_zero id 16 hid, Nat.or_zero]

theorem getClientThreadId_setImm (hrank : rank < 2 ^ 10) (hid : id < 2 ^ 16) :
    getClientThreadId (setImm rank id) = id := by
  rw [getClientThreadId, toNat_and, toNat_setImm hrank hid, Nat.and_comm]
  rw [show (1#32 <<< 16 - 1#32).toNat = 2 ^ 16 - 1 from rfl, Nat.and_two_pow_sub_one_eq_mod, Nat.or_mod_two_pow,
    Nat.shiftLeft_eq, Nat.mul_mod_left, Nat.zero_or, Nat.mod_eq_of_lt hid]

end Bits

section Handshake

variable {numConcurrMsgs : ℕ}

/-- A queue pair of the storage node is for one rank and one thread. -/
theorem queuePair_inj {p q : PeerQueuePair} (hp : p.2 < numConcurrMsgs) (hq : q.2 < numConcurrMsgs)
    (h : p.1 * numConcurrMsgs + p.2 = q.1 * numConcurrMsgs + q.2) : p = q := by
  have hthread : p.2 = q.2 := by
    simpa [Nat.mod_eq_of_lt, hp, hq] using congrArg (· % numConcurrMsgs) h
  have hrank : p.1 * numConcurrMsgs = q.1 * numConcurrMsgs := by omega
  exact Prod.ext (Nat.eq_of_mul_eq_mul_right (by omega) hrank) hthread

/-- Whatever the order of the connections, each is still there at the end. -/
theorem foldl_connect {pairs : List PeerQueuePair} (hlt : ∀ p ∈ pairs, p.2 < numConcurrMsgs) {p : PeerQueuePair}
    (hp : p ∈ pairs) (connected : ℕ → Option PeerQueuePair) :
    pairs.foldl (fun c q => Function.update c (q.1 * numConcurrMsgs + q.2) (some q)) connected
      (p.1 * numConcurrMsgs + p.2) = some p := by
  induction pairs using List.reverseRecOn with
  | nil => exact absurd hp not_mem_nil
  | append_singleton pairs q ih =>
    rw [foldl_append, foldl_cons, foldl_nil]
    by_cases heq : p = q
    · rw [heq, Function.update_self]
    · have hmem : p ∈ pairs := (mem_append.mp hp).resolve_right fun h => heq (mem_singleton.mp h)
      have hne : p.1 * numConcurrMsgs + p.2 ≠ q.1 * numConcurrMsgs + q.2 := fun h =>
        heq (queuePair_inj (hlt p hp) (hlt q (mem_append_right pairs mem_cons_self)) h)
      rw [Function.update_of_ne hne]
      exact ih (fun r hr => hlt r (mem_append_left [q] hr)) hmem

/-- After the handshakes the queue pair at the index of a rank and a thread is connected to that thread. -/
theorem connectPeers_eq {ranks : List ℕ} {rank j : ℕ} (hrank : rank ∈ ranks) (hj : j < numConcurrMsgs) :
    connectPeers numConcurrMsgs ranks (rank * numConcurrMsgs + j) = some (rank, j) := by
  have hflat : connectPeers numConcurrMsgs ranks =
      (ranks.flatMap fun r => (List.range numConcurrMsgs).map (Prod.mk r)).foldl
        (fun c q => Function.update c (q.1 * numConcurrMsgs + q.2) (some q)) fun _ => none := by
    simp only [connectPeers, connectPeer, foldl_flatMap, foldl_map]
  rw [hflat]
  refine foldl_connect (p := (rank, j)) ?_ (by simp [hrank, hj]) _
  intro q hq
  obtain ⟨r, -, hq⟩ := mem_flatMap.mp hq
  obtain ⟨k, hk, rfl⟩ := mem_map.mp hq
  exact mem_range.mp hk

end Handshake

/-- What the manager reads from the immediate data of a request. -/
theorem serverManager_immData (kind : RequestKind) {rank id : ℕ} (hrank : rank < 2 ^ 10) (hid : id < 2 ^ 16)
    (numConcurrMsgs : ℕ) :
    serverManager numConcurrMsgs (htonl (kind.immData rank id)) =
      ⟨kind.action rank id, rank, kind.sender id, rank * numConcurrMsgs + kind.sender id, kind.awaited⟩ := by
  simp only [serverManager, htonl_htonl, invalidateTypeBits_immData kind hrank hid, getRank_setImm hrank hid,
    getClientThreadId_setImm hrank hid, isSet_immData kind hrank hid, Nat.reduceLeDiff, Nat.reduceLT]
  cases kind <;> rfl

/-- The manager takes each request for what it is, with the rank and the thread of the sender.  It answers with what the
sender waits for, on the queue pair that is connected to the sender. -/
theorem request_code_survives (kind : RequestKind) {rank id : ℕ} (hrank : rank < 2 ^ 10) (hid : id < 2 ^ 16)
    (numConcurrMsgs : ℕ) :
    serverManager numConcurrMsgs (htonl (kind.immData rank id)) =
      ⟨kind.action rank id, rank, kind.sender id, rank * numConcurrMsgs + kind.sender id, kind.awaited⟩ ∧
    ∀ ranks, rank ∈ ranks → kind.sender id < numConcurrMsgs →
      connectPeers numConcurrMsgs ranks (serverManager numConcurrMsgs (htonl (kind.immData rank id))).queuePair =
        some (rank, kind.sender id) := by
  have hdispatch := serverManager_immData kind hrank hid numConcurrMsgs
  refine ⟨hdispatch, fun ranks hmem hlt => ?_⟩
  rw [hdispatch]
  exact connectPeers_eq hmem hlt

/-- A failover of node 9 that node 1023 sends, the last rank there is. -/
theorem request_code_survives_failover :
    serverManager 4 (htonl (RequestKind.failover.immData 1023 9)) = ⟨.mergeFailed 9, 1023, 0, 4092, some .stop⟩ ∧
    connectPeers 4 [2, 1023, 9] 4092 = some (1023, 0) := by
  obtain ⟨hdispatch, hconnected⟩ := request_code_survives .failover (show 1023 < 2 ^ 10 by decide)
    (show 9 < 2 ^ 16 by decide) 4
  have hanswer := hconnected [2, 1023, 9] (by decide) (by decide)
  rw [hdispatch] at hanswer
  exact ⟨hdispatch, hanswer⟩

end Dinomo
