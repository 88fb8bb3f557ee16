import Dinomo.Library.ByteOrder
import Dinomo.Library.Transition
import Mathlib.Tactic.IntervalCases

/-!
# Exchange of queue pairs

Two nodes exchange the data of their queue pairs over a socket.  `sock_set_qp_info` converts the records to network order
and writes them as they are in memory, and `sock_get_qp_info` of the other node reads as many bytes and converts them back.
The system moves the bytes in pieces of any size.

One direction of the connection is modelled, with the loop of `sock_write` at one end, the loop of `sock_read` at the other,
and the bytes in flight between them.
-/

namespace Dinomo

/-- `QPInfo`. -/
structure QPInfo where
  lid : BitVec 16
  qpNum : BitVec 32
  rank : BitVec 32
  rkeyPool : BitVec 32
  raddrPool : BitVec 64
  rkeyBuf : BitVec 32
  raddrBuf : BitVec 64
  gid : Vector UInt8 16
deriving DecidableEq

namespace QPInfo

variable (e : Endian)

/-- The record with its words converted, in either direction; the bytes of `gid` stay as they are. -/
def hton (q : QPInfo) : QPInfo where
  lid := e.hton 2 q.lid
  qpNum := e.hton 4 q.qpNum
  rank := e.hton 4 q.rank
  rkeyPool := e.hton 4 q.rkeyPool
  raddrPool := e.hton 8 q.raddrPool
  rkeyBuf := e.hton 4 q.rkeyBuf
  raddrBuf := e.hton 8 q.raddrBuf
  gid := q.gid

/-- The packed record in memory. -/
def store (q : QPInfo) : List UInt8 :=
  e.store 2 q.lid ++ (e.store 4 q.qpNum ++ (e.store 4 q.rank ++ (e.store 4 q.rkeyPool ++ (e.store 8 q.raddrPool ++
    (e.store 4 q.rkeyBuf ++ (e.store 8 q.raddrBuf ++ q.gid.toList))))))

/-- `sizeof(struct QPInfo)`. -/
def size : ℕ := 50

/-- The record in memory. -/
def load (bs : List UInt8) : QPInfo where
  lid := e.load 16 (bs.take 2)
  qpNum := e.load 32 ((bs.drop 2).take 4)
  rank := e.load 32 ((bs.drop 6).take 4)
  rkeyPool := e.load 32 ((bs.drop 10).take 4)
  raddrPool := e.load 64 ((bs.drop 14).take 8)
  rkeyBuf := e.load 32 ((bs.drop 22).take 4)
  raddrBuf := e.load 64 ((bs.drop 26).take 8)
  gid := Vector.ofFn fun i => (bs.drop 34).getD i 0

/-- What `sock_set_qp_info` writes. -/
def storeAll (qpInfo : List QPInfo) : List UInt8 := qpInfo.flatMap fun q => (q.hton e).store e

/-- What `sock_get_qp_info` gets from so many records in memory. -/
def loadAll : ℕ → List UInt8 → List QPInfo
  | 0, _ => []
  | n + 1, bs => (load e bs).hton e :: loadAll n (bs.drop size)

variable {e} {e' : Endian}

/-- The record in network order. -/
theorem store_hton (q : QPInfo) : (q.hton e).store e =
    (leBytes 2 q.lid.toNat).reverse ++ ((leBytes 4 q.qpNum.toNat).reverse ++ ((leBytes 4 q.rank.toNat).reverse ++
      ((leBytes 4 q.rkeyPool.toNat).reverse ++ ((leBytes 8 q.raddrPool.toNat).reverse ++
        ((leBytes 4 q.rkeyBuf.toNat).reverse ++ ((leBytes 8 q.raddrBuf.toNat).reverse ++ q.gid.toList)))))) := by
  have h2 (x : BitVec 16) := e.store_hton (show 2 ^ 16 = 256 ^ 2 by rfl) x
  have h4 (x : BitVec 32) := e.store_hton (show 2 ^ 32 = 256 ^ 4 by rfl) x
  have h8 (x : BitVec 64) := e.store_hton (show 2 ^ 64 = 256 ^ 8 by rfl) x
  simp only [store, hton, h2, h4, h8]

theorem length_store_hton (q : QPInfo) : ((q.hton e).store e).length = size := by
  simp [store_hton, size]

/-- A record is read by any host as it was given. -/
theorem load_store (q : QPInfo) (bs : List UInt8) : (load e' ((q.hton e).store e ++ bs)).hton e' = q := by
  have h2 (x : BitVec 16) := e'.hton_load (show 2 ^ 16 = 256 ^ 2 by rfl) x
  have h4 (x : BitVec 32) := e'.hton_load (show 2 ^ 32 = 256 ^ 4 by rfl) x
  have h8 (x : BitVec 64) := e'.hton_load (show 2 ^ 64 = 256 ^ 8 by rfl) x
  rw [store_hton]
  obtain ⟨lid, qpNum, rank, rkeyPool, raddrPool, rkeyBuf, raddrBuf, gid⟩ := q
  -- Cut at the offset of a field, the list begins with its bytes.
  simp only [load, hton, List.append_assoc, mk.injEq, List.drop_append, List.take_append, List.length_reverse,
    length_leBytes, List.drop_eq_nil_of_le, List.take_of_length_le, le_refl, Nat.reduceSub, Nat.reduceLeDiff,
    Nat.zero_sub, List.drop_zero, List.take_zero, List.nil_append, List.append_nil, h2, h4, h8, true_and]
  apply Vector.ext
  intro i hi
  simp [List.getD_eq_getElem?_getD, List.getElem?_append_left]

/-- So are all records. -/
theorem loadAll_storeAll (qpInfo : List QPInfo) (bs : List UInt8) :
    loadAll e' qpInfo.length (storeAll e qpInfo ++ bs) = qpInfo := by
  induction qpInfo with
  | nil => rfl
  | cons q qpInfo ih =>
    rw [storeAll, List.flatMap_cons, List.append_assoc, List.length_cons, loadAll, load_store,
      List.drop_left' (length_store_hton q)]
    exact congrArg (q :: ·) ih

theorem length_storeAll (qpInfo : List QPInfo) : (storeAll e qpInfo).length = size * qpInfo.length := by
  induction qpInfo with
  | nil => rfl
  | cons q qpInfo ih =>
    rw [storeAll, List.flatMap_cons, List.length_append, length_store_hton, List.length_cons, Nat.mul_succ, Nat.add_comm]
    exact congrArg (· + size) ih

end QPInfo

/-- What a call of `write` or `read` returns: a number of bytes, or an error that is `EINTR` or not. -/
inductive Transfer
  | moved (n : ℕ)
  | interrupted
  | failed
deriving DecidableEq

/-- How the loop of `sock_read` was left before all bytes were read. -/
inductive ReadEnd
  | endOfFile
  | error
deriving DecidableEq

/-- One direction of a connection: what is left to be written, the bytes in flight, and what has been read. -/
structure Connection where
  rest : List UInt8
  totWritten : ℕ
  writeError : Bool
  flight : List UInt8
  closed : Bool
  buf : List UInt8
  len : ℕ
  readEnd : Option ReadEnd
deriving DecidableEq

/-- A call by one of the loops; or the writing end writes more after `sock_write` has returned, or is closed. -/
inductive ConnectionEvent
  | write (t : Transfer)
  | read (t : Transfer)
  | more (bs : List UInt8)
  | close

namespace Connection

open List

/-- What `sock_write` has returned. -/
def sockWrite (c : Connection) : Option ℤ :=
  if c.writeError then some (-1) else if c.rest = [] then some c.totWritten else none

/-- What `sock_read` has returned. -/
def sockRead (c : Connection) : Option ℤ :=
  match c.readEnd with
  | some .error => some (-1)
  | some .endOfFile => some c.buf.length
  | none => if c.len = 0 then some c.buf.length else none

/-- A call of `write` in the loop of `sock_write`. -/
def write (c : Connection) : Transfer → Option Connection
  | .moved n =>
    if n = 0 then some { c with writeError := true }
    else if n ≤ c.rest.length then some
      { c with rest := c.rest.drop n, totWritten := c.totWritten + n, flight := c.flight ++ c.rest.take n }
    else none
  | .interrupted => some c
  | .failed => some { c with writeError := true }

/-- A call of `read` in the loop of `sock_read`.  It returns zero only at the end of a closed stream. -/
def read (c : Connection) : Transfer → Option Connection
  | .moved n =>
    if n = 0 then if c.closed ∧ c.flight = [] then some { c with readEnd := some .endOfFile } else none
    else if n ≤ c.len ∧ n ≤ c.flight.length then some
      { c with buf := c.buf ++ c.flight.take n, flight := c.flight.drop n, len := c.len - n }
    else none
  | .interrupted => some c
  | .failed => some { c with readEnd := some .error }

/-- An event, if it can happen. -/
def step (c : Connection) : ConnectionEvent → Option Connection
  | .write t => if c.sockWrite = none ∧ c.closed = false then c.write t else none
  | .read t => if c.sockRead = none then c.read t else none
  | .more bs => if c.sockWrite ≠ none ∧ c.closed = false then some { c with flight := c.flight ++ bs } else none
  | .close => some { c with closed := true }

/-- The calls of `sock_set_qp_info` and of `sock_get_qp_info` begin. -/
def start (e : Endian) (qpInfo : List QPInfo) (numConcurrMsgs : ℕ) : Connection where
  rest := QPInfo.storeAll e qpInfo
  totWritten := 0
  writeError := false
  flight := []
  closed := false
  buf := []
  len := QPInfo.size * numConcurrMsgs
  readEnd := none

/-- The check of a result, which is kept in an `int`. -/
def transferred (numConcurrMsgs : ℕ) (n : ℤ) : Prop := n.bmod (2 ^ 32) = (QPInfo.size * numConcurrMsgs : ℕ)

instance (numConcurrMsgs : ℕ) (n : ℤ) : Decidable (transferred numConcurrMsgs n) :=
  inferInstanceAs (Decidable (_ = _))

/-- What `sock_set_qp_info` has returned. -/
def sockSetQpInfo (c : Connection) (numConcurrMsgs : ℕ) : Option ℤ :=
  c.sockWrite.map fun n => if transferred numConcurrMsgs n then 0 else -1

/-- What `sock_get_qp_info` has returned, with the records that it has set. -/
def sockGetQpInfo (e : Endian) (c : Connection) (numConcurrMsgs : ℕ) : Option (ℤ × List QPInfo) :=
  c.sockRead.map fun n =>
    if transferred numConcurrMsgs n then (0, QPInfo.loadAll e numConcurrMsgs c.buf) else (-1, [])

section Runs

variable {e : Endian} {c c' : Connection} {bytes : List UInt8} {numConcurrMsgs : ℕ}

/-- What is in the buffer and in flight begins with what `sock_write` has written. -/
structure Inv (bytes : List UInt8) (numConcurrMsgs : ℕ) (c : Connection) : Prop where
  rest : c.rest = bytes.drop c.totWritten
  stream : ∃ more, c.buf ++ c.flight = bytes.take c.totWritten ++ more ∧ (c.sockWrite = none → more = [])
  len : c.buf.length + c.len = QPInfo.size * numConcurrMsgs
  early : c.readEnd = some .endOfFile → c.len ≠ 0

theorem len_ne_zero (h : c.sockRead = none) : c.readEnd = none ∧ c.len ≠ 0 := by
  unfold sockRead at h
  split at h
  · cases h
  · cases h
  · rename_i hend
    refine ⟨hend, fun hzero => ?_⟩
    rw [if_pos hzero] at h
    cases h

theorem Inv.write (h : c.Inv bytes numConcurrMsgs) {t : Transfer} (hcall : c.sockWrite = none) (hstep : c.write t = some c') :
    c'.Inv bytes numConcurrMsgs := by
  obtain ⟨more, hstream, hmore⟩ := h.stream
  -- No other bytes are behind those of the call while it goes on.
  obtain rfl := hmore hcall
  have hfailed : Inv bytes numConcurrMsgs { c with writeError := true } := ⟨h.rest, ⟨[], hstream, fun _ => rfl⟩, h.len, h.early⟩
  cases t with
  | moved n =>
    simp only [Connection.write] at hstep
    split_ifs at hstep <;> cases hstep
    · exact hfailed
    · refine ⟨?_, ⟨[], ?_, fun _ => rfl⟩, h.len, h.early⟩
      · rw [h.rest, drop_drop]
      · rw [← append_assoc, hstream, append_nil, append_nil, h.rest, take_add]
  | interrupted =>
    cases hstep
    exact h
  | failed =>
    cases hstep
    exact hfailed

theorem Inv.read (h : c.Inv bytes numConcurrMsgs) {t : Transfer} (hcall : c.sockRead = none) (hstep : c.read t = some c') :
    c'.Inv bytes numConcurrMsgs := by
  obtain ⟨hend, hlen⟩ := len_ne_zero hcall
  cases t with
  | moved n =>
    simp only [Connection.read] at hstep
    split_ifs at hstep with h0 hempty hn <;> cases hstep
    · exact ⟨h.rest, h.stream, h.len, fun _ => hlen⟩
    · refine ⟨h.rest, ?_, ?_, fun hfile => absurd (hend.symm.trans hfile) (by simp)⟩
      · obtain ⟨more, hstream, hmore⟩ := h.stream
        exact ⟨more, by rw [append_assoc, take_append_drop, hstream], hmore⟩
      · have := h.len
        simp only [length_append, length_take]
        omega
  | interrupted =>
    cases hstep
    exact h
  | failed =>
    cases hstep
    exact ⟨h.rest, h.stream, h.len, fun hfile => by simp at hfile⟩

theorem Inv.step {ev : ConnectionEvent} (h : c.Inv bytes numConcurrMsgs) (hstep : c.step ev = some c') :
    c'.Inv bytes numConcurrMsgs := by
  cases ev with
  | write t =>
    simp only [Connection.step] at hstep
    split_ifs at hstep with hcall
    exact h.write hcall.1 hstep
  | read t =>
    simp only [Connection.step] at hstep
    split_ifs at hstep with hcall
    exact h.read hcall hstep
  | more bs =>
    simp only [Connection.step] at hstep
    split_ifs at hstep with hcall
    cases hstep
    obtain ⟨more, hstream, -⟩ := h.stream
    refine ⟨h.rest, ⟨more ++ bs, ?_, fun hnone => absurd hnone hcall.1⟩, h.len, h.early⟩
    rw [← append_assoc, hstream, append_assoc]
  | close =>
    cases hstep
    exact ⟨h.rest, h.stream, h.len, h.early⟩

theorem Inv.run {es : List ConnectionEvent} {qpInfo : List QPInfo}
    (hrun : Transition.run Connection.step (start e qpInfo numConcurrMsgs) es = some c) :
    c.Inv (QPInfo.storeAll e qpInfo) numConcurrMsgs := by
  refine Transition.invariant hrun ⟨rfl, ⟨[], rfl, fun _ => rfl⟩, ?_, ?_⟩ fun _ _ _ h hstep => h.step hstep
  · exact Nat.zero_add _
  · simp [start]

/-- The check of a number of bytes that is not too large succeeds for no other. -/
theorem eq_of_transferred {n : ℕ} (hle : n ≤ QPInfo.size * numConcurrMsgs) (h : transferred numConcurrMsgs n) :
    n = QPInfo.size * numConcurrMsgs := by
  rw [transferred, Int.bmod_def] at h
  split_ifs at h <;> omega

theorem not_transferred_error : ¬ transferred numConcurrMsgs (-1) := by
  rw [transferred, show (-1 : ℤ).bmod (2 ^ 32) = -1 by decide]
  omega

/-- `sock_set_qp_info` succeeds when all bytes have been written. -/
theorem rest_of_sockSetQpInfo (hset : c.sockSetQpInfo numConcurrMsgs = some 0) : c.rest = [] := by
  obtain ⟨n, hwrite, hcheck⟩ := Option.map_eq_some_iff.mp hset
  unfold sockWrite at hwrite
  split_ifs at hwrite with herror hrest
  · cases hwrite
    rw [if_neg not_transferred_error] at hcheck
    cases hcheck
  · exact hrest

/-- Then a buffer of their number has been filled with them. -/
theorem Inv.buf_eq (h : c.Inv bytes numConcurrMsgs) (hrest : bytes.drop c.totWritten = [])
    (hlen : c.buf.length = bytes.length) : c.buf = bytes := by
  obtain ⟨more, hstream, -⟩ := h.stream
  rw [take_of_length_le (drop_eq_nil_iff.mp hrest)] at hstream
  exact (append_inj hstream hlen).1

/-- `sock_get_qp_info` fails, or succeeds with a full buffer. -/
theorem Inv.sockGetQpInfo_cases {e' : Endian} (h : c.Inv bytes numConcurrMsgs) {x : ℤ × List QPInfo}
    (hx : c.sockGetQpInfo e' numConcurrMsgs = some x) : x = (-1, []) ∨
      x = (0, QPInfo.loadAll e' numConcurrMsgs c.buf) ∧ c.len = 0 := by
  obtain ⟨n, hn, rfl⟩ := Option.map_eq_some_iff.mp hx
  split_ifs with hcheck
  · refine .inr ⟨rfl, ?_⟩
    have hbuf : n = c.buf.length ∨ n = -1 := by
      unfold sockRead at hn
      split at hn
      · exact .inr (Option.some.inj hn).symm
      · exact .inl (Option.some.inj hn).symm
      · split_ifs at hn
        exact .inl (Option.some.inj hn).symm
    have hlen := h.len
    rcases hbuf with rfl | rfl
    · have := eq_of_transferred (by omega) hcheck
      omega
    · exact absurd hcheck not_transferred_error
  · exact .inl rfl

/-- What `sock_get_qp_info` returns before all bytes have been read is a failure. -/
theorem Inv.sockGetQpInfo_of_len {e' : Endian} (h : c.Inv bytes numConcurrMsgs) (hlen : c.len ≠ 0)
    (hret : c.sockRead ≠ none) : c.sockGetQpInfo e' numConcurrMsgs = some (-1, []) := by
  obtain ⟨n, hn⟩ := Option.ne_none_iff_exists'.mp hret
  obtain ⟨x, hx⟩ : ∃ x, c.sockGetQpInfo e' numConcurrMsgs = some x := ⟨_, by rw [sockGetQpInfo, hn, Option.map_some]⟩
  obtain rfl | ⟨-, hzero⟩ := h.sockGetQpInfo_cases hx
  · exact hx
  · exact absurd hzero hlen

/-- The end of a closed stream is read. -/
theorem step_endOfFile (hcall : c.sockRead = none) (hclosed : c.closed = true) (hflight : c.flight = []) :
    c.step (.read (.moved 0)) = some { c with readEnd := some .endOfFile } := by
  rw [Connection.step, if_pos hcall, Connection.read, if_pos rfl, if_pos ⟨hclosed, hflight⟩]

/-- At the end of a stream that was closed too early a failure is returned. -/
theorem Inv.exists_failure {e' : Endian} (h : c.Inv bytes numConcurrMsgs) (hclosed : c.closed = true)
    (hshort : c.flight.length < c.len) : ∃ es c', Transition.run Connection.step c es = some c' ∧
      c'.sockGetQpInfo e' numConcurrMsgs = some (-1, []) := by
  by_cases hret : c.sockRead = none
  · -- All bytes in flight are read, and then the end of the stream.
    obtain ⟨c₁, es, hrun, hinv, hcall, hclosed₁, hflight⟩ : ∃ c₁ es, Transition.run Connection.step c es = some c₁ ∧
        c₁.Inv bytes numConcurrMsgs ∧ c₁.sockRead = none ∧ c₁.closed = true ∧ c₁.flight = [] := by
      by_cases hflight : c.flight = []
      · exact ⟨c, [], rfl, h, hret, hclosed, hflight⟩
      · obtain ⟨hend, -⟩ := len_ne_zero hret
        have hstep : c.step (.read (.moved c.flight.length)) = some
            { c with buf := c.buf ++ c.flight.take c.flight.length, flight := c.flight.drop c.flight.length,
                     len := c.len - c.flight.length } := by
          rw [Connection.step, if_pos hret, Connection.read, if_neg (by simpa using hflight), if_pos ⟨hshort.le, le_rfl⟩]
        refine ⟨_, [.read (.moved c.flight.length)], Transition.run_cons_eq_some.mpr ⟨_, hstep, rfl⟩, h.step hstep, ?_,
          hclosed, drop_length⟩
        simp only [sockRead, hend]
        rw [if_neg (by omega)]
    have hstep := step_endOfFile hcall hclosed₁ hflight
    refine ⟨es ++ [.read (.moved 0)], _, Transition.run_append_eq_some.mpr ⟨c₁, hrun,
      Transition.run_cons_eq_some.mpr ⟨_, hstep, rfl⟩⟩, (hinv.step hstep).sockGetQpInfo_of_len ?_ (by simp [sockRead])⟩
    exact (len_ne_zero hcall).2
  · exact ⟨[], c, rfl, h.sockGetQpInfo_of_len (by omega) hret⟩

end Runs

end Connection

/-- Whatever pieces the bytes are moved in, if both calls succeed, the records that are set at one end are got at the other.
At an end of the stream that is read too early `sock_get_qp_info` fails, and of a stream that is closed too early nothing
else can be returned. -/
theorem queue_pairs_exchanged (e e' : Endian) (qpInfo : List QPInfo) (es : List ConnectionEvent) (c : Connection)
    (hrun : Transition.run Connection.step (Connection.start e qpInfo qpInfo.length) es = some c) :
    (c.sockSetQpInfo qpInfo.length = some 0 → ∀ got, c.sockGetQpInfo e' qpInfo.length = some (0, got) → got = qpInfo) ∧
    (c.readEnd = some .endOfFile → c.sockGetQpInfo e' qpInfo.length = some (-1, [])) ∧
    (c.closed = true → c.buf.length + c.flight.length < QPInfo.size * qpInfo.length →
      (∀ x, c.sockGetQpInfo e' qpInfo.length = some x → x = (-1, [])) ∧
      ∃ es' c', Transition.run Connection.step c es' = some c' ∧ c'.sockGetQpInfo e' qpInfo.length = some (-1, [])) := by
  have h := Connection.Inv.run hrun
  have hlen := h.len
  refine ⟨fun hset got hget => ?_, fun hend => ?_, fun hclosed hshort => ⟨fun x hx => ?_, ?_⟩⟩
  · obtain hfail | ⟨hgot, hzero⟩ := h.sockGetQpInfo_cases hget
    · cases hfail
    · have hbuf := h.buf_eq (h.rest ▸ Connection.rest_of_sockSetQpInfo hset) (by rw [QPInfo.length_storeAll]; omega)
      rw [(Prod.mk.inj hgot).2, hbuf, ← List.append_nil (QPInfo.storeAll e qpInfo), QPInfo.loadAll_storeAll]
  · exact h.sockGetQpInfo_of_len (h.early hend) (by simp [Connection.sockRead, hend])
  · obtain hfail | ⟨-, hzero⟩ := h.sockGetQpInfo_cases hx
    · exact hfail
    · omega
  · exact h.exists_failure hclosed (by omega)

/-- A record between hosts of different byte order, in pieces and with interrupted calls. -/
def sampleRecord : QPInfo := ⟨0x1234, 7, 1, 0xabcd, 0x7f0000001000, 0xabce, 0x7f0000002000, Vector.replicate 16 0xfe⟩

/-- The calls that move it. -/
def sampleCalls : List ConnectionEvent :=
  [.write (.moved 20), .read .interrupted, .read (.moved 7), .write .interrupted, .write (.moved 30), .more [1],
    .read (.moved 43)]

theorem queue_pairs_exchanged_sample :
    ∃ c, Transition.run Connection.step (Connection.start .little [sampleRecord] 1) sampleCalls = some c ∧
      c.sockSetQpInfo 1 = some 0 ∧ c.sockGetQpInfo .big 1 = some (0, [sampleRecord]) := by
  have hcalls : (Transition.run Connection.step (Connection.start .little [sampleRecord] 1) sampleCalls).map
      (fun c => (c.sockSetQpInfo 1, (c.sockGetQpInfo .big 1).map Prod.fst)) = some (some 0, some 0) := by decide +kernel
  obtain ⟨c, hrun, heq⟩ := Option.map_eq_some_iff.mp hcalls
  obtain ⟨hset, hget⟩ := Prod.mk.inj heq
  obtain ⟨⟨_, got⟩, hget, rfl⟩ := Option.map_eq_some_iff.mp hget
  obtain rfl := (queue_pairs_exchanged .little .big [sampleRecord] sampleCalls c hrun).1 hset got hget
  exact ⟨c, hrun, hset, hget⟩

end Dinomo
