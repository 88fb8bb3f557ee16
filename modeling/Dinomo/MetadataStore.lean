import Dinomo.Library.Buffer
import Dinomo.Library.Transition
import Dinomo.RequestCodes

/-!
# The metadata store

A thread of a compute node writes a key, and for `putMeta` a value, each after its length, to the start of its message
buffer and sends it.  The storage manager receives the bytes in one of its own buffers, reads the lengths back, and
keeps the values in a map.  For `getMeta` it puts the length and the value over the request and sends them back to the
buffer of the thread.  Buffers keep the bytes of earlier messages after what is written.
-/

namespace Dinomo

open Function List Option Transition

/-- The sizes of a deployment: the bytes of a message buffer, an `int`, the threads of each compute node, and the ranks
of the connected compute nodes. -/
structure MetadataConfig where
  msgSize : ℕ
  threadsPerMemory : ℕ
  ranks : List ℕ
  msgSize_lt : msgSize < 2 ^ 31
  threadsPerMemory_le : threadsPerMemory ≤ 2 ^ 16
  ranks_lt : ∀ r ∈ ranks, r < 2 ^ 10

section Messages

variable {n : ℕ}

/-- One part of `serialize`: the length of some bytes and the bytes, if there are any, at the offset. -/
def serializeField (src : List UInt8) (buf : ℕ × Buffer n) : Option (ℕ × Buffer n) :=
  if src.length ≠ 0 then
    (buf.2.write buf.1 (leBytes 8 src.length)).bind fun b =>
      (b.write (buf.1 + 8) src).map fun b => (buf.1 + 8 + src.length, b)
  else some buf

/-- `Dinomo::serialize`: the size of the message and the buffer. -/
def serialize (key value : List UInt8) (buf : Buffer n) : Option (ℕ × Buffer n) :=
  (serializeField key (0, buf)).bind (serializeField value)

/-- `Dinomo::deserialize`: the value of a reply and its length. -/
def deserialize (buf : Buffer n) : Option (List UInt8 × ℕ) :=
  (buf.readWord 8 0).bind fun valLen =>
    if valLen ≠ 0 then (buf.read 8 valLen).map fun value => (value, valLen) else some ([], valLen)

/-- `RequestData`. -/
structure RequestData where
  keyLen : ℕ
  key : List UInt8
  valLen : ℕ
  value : List UInt8
  deriving Repr, DecidableEq

/-- `deserialize` of the storage node. -/
def deserializeRequest (buf : Buffer n) (isPut : Bool) : Option RequestData :=
  (buf.readWord 8 0).bind fun keyLen =>
    (buf.read 8 keyLen).bind fun key =>
      if isPut then
        (buf.readWord 8 (8 + keyLen)).bind fun valLen =>
          (buf.read (8 + keyLen + 8) valLen).map fun value => ⟨keyLen, key, valLen, value⟩
      else some ⟨keyLen, key, 0, []⟩

end Messages

/-- `MetadataValue`. -/
structure MetadataValue where
  valLen : ℕ
  value : List UInt8
  deriving Repr, DecidableEq

open MetadataValue

/-- The bytes of a `MetadataValue` in memory. -/
def MetadataValue.bytes (mv : MetadataValue) : List UInt8 := leBytes 8 mv.valLen ++ mv.value

/-- `metadata_store`. -/
abbrev MetadataMap := List UInt8 → Option MetadataValue

namespace MetadataMap

/-- `insert`: a key that is there is left alone. -/
def insert (m : MetadataMap) (key : List UInt8) (mv : MetadataValue) : MetadataMap :=
  if (m key).isSome then m else Function.update m key (some mv)

/-- `update_fn`: a key that is not there is left alone. -/
def updateFn (m : MetadataMap) (key : List UInt8) (mv : MetadataValue) : MetadataMap :=
  if (m key).isSome then Function.update m key (some mv) else m

/-- `put_metadata`. -/
def putMetadata (m : MetadataMap) (req : RequestData) : MetadataMap :=
  if !(m req.key).isSome then m.insert req.key ⟨req.valLen, req.value⟩ else m.updateFn req.key ⟨req.valLen, req.value⟩

/-- `get_metadata`. -/
def getMetadata (m : MetadataMap) (req : RequestData) : Option MetadataValue := m req.key

end MetadataMap

/-- The store of the storage node and the message buffers of both sides. -/
structure MetadataSystem (cfg : MetadataConfig) where
  store : MetadataMap
  messages : ℕ → Buffer cfg.msgSize
  ibBuf : PeerQueuePair → Buffer cfg.msgSize

/-- What the storage node sends back: the queue pair, the control message and the payload. -/
structure MetadataReply where
  queuePair : ℕ
  answer : Option ControlMessage
  payload : List UInt8

namespace MetadataSystem

variable {cfg : MetadataConfig}

/-- `server_manager_thread` for a message that arrives in one of its buffers.  Other requests are not in this model. -/
def serve (s : MetadataSystem cfg) (immData : BitVec 32) (slot : ℕ) (message : List UInt8) :
    Option (MetadataSystem cfg × MetadataReply) :=
  let d := serverManager cfg.threadsPerMemory immData
  ((s.messages slot).write 0 message).bind fun buf =>
    match d.action with
    | .getMetadata =>
      (deserializeRequest buf false).bind fun req =>
        let mv := (s.store.getMetadata req).getD ⟨0, []⟩
        (buf.write 0 mv.bytes).bind fun buf =>
          (buf.read 0 (8 + mv.valLen)).map fun payload =>
            ({ s with messages := Function.update s.messages slot buf }, ⟨d.queuePair, d.answer, payload⟩)
    | .putMetadata =>
      (deserializeRequest buf true).map fun req =>
        ({ s with store := s.store.putMetadata req, messages := Function.update s.messages slot buf },
          ⟨d.queuePair, d.answer, []⟩)
    | _ => none

/-- A thread sends a request and waits for its reply, which arrives in the buffer that the request was in.  It waits for
ever if the reply goes elsewhere or is not the one it looks for. -/
def request (s : MetadataSystem cfg) (kind : RequestKind) (thread : PeerQueuePair) (slot : ℕ)
    (key value : List UInt8) : Option (MetadataSystem cfg) :=
  (serialize key value (s.ibBuf thread)).bind fun sized =>
    (sized.2.read 0 sized.1).bind fun message =>
      (s.serve (htonl (kind.immData thread.1 thread.2)) slot message).bind fun served =>
        if connectPeers cfg.threadsPerMemory cfg.ranks served.2.queuePair = some thread ∧
            served.2.answer = kind.awaited then
          (sized.2.write 0 served.2.payload).map fun buf =>
            { served.1 with ibBuf := Function.update s.ibBuf thread buf }
        else none

end MetadataSystem

/-- Calls of threads of compute nodes, with the buffer in which the storage node receives the request. -/
inductive MetaCall where
  | putMeta (thread : PeerQueuePair) (slot : ℕ) (key value : List UInt8)
  | getMeta (thread : PeerQueuePair) (slot : ℕ) (key : List UInt8)
  deriving Repr, DecidableEq

namespace MetadataSystem

variable {cfg : MetadataConfig}

/-- `Dinomo::putMeta`. -/
def putMeta (s : MetadataSystem cfg) (thread : PeerQueuePair) (slot : ℕ) (key value : List UInt8) :
    Option (MetadataSystem cfg) := s.request .putMeta thread slot key value

/-- `Dinomo::getMeta`: the value and its length. -/
def getMeta (s : MetadataSystem cfg) (thread : PeerQueuePair) (slot : ℕ) (key : List UInt8) :
    Option (MetadataSystem cfg × (List UInt8 × ℕ)) :=
  (s.request .getMeta thread slot key []).bind fun s' => (deserialize (s'.ibBuf thread)).map fun reply => (s', reply)

/-- The system after a call. -/
def call (s : MetadataSystem cfg) : MetaCall → Option (MetadataSystem cfg)
  | .putMeta thread slot key value => s.putMeta thread slot key value
  | .getMeta thread slot key => (s.getMeta thread slot key).map Prod.fst

end MetadataSystem

/-- A thread of a connected compute node. -/
def MetadataConfig.HasThread (cfg : MetadataConfig) (thread : PeerQueuePair) : Prop :=
  thread.1 ∈ cfg.ranks ∧ thread.2 < cfg.threadsPerMemory

/-- A call of a thread that there is, with a key and a value that are not empty and fit the message buffer. -/
def MetaCall.Fits (cfg : MetadataConfig) : MetaCall → Prop
  | putMeta thread _ key value =>
    cfg.HasThread thread ∧ key ≠ [] ∧ value ≠ [] ∧ 8 + key.length + (8 + value.length) ≤ cfg.msgSize
  | getMeta thread _ key => cfg.HasThread thread ∧ key ≠ [] ∧ 8 + key.length ≤ cfg.msgSize

/-- The value of the last `putMeta` of a key. -/
def lastPut (calls : List MetaCall) (key : List UInt8) : Option (List UInt8) :=
  (calls.filterMap fun
    | .putMeta _ _ k v => if k = key then some v else none
    | .getMeta _ _ _ => none).getLast?

section Messages

variable {n : ℕ} {buf : Buffer n} {key value : List UInt8}

/-- The bytes of a part of a message. -/
def fieldBytes (src : List UInt8) : List UInt8 := if src.length ≠ 0 then leBytes 8 src.length ++ src else []

theorem fieldBytes_of_ne {src : List UInt8} (h : src ≠ []) : fieldBytes src = leBytes 8 src.length ++ src :=
  if_pos (length_eq_zero_iff.not.mpr h)

theorem length_fieldBytes {src : List UInt8} (h : src ≠ []) : (fieldBytes src).length = 8 + src.length := by
  rw [fieldBytes_of_ne h, length_append, length_leBytes]

/-- A part of a message is added to what the buffer begins with. -/
theorem serializeField_eq (src : List UInt8) {start : List UInt8} (hbuf : buf.Holds 0 start)
    (hfit : start.length + (fieldBytes src).length ≤ n) :
    ∃ buf', serializeField src (start.length, buf) = some (start.length + (fieldBytes src).length, buf') ∧
      buf'.Holds 0 (start ++ fieldBytes src) := by
  unfold serializeField fieldBytes at *
  by_cases h : src.length ≠ 0
  · rw [if_pos h] at hfit
    rw [if_pos h, if_pos h]
    rw [length_append, length_leBytes] at hfit
    obtain ⟨b₁, hwrite₁, hholds₁⟩ := hbuf.write (show start.length + (leBytes 8 src.length).length ≤ n by
      rw [length_leBytes]
      omega)
    obtain ⟨b₂, hwrite₂, hholds₂⟩ := hholds₁.write (show (start ++ leBytes 8 src.length).length + src.length ≤ n by
      rw [length_append, length_leBytes]
      omega)
    rw [length_append, length_leBytes] at hwrite₂
    refine ⟨b₂, ?_, by rwa [← append_assoc]⟩
    simp only [hwrite₁, bind_some, hwrite₂, map_some, length_append, length_leBytes, Nat.add_assoc]
  · rw [if_neg h, if_neg h]
    exact ⟨buf, rfl, by rwa [append_nil]⟩

/-- The buffer begins with the message, whatever was in it. -/
theorem serialize_eq (buf : Buffer n) (hfit : (fieldBytes key ++ fieldBytes value).length ≤ n) :
    ∃ buf', serialize key value buf = some ((fieldBytes key ++ fieldBytes value).length, buf') ∧
      buf'.Holds 0 (fieldBytes key ++ fieldBytes value) := by
  rw [length_append] at hfit
  obtain ⟨b₁, hkey, hholds₁⟩ := serializeField_eq key buf.holds_nil (by
    rw [length_nil]
    omega)
  obtain ⟨b₂, hvalue, hholds₂⟩ := serializeField_eq value hholds₁ (by
    rw [nil_append]
    omega)
  rw [nil_append] at hvalue hholds₂
  refine ⟨b₂, ?_, hholds₂⟩
  rw [length_nil, Nat.zero_add] at hkey
  rw [serialize, hkey, bind_some, hvalue, length_append]

theorem deserialize_eq (hbuf : buf.Holds 0 (bytes ⟨value.length, value⟩)) (hlt : value.length < 256 ^ 8) :
    deserialize buf = some (value, value.length) := by
  obtain ⟨hlen, hvalue⟩ := Buffer.holds_append.mp hbuf
  rw [length_leBytes, Nat.zero_add, Buffer.Holds] at hvalue
  rw [deserialize, hlen.readWord hlt, bind_some]
  by_cases hzero : value.length ≠ 0
  · rw [if_pos hzero, hvalue, map_some]
  · rw [if_neg hzero, length_eq_zero_iff.mp (not_not.mp hzero)]

theorem deserializeRequest_get (hbuf : buf.Holds 0 (fieldBytes key)) (hkey : key ≠ []) (hlt : key.length < 256 ^ 8) :
    deserializeRequest buf false = some ⟨key.length, key, 0, []⟩ := by
  rw [fieldBytes_of_ne hkey] at hbuf
  obtain ⟨hlen, hread⟩ := Buffer.holds_append.mp hbuf
  rw [length_leBytes, Nat.zero_add, Buffer.Holds] at hread
  simp only [deserializeRequest, hlen.readWord hlt, bind_some, hread, Bool.false_eq_true, if_false]

theorem deserializeRequest_put (hbuf : buf.Holds 0 (fieldBytes key ++ fieldBytes value)) (hkey : key ≠ [])
    (hvalue : value ≠ []) (hklt : key.length < 256 ^ 8) (hvlt : value.length < 256 ^ 8) :
    deserializeRequest buf true = some ⟨key.length, key, value.length, value⟩ := by
  rw [fieldBytes_of_ne hkey, fieldBytes_of_ne hvalue] at hbuf
  obtain ⟨hfirst, hsecond⟩ := Buffer.holds_append.mp hbuf
  obtain ⟨hklen, hkread⟩ := Buffer.holds_append.mp hfirst
  obtain ⟨hvlen, hvread⟩ := Buffer.holds_append.mp hsecond
  rw [length_leBytes, Nat.zero_add, Buffer.Holds] at hkread
  rw [length_append, length_leBytes, Nat.zero_add] at hvlen hvread
  rw [length_leBytes, Buffer.Holds] at hvread
  simp only [deserializeRequest, hklen.readWord hklt, bind_some, hkread, hvlen.readWord hvlt, hvread,
    map_some, if_true]

end Messages

/-- `contains`, `insert` and `update_fn` together replace the value of a key. -/
theorem putMetadata_eq (m : MetadataMap) (req : RequestData) :
    m.putMetadata req = update m req.key (some ⟨req.valLen, req.value⟩) := by
  unfold MetadataMap.putMetadata MetadataMap.insert MetadataMap.updateFn
  cases h : (m req.key).isSome <;> rfl

namespace MetadataSystem

variable {cfg : MetadataConfig} {s s' : MetadataSystem cfg} {kind : RequestKind} {thread : PeerQueuePair} {slot : ℕ}
  {key value payload : List UInt8}

/-- What the manager reads from the immediate data of a request of a thread. -/
theorem serverManager_thread (hthread : cfg.HasThread thread) (hkind : kind ≠ .failover) :
    serverManager cfg.threadsPerMemory (htonl (kind.immData thread.1 thread.2)) =
      ⟨kind.action thread.1 thread.2, thread.1, thread.2, thread.1 * cfg.threadsPerMemory + thread.2, kind.awaited⟩ := by
  rw [serverManager_immData kind (cfg.ranks_lt _ hthread.1) (hthread.2.trans_le cfg.threadsPerMemory_le),
    RequestKind.sender, if_neg hkind]

/-- A request comes back to its thread, with the payload of the reply at the start of the buffer. -/
theorem request_eq (hthread : cfg.HasThread thread) (hfit : (fieldBytes key ++ fieldBytes value).length ≤ cfg.msgSize)
    (hpayload : payload.length ≤ cfg.msgSize)
    (hserve : s.serve (htonl (kind.immData thread.1 thread.2)) slot (fieldBytes key ++ fieldBytes value) =
      some (s', ⟨thread.1 * cfg.threadsPerMemory + thread.2, kind.awaited, payload⟩)) :
    ∃ buf, s.request kind thread slot key value = some { s' with ibBuf := update s.ibBuf thread buf } ∧
      buf.Holds 0 payload := by
  obtain ⟨b₁, hserialize, hholds⟩ := serialize_eq (s.ibBuf thread) hfit
  obtain ⟨b₂, hwrite, hreply, -⟩ := b₁.exists_write (show 0 + payload.length ≤ cfg.msgSize by omega)
  refine ⟨b₂, ?_, hreply⟩
  rw [request, hserialize, bind_some, hholds, bind_some, hserve, bind_some,
    if_pos ⟨connectPeers_eq hthread.1 hthread.2, rfl⟩, hwrite, map_some]

/-- The store is the map of values, and each can be sent back. -/
def Stores (s : MetadataSystem cfg) (m : List UInt8 → Option (List UInt8)) : Prop :=
  ∀ key, s.store key = (m key).map (fun v => ⟨v.length, v⟩) ∧ ∀ v, m key = some v → 8 + v.length ≤ cfg.msgSize

theorem lt_pow {n : ℕ} (cfg : MetadataConfig) (h : n ≤ cfg.msgSize) : n < 256 ^ 8 :=
  h.trans_lt (cfg.msgSize_lt.trans (by decide))

theorem length_bytes (v : List UInt8) : (bytes ⟨v.length, v⟩).length = 8 + v.length := by
  rw [bytes, length_append, length_leBytes]

variable {m : List UInt8 → Option (List UInt8)}

theorem Stores.getMetadata (hs : s.Stores m) (req : RequestData) :
    (s.store.getMetadata req).getD ⟨0, []⟩ = ⟨((m req.key).getD []).length, (m req.key).getD []⟩ := by
  rw [MetadataMap.getMetadata, (hs req.key).1]
  cases m req.key <;> rfl

theorem Stores.length_bytes_le (hs : s.Stores m) (key : List UInt8)
    (hle : 8 ≤ cfg.msgSize) :
    (bytes ⟨((m key).getD []).length, (m key).getD []⟩).length ≤ cfg.msgSize := by
  rw [length_bytes]
  cases hm : m key with
  | none => exact hle
  | some v => exact (hs key).2 v hm

theorem serve_put (hfits : (MetaCall.putMeta thread slot key value).Fits cfg) :
    ∃ messages, s.serve (htonl (RequestKind.putMeta.immData thread.1 thread.2)) slot
        (fieldBytes key ++ fieldBytes value) =
      some ({ s with store := update s.store key (some ⟨value.length, value⟩), messages := messages },
        ⟨thread.1 * cfg.threadsPerMemory + thread.2, RequestKind.putMeta.awaited, []⟩) := by
  obtain ⟨hthread, hkey, hvalue, hle⟩ := hfits
  have hlen : 0 + (fieldBytes key ++ fieldBytes value).length ≤ cfg.msgSize := by
    rwa [Nat.zero_add, length_append, length_fieldBytes hkey, length_fieldBytes hvalue]
  obtain ⟨b, hwrite, hholds, -⟩ := (s.messages slot).exists_write hlen
  have hreq := deserializeRequest_put hholds hkey hvalue (lt_pow cfg (by omega)) (lt_pow cfg (by omega))
  refine ⟨update s.messages slot b, ?_⟩
  simp only [serve, serverManager_thread hthread (show RequestKind.putMeta ≠ .failover by decide), hwrite,
    bind_some, RequestKind.action, hreq, map_some, putMetadata_eq]

theorem serve_get (hs : s.Stores m)
    (hfits : (MetaCall.getMeta thread slot key).Fits cfg) :
    ∃ messages, s.serve (htonl (RequestKind.getMeta.immData thread.1 thread.2)) slot (fieldBytes key ++ fieldBytes []) =
      some ({ s with messages := messages }, ⟨thread.1 * cfg.threadsPerMemory + thread.2, RequestKind.getMeta.awaited,
        bytes ⟨((m key).getD []).length, (m key).getD []⟩⟩) := by
  obtain ⟨hthread, hkey, hle⟩ := hfits
  have hmessage : fieldBytes key ++ fieldBytes [] = fieldBytes key := append_nil _
  obtain ⟨b₁, hwrite₁, hholds₁, -⟩ := (s.messages slot).exists_write (show 0 + (fieldBytes key).length ≤ cfg.msgSize by
    rwa [Nat.zero_add, length_fieldBytes hkey])
  have hreq := deserializeRequest_get hholds₁ hkey (lt_pow cfg (by omega))
  have hmv := hs.getMetadata ⟨key.length, key, 0, []⟩
  have hlen := hs.length_bytes_le key (by omega)
  obtain ⟨b₂, hwrite₂, hholds₂, -⟩ := b₁.exists_write ((Nat.zero_add _).trans_le hlen)
  rw [Buffer.Holds, length_bytes] at hholds₂
  refine ⟨update s.messages slot b₂, ?_⟩
  simp only [serve, serverManager_thread hthread (show RequestKind.getMeta ≠ .failover by decide), hmessage, hwrite₁,
    bind_some, RequestKind.action, hreq, hmv, hwrite₂, hholds₂, map_some]

/-- A value is replaced by a `putMeta`. -/
theorem Stores.putMeta (hs : s.Stores m)
    (hfits : (MetaCall.putMeta thread slot key value).Fits cfg) :
    ∃ s', s.putMeta thread slot key value = some s' ∧ s'.Stores (update m key (some value)) := by
  obtain ⟨messages, hserve⟩ := serve_put (s := s) hfits
  obtain ⟨hthread, hkey, hvalue, hle⟩ := hfits
  obtain ⟨buf, hrequest, -⟩ := request_eq hthread (by
    rwa [length_append, length_fieldBytes hkey, length_fieldBytes hvalue]) (Nat.zero_le _) hserve
  refine ⟨_, hrequest, fun k => ?_⟩
  by_cases hk : k = key
  · subst hk
    simp only [update_self, map_some, some.injEq, forall_eq', true_and]
    omega
  · simpa only [update_of_ne hk] using hs k

/-- A `getMeta` returns the value and leaves the store alone. -/
theorem Stores.getMeta (hs : s.Stores m)
    (hfits : (MetaCall.getMeta thread slot key).Fits cfg) :
    ∃ s', s.getMeta thread slot key = some (s', ((m key).getD [], ((m key).getD []).length)) ∧ s'.Stores m := by
  obtain ⟨messages, hserve⟩ := serve_get hs hfits
  obtain ⟨hthread, hkey, hle⟩ := hfits
  have hlen := hs.length_bytes_le key (by omega)
  obtain ⟨buf, hrequest, hholds⟩ := request_eq hthread (by
    rwa [show fieldBytes key ++ fieldBytes [] = fieldBytes key from append_nil _, length_fieldBytes hkey]) hlen hserve
  have hreply : deserialize (update s.ibBuf thread buf thread) =
      some ((m key).getD [], ((m key).getD []).length) := by
    rw [length_bytes] at hlen
    rw [update_self, deserialize_eq hholds (lt_pow cfg (by omega))]
  refine ⟨⟨s.store, messages, update s.ibBuf thread buf⟩, ?_, fun k => hs k⟩
  simp only [MetadataSystem.getMeta, hrequest, bind_some, hreply, map_some]

end MetadataSystem

section Calls

variable {cfg : MetadataConfig}

theorem lastPut_putMeta (calls : List MetaCall) (thread : PeerQueuePair) (slot : ℕ) (key value : List UInt8) :
    lastPut (calls ++ [.putMeta thread slot key value]) = update (lastPut calls) key (some value) := by
  funext k
  by_cases hk : k = key
  · simp [lastPut, filterMap_append, hk]
  · simp [lastPut, filterMap_append, Ne.symm hk, hk]

theorem lastPut_getMeta (calls : List MetaCall) (thread : PeerQueuePair) (slot : ℕ) (key : List UInt8) :
    lastPut (calls ++ [.getMeta thread slot key]) = lastPut calls := by
  funext k
  simp [lastPut, filterMap_append]

/-- After calls the store has the last values. -/
theorem MetadataSystem.stores_run {s₀ : MetadataSystem cfg} (hempty : ∀ key, s₀.store key = none)
    {calls : List MetaCall} (hcalls : ∀ c ∈ calls, c.Fits cfg) :
    ∃ s, run MetadataSystem.call s₀ calls = some s ∧ s.Stores (lastPut calls) := by
  induction calls using List.reverseRecOn with
  | nil =>
    refine ⟨s₀, rfl, fun key => ⟨hempty key, fun v hv => ?_⟩⟩
    cases hv
  | append_singleton calls c ih =>
    obtain ⟨s, hrun, hs⟩ := ih fun c' hc' => hcalls c' (mem_append_left [c] hc')
    have hfits := hcalls c (mem_append_right calls mem_cons_self)
    cases c with
    | putMeta thread slot key value =>
      obtain ⟨s', hput, hs'⟩ := hs.putMeta hfits
      refine ⟨s', run_append_eq_some.mpr ⟨s, hrun, run_cons_eq_some.mpr ⟨s', hput, rfl⟩⟩, ?_⟩
      rwa [lastPut_putMeta]
    | getMeta thread slot key =>
      obtain ⟨s', hget, hs'⟩ := hs.getMeta hfits
      have hcall : s.call (.getMeta thread slot key) = some s' := by rw [MetadataSystem.call, hget, map_some]
      refine ⟨s', run_append_eq_some.mpr ⟨s, hrun, run_cons_eq_some.mpr ⟨s', hcall, rfl⟩⟩, ?_⟩
      rwa [lastPut_getMeta]

end Calls

/-- After any calls `getMeta` returns the value of the last `putMeta` of its key, and length 0 if there was none. -/
theorem metadata_last_write {cfg : MetadataConfig} {s₀ : MetadataSystem cfg} (hempty : ∀ key, s₀.store key = none)
    {calls : List MetaCall} (hcalls : ∀ c ∈ calls, c.Fits cfg) {thread : PeerQueuePair} {slot : ℕ} {key : List UInt8}
    (hget : (MetaCall.getMeta thread slot key).Fits cfg) :
    ∃ s s', Transition.run MetadataSystem.call s₀ calls = some s ∧
      s.getMeta thread slot key = some (s', (lastPut calls key).elim ([], 0) fun v => (v, v.length)) := by
  obtain ⟨s, hrun, hs⟩ := MetadataSystem.stores_run hempty hcalls
  obtain ⟨s', hreply, -⟩ := hs.getMeta hget
  refine ⟨s, s', hrun, ?_⟩
  rw [hreply]
  cases lastPut calls key <;> rfl

/-- Two compute nodes with two threads each. -/
def MetadataConfig.sample : MetadataConfig where
  msgSize := 64
  threadsPerMemory := 2
  ranks := [0, 3]
  msgSize_lt := by decide
  threadsPerMemory_le := by decide
  ranks_lt := by decide

/-- An empty store, and buffers with old bytes. -/
def MetadataSystem.sample : MetadataSystem MetadataConfig.sample where
  store := fun _ => none
  messages := fun _ => ⟨List.replicate 64 255, rfl⟩
  ibBuf := fun _ => ⟨List.replicate 64 255, rfl⟩

/-- The second of two values of a key is read by a third thread. -/
theorem metadata_last_write_twoNodes :
    ∃ s s', Transition.run MetadataSystem.call MetadataSystem.sample
        [.putMeta (0, 1) 0 [7] [1, 2, 3], .getMeta (3, 0) 0 [8], .putMeta (3, 1) 5 [7] [4, 5]] = some s ∧
      s.getMeta (0, 0) 5 [7] = some (s', ([4, 5], 2)) := by
  refine metadata_last_write (fun _ => rfl) ?_ ?_
  · simp [MetaCall.Fits, MetadataConfig.HasThread, MetadataConfig.sample]
  · simp [MetaCall.Fits, MetadataConfig.HasThread, MetadataConfig.sample]

end Dinomo
