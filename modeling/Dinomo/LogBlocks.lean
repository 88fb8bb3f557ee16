import Dinomo.Library.Records

/-!
# Log blocks and oplogs

The record layouts of `log_blocks.h`.  A log block is a 40-byte header (`merged_offset`, `offset`,
`valid_counter`, `local_invalid_counter`, `global_invalid_counter`, `next`) followed by a buffer of
oplogs, each a 24-byte header followed by `val_len` value bytes.  The buffer is kept as the list of
oplogs written into it; each oplog stores the buffer offset at which it was written, as the source's
`offset` field does.  Pool memory is addressed by the byte offset of a block; `0` is null.

The `commit` field of an oplog is always written as `1` and never read, so it is left out.
-/

namespace Dinomo

/-- Byte offset of an object in the persistent pool; `0` is null. -/
abbrev Addr := ℕ

/-- Keys are 64-bit integers; `0` also marks an empty slot of the index. -/
abbrev Key := ℕ

/-- `sizeof(oplogs)`, the header of one log entry. -/
def sizeofOplogs : ℕ := 24

/-- `LOG_BLOCK_HEADER_LEN`. -/
def logBlockHeaderLen : ℕ := 40

/-- Byte position of `global_invalid_counter` in the block header. -/
def globalInvalidCounterPos : ℕ := 24

/-- The operation types that are ever logged. -/
inductive OpType
  | insert
  | update
  | delete
deriving DecidableEq, Repr

/-- Insertions and updates carry a value; deletions do not. -/
def OpType.isWrite : OpType → Bool
  | .insert => true
  | .update => true
  | .delete => false

/-- A logged operation before it has a place in a block. -/
structure Write (V : Type*) where
  opType : OpType
  key : Key
  keyLen : ℕ
  valLen : ℕ
  value : V
deriving DecidableEq, Repr

/-- An oplog: a logged operation together with its offset in the buffer of its block. -/
structure Oplog (V : Type*) extends Write V where
  offset : ℕ
deriving DecidableEq, Repr

variable {V : Type*}

/-- Bytes an operation takes in a log. -/
def Write.size (w : Write V) : ℕ := sizeofOplogs + w.valLen

/-- Bytes an oplog takes in the buffer. -/
def Oplog.size (o : Oplog V) : ℕ := o.toWrite.size

/-- The oplog of an operation written at a buffer offset. -/
def Write.at (w : Write V) (off : ℕ) : Oplog V := { w with offset := off }

@[simp] theorem Write.at_offset (w : Write V) (off : ℕ) : (w.at off).offset = off := rfl

@[simp] theorem Write.at_toWrite (w : Write V) (off : ℕ) : (w.at off).toWrite = w := rfl

@[simp] theorem Write.at_size (w : Write V) (off : ℕ) : (w.at off).size = w.size := rfl

/-- Every oplog takes at least its header. -/
theorem Oplog.size_pos (o : Oplog V) : 0 < o.size := by
  simp only [Oplog.size, Write.size, sizeofOplogs]
  omega

/-- A log block in pool memory, or the image of one in the staging pool of a thread. -/
structure LogBlock (V : Type*) where
  mergedOffset : ℕ
  offset : ℕ
  validCounter : ℕ
  localInvalidCounter : ℕ
  globalInvalidCounter : ℕ
  next : Addr
  buffer : List (Oplog V)

/-- A freshly allocated or wiped block. -/
def LogBlock.zero : LogBlock V := ⟨0, 0, 0, 0, 0, 0, []⟩

/-- The oplog found at a buffer offset; `none` is memory in which no oplog starts. -/
def LogBlock.entryAt (b : LogBlock V) (off : ℕ) : Option (Oplog V) :=
  b.buffer.find? (fun o => o.offset = off)

/-- Writing an oplog destroys the entries whose bytes it overlaps. -/
def writeOplog (buf : List (Oplog V)) (o : Oplog V) : List (Oplog V) :=
  buf.filter (fun x => x.offset + x.size ≤ o.offset ∨ o.offset + o.size ≤ x.offset) ++ [o]

/-- Writing a run of oplogs, as one contiguous transfer does. -/
def writeOplogs (buf : List (Oplog V)) (os : List (Oplog V)) : List (Oplog V) :=
  os.foldl writeOplog buf

/-- The test by which the storage side recognises a block without live entries. -/
def LogBlock.allInvalid (b : LogBlock V) : Prop :=
  b.validCounter = b.localInvalidCounter + b.globalInvalidCounter

instance (b : LogBlock V) : Decidable b.allInvalid :=
  inferInstanceAs (Decidable (b.validCounter = b.localInvalidCounter + b.globalInvalidCounter))

/-- The oplogs of a buffer start where they say they do, with no gap between them. -/
def Aligned (buf : List (Oplog V)) : Prop := Records.LaidOut Oplog.size Oplog.offset 0 buf

/-- Bytes taken by the oplogs of a buffer. -/
def bytesOf (buf : List (Oplog V)) : ℕ := Records.extent Oplog.size buf

/-- An offset at which an oplog starts, or the end of the buffer. -/
def AtBoundary (buf : List (Oplog V)) (off : ℕ) : Prop :=
  Records.Boundary Oplog.size Oplog.offset buf off

/-- The oplogs of a buffer at or after an offset. -/
def entriesFrom (buf : List (Oplog V)) (off : ℕ) : List (Oplog V) :=
  Records.suffixFrom Oplog.offset buf off

@[simp] theorem bytesOf_nil : bytesOf ([] : List (Oplog V)) = 0 := rfl

@[simp] theorem bytesOf_append (buf buf' : List (Oplog V)) :
    bytesOf (buf ++ buf') = bytesOf buf + bytesOf buf' := Records.extent_append buf buf'

@[simp] theorem bytesOf_singleton (o : Oplog V) : bytesOf [o] = o.size := by
  simp [bytesOf]

/-- An empty buffer is aligned. -/
theorem aligned_nil : Aligned ([] : List (Oplog V)) := trivial

/-- Appending at the end of an aligned buffer keeps it aligned. -/
theorem Aligned.append_at {buf : List (Oplog V)} (h : Aligned buf) (w : Write V) :
    Aligned (buf ++ [w.at (bytesOf buf)]) := by
  refine Records.laidOut_append.mpr ⟨h, ?_, trivial⟩
  simp [bytesOf]

/-- A prefix of an aligned buffer is aligned. -/
theorem Aligned.left {buf buf' : List (Oplog V)} (h : Aligned (buf ++ buf')) : Aligned buf :=
  (Records.laidOut_append.mp h).1

/-- A write at the end of an aligned buffer overlaps nothing. -/
theorem Aligned.writeOplog_end {buf : List (Oplog V)} (h : Aligned buf) {o : Oplog V}
    (ho : bytesOf buf ≤ o.offset) : writeOplog buf o = buf ++ [o] := by
  have hkeep : buf.filter (fun x => x.offset + x.size ≤ o.offset ∨ o.offset + o.size ≤ x.offset) = buf := by
    refine List.filter_eq_self.mpr fun x hx => ?_
    have hb := (h.bounds hx).2
    have : bytesOf buf = Records.extent Oplog.size buf := rfl
    simp only [decide_eq_true_eq]
    omega
  rw [writeOplog, hkeep]

/-- A contiguous transfer that continues an aligned buffer appends its oplogs. -/
theorem Aligned.writeOplogs_end {buf os : List (Oplog V)} (h : Aligned (buf ++ os)) :
    writeOplogs buf os = buf ++ os := by
  induction os generalizing buf with
  | nil => simp [writeOplogs]
  | cons o os ih =>
    have hb : Aligned buf := h.left
    have ho := (Records.laidOut_append.mp h).2.1
    rw [writeOplogs, List.foldl_cons, hb.writeOplog_end (by simp [bytesOf, ho])]
    have h' : Aligned ((buf ++ [o]) ++ os) := by simpa using h
    simpa [writeOplogs] using ih h'

/-- Behind the first part of an aligned buffer come the oplogs of the second. -/
theorem Aligned.entriesFrom_append {buf u : List (Oplog V)} (h : Aligned (buf ++ u)) :
    entriesFrom (buf ++ u) (bytesOf buf) = u :=
  h.suffixFrom_append Oplog.size_pos

/-- A prefix of an aligned buffer with as many bytes is the whole buffer. -/
theorem eq_of_isPrefix_of_bytesOf {buf buf' : List (Oplog V)} (h : buf <+: buf')
    (hb : bytesOf buf = bytesOf buf') : buf = buf' := by
  obtain ⟨u, rfl⟩ := h
  rw [bytesOf_append] at hb
  have hu : u = [] := Records.eq_nil_of_extent Oplog.size_pos (by rw [← bytesOf]; omega)
  rw [hu, List.append_nil]

/-- An entry of an aligned buffer is found at its offset. -/
theorem LogBlock.entryAt_of_mem {b : LogBlock V} (h : Aligned b.buffer) {o : Oplog V}
    (ho : o ∈ b.buffer) : b.entryAt o.offset = some o :=
  h.find_offset Oplog.size_pos ho

end Dinomo
