import Dinomo.LogBlocks

/-!
# The local log of a thread

A thread reads its own writes from the staging pool and from its copies of the blocks it has filled, the newest block
first, each with a Bloom filter of its keys.  Both lookups go through a block from its start and take the first oplog of
the key that they meet.  In the staging pool they look at the oplogs below `offset`; with batching there may be more.
-/

namespace Dinomo

open List LogBlock List Records

variable {V : Type*}

/-- `bloomFilter`: a filter of the keys of a block, the local copy of the block and its remote address. -/
structure BloomFilter (V : Type*) where
  check : Key → Bool
  localLogBlock : LogBlock V
  raddr : Addr

/-- The local log of a thread: the staging pool, the filter of its keys and the list of the blocks that were filled before,
newest first. -/
structure LocalLog (V : Type*) where
  pool : LogBlock V
  bFilter : BloomFilter V
  filterList : List (BloomFilter V)

/-- Go through the oplogs of a block below its `offset` for one of a key. -/
def LogBlock.scan (b : LogBlock V) (k : Key) : ℕ → ℕ → Option (Oplog V)
  | 0, _ => none
  | fuel + 1, j =>
    if j < b.offset then
      match b.entryAt j with
      | none => none
      | some o => if o.key = k then some o else b.scan k fuel (j + o.size)
    else none

/-- The loop over a block; every oplog takes at least one byte. -/
def LogBlock.findKey (b : LogBlock V) (k : Key) : Option (Oplog V) := b.scan k b.offset 0

namespace LocalLog

/-- `check_from_staging_pool`. -/
def checkFromStagingPool (l : LocalLog V) (k : Key) : Option (Oplog V) :=
  if l.pool.offset ≠ 0 then if l.bFilter.check k then l.pool.findKey k else none else none

/-- `get_from_oplogs`, with the place of the block in the list. -/
def getFromOplogs (k : Key) : ℕ → List (BloomFilter V) → Option (ℕ × Oplog V)
  | _, [] => none
  | i, f :: fs =>
    match if f.check k then f.localLogBlock.findKey k else none with
    | some o => some (i, o)
    | none => getFromOplogs k (i + 1) fs

/-- What `get` finds in the local log: place `0` is the staging pool. -/
def lookup (l : LocalLog V) (k : Key) : Option (ℕ × Oplog V) :=
  match l.checkFromStagingPool k with
  | some o => some (0, o)
  | none => getFromOplogs k 1 l.filterList

/-- What the caller of `get` is told of an oplog that was found: a length of zero stands for `KEY_DNE`. -/
def reported (o : Oplog V) : Option (V × ℕ) := if o.valLen = 0 then none else some (o.value, o.valLen)

/-- The blocks of the local log, newest first. -/
def blocks (l : LocalLog V) : List (LogBlock V) := l.pool :: l.filterList.map BloomFilter.localLogBlock

/-- All oplogs of some blocks in the order in which they were written, with the places of the blocks. -/
def history : ℕ → List (LogBlock V) → List (ℕ × Oplog V)
  | _, [] => []
  | i, b :: bs => history (i + 1) bs ++ b.buffer.map (i, ·)

/-- The oplog of a key that was written last. -/
def newest (l : LocalLog V) (k : Key) : Option (ℕ × Oplog V) :=
  ((history 0 l.blocks).filter fun x => x.2.key = k).getLast?

/-- The lookups find the oplog of the key that was written last, and a deletion is reported as an absent key. -/
def FindsNewest (l : LocalLog V) (k : Key) : Prop :=
  l.lookup k = l.newest k ∧ ∀ x ∈ l.newest k, x.2.opType = .delete → reported x.2 = none

/-- The newest of some blocks that has an oplog of the key has only one. -/
def Single (k : Key) : List (LogBlock V) → Prop
  | [] => True
  | b :: bs => if b.buffer.countP (fun o => o.key = k) = 0 then Single k bs else b.buffer.countP (fun o => o.key = k) = 1

/-- The newest block with an oplog of the key has only one, and none of the key waits for its batch to be published. -/
def NewestFirst (l : LocalLog V) (k : Key) : Prop :=
  (∀ o ∈ l.pool.buffer, l.pool.offset ≤ o.offset → o.key ≠ k) ∧ Single k l.blocks

instance instDecidableSingle (k : Key) : ∀ bs : List (LogBlock V), Decidable (Single k bs)
  | [] => .isTrue trivial
  | b :: bs =>
    have := instDecidableSingle k bs
    inferInstanceAs (Decidable (if b.buffer.countP (fun o => o.key = k) = 0 then Single k bs
      else b.buffer.countP (fun o => o.key = k) = 1))

instance (l : LocalLog V) (k : Key) : Decidable (l.NewestFirst k) := inferInstanceAs (Decidable (_ ∧ _))

/-- The oplogs of a block lie one after the other up to its `offset`, and deletions have no value. -/
structure BlockOk (b : LogBlock V) : Prop where
  aligned : Aligned b.buffer
  boundary : AtBoundary b.buffer b.offset
  delete : ∀ o ∈ b.buffer, o.opType = .delete → o.valLen = 0

/-- A local log as the write path leaves it: blocks that were filled are published as a whole, and the filters have no false
negatives. -/
structure Ok (l : LocalLog V) : Prop where
  pool : BlockOk l.pool
  check : ∀ o ∈ l.pool.buffer, o.offset < l.pool.offset → l.bFilter.check o.key
  filled : ∀ f ∈ l.filterList, BlockOk f.localLogBlock ∧ f.localLogBlock.offset = bytesOf f.localLogBlock.buffer ∧
    ∀ o ∈ f.localLogBlock.buffer, f.check o.key

end LocalLog

open LocalLog

section Scan

variable {b : LogBlock V} {k : Key}

/-- The oplogs of a block below its `offset`. -/
def LogBlock.published (b : LogBlock V) : List (Oplog V) := Records.between Oplog.offset b.buffer 0 b.offset

/-- From a boundary on, the loop finds the first oplog of the key below `offset`. -/
theorem LogBlock.scan_eq_find (h : BlockOk b) {fuel j : ℕ} (hj : AtBoundary b.buffer j) (hfuel : b.offset ≤ fuel + j) :
    b.scan k fuel j = (between Oplog.offset b.buffer j b.offset).find? (fun o => o.key = k) := by
  have hnil : ∀ {j}, b.offset ≤ j → between Oplog.offset b.buffer j b.offset = [] := fun hle => by
    refine filter_eq_nil_iff.mpr fun o _ => ?_
    simp only [decide_eq_true_eq]
    omega
  induction fuel generalizing j with
  | zero => rw [hnil (by omega), scan, find?_nil]
  | succ fuel ih =>
    rw [scan]
    split_ifs with hlt
    · -- an oplog starts here
      obtain ⟨o, ho, rfl⟩ := hj.exists_mem (Nat.lt_of_lt_of_le hlt (h.boundary.le_extent h.aligned))
      have hend := h.boundary.end_le h.aligned ho hlt
      have hsize := o.size_pos
      rw [entryAt_of_mem h.aligned ho, h.aligned.between_cons Oplog.size_pos ho hend, find?_cons]
      by_cases hk : o.key = k
      · simp [hk]
      · simp only [hk, if_false, decide_false]
        exact ih (h.aligned.boundary_after ho) (by omega)
    · rw [hnil (by omega), find?_nil]

/-- The loop finds the first published oplog of the key. -/
theorem LogBlock.findKey_eq_find (h : BlockOk b) : b.findKey k = b.published.find? (fun o => o.key = k) := by
  refine scan_eq_find h ?_ (by omega)
  cases hb : b.buffer with
  | nil => exact .inl rfl
  | cons o buf =>
    have hzero : o.offset = 0 := by
      have haligned := h.aligned
      rw [hb] at haligned
      exact haligned.1
    exact .inr ⟨o, mem_cons_self, hzero⟩

/-- All oplogs of a block that was published as a whole are published. -/
theorem LogBlock.published_eq_buffer (h : BlockOk b) (hoff : b.offset = bytesOf b.buffer) : b.published = b.buffer := by
  rw [published, hoff, bytesOf, h.aligned.between_extent Oplog.size_pos]
  exact h.aligned.suffixFrom_start (Nat.le_refl 0)

/-- The oplogs of a block are the published ones and those that are not. -/
theorem LogBlock.buffer_eq_append (h : BlockOk b) :
    b.buffer = b.published ++ between Oplog.offset b.buffer b.offset (bytesOf b.buffer) := by
  have hall : between Oplog.offset b.buffer 0 (bytesOf b.buffer) = b.buffer := by
    rw [bytesOf, h.aligned.between_extent Oplog.size_pos]
    exact h.aligned.suffixFrom_start (Nat.le_refl 0)
  have happend : between Oplog.offset b.buffer 0 (bytesOf b.buffer) = _ :=
    h.aligned.between_append (Nat.zero_le b.offset) (h.boundary.le_extent h.aligned)
  exact hall.symm.trans happend

end Scan

section Newest

variable {k : Key}

/-- In a list without repetitions the first element is the last one only if there is no other. -/
theorem head_eq_getLast_iff {α : Type*} {l : List α} (h : l.Nodup) : l.head? = l.getLast? ↔ l.length ≤ 1 := by
  match l with
  | [] => simp
  | [a] => simp
  | a :: b :: l =>
    have hlast : (a :: b :: l).getLast? = (b :: l).getLast? := getLast?_cons_cons
    have hne : (a :: b :: l).head? ≠ (a :: b :: l).getLast? := fun heq => by
      rw [hlast] at heq
      exact (nodup_cons.mp h).1 (mem_of_getLast? heq.symm)
    exact iff_of_false hne (by simp)

/-- The oplog of a key that was written last, among some blocks. -/
def newestOf (k : Key) (i : ℕ) (bs : List (LogBlock V)) : Option (ℕ × Oplog V) :=
  ((history i bs).filter fun x => x.2.key = k).getLast?

/-- The newest block comes first. -/
theorem newestOf_cons (i : ℕ) (b : LogBlock V) (bs : List (LogBlock V)) :
    newestOf k i (b :: bs) =
      (((b.buffer.filter fun o => o.key = k).getLast?).map (i, ·)).or (newestOf k (i + 1) bs) := by
  simp only [newestOf, history, filter_append, getLast?_append, filter_map, getLast?_map]
  rfl

/-- The places of the filled blocks. -/
theorem le_of_getFromOplogs {i : ℕ} {fs : List (BloomFilter V)} {x : ℕ × Oplog V} (h : getFromOplogs k i fs = some x) :
    i ≤ x.1 := by
  induction fs generalizing i with
  | nil => cases h
  | cons f fs ih =>
    simp only [getFromOplogs] at h
    split at h
    · cases h
      exact Nat.le_refl _
    · exact Nat.le_of_succ_le (ih h)

/-- First and last oplog of the key in a block, before what older blocks have. -/
theorem block_eq_iff {b : LogBlock V} (h : BlockOk b) {i : ℕ} {x y : Option (ℕ × Oplog V)} {P : Prop} (hrest : x = y ↔ P) :
    ((b.buffer.find? fun o => o.key = k).map (i, ·)).or x =
        (((b.buffer.filter fun o => o.key = k).getLast?).map (i, ·)).or y ↔
      if b.buffer.countP (fun o => o.key = k) = 0 then P else b.buffer.countP (fun o => o.key = k) = 1 := by
  have hnodup : (b.buffer.filter fun o => o.key = k).Nodup := (h.aligned.nodup Oplog.size_pos).filter _
  rw [← head?_filter, countP_eq_length_filter]
  split_ifs with hzero
  · rw [length_eq_zero_iff.mp hzero]
    simpa using hrest
  · have hiff := head_eq_getLast_iff hnodup
    cases hl : b.buffer.filter fun o => o.key = k with
    | nil => simp [hl] at hzero
    | cons o l =>
      rw [hl] at hiff
      obtain ⟨o', ho'⟩ : ∃ o', (o :: l).getLast? = some o' := ⟨_, getLast?_cons⟩
      rw [ho'] at hiff ⊢
      simp only [head?_cons, Option.map_some, Option.some_or, Option.some.injEq, Prod.mk.injEq, true_and] at hiff ⊢
      rw [hiff, length_cons]
      omega

/-- The lookup of the filled blocks finds the newest oplog exactly if the newest block with one has only one. -/
theorem getFromOplogs_eq_iff {fs : List (BloomFilter V)} (i : ℕ)
    (h : ∀ f ∈ fs, BlockOk f.localLogBlock ∧ f.localLogBlock.offset = bytesOf f.localLogBlock.buffer ∧
      ∀ o ∈ f.localLogBlock.buffer, f.check o.key) :
    getFromOplogs k i fs = newestOf k i (fs.map BloomFilter.localLogBlock) ↔
      Single k (fs.map BloomFilter.localLogBlock) := by
  induction fs generalizing i with
  | nil => simp [getFromOplogs, newestOf, history, Single]
  | cons f fs ih =>
    obtain ⟨hok, hoff, hcheck⟩ := h f mem_cons_self
    have hfind : (if f.check k then f.localLogBlock.findKey k else none) =
        f.localLogBlock.buffer.find? fun o => o.key = k := by
      rw [findKey_eq_find hok, published_eq_buffer hok hoff]
      split_ifs with hk
      · rfl
      · -- no false negatives
        refine (find?_eq_none.mpr fun o ho hok => hk ?_).symm
        exact (decide_eq_true_eq.mp hok) ▸ hcheck o ho
    have hcons : getFromOplogs k i (f :: fs) =
        ((f.localLogBlock.buffer.find? fun o => o.key = k).map (i, ·)).or (getFromOplogs k (i + 1) fs) := by
      simp only [getFromOplogs, hfind]
      cases f.localLogBlock.buffer.find? fun o => o.key = k <;> rfl
    rw [hcons, map_cons, newestOf_cons]
    exact block_eq_iff hok (ih (i + 1) fun g hg => h g (mem_cons_of_mem _ hg))

/-- The lookup of the staging pool finds the first published oplog of the key. -/
theorem checkFromStagingPool_eq {l : LocalLog V} (h : l.Ok) :
    l.checkFromStagingPool k = l.pool.published.find? fun o => o.key = k := by
  unfold checkFromStagingPool
  have hmem : ∀ o ∈ l.pool.published, o ∈ l.pool.buffer ∧ o.offset < l.pool.offset := fun o ho => by
    obtain ⟨ho, hlt⟩ := mem_filter.mp ho
    exact ⟨ho, (decide_eq_true_eq.mp hlt).2⟩
  split_ifs with hzero hk
  · exact findKey_eq_find h.pool
  · refine (find?_eq_none.mpr fun o ho hok => hk ?_).symm
    obtain ⟨ho, hlt⟩ := hmem o ho
    exact (decide_eq_true_eq.mp hok) ▸ h.check o ho hlt
  · refine (find?_eq_none.mpr fun o ho _ => ?_).symm
    have := (hmem o ho).2
    omega

/-- What the lookups find, block by block. -/
theorem lookup_eq {l : LocalLog V} (h : l.Ok) :
    l.lookup k = ((l.pool.published.find? fun o => o.key = k).map (0, ·)).or (getFromOplogs k 1 l.filterList) := by
  rw [LocalLog.lookup, checkFromStagingPool_eq h]
  cases l.pool.published.find? fun o => o.key = k <;> rfl

/-- If no oplog of the key waits for its batch, the lookups find the newest one exactly if the newest block with one has only
one. -/
theorem lookup_eq_newest_iff {l : LocalLog V} (h : l.Ok)
    (hpublished : ∀ o ∈ l.pool.buffer, l.pool.offset ≤ o.offset → o.key ≠ k) :
    l.lookup k = l.newest k ↔ Single k l.blocks := by
  have hfind : (l.pool.published.find? fun o => o.key = k) = l.pool.buffer.find? fun o => o.key = k := by
    conv_rhs => rw [buffer_eq_append h.pool]
    rw [find?_append]
    have hnone : (between Oplog.offset l.pool.buffer l.pool.offset (bytesOf l.pool.buffer)).find?
        (fun o => decide (o.key = k)) = none := find?_eq_none.mpr fun o ho hok => by
      obtain ⟨ho, hle⟩ := mem_filter.mp ho
      exact hpublished o ho (decide_eq_true_eq.mp hle).1 (decide_eq_true_eq.mp hok)
    rw [hnone, Option.or_none]
  rw [lookup_eq h, hfind]
  have hnewest : l.newest k = _ := newestOf_cons 0 l.pool (l.filterList.map BloomFilter.localLogBlock)
  rw [hnewest]
  exact block_eq_iff h.pool (getFromOplogs_eq_iff 1 h.filled)

/-- An oplog of the key that waits for its batch is not found. -/
theorem lookup_ne_newest {l : LocalLog V} (h : l.Ok) {o : Oplog V} (ho : o ∈ l.pool.buffer) (hle : l.pool.offset ≤ o.offset)
    (hk : o.key = k) : l.lookup k ≠ l.newest k := fun heq => by
  let u := between Oplog.offset l.pool.buffer l.pool.offset (bytesOf l.pool.buffer)
  have hmem : o ∈ u.filter fun o => o.key = k := by
    have hbounds := h.pool.aligned.bounds ho
    have hsize := o.size_pos
    have hlt : o.offset < bytesOf l.pool.buffer := by
      simp only [bytesOf]
      omega
    exact mem_filter.mpr ⟨mem_filter.mpr ⟨ho, decide_eq_true ⟨hle, hlt⟩⟩, decide_eq_true hk⟩
  -- the newest oplog is one that waits
  obtain ⟨o', ho'⟩ : ∃ o', (u.filter fun o => decide (o.key = k)).getLast? = some o' :=
    Option.ne_none_iff_exists'.mp (mt getLast?_eq_none_iff.mp (ne_nil_of_mem hmem))
  have hnewest : l.newest k = some (0, o') := by
    have hcons : l.newest k = _ := newestOf_cons 0 l.pool (l.filterList.map BloomFilter.localLogBlock)
    rw [hcons, buffer_eq_append h.pool, filter_append, getLast?_append]
    simp only [u] at ho'
    rw [ho']
    rfl
  have hle' : l.pool.offset ≤ o'.offset := by
    have hmem' := mem_of_mem_filter (mem_of_getLast? ho')
    exact (decide_eq_true_eq.mp (mem_filter.mp hmem').2).1
  rw [hnewest, lookup_eq h] at heq
  rcases Option.or_eq_some_iff.mp heq with heq | ⟨-, heq⟩
  · obtain ⟨o'', ho'', hpair⟩ := Option.map_eq_some_iff.mp heq
    cases hpair
    have hlt := (decide_eq_true_eq.mp (mem_filter.mp (mem_of_find?_eq_some ho'')).2).2
    omega
  · exact absurd (le_of_getFromOplogs heq) (Nat.not_succ_le_zero 0)

/-- The oplogs of a history are those of the blocks. -/
theorem mem_of_mem_history {i : ℕ} {bs : List (LogBlock V)} {x : ℕ × Oplog V} (h : x ∈ history i bs) :
    ∃ b ∈ bs, x.2 ∈ b.buffer := by
  induction bs generalizing i with
  | nil => cases h
  | cons b bs ih =>
    rcases mem_append.mp h with h | h
    · obtain ⟨b', hb', hmem⟩ := ih h
      exact ⟨b', mem_cons_of_mem _ hb', hmem⟩
    · obtain ⟨o, ho, rfl⟩ := mem_map.mp h
      exact ⟨b, mem_cons_self, ho⟩

/-- Deletions of all blocks have no value. -/
theorem LocalLog.Ok.delete {l : LocalLog V} (h : l.Ok) : ∀ b ∈ l.blocks, ∀ o ∈ b.buffer, o.opType = .delete → o.valLen = 0 := by
  refine forall_mem_cons.mpr ⟨h.pool.delete, fun b hb => ?_⟩
  obtain ⟨f, hf, rfl⟩ := mem_map.mp hb
  exact (h.filled f hf).1.delete

end Newest

/-- The lookups find the oplog of a key that was written last, and report a deleted key as absent, exactly if the newest
block with an oplog of the key has only one and none of the key waits for its batch. -/
theorem local_lookup_newest_iff (l : LocalLog V) (h : l.Ok) (k : Key) : l.FindsNewest k ↔ l.NewestFirst k := by
  constructor
  · rintro ⟨hlookup, -⟩
    have hpublished : ∀ o ∈ l.pool.buffer, l.pool.offset ≤ o.offset → o.key ≠ k := fun o ho hle hk =>
      lookup_ne_newest h ho hle hk hlookup
    exact ⟨hpublished, (lookup_eq_newest_iff h hpublished).mp hlookup⟩
  · rintro ⟨hpublished, hsingle⟩
    refine ⟨(lookup_eq_newest_iff h hpublished).mpr hsingle, fun x hx hdelete => ?_⟩
    obtain ⟨b, hb, hmem⟩ := mem_of_mem_history (List.mem_of_mem_filter (List.mem_of_getLast? hx))
    rw [reported, if_pos (h.delete b hb x.2 hmem hdelete)]

section Rewritten

/-- A staging pool with two writes of key `5` of one byte each, the second one as given. -/
def rewritten (second : OpType) (valLen : ℕ) : LocalLog ℕ where
  pool := ⟨0, 48 + 1 + valLen, 2, 0, 0, 0, [⟨⟨.insert, 5, 8, 1, 10⟩, 0⟩, ⟨⟨second, 5, 8, valLen, 20⟩, 25⟩]⟩
  bFilter := ⟨fun _ => true, .zero, 100⟩
  filterList := []

/-- A key that is written twice in one block is read with its first value, and a key that was deleted is still read. -/
theorem rewritten_key_read_old :
    (rewritten .update 1).lookup 5 = some (0, ⟨⟨.insert, 5, 8, 1, 10⟩, 0⟩) ∧
    (rewritten .update 1).newest 5 = some (0, ⟨⟨.update, 5, 8, 1, 20⟩, 25⟩) ∧
    (rewritten .delete 0).lookup 5 = some (0, ⟨⟨.insert, 5, 8, 1, 10⟩, 0⟩) ∧
    ((rewritten .delete 0).lookup 5).map (fun x => reported x.2) = some (some (10, 1)) ∧
    (rewritten .delete 0).newest 5 = some (0, ⟨⟨.delete, 5, 8, 0, 20⟩, 25⟩) := by
  decide

/-- Key `5` is written once in each of two blocks and deleted in the staging pool; key `6` is written in the older block. -/
def spread : LocalLog ℕ where
  pool := ⟨0, 24, 0, 0, 0, 100, [⟨⟨.delete, 5, 8, 0, 0⟩, 0⟩]⟩
  bFilter := ⟨fun _ => true, .zero, 300⟩
  filterList :=
    [⟨fun _ => true, ⟨0, 25, 1, 0, 0, 50, [⟨⟨.update, 5, 8, 1, 20⟩, 0⟩]⟩, 200⟩,
      ⟨fun k => k = 5 ∨ k = 6, ⟨0, 50, 2, 0, 0, 0, [⟨⟨.insert, 6, 8, 1, 30⟩, 0⟩, ⟨⟨.insert, 5, 8, 1, 10⟩, 25⟩]⟩, 100⟩]

/-- The lookups find the deletion of key `5` and the write of key `6`. -/
theorem local_lookup_newest_iff_spread : spread.Ok ∧ spread.FindsNewest 5 ∧ spread.FindsNewest 6 ∧
    spread.lookup 6 = some (2, ⟨⟨.insert, 6, 8, 1, 30⟩, 0⟩) := by
  have hok : spread.Ok := by
    refine ⟨⟨⟨rfl, trivial⟩, .inl rfl, by decide⟩, by decide, ?_⟩
    refine List.forall_mem_cons.mpr ⟨⟨⟨⟨rfl, trivial⟩, .inl rfl, by decide⟩, rfl, by decide⟩, ?_⟩
    exact List.forall_mem_singleton.mpr ⟨⟨⟨rfl, rfl, trivial⟩, .inl rfl, by decide⟩, rfl, by decide⟩
  exact ⟨hok, (local_lookup_newest_iff spread hok 5).mpr (by decide), (local_lookup_newest_iff spread hok 6).mpr (by decide),
    by decide⟩

end Rewritten

end Dinomo
