import Dinomo.Storage

/-!
# What applying an oplog does to the index

The merge of `dinomo_storage.cpp` calls `clht_put`, `clht_update` or `clht_remove` by the type of the
oplog.  Seen from one key, these three are: insert if absent, replace if present, drop.
-/

namespace Dinomo

variable {Tid V : Type*}

/-- The word of a key after an operation that carries the word `v`. -/
def OpType.wordAfter {α : Type*} (op : OpType) (v : α) (old : Option α) : Option α :=
  match op with
  | .insert => old.or (some v)
  | .update => old.map fun _ => v
  | .delete => none

/-- No operation of a log brings an indirect pointer into the index. -/
theorem OpType.eq_indirect_of_wordAfter {op : OpType} {p : Ptr} {old : Option IndexVal} {c : Addr}
    (h : op.wordAfter (.oplog p) old = some (.indirect c)) : old = some (.indirect c) := by
  cases op <;> cases old <;> simp_all [wordAfter]

namespace Storage

/-- The words of the index after an oplog is applied. -/
theorem get_indexAfter {ht : Clht IndexVal} (hf : ht.Full) (p : Ptr) (o : Oplog V) {k : Key} (hk : k ≠ 0) :
    (indexAfter ht p o).get k =
      if k = o.key then o.opType.wordAfter (.oplog p) (ht.get o.key) else ht.get k := by
  unfold indexAfter
  cases ho : o.opType with
  | insert => exact hf.get_put _ _ hk
  | update => exact hf.get_update _ _ hk
  | delete => exact Clht.get_remove _ _ hk

/-- Applying an oplog leaves no null words. -/
theorem full_indexAfter {ht : Clht IndexVal} (hf : ht.Full) (p : Ptr) (o : Oplog V) :
    (indexAfter ht p o).Full := by
  unfold indexAfter
  cases o.opType with
  | insert => exact hf.put _ _
  | update => exact hf.update _ _
  | delete => exact hf.remove _

/-- The index after an oplog is applied to the storage side. -/
@[simp] theorem ht_applyOplog (st : Storage Tid V) (t : Tid) (p : Ptr) (o : Oplog V) :
    (st.applyOplog t p o).ht = indexAfter st.ht p o := by
  unfold applyOplog
  cases st.superseded o <;> rfl

/-- The record of applied oplogs. -/
@[simp] theorem applied_applyOplog (st : Storage Tid V) (t : Tid) (p : Ptr) (o : Oplog V) :
    (st.applyOplog t p o).applied = st.applied ++ [⟨t, p, o⟩] := by
  unfold applyOplog
  cases st.superseded o <;> rfl

/-- Applying an oplog changes the index, the record of it and an invalidation counter only. -/
theorem applyOplog_eq (st : Storage Tid V) (t : Tid) (p : Ptr) (o : Oplog V) :
    st.applyOplog t p o = { st with
      mem := (st.applyOplog t p o).mem, ht := indexAfter st.ht p o, applied := st.applied ++ [⟨t, p, o⟩] } := by
  unfold applyOplog
  cases st.superseded o <;> rfl

/-- The pool address of an oplog leads back to its block. -/
theorem logBlockMerged_oplog {st : Storage Tid V} {p : Ptr} {o : Oplog V} (ho : st.oplogAt p = some o)
    (hoff : o.offset = p.off) : st.logBlockMerged (.oplog p) = p.block := by
  simp only [logBlockMerged, ho, Option.elim_some, hoff, Ptr.raddr]
  rw [Nat.add_sub_cancel, Nat.add_sub_cancel]

end Storage

end Dinomo
