import Dinomo.MergePass

/-!
# Whether a merge leaves the last write of a key

An insertion does not replace the word of a key that is in the index, and an update does not bring in a key that is
not.  The threads log a `PUT` as an insertion and an `UPDATE` as an update without knowing which keys the index has,
so what a merge leaves for a key depends on whether its last oplog finds the key as its type expects.
-/

namespace Dinomo

open List

section Words

variable {Tid V α : Type*}

/-- The word in the slot that a key occupies; the empty marker occupies none. -/
def Clht.word (ht : Clht α) (k : Key) : Option α := (findSlot ht.ht.entries k).join

/-- For other keys it is what a lookup returns. -/
theorem Clht.word_eq_get (ht : Clht α) {k : Key} (hk : k ≠ 0) : ht.word k = ht.get k := by
  rw [word, ht.wf.findSlot_entries hk]
  rfl

/-- The empty marker has no word. -/
theorem Clht.word_zero (ht : Clht α) : ht.word 0 = none := by
  have hnone : ht.ht.entries.find? (fun s => s.key = 0) = none := by
    refine List.find?_eq_none.mpr fun s hs => ?_
    simpa using (mem_filter.mp hs).2
  rw [word, findSlot, hnone]
  rfl

/-- The entries of one key. -/
def entriesOf (k : Key) (es : List (LogEntry Tid V)) : List (LogEntry Tid V) := es.filter fun e => e.oplog.key = k

/-- The word of a key after its entries are applied; `f` gives the word of an entry. -/
def wordAfterAll (f : LogEntry Tid V → α) (w : Option α) (es : List (LogEntry Tid V)) : Option α :=
  es.foldl (fun w e => e.oplog.opType.wordAfter (f e) w) w

/-- Whether a key is there after an operation. -/
def OpType.presentAfter : OpType → Bool → Bool
  | .insert, _ => true
  | .update, present => present
  | .delete, _ => false

/-- Whether a key is there after its entries are applied. -/
def presentAfterAll (present : Bool) (es : List (LogEntry Tid V)) : Bool :=
  es.foldl (fun present e => e.oplog.opType.presentAfter present) present

variable {f : LogEntry Tid V → α} {w : Option α} {es : List (LogEntry Tid V)} {e : LogEntry Tid V}

@[simp] theorem wordAfterAll_nil : wordAfterAll f w [] = w := rfl

@[simp] theorem wordAfterAll_concat :
    wordAfterAll f w (es ++ [e]) = e.oplog.opType.wordAfter (f e) (wordAfterAll f w es) := by
  rw [wordAfterAll, foldl_concat]
  rfl

@[simp] theorem presentAfterAll_concat (present : Bool) :
    presentAfterAll present (es ++ [e]) = e.oplog.opType.presentAfter (presentAfterAll present es) := by
  rw [presentAfterAll, foldl_concat]
  rfl

/-- A key has a word if it is there. -/
theorem isSome_wordAfterAll : (wordAfterAll f w es).isSome = presentAfterAll w.isSome es := by
  induction es using List.reverseRecOn with
  | nil => rfl
  | append_singleton es e ih =>
    rw [wordAfterAll_concat, presentAfterAll_concat, ← ih]
    cases e.oplog.opType <;> cases wordAfterAll f w es <;> rfl

/-- A word that no entry carries is kept by insertions only. -/
theorem wordAfterAll_eq_some_iff {v : α} (hv : ∀ e ∈ es, f e ≠ v) :
    wordAfterAll f w es = some v ↔ w = some v ∧ ∀ e ∈ es, e.oplog.opType = .insert := by
  induction es using List.reverseRecOn with
  | nil => simp
  | append_singleton es e ih =>
    have hne : f e ≠ v := hv e (by simp)
    have ih := ih fun e' he' => hv e' (by simp [he'])
    rw [wordAfterAll_concat]
    cases hop : e.oplog.opType with
    | insert =>
      have hkeep : OpType.wordAfter .insert (f e) (wordAfterAll f w es) = some v ↔ wordAfterAll f w es = some v := by
        cases wordAfterAll f w es with
        | none => simp [OpType.wordAfter, hne]
        | some v' => simp [OpType.wordAfter]
      rw [hkeep, ih]
      simp [or_imp, forall_and, hop]
    | update =>
      have hno : OpType.wordAfter .update (f e) (wordAfterAll f w es) ≠ some v := by
        cases wordAfterAll f w es <;> simp [OpType.wordAfter, hne]
      exact ⟨fun h => absurd h hno, fun h => absurd (h.2 e (by simp)) (by simp [hop])⟩
    | delete => exact ⟨by simp [OpType.wordAfter], fun h => absurd (h.2 e (by simp)) (by simp [hop])⟩

/-- What the index should hold after the last entry of a key. -/
def LogEntry.wordOf (f : LogEntry Tid V → α) (e : LogEntry Tid V) : Option α :=
  if e.oplog.opType.isWrite then some (f e) else none

/-- An entry leaves its word if it finds the key as its type expects, or if its word is there already. -/
theorem wordAfter_eq_wordOf_iff {f : LogEntry Tid V → α} {w : Option α} {e : LogEntry Tid V} :
    e.oplog.opType.wordAfter (f e) w = e.wordOf f ↔
      match e.oplog.opType with
      | .insert => w.isSome = false ∨ w = some (f e)
      | .update => w.isSome = true
      | .delete => True := by
  cases hop : e.oplog.opType <;> cases w <;> simp [OpType.wordAfter, LogEntry.wordOf, hop, OpType.isWrite]

end Words

section Merge

variable {Tid V : Type*} {ht : Clht IndexVal} {es : List (LogEntry Tid V)} {k : Key}

/-- The word an entry brings into the index. -/
def LogEntry.indexVal (e : LogEntry Tid V) : IndexVal := .oplog e.ptr

/-- Each key goes through its own entries. -/
theorem Clht.Full.get_indexAfterAll (hf : ht.Full) (hk : k ≠ 0) (es : List (LogEntry Tid V)) :
    (Dinomo.indexAfterAll ht es).get k = wordAfterAll LogEntry.indexVal (ht.get k) (entriesOf k es) := by
  induction es generalizing ht with
  | nil => rfl
  | cons e es ih =>
    have hrest := ih (Storage.full_indexAfter hf e.ptr e.oplog)
    rw [Storage.get_indexAfter hf e.ptr e.oplog hk] at hrest
    by_cases he : e.oplog.key = k
    · rw [if_pos he.symm, he] at hrest
      have hes : entriesOf k (e :: es) = e :: entriesOf k es := filter_cons_of_pos (by simpa using he)
      rw [hes]
      exact hrest
    · rw [if_neg (Ne.symm he)] at hrest
      have hes : entriesOf k (e :: es) = entriesOf k es := filter_cons_of_neg (by simpa using he)
      rw [hes]
      exact hrest

/-- The index holds for a key what the last of its entries says. -/
def Clht.HoldsLast (ht : Clht IndexVal) (es : List (LogEntry Tid V)) (k : Key) : Prop :=
  ∀ e ∈ (entriesOf k es).getLast?, ht.word k = e.wordOf LogEntry.indexVal

/-- The last entry of a key finds the key as its type expects: an insertion finds it absent, or finds the word of its
own place and only insertions before it, and an update finds it present.  The empty marker may only be deleted. -/
def LastFits (k : Key) (w : Option IndexVal) (es : List (LogEntry Tid V)) : Prop :=
  ∀ e ∈ es.getLast?, (k = 0 → e.oplog.opType = .delete) ∧
    match e.oplog.opType with
    | .insert => presentAfterAll w.isSome es.dropLast = false ∨
        (w = some e.indexVal ∧ ∀ e' ∈ es.dropLast, e'.oplog.opType = .insert)
    | .update => presentAfterAll w.isSome es.dropLast = true
    | .delete => True

/-- Applying entries with places of their own leaves the last word of a key just if its last entry fits. -/
theorem Clht.Full.holdsLast_iff (hf : ht.Full) (hnodup : (es.map LogEntry.ptr).Nodup) :
    (Dinomo.indexAfterAll ht es).HoldsLast es k ↔ LastFits k (ht.word k) (entriesOf k es) := by
  have hnodup' : ((entriesOf k es).map LogEntry.ptr).Nodup := hnodup.sublist (filter_sublist.map _)
  unfold HoldsLast LastFits
  refine forall₂_congr fun e he => ?_
  obtain ⟨pre, hes⟩ : ∃ pre, entriesOf k es = pre ++ [e] := List.getLast?_eq_some_iff.mp he
  rw [hes, dropLast_concat]
  by_cases hk : k = 0
  · -- the empty marker occupies no slot
    subst hk
    rw [Clht.word_zero, Clht.word_zero, LogEntry.wordOf]
    cases hop : e.oplog.opType <;> simp [OpType.isWrite]
  · have hother : ∀ e' ∈ pre, e'.indexVal ≠ e.indexVal := fun e' he' heq => by
      rw [hes, map_append, nodup_append] at hnodup'
      exact hnodup'.2.2 _ (mem_map_of_mem he') _ (mem_map_of_mem (mem_singleton_self e))
        (IndexVal.oplog.inj heq)
    rw [Clht.word_eq_get _ hk, Clht.word_eq_get _ hk, hf.get_indexAfterAll hk, hes, wordAfterAll_concat,
      wordAfter_eq_wordOf_iff, isSome_wordAfterAll, wordAfterAll_eq_some_iff hother]
    simp [hk]

end Merge

namespace Storage

variable {Tid V : Type*} {st : Storage Tid V} {t : Tid} {C : List Addr}

/-- The unmerged oplogs of a log have places of their own. -/
theorem LogOk.nodup_pending (h : st.LogOk t C) : ((st.pending t C).map LogEntry.ptr).Nodup := by
  rw [pending, map_flatMap, nodup_flatMap]
  refine ⟨fun a ha => ?_, ?_⟩
  · have haligned := (h.blocks a (mem_reverse.mp ha)).aligned
    rw [pendingIn, map_map]
    refine List.Nodup.map_on (fun o ho o' ho' heq => ?_) ((haligned.nodup Oplog.size_pos).filter _)
    have hoff : o.offset = o'.offset := congrArg Ptr.off heq
    exact haligned.eq_of_offset Oplog.size_pos (mem_of_mem_filter ho) (mem_of_mem_filter ho') hoff
  · have hblock : ∀ a, ∀ p ∈ (st.pendingIn t a).map LogEntry.ptr, p.block = a := fun a p hp => by
      rw [pendingIn, map_map] at hp
      obtain ⟨o, -, rfl⟩ := mem_map.mp hp
      rfl
    refine (nodup_reverse.mpr h.nodup).imp fun {a b} hab => ?_
    intro p hp hp'
    exact hab ((hblock a p hp).symm.trans (hblock b p hp'))

variable [DecidableEq Tid]

/-- A manager merges any log into any index without null words, as merges leave it, and ends; then the index holds the
last write of a key of the log just if the last oplog of the key finds the key as its type expects. -/
theorem merge_applies_last_iff (hlog : st.LogOk t C) (hidle : st.progressTable t = none) (hfull : st.ht.Full)
    {kind : PassKind} (hkind : kind ≠ .worker) : ∃ st₀ st', st.beginPass t kind = some st₀ ∧ st₀.PassTo t st' ∧
      st'.progressTable t = none ∧ ∀ k, st'.ht.HoldsLast (st.pending t C) k ↔
        LastFits k (st.ht.word k) (entriesOf k (st.pending t C)) := by
  obtain ⟨st₀, st', hbegin, hto, st₁, done, hmerges, rfl⟩ := hlog.merge hidle hkind
  have hht : (st₁.finishPass t kind).ht = indexAfterAll st.ht (st.pending t C) := by
    rw [← hmerges.ht]
    cases kind <;> rfl
  refine ⟨st₀, _, hbegin, hto, ?_, fun k => ?_⟩
  · cases kind <;> exact Function.update_self _ _ _
  · rw [hht]
    exact hfull.holdsLast_iff hlog.nodup_pending

end Storage

/-- A log of one block: key `1` is inserted and updated, and key `2` deleted. -/
def updatedLog : Storage Unit ℕ :=
  { (Cluster.init 2 : Cluster Unit ℕ).st with
    mem := fun a => if a = 2097152 then ⟨0, 88, 2, 0, 0, 0, [(putWrite 1 8 10 8 false).at 0,
      (putWrite 1 8 20 8 true).at 32, (removeWrite 2 8).at 64]⟩ else .zero
    logMappingTable := fun _ => 2097152 }

/-- After the merge of that log the index leads to the update of key `1`. -/
theorem merge_applies_last_updatedLog : updatedLog.LogOk () [2097152] ∧ ∃ st₀ st',
    updatedLog.beginPass () .request = some st₀ ∧ st₀.PassTo () st' ∧ st'.progressTable () = none ∧
      st'.ht.word 1 = some (.oplog ⟨2097152, 32⟩) ∧ st'.ht.word 2 = none := by
  have hlog : updatedLog.LogOk () [2097152] := by
    refine ⟨⟨rfl, by decide, rfl⟩, List.nodup_singleton _, fun a ha => ?_⟩
    obtain rfl := List.mem_singleton.mp ha
    exact ⟨⟨rfl, rfl, rfl, trivial⟩, .inl rfl, .inr ⟨_, List.mem_cons_self, rfl⟩, by decide⟩
  have hkind : PassKind.request ≠ .worker := nofun
  obtain ⟨st₀, st', hbegin, hto, hend, hlast⟩ := Storage.merge_applies_last_iff hlog rfl (Clht.full_create 2) hkind
  refine ⟨hlog, st₀, st', hbegin, hto, hend, ?_, ?_⟩
  · refine (hlast 1).mpr (fun e he => ?_) _ rfl
    cases he
    exact ⟨nofun, rfl⟩
  · refine (hlast 2).mpr (fun e he => ?_) _ rfl
    cases he
    exact ⟨nofun, trivial⟩

/-- A key is put and merged, and put again. -/
def putTwiceRun : List (Event Bool ℕ) := List.flatten
  [[.invoke false (.write (putWrite 1 8 10 8 false)), .preallocate false [2097152, 4194304]],
    .replicate 3 (.advance false),
    [.invoke false (.merge false), .beginPass false .request], .replicate 3 (.passStep false), [.advance false],
    [.invoke false (.write (putWrite 1 8 20 8 false)), .advance false, .invoke false (.merge false)]]

/-- The second value is merged, and the index still leads to the first. -/
theorem second_put_not_merged : ∃ (s : Cluster Bool ℕ) (st₀ st' : Storage Bool ℕ),
    Cluster.run (.initial false) (.init 2) putTwiceRun = some s ∧
      s.st.beginPass false .request = some st₀ ∧ st₀.PassTo false st' ∧ st'.progressTable false = none ∧
      (s.st.pending false [2097152]).map (fun e => (e.ptr.off, e.oplog.key, e.oplog.value)) = [(32, 1, 20)] ∧
      st'.ht.word 1 = some (.oplog ⟨2097152, 0⟩) ∧ ¬ st'.ht.HoldsLast (s.st.pending false [2097152]) 1 := by
  have hstate : (Cluster.run (.initial false) (.init 2) putTwiceRun).bind (fun s =>
      (s.st.beginPass false .request).bind fun st₀ => (Storage.passSteps false 3 st₀).map fun st' =>
        ((s.st.pending false [2097152]).map (fun e => (e.ptr.off, e.oplog.key, e.oplog.value)), st'.ht.word 1,
          st'.progressTable false, ((entriesOf 1 (s.st.pending false [2097152])).getLast?.map LogEntry.indexVal))) =
        some ([(32, 1, 20)], some (.oplog ⟨2097152, 0⟩), none, some (.oplog ⟨2097152, 32⟩)) := by decide +kernel
  obtain ⟨s, hrun, hs⟩ := Option.bind_eq_some_iff.mp hstate
  obtain ⟨st₀, hbegin, hst₀⟩ := Option.bind_eq_some_iff.mp hs
  obtain ⟨st', hto, hst'⟩ := Option.map_eq_some_iff.mp hst₀
  simp only [Prod.mk.injEq] at hst'
  obtain ⟨hpending, hword, hend, hlast⟩ := hst'
  refine ⟨s, st₀, st', hrun, hbegin, ⟨3, hto⟩, hend, hpending, hword, fun h => ?_⟩
  obtain ⟨e, he, hval⟩ := Option.map_eq_some_iff.mp hlast
  have := h e he
  rw [hword, LogEntry.wordOf, hval] at this
  split_ifs at this
  exact absurd this (by decide)

end Dinomo
