import Dinomo.ClhtSpec
import Dinomo.Library.Transition

/-!
# The index is a finite map

All calls of the index, one at a time, against a map from keys to value words.  An indirect pointer is the word of a
cell: `clht_install_indirect` writes the old value into the cell and the cell's word into the slot, and
`clht_remove_indirect` writes the content of the cell that the slot points at into the slot.  A slot with a null word
cannot be followed, and the call has no result there.
-/

namespace Dinomo

variable {α : Type*}

/-- The calls of the index. -/
inductive IndexCall (α : Type*)
  | put (k : Key) (v : Option α)
  | update (k : Key) (v : Option α)
  | remove (k : Key)
  | installIndirect (k : Key) (cell : α)
  | removeIndirect (k : Key)
  | get (k : Key)
  | resize (logBuckets : ℕ)

/-- The key of a call is not the empty marker. -/
def IndexCall.NonZero : IndexCall α → Prop
  | .put k _ => k ≠ 0
  | .update k _ => k ≠ 0
  | .remove k => k ≠ 0
  | .installIndirect k _ => k ≠ 0
  | .removeIndirect k => k ≠ 0
  | .get k => k ≠ 0
  | .resize _ => True

/-- What a call returns. -/
inductive IndexReply (α : Type*)
  | flag (inserted : Bool)
  | word (v : Option α)
  | done
deriving DecidableEq, Repr

/-- The table, the cells that indirect pointers point at, and what the calls returned. -/
structure IndexRun (α : Type*) where
  ht : Table α
  cells : α → Option α
  replies : List (IndexReply α)

/-- A map from keys to value words, the cells, and what the calls returned. -/
structure MapRun (α : Type*) where
  words : Key → Option (Option α)
  cells : α → Option α
  replies : List (IndexReply α)

namespace IndexRun

/-- Note what a call returned. -/
def reply (s : IndexRun α) (r : IndexReply α) : IndexRun α := { s with replies := s.replies ++ [r] }

/-- `clht_install_indirect`. -/
def installIndirect [DecidableEq α] (s : IndexRun α) (k : Key) (cell : α) : IndexRun α :=
  if bucketExists (s.ht.table (s.ht.hash k)) k then
    let installed := s.ht.replaceVal k fun _ => some cell
    ({ s with ht := installed.1, cells := Function.update s.cells cell installed.2 } : IndexRun α).reply (.word installed.2)
  else s.reply (.word none)

/-- `clht_remove_indirect`. -/
def removeIndirect (s : IndexRun α) (k : Key) : Option (IndexRun α) :=
  if bucketExists (s.ht.table (s.ht.hash k)) k then
    match (s.ht.lookup k).join with
    | none => none
    | some cell => some (({ s with ht := (s.ht.replaceVal k fun _ => s.cells cell).1 } : IndexRun α).reply (.word (some cell)))
  else some (s.reply (.word none))

/-- One call of the table. -/
def step [DecidableEq α] (s : IndexRun α) : IndexCall α → Option (IndexRun α)
  | .put k v => some (({ s with ht := (s.ht.put k v).1 } : IndexRun α).reply (.flag (s.ht.put k v).2))
  | .update k v =>
    let updated := s.ht.replaceVal k fun _ => v
    some (({ s with ht := updated.1 } : IndexRun α).reply (.word updated.2))
  | .remove k => some (({ s with ht := (s.ht.remove k).1 } : IndexRun α).reply (.word (s.ht.remove k).2))
  | .installIndirect k cell => some (s.installIndirect k cell)
  | .removeIndirect k => s.removeIndirect k
  | .get k => some (s.reply (.word (s.ht.lookup k).join))
  | .resize logBuckets => some (({ s with ht := s.ht.resize logBuckets } : IndexRun α).reply .done)

end IndexRun

namespace MapRun

/-- A call returned a value and left the map with a word for a key. -/
def set (s : MapRun α) (k : Key) (w : Option (Option α)) (r : IndexReply α) : MapRun α :=
  { s with words := Function.update s.words k w, replies := s.replies ++ [r] }

/-- A call returned a value and changed nothing. -/
def reply (s : MapRun α) (r : IndexReply α) : MapRun α := { s with replies := s.replies ++ [r] }

/-- One call of the map. -/
def step [DecidableEq α] (s : MapRun α) : IndexCall α → Option (MapRun α)
  | .put k v =>
    match s.words k with
    | some _ => some (s.reply (.flag false))
    | none => some (s.set k (some v) (.flag true))
  | .update k v =>
    match s.words k with
    | none => some (s.reply (.word none))
    | some old => some (s.set k (some v) (.word old))
  | .remove k =>
    match s.words k with
    | none => some (s.reply (.word none))
    | some old => some (s.set k none (.word old))
  | .installIndirect k cell =>
    match s.words k with
    | none => some (s.reply (.word none))
    | some old =>
      some (({ s with cells := Function.update s.cells cell old } : MapRun α).set k (some (some cell)) (.word old))
  | .removeIndirect k =>
    match s.words k with
    | none => some (s.reply (.word none))
    | some none => none
    | some (some cell) => some (s.set k (some (s.cells cell)) (.word (some cell)))
  | .get k => some (s.reply (.word (s.words k).join))
  | .resize _ => some (s.reply .done)

end MapRun

/-- The table holds the words of the map. -/
structure IndexRun.Refines (s : IndexRun α) (m : MapRun α) : Prop where
  wf : s.ht.Wf
  words : ∀ k, k ≠ 0 → s.ht.lookup k = m.words k
  cells : s.cells = m.cells
  replies : s.replies = m.replies

namespace IndexRun.Refines

variable {s : IndexRun α} {m : MapRun α} {k : Key}

/-- A call changed the word of one key and returned what the map returns. -/
theorem set {t : Table α} {w : Option (Option α)} {r : IndexReply α} (h : s.Refines m) (hwf : t.Wf)
    (hwords : ∀ k', k' ≠ 0 → t.lookup k' = if k' = k then w else s.ht.lookup k') :
    (({ s with ht := t } : IndexRun α).reply r).Refines (m.set k w r) := by
  refine ⟨hwf, fun k' hk' => ?_, h.cells, congrArg (· ++ [r]) h.replies⟩
  have hlookup : (({ s with ht := t } : IndexRun α).reply r).ht.lookup k' = _ := hwords k' hk'
  rw [hlookup, h.words k' hk']
  exact (Function.update_apply m.words k w k').symm

/-- A call left the words and returned what the map returns. -/
theorem keep {t : Table α} {r : IndexReply α} (h : s.Refines m) (hwf : t.Wf)
    (hwords : ∀ k', k' ≠ 0 → t.lookup k' = s.ht.lookup k') :
    (({ s with ht := t } : IndexRun α).reply r).Refines (m.reply r) :=
  ⟨hwf, fun k' hk' => (hwords k' hk').trans (h.words k' hk'), h.cells, congrArg (· ++ [r]) h.replies⟩

/-- The table finds a key where the map has it. -/
theorem bucketExists_eq (h : s.Refines m) (hk : k ≠ 0) :
    bucketExists (s.ht.table (s.ht.hash k)) k = (m.words k).isSome := by
  rw [Dinomo.bucketExists_eq, ← h.words k hk]
  rfl

/-- An insertion. -/
theorem put {v : Option α} [DecidableEq α] (h : s.Refines m) (hk : k ≠ 0) :
    Option.Rel Refines (s.step (.put k v)) (m.step (.put k v)) := by
  obtain ⟨hwf, hlookup⟩ := h.wf.put k v
  have hexists := h.bucketExists_eq hk
  have hword := h.words k hk
  simp only [IndexRun.step, MapRun.step]
  cases hm : m.words k with
  | none =>
    have hflag : (s.ht.put k v).2 = true := by
      rw [hm] at hexists
      simp only [Table.put, hexists, Option.isSome_none, Bool.false_eq_true, if_false]
      split_ifs <;> rfl
    rw [hflag]
    refine .some (h.set hwf fun k' hk' => ?_)
    rw [hlookup k' hk', hword, hm]
    rfl
  | some old =>
    have hsame : s.ht.put k v = (s.ht, false) := by
      rw [hm] at hexists
      rw [Table.put, hexists]
      rfl
    rw [hsame]
    exact .some (h.keep h.wf fun _ _ => rfl)

/-- A change of the word of a key that is there. -/
theorem replaceVal {old w : Option α} (h : s.Refines m) (r : IndexReply α) (hk : k ≠ 0) (hm : m.words k = some old) :
    (({ s with ht := (s.ht.replaceVal k fun _ => w).1 } : IndexRun α).reply r).Refines (m.set k (some w) r) := by
  obtain ⟨hwf, hlookup⟩ := h.wf.replaceVal k fun _ => w
  refine h.set hwf fun k' hk' => ?_
  rw [hlookup k', h.words k hk, hm]
  rfl

/-- What the calls that look for a key find. -/
theorem lookup_join (h : s.Refines m) (hk : k ≠ 0) : (s.ht.lookup k).join = (m.words k).join := by
  rw [h.words k hk]

/-- An update. -/
theorem update {v : Option α} [DecidableEq α] (h : s.Refines m) (hk : k ≠ 0) :
    Option.Rel Refines (s.step (.update k v)) (m.step (.update k v)) := by
  have hreply : (s.ht.replaceVal k fun _ => v).2 = (m.words k).join := h.lookup_join hk
  simp only [IndexRun.step, MapRun.step, hreply]
  cases hm : m.words k with
  | some old => exact .some (h.replaceVal _ hk hm)
  | none =>
    obtain ⟨hwf, hlookup⟩ := h.wf.replaceVal k fun _ => v
    refine .some (h.keep hwf fun k' _ => ?_)
    rw [hlookup k']
    split_ifs with heq
    · rw [heq, h.words k hk, hm]
      rfl
    · rfl

/-- A removal. -/
theorem remove [DecidableEq α] (h : s.Refines m) (hk : k ≠ 0) :
    Option.Rel Refines (s.step (.remove k)) (m.step (.remove k)) := by
  obtain ⟨hwf, hlookup⟩ := h.wf.remove k
  have hreply : (s.ht.remove k).2 = (m.words k).join := h.lookup_join hk
  simp only [IndexRun.step, MapRun.step, hreply]
  cases hm : m.words k with
  | some old => exact .some (h.set hwf hlookup)
  | none =>
    refine .some (h.keep hwf fun k' hk' => ?_)
    rw [hlookup k' hk']
    split_ifs with heq
    · rw [heq, h.words k hk, hm]
    · rfl

/-- The installation of an indirect pointer. -/
theorem installIndirect [DecidableEq α] {cell : α} (h : s.Refines m) (hk : k ≠ 0) :
    Option.Rel Refines (s.step (.installIndirect k cell)) (m.step (.installIndirect k cell)) := by
  have hexists := h.bucketExists_eq hk
  have hreply : (s.ht.replaceVal k fun _ => some cell).2 = (m.words k).join := h.lookup_join hk
  simp only [IndexRun.step, MapRun.step, IndexRun.installIndirect, hexists, hreply]
  cases hm : m.words k with
  | none => exact .some (h.keep h.wf fun _ _ => rfl)
  | some old =>
    -- the cell gets the old word on both sides
    have hcells : ({ s with cells := Function.update s.cells cell old } : IndexRun α).Refines
        { m with cells := Function.update m.cells cell old } := ⟨h.wf, h.words, by rw [h.cells], h.replies⟩
    exact .some (hcells.replaceVal _ hk hm)

/-- The removal of an indirect pointer. -/
theorem removeIndirect [DecidableEq α] (h : s.Refines m) (hk : k ≠ 0) :
    Option.Rel Refines (s.step (.removeIndirect k)) (m.step (.removeIndirect k)) := by
  have hexists := h.bucketExists_eq hk
  have hjoin := h.lookup_join hk
  simp only [IndexRun.step, MapRun.step, IndexRun.removeIndirect, hexists, hjoin]
  cases hm : m.words k with
  | none => exact .some (h.keep h.wf fun _ _ => rfl)
  | some old =>
    cases old with
    | none => exact .none
    | some cell =>
      rw [← h.cells]
      exact .some (h.replaceVal _ hk hm)

/-- Every call of the table is that of the map. -/
theorem step [DecidableEq α] {e : IndexCall α} (h : s.Refines m) (he : e.NonZero) :
    Option.Rel Refines (s.step e) (m.step e) := by
  cases e with
  | put k v => exact h.put he
  | update k v => exact h.update he
  | remove k => exact h.remove he
  | installIndirect k cell => exact h.installIndirect he
  | removeIndirect k => exact h.removeIndirect he
  | get k =>
    simp only [IndexRun.step, MapRun.step, h.lookup_join he]
    exact .some (h.keep h.wf fun _ _ => rfl)
  | resize n =>
    obtain ⟨hwf, hlookup⟩ := h.wf.resize n
    exact .some (h.keep hwf hlookup)

end IndexRun.Refines

/-- Among slots with different keys, the one that is found is the one with the key. -/
theorem findSlot_eq_some_iff {l : List (Slot α)} {k : Key} {v : Option α} (hl : (l.map Slot.key).Nodup) :
    findSlot l k = some v ↔ ⟨k, v⟩ ∈ l := by
  induction l with
  | nil => simp [findSlot]
  | cons s l ih =>
    obtain ⟨hs, hl⟩ := List.nodup_cons.mp hl
    have ih := ih hl
    by_cases heq : s.key = k
    · subst heq
      have hnot : (⟨s.key, v⟩ : Slot α) ∉ l := fun hmem => hs (List.mem_map.mpr ⟨_, hmem, rfl⟩)
      cases s
      simp_all [findSlot, eq_comm]
    · have hne : (⟨k, v⟩ : Slot α) ≠ s := by
        rintro rfl
        exact heq rfl
      simp only [List.mem_cons, hne, false_or, ← ih]
      simp [findSlot, heq]

/-- The table has the entries of the map, no key twice, and its calls returned what those of the map returned. -/
structure IndexRun.Agrees (s : IndexRun α) (m : MapRun α) : Prop where
  nodup : (s.ht.entries.map Slot.key).Nodup
  entries : ∀ k v, k ≠ 0 → (⟨k, v⟩ ∈ s.ht.entries ↔ m.words k = some v)
  cells : s.cells = m.cells
  replies : s.replies = m.replies

/-- A table that holds the words of the map agrees with it. -/
theorem IndexRun.Refines.agrees {s : IndexRun α} {m : MapRun α} (h : s.Refines m) : s.Agrees m := by
  refine ⟨h.wf.entries_nodup, fun k v hk => ?_, h.cells, h.replies⟩
  rw [← h.words k hk, ← h.wf.findSlot_entries hk]
  exact (findSlot_eq_some_iff h.wf.entries_nodup).symm

/-- Whatever the number of buckets, the index is a finite map: over every sequence of calls with keys other than the
empty marker it returns what the map returns, and holds the entries of the map, no key twice. -/
theorem index_refines_map [DecidableEq α] (logBuckets : ℕ) (cells : α → Option α) (es : List (IndexCall α))
    (hes : ∀ e ∈ es, e.NonZero) :
    Option.Rel IndexRun.Agrees (Transition.run IndexRun.step ⟨Table.create logBuckets, cells, []⟩ es)
      (Transition.run MapRun.step ⟨fun _ => none, cells, []⟩ es) := by
  have hinit : (⟨Table.create logBuckets, cells, []⟩ : IndexRun α).Refines ⟨fun _ => none, cells, []⟩ :=
    ⟨Table.wf_create logBuckets, fun k hk => Table.lookup_create logBuckets hk, rfl, rfl⟩
  have hrel := Transition.run_rel (fun s m e h he => IndexRun.Refines.step (e := e) h he) hinit hes
  revert hrel
  generalize Transition.run IndexRun.step ⟨Table.create logBuckets, cells, []⟩ es = s
  generalize Transition.run MapRun.step ⟨fun _ => none, cells, []⟩ es = m
  rintro (h | _)
  · exact .some h.agrees
  · exact .none

/-- Calls on key `3` of a table with one bucket. -/
def indirectCalls : List (IndexCall ℕ) :=
  [.put 3 (some 7), .installIndirect 3 5, .get 3, .resize 4, .removeIndirect 3, .update 3 (some 8), .remove 3, .get 3]

/-- The calls on key `3`, and what they return. -/
theorem index_refines_map_indirect : (∀ e ∈ indirectCalls, e.NonZero) ∧
    Option.Rel IndexRun.Agrees (Transition.run IndexRun.step ⟨Table.create 0, fun _ => none, []⟩ indirectCalls)
      (Transition.run MapRun.step ⟨fun _ => none, fun _ => none, []⟩ indirectCalls) ∧
    (Transition.run MapRun.step ⟨fun _ => none, fun _ => none, []⟩ indirectCalls).map MapRun.replies =
      some [.flag true, .word (some 7), .word (some 5), .done, .word (some 5), .word (some 7), .word (some 8), .word none] := by
  have hes : ∀ e ∈ indirectCalls, e.NonZero := by simp [indirectCalls, IndexCall.NonZero]
  exact ⟨hes, index_refines_map 0 (fun _ => none) indirectCalls hes, by decide⟩

end Dinomo
