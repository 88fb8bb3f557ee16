import Dinomo.ClhtResize
import Dinomo.Library.Transition
import Mathlib.Data.List.Range
import Mathlib.Algebra.GroupWithZero.Nat

/-!
# Resizing with a helper

`ht_resize_pes` copies the buckets of the old table in ascending order.  A thread that finds a bucket
taken by it may help: `ht_resize_help` copies them in descending order.  Each of the two takes a bucket
before it copies its chain, and stops at the first one that is taken.  A table that is made smaller gets
no helper.

The workers take their steps in any order.  A step is one try of a lock or one slot of a chain.
-/

namespace Dinomo

open Function List List

variable {α : Type*}

/-- The threads that copy buckets. -/
inductive CopyWorker
  | resizer
  | helper
  deriving DecidableEq

/-- Where a worker is: it has not begun, it is about to take the next bucket, it copies a chain, or it has stopped. -/
inductive CopyStage (α : Type*)
  | idle
  | lock (todo : List ℕ)
  | copy (slots : List (Slot α)) (todo : List ℕ)
  | finished
  deriving DecidableEq

/-- The size of the new table: the old one times a power of two, or an eighth. -/
inductive ResizeOrder
  | increase (logBy : ℕ)
  | halve

/-- A table that is being copied, and the writes to the new one by their workers. -/
structure Resizing (α : Type*) where
  htOld : Table α
  isIncrease : Bool
  tableTmp : Table α
  locked : ℕ → Bool
  stage : CopyWorker → CopyStage α
  writes : List (CopyWorker × Slot α)

/-- The order in which a worker goes through the buckets. -/
def CopyWorker.buckets (numBuckets : ℕ) : CopyWorker → List ℕ
  | .resizer => List.range numBuckets
  | .helper => (List.range numBuckets).reverse

/-- The slots of a chain that a worker has still to copy. -/
def CopyStage.slots : CopyStage α → List (Slot α)
  | .copy slots _ => slots
  | .idle | .lock _ | .finished => []

namespace Resizing

/-- The resizer before its first bucket. -/
def init (t : Table α) (isIncrease : Bool) (logBuckets : ℕ) : Resizing α where
  htOld := t
  isIncrease := isIncrease
  tableTmp := .create logBuckets
  locked := fun _ => false
  stage
    | .resizer => .lock (CopyWorker.resizer.buckets t.numBuckets)
    | .helper => .idle
  writes := []

/-- The start of `ht_resize_pes`; a table without buckets cannot be created. -/
def start (t : Table α) : ResizeOrder → Option (Resizing α)
  | .increase logBy => some (init t true (t.logBuckets + logBy))
  | .halve => if t.numBuckets / 8 = 0 then none else some (init t false (t.logBuckets - 3))

/-- A worker moves on. -/
def setStage (s : Resizing α) (w : CopyWorker) (x : CopyStage α) : Resizing α :=
  { s with stage := Function.update s.stage w x }

/-- One step of a worker. -/
def step (s : Resizing α) (w : CopyWorker) : Option (Resizing α) :=
  match s.stage w with
  | .idle => if s.isIncrease then some (s.setStage w (.lock (w.buckets s.htOld.numBuckets))) else none
  | .lock [] => some (s.setStage w .finished)
  | .lock (b :: todo) =>
    if s.locked b then some (s.setStage w .finished)
    else some ({ s with locked := Function.update s.locked b true }.setStage w (.copy (s.htOld.table b) todo))
  | .copy [] todo => some (s.setStage w (.lock todo))
  | .copy (x :: slots) todo =>
    if x.key = 0 then some (s.setStage w (.copy slots todo))
    else
      some ({ s with tableTmp := s.tableTmp.putSeq x, writes := s.writes ++ [(w, x)] }.setStage w (.copy slots todo))
  | .finished => none

/-- The new table takes the place of the old one: the resizer has stopped, and so has the helper, if there is one. -/
def Done (s : Resizing α) : Prop :=
  s.stage .resizer = .finished ∧ (s.stage .helper = .idle ∨ s.stage .helper = .finished)

instance [DecidableEq α] (s : Resizing α) : Decidable s.Done := inferInstanceAs (Decidable (_ ∧ (_ ∨ _)))

/-- The slots that the workers have still to copy from chains they have taken. -/
def pending (s : Resizing α) : List (Slot α) := (s.stage .resizer).slots ++ (s.stage .helper).slots

/-- The buckets of a worker, when the resizer has taken those below `lo` and the helper those from `hi` on. -/
def Taken (t : Table α) (lo hi : ℕ) : CopyWorker → ℕ → Prop
  | .resizer, b => b < lo
  | .helper, b => hi ≤ b ∧ b < t.numBuckets

/-- The buckets that a worker has still before it. -/
def rest (t : Table α) (lo hi : ℕ) : CopyWorker → List ℕ
  | .resizer => List.range' lo (t.numBuckets - lo)
  | .helper => (List.range hi).reverse

/-- The stages of a worker: it stops when every bucket is taken. -/
def StageOk (t : Table α) (lo hi : ℕ) (w : CopyWorker) : CopyStage α → Prop
  | .idle => w = .helper ∧ hi = t.numBuckets
  | .lock todo | .copy _ todo => todo = rest t lo hi w
  | .finished => lo = hi

/-- The pairs of the buckets that are taken. -/
def takenPairs (t : Table α) (lo hi : ℕ) : List (Slot α) :=
  pairs ((List.range lo ++ List.range' hi (t.numBuckets - hi)).flatMap t.table)

/--
The resizer has taken the buckets below `lo` and the helper those from `hi` on; what they wrote and what
they have still to copy are the pairs of these buckets.
-/
structure Split (t : Table α) (logBuckets lo hi : ℕ) (s : Resizing α) : Prop where
  old : s.htOld = t
  le : lo ≤ hi
  hi_le : hi ≤ t.numBuckets
  locked : ∀ b, s.locked b = true ↔ ∃ w, Taken t lo hi w b
  stages : ∀ w, StageOk t lo hi w (s.stage w)
  slots : ∀ w, ∀ x ∈ (s.stage w).slots, x.key ≠ 0 → Taken t lo hi w (t.hash x.key)
  writes : ∀ x ∈ s.writes, x.2.key ≠ 0 ∧ Taken t lo hi x.1 (t.hash x.2.key)
  perm : (s.writes.map Prod.snd ++ pairs s.pending).Perm (takenPairs t lo hi)
  table : s.tableTmp = (s.writes.map Prod.snd).foldl Table.putSeq (.create logBuckets)
  grows : s.isIncrease = true → t.logBuckets ≤ logBuckets

section Steps

variable {t : Table α} {s : Resizing α} {n lo hi : ℕ} {w : CopyWorker} {x : CopyStage α}

/-- A worker that moves on exchanges the slots of its old stage for those of the new one. -/
theorem pending_setStage (s : Resizing α) (w : CopyWorker) (x : CopyStage α) :
    (x.slots ++ s.pending).Perm ((s.stage w).slots ++ (s.setStage w x).pending) := by
  cases w with
  | resizer => exact perm_append_comm_assoc _ _ _
  | helper =>
    refine perm_append_comm.trans ?_
    change ((s.stage .resizer).slots ++ (s.stage .helper).slots ++ x.slots).Perm
      ((s.stage .helper).slots ++ ((s.stage .resizer).slots ++ x.slots))
    rw [← append_assoc]
    exact perm_append_comm.append_right _

/-- The pairs that are pending before and after a worker moves on. -/
theorem pairs_pending_setStage (s : Resizing α) (w : CopyWorker) (x : CopyStage α) :
    (pairs x.slots ++ pairs s.pending).Perm (pairs (s.stage w).slots ++ pairs (s.setStage w x).pending) := by
  have hperm := (pending_setStage s w x).filter fun y => y.key ≠ 0
  rwa [filter_append, filter_append] at hperm

/-- The other workers keep their stages. -/
theorem stage_setStage (s : Resizing α) (w w' : CopyWorker) (x : CopyStage α) :
    (s.setStage w x).stage w' = if w' = w then x else s.stage w' := update_apply ..

/-- A worker moves on within its buckets without a write. -/
theorem Split.setStage (h : Split t n lo hi s) (hok : StageOk t lo hi w x)
    (hsub : ∀ y ∈ x.slots, y ∈ (s.stage w).slots) (hpairs : pairs (s.stage w).slots = pairs x.slots) :
    Split t n lo hi (s.setStage w x) where
  old := h.old
  le := h.le
  hi_le := h.hi_le
  locked := h.locked
  stages w' := by
    rw [stage_setStage]
    split_ifs with hw
    · exact hw ▸ hok
    · exact h.stages w'
  slots w' y hy := by
    rw [stage_setStage] at hy
    split_ifs at hy with hw
    · exact hw ▸ h.slots w y (hsub y hy)
    · exact h.slots w' y hy
  writes := h.writes
  perm := by
    have hperm := pairs_pending_setStage s w x
    rw [hpairs, perm_append_left_iff] at hperm
    exact (hperm.symm.append_left _).trans h.perm
  table := h.table
  grows := h.grows

variable {todo : List ℕ} {s' : Resizing α}

/-- A worker writes a pair of its chain. -/
theorem Split.write (h : Split t n lo hi s) {y : Slot α} {slots : List (Slot α)}
    (hstage : s.stage w = .copy (y :: slots) todo) (hy : y.key ≠ 0) :
    Split t n lo hi ({ s with tableTmp := s.tableTmp.putSeq y, writes := s.writes ++ [(w, y)] }.setStage w
      (.copy slots todo)) where
  old := h.old
  le := h.le
  hi_le := h.hi_le
  locked := h.locked
  stages w' := by
    rw [stage_setStage]
    split_ifs with hw
    · have hok := h.stages w
      rw [hstage] at hok
      exact hw ▸ hok
    · exact h.stages w'
  slots w' z hz := by
    rw [stage_setStage] at hz
    split_ifs at hz with hw
    · exact hw ▸ h.slots w z (by rw [hstage]; exact mem_cons_of_mem _ hz)
    · exact h.slots w' z hz
  writes z hz := by
    rcases mem_append.mp hz with hz | hz
    · exact h.writes z hz
    · obtain rfl := mem_singleton.mp hz
      exact ⟨hy, h.slots w y (by rw [hstage]; exact mem_cons_self) hy⟩
  perm := by
    have hmove := pairs_pending_setStage s w (.copy slots todo)
    rw [hstage] at hmove
    have hcons : pairs (y :: slots) = y :: pairs slots := filter_cons_of_pos (by simpa using hy)
    change (pairs slots ++ pairs s.pending).Perm
      (pairs (y :: slots) ++ pairs (s.setStage w (.copy slots todo)).pending) at hmove
    rw [hcons] at hmove
    have hmove' := (perm_append_left_iff _).mp (hmove.trans perm_middle.symm)
    change ((s.writes ++ [(w, y)]).map Prod.snd ++ pairs (s.setStage w (.copy slots todo)).pending).Perm _
    rw [map_append, append_assoc]
    exact (hmove'.symm.append_left _).trans h.perm
  table := by
    change s.tableTmp.putSeq y = ((s.writes ++ [(w, y)]).map Prod.snd).foldl Table.putSeq _
    rw [h.table, map_append, foldl_append]
    rfl
  grows := h.grows

/-- A worker takes a bucket, which moves the bounds. -/
theorem Split.takeBucket (h : Split t n lo hi s) (hwf : t.Wf) {b lo' hi' : ℕ}
    (hslots : (s.stage w).slots = []) (hle : lo' ≤ hi') (hhi : hi' ≤ t.numBuckets) (hne : lo ≠ hi)
    (htaken : ∀ w' b', Taken t lo' hi' w' b' ↔ Taken t lo hi w' b' ∨ w' = w ∧ b' = b)
    (hrest : todo = rest t lo' hi' w) (hother : ∀ w', w' ≠ w → rest t lo' hi' w' = rest t lo hi w')
    (hhelper : w ≠ .helper → hi' = hi) (hpairs : (takenPairs t lo' hi').Perm (pairs (t.table b) ++ takenPairs t lo hi)) :
    Split t n lo' hi' ({ s with locked := update s.locked b true }.setStage w
      (.copy (s.htOld.table b) todo)) where
  old := h.old
  le := hle
  hi_le := hhi
  locked b' := by
    change update s.locked b true b' = true ↔ _
    simp only [htaken, exists_or, exists_and_left, exists_eq_left]
    by_cases hb : b' = b
    · simp [hb]
    · rw [update_of_ne hb, h.locked]
      simp [hb]
  stages w' := by
    rw [stage_setStage]
    split_ifs with hw
    · exact hw ▸ hrest
    · have hok := h.stages w'
      change StageOk t lo' hi' w' (s.stage w')
      cases hstage : s.stage w' with
      | idle =>
        rw [hstage] at hok
        refine ⟨hok.1, (hhelper ?_).trans hok.2⟩
        rintro rfl
        exact hw hok.1
      | lock todo' =>
        rw [hstage] at hok
        exact hok.trans (hother w' hw).symm
      | copy slots' todo' =>
        rw [hstage] at hok
        exact hok.trans (hother w' hw).symm
      | finished =>
        rw [hstage] at hok
        exact (hne hok).elim
  slots w' z hz hzkey := by
    rw [stage_setStage] at hz
    rw [htaken]
    split_ifs at hz with hw
    · right
      rw [h.old] at hz
      refine ⟨hw, hwf.home b _ ?_⟩
      rw [occupied_eq]
      exact mem_map_of_mem (mem_filter.mpr ⟨hz, by simpa using hzkey⟩)
    · exact .inl (h.slots w' z hz hzkey)
  writes z hz := ⟨(h.writes z hz).1, (htaken _ _).mpr (.inl (h.writes z hz).2)⟩
  perm := by
    have hmove := pairs_pending_setStage s w (.copy (s.htOld.table b) todo)
    rw [hslots] at hmove
    refine Perm.trans ?_ hpairs.symm
    refine (hmove.symm.append_left _).trans ?_
    rw [h.old]
    exact (perm_append_comm_assoc _ _ _).trans (h.perm.append_left _)
  table := h.table
  grows := h.grows

/-- A worker takes its next bucket. -/
theorem Split.take (h : Split t n lo hi s) (hwf : t.Wf) {b : ℕ}
    (hstage : s.stage w = .lock (b :: todo)) (hfree : s.locked b = false) :
    ∃ lo hi, Split t n lo hi ({ s with locked := update s.locked b true }.setStage w
      (.copy (s.htOld.table b) todo)) := by
  have hok := h.stages w
  rw [hstage] at hok
  have hnot : ∀ w', ¬Taken t lo hi w' b := fun w' hw' => by
    rw [(h.locked b).mpr ⟨w', hw'⟩] at hfree
    cases hfree
  have hslots : (s.stage w).slots = [] := by rw [hstage]; rfl
  have hle := h.le
  have hhi := h.hi_le
  cases w with
  | resizer =>
    change b :: todo = range' lo (t.numBuckets - lo) at hok
    rcases hm : t.numBuckets - lo with - | m
    · simp [hm] at hok
    · rw [hm, range'_succ] at hok
      obtain ⟨rfl, rfl⟩ := cons.inj hok
      have hlt : b < hi := by
        by_contra hge
        exact hnot .helper ⟨by omega, by omega⟩
      refine ⟨b + 1, hi, h.takeBucket hwf hslots hlt hhi hlt.ne (fun w' b' => ?_) ?_ (fun w' hw' => ?_)
        (fun _ => rfl) ?_⟩
      · cases w' with
        | resizer => simp only [Taken, true_and]; omega
        | helper => simp [Taken]
      · rw [rest, show t.numBuckets - (b + 1) = m by omega]
      · cases w' with
        | resizer => exact (hw' rfl).elim
        | helper => rfl
      · rw [takenPairs, range_succ, append_assoc, flatMap_append, flatMap_append]
        simp only [takenPairs, pairs, flatMap_append, filter_append, flatMap_singleton]
        exact perm_append_comm_assoc _ _ _
  | helper =>
    change b :: todo = (range hi).reverse at hok
    rcases hi with - | k
    · simp at hok
    · rw [range_succ, reverse_append] at hok
      obtain ⟨rfl, rfl⟩ := cons.inj hok
      have hge : lo ≤ b := by
        by_contra hlt
        exact hnot .resizer (show b < lo by omega)
      refine ⟨lo, b, h.takeBucket hwf hslots hge (by omega) (by omega) (fun w' b' => ?_) rfl (fun w' hw' => ?_)
        (fun hw => (hw rfl).elim) ?_⟩
      · cases w' with
        | resizer => simp [Taken]
        | helper => simp only [Taken, true_and]; omega
      · cases w' with
        | resizer => rfl
        | helper => exact (hw' rfl).elim
      · rw [takenPairs, show t.numBuckets - b = t.numBuckets - (b + 1) + 1 by omega, range'_succ]
        simp only [takenPairs, pairs, flatMap_append, filter_append, flatMap_cons]
        exact perm_append_comm_assoc _ _ _

/-- A worker that finds its next bucket taken, or none left, has come to the other one. -/
theorem Split.eq_of_lock (h : Split t n lo hi s) (hstage : s.stage w = .lock todo)
    (hnext : ∀ b ∈ todo.head?, s.locked b = true) : lo = hi := by
  have hok := h.stages w
  rw [hstage] at hok
  have hle := h.le
  have hhi := h.hi_le
  cases w with
  | resizer =>
    change todo = range' lo (t.numBuckets - lo) at hok
    rcases hm : t.numBuckets - lo with - | m
    · omega
    · rw [hm, range'_succ] at hok
      obtain ⟨w', hw'⟩ := (h.locked lo).mp (hnext lo (by rw [hok]; rfl))
      cases w' with
      | resizer => exact (Nat.lt_irrefl lo hw').elim
      | helper => exact Nat.le_antisymm hle hw'.1
  | helper =>
    change todo = (range hi).reverse at hok
    rcases hi with - | k
    · omega
    · rw [range_succ, reverse_append] at hok
      obtain ⟨w', hw'⟩ := (h.locked k).mp (hnext k (by rw [hok]; rfl))
      cases w' with
      | resizer => exact Nat.le_antisymm hle hw'
      | helper => exact (Nat.not_succ_le_self k hw'.1).elim

/-- A step keeps the split. -/
theorem Split.step (h : Split t n lo hi s) (hwf : t.Wf) (hstep : s.step w = some s') :
    ∃ lo hi, Split t n lo hi s' := by
  unfold Resizing.step at hstep
  split at hstep
  · next hstage =>
    split_ifs at hstep
    cases hstep
    have hidle := h.stages w
    rw [hstage] at hidle
    obtain ⟨rfl, rfl⟩ := hidle
    exact ⟨lo, _, h.setStage (by rw [h.old]; rfl) (by simp [CopyStage.slots]) (by rw [hstage]; rfl)⟩
  · next hstage =>
    cases hstep
    exact ⟨lo, hi, h.setStage (h.eq_of_lock hstage (by simp)) (by simp [CopyStage.slots]) (by rw [hstage]; rfl)⟩
  · next b todo hstage =>
    split_ifs at hstep with hlocked
    · cases hstep
      exact ⟨lo, hi, h.setStage (h.eq_of_lock hstage (by simpa using hlocked)) (by simp [CopyStage.slots])
        (by rw [hstage]; rfl)⟩
    · cases hstep
      exact h.take hwf hstage (by simpa using hlocked)
  · next todo hstage =>
    cases hstep
    have hok := h.stages w
    rw [hstage] at hok
    exact ⟨lo, hi, h.setStage hok (by simp [CopyStage.slots]) (by rw [hstage]; rfl)⟩
  · next y slots todo hstage =>
    have hok := h.stages w
    rw [hstage] at hok
    split_ifs at hstep with hy
    · cases hstep
      refine ⟨lo, hi, h.setStage hok (fun z hz => ?_) ?_⟩
      · rw [hstage]
        exact mem_cons_of_mem _ hz
      · rw [hstage]
        simp [CopyStage.slots, pairs, hy]
    · cases hstep
      exact ⟨lo, hi, h.write hstage hy⟩
  · cases hstep

/-- The resizer before its first bucket. -/
theorem split_init (t : Table α) {isIncrease : Bool} {n : ℕ} (hgrows : isIncrease = true → t.logBuckets ≤ n) :
    Split t n 0 t.numBuckets (init t isIncrease n) where
  old := rfl
  le := Nat.zero_le _
  hi_le := le_rfl
  locked b := by
    refine ⟨fun h => (by cases h), ?_⟩
    rintro ⟨w, hw⟩
    cases w with
    | resizer => exact (Nat.not_lt_zero b hw).elim
    | helper => exact (Nat.not_lt.mpr hw.1 hw.2).elim
  stages w := by
    cases w with
    | resizer => exact range_eq_range'
    | helper => exact ⟨rfl, rfl⟩
  slots w x hx := by cases w <;> cases hx
  writes x hx := by cases hx
  perm := by simp [init, pending, CopyStage.slots, takenPairs, pairs]
  table := rfl
  grows := hgrows

/-- The start of a resizing: the new table has at least the buckets of the old one, or there is no helper. -/
theorem split_start {o : ResizeOrder} (hstart : start t o = some s) :
    s.stage .helper = .idle ∧ ∃ n, Split t n 0 t.numBuckets s := by
  cases o with
  | increase logBy =>
    cases hstart
    exact ⟨rfl, _, split_init t fun _ => Nat.le_add_right _ _⟩
  | halve =>
    unfold start at hstart
    split_ifs at hstart
    cases hstart
    exact ⟨rfl, _, split_init t nofun⟩

/-- What every run of the workers keeps. -/
theorem split_run {o : ResizeOrder} {s₀ : Resizing α} (hwf : t.Wf) (hstart : start t o = some s₀) {es : List CopyWorker}
    (hrun : Transition.run step s₀ es = some s) : ∃ n lo hi, Split t n lo hi s := by
  obtain ⟨-, n, h⟩ := split_start hstart
  refine ⟨n, Transition.invariant (P := fun s => ∃ lo hi, Split t n lo hi s) hrun ⟨0, t.numBuckets, h⟩ ?_⟩
  rintro s w s' ⟨lo, hi, h⟩ hstep
  exact h.step hwf hstep

/-- The steps that copying these buckets takes at most. -/
def cost (t : Table α) (todo : List ℕ) : ℕ := (todo.map fun b => (t.table b).length + 2).sum

/-- The steps that a worker has still to take at most. -/
def stageWork (t : Table α) (w : CopyWorker) : CopyStage α → ℕ
  | .idle => cost t (w.buckets t.numBuckets) + 2
  | .lock todo => cost t todo + 1
  | .copy slots todo => slots.length + cost t todo + 2
  | .finished => 0

/-- The steps that both workers have still to take at most. -/
def work (s : Resizing α) : ℕ := stageWork s.htOld .resizer (s.stage .resizer) + stageWork s.htOld .helper (s.stage .helper)

/-- A step brings its worker closer to its end and touches nothing of the other one. -/
theorem exists_of_step (hstep : s.step w = some s') :
    s'.htOld = s.htOld ∧ s'.isIncrease = s.isIncrease ∧ (∀ w', w' ≠ w → s'.stage w' = s.stage w') ∧
      stageWork s.htOld w (s'.stage w) + 1 ≤ stageWork s.htOld w (s.stage w) := by
  have hset : ∀ (r : Resizing α) (x : CopyStage α), r.htOld = s.htOld → r.isIncrease = s.isIncrease →
      r.stage = s.stage → stageWork s.htOld w x + 1 ≤ stageWork s.htOld w (s.stage w) →
      (r.setStage w x).htOld = s.htOld ∧ (r.setStage w x).isIncrease = s.isIncrease ∧
        (∀ w', w' ≠ w → (r.setStage w x).stage w' = s.stage w') ∧
        stageWork s.htOld w ((r.setStage w x).stage w) + 1 ≤ stageWork s.htOld w (s.stage w) := by
    intro r x hold hinc hstage hwork
    refine ⟨hold, hinc, fun w' hw' => ?_, ?_⟩
    · rw [stage_setStage, if_neg hw', hstage]
    · rwa [stage_setStage, if_pos rfl]
  unfold Resizing.step at hstep
  split at hstep
  · next hstage =>
    split_ifs at hstep
    cases hstep
    exact hset s _ rfl rfl rfl (by rw [hstage]; exact le_rfl)
  · next hstage =>
    cases hstep
    exact hset s _ rfl rfl rfl (by rw [hstage]; exact Nat.le_add_left _ _)
  · next b todo hstage =>
    split_ifs at hstep
    · cases hstep
      exact hset s _ rfl rfl rfl (by rw [hstage]; exact Nat.le_add_left _ _)
    · cases hstep
      refine hset { s with locked := _ } _ rfl rfl rfl ?_
      rw [hstage]
      simp only [stageWork, cost, map_cons, sum_cons]
      omega
  · next todo hstage =>
    cases hstep
    exact hset s _ rfl rfl rfl (by rw [hstage]; simp [stageWork])
  · next y slots todo hstage =>
    have hwork : stageWork s.htOld w (.copy slots todo) + 1 ≤ stageWork s.htOld w (s.stage w) := by
      rw [hstage]
      simp only [stageWork, length_cons]
      omega
    split_ifs at hstep
    · cases hstep
      exact hset s _ rfl rfl rfl hwork
    · cases hstep
      exact hset { s with tableTmp := _, writes := _ } _ rfl rfl rfl hwork
  · cases hstep

/-- The work of both goes down with each step. -/
theorem work_step (hstep : s.step w = some s') : s'.work + 1 ≤ s.work := by
  obtain ⟨hold, -, hother, hself⟩ := exists_of_step hstep
  unfold work
  rw [hold]
  cases w with
  | resizer =>
    rw [hother .helper (by decide)]
    omega
  | helper =>
    rw [hother .resizer (by decide)]
    omega

/-- A table that is made smaller has no helper. -/
theorem idle_of_step (h : s.isIncrease = false → s.stage .helper = .idle)
    (hstep : s.step w = some s') : s'.isIncrease = false → s'.stage .helper = .idle := by
  obtain ⟨-, hinc, hother, -⟩ := exists_of_step hstep
  rw [hinc]
  intro hdec
  cases w with
  | resizer => exact (hother .helper (by decide)).trans (h hdec)
  | helper => simp [Resizing.step, h hdec, hdec] at hstep

/-- A worker that has begun and not stopped can take a step. -/
theorem step_isSome (hidle : s.stage w ≠ .idle) (hfinished : s.stage w ≠ .finished) : ∃ s', s.step w = some s' := by
  unfold Resizing.step
  split
  · next hstage => exact (hidle hstage).elim
  · exact ⟨_, rfl⟩
  · split_ifs <;> exact ⟨_, rfl⟩
  · exact ⟨_, rfl⟩
  · split_ifs <;> exact ⟨_, rfl⟩
  · next hstage => exact (hfinished hstage).elim

/-- As long as the new table cannot take the place of the old one, a worker can take a step. -/
theorem Split.exists_step (h : Split t n lo hi s) (hdone : ¬s.Done) : ∃ w s', s.step w = some s' := by
  by_cases hfinished : s.stage .resizer = .finished
  · have hhelper : s.stage .helper ≠ .idle ∧ s.stage .helper ≠ .finished := by
      constructor <;> intro hstage
      · exact hdone ⟨hfinished, .inl hstage⟩
      · exact hdone ⟨hfinished, .inr hstage⟩
    exact ⟨.helper, step_isSome hhelper.1 hhelper.2⟩
  · refine ⟨.resizer, step_isSome (fun hstage => ?_) hfinished⟩
    have hok := h.stages .resizer
    rw [hstage] at hok
    cases hok.1

/-- The workers write to different chains of a table with at least as many buckets. -/
theorem Split.writes_ne (h : Split t n lo hi s) (hidle : s.isIncrease = false → s.stage .helper = .idle)
    {x y : CopyWorker × Slot α} (hx : x ∈ s.writes) (hy : y ∈ s.writes) (hxr : x.1 = .resizer) (hyh : y.1 = .helper) :
    s.tableTmp.hash x.2.key ≠ s.tableTmp.hash y.2.key := by
  have htx := (h.writes x hx).2
  have hty := (h.writes y hy).2
  rw [hxr] at htx
  rw [hyh] at hty
  have hle := h.le
  have hold : t.hash x.2.key ≠ t.hash y.2.key := (htx.trans_le (hle.trans hty.1)).ne
  cases hinc : s.isIncrease with
  | false =>
    -- without a helper there is no write of it
    have hok := h.stages .helper
    rw [hidle hinc] at hok
    exact (Nat.not_lt.mpr (hok.2 ▸ hty.1) hty.2).elim
  | true =>
    intro heq
    refine hold ?_
    have hlog : t.logBuckets ≤ s.tableTmp.logBuckets := by
      rw [h.table, Table.logBuckets_foldl]
      exact h.grows hinc
    rw [← Table.hash_mod_of_le hlog, ← Table.hash_mod_of_le hlog, heq]

/-- When the resizing is done, the pairs of the old table were written. -/
theorem Split.entries_perm (h : Split t n lo hi s) (hdone : s.Done) : s.tableTmp.entries.Perm t.entries := by
  have heq : lo = hi := by
    have hok := h.stages .resizer
    rw [hdone.1] at hok
    exact hok
  have hpending : s.pending = [] := by
    rcases hdone with ⟨hr, hh | hh⟩ <;> simp [pending, hr, hh, CopyStage.slots]
  have hall : takenPairs t lo hi = t.entries := by
    have hrange : range lo ++ range' lo (t.numBuckets - lo) = range t.numBuckets := by
      have happend := range'_append_1 (s := 0) (m := lo) (n := t.numBuckets - lo)
      rw [Nat.zero_add, Nat.add_sub_cancel' (h.le.trans h.hi_le)] at happend
      rw [range_eq_range', range_eq_range', happend]
    rw [← heq, takenPairs, hrange]
    rfl
  have hperm := h.perm
  rw [hpending, hall] at hperm
  rw [h.table]
  refine (Table.entries_foldl _ (fun x hx => ?_) _).trans ?_
  · obtain ⟨y, hy, rfl⟩ := mem_map.mp hx
    exact (h.writes y hy).1
  · rwa [Table.entries_create]

end Steps

/--
Whatever the order of the workers' steps, they never write to the same chain, and once the new table takes
the place of the old one it holds the pairs of the old one, each once.  The steps come to that end.
-/
theorem resize_keeps_pairs {t : Table α} (hwf : t.Wf) {o : ResizeOrder} {s₀ s : Resizing α}
    (hstart : start t o = some s₀) {es : List CopyWorker} (hrun : Transition.run step s₀ es = some s) :
    (∀ x ∈ s.writes, ∀ y ∈ s.writes, x.1 ≠ y.1 → s.tableTmp.hash x.2.key ≠ s.tableTmp.hash y.2.key) ∧
      (s.Done → s.tableTmp.entries.Perm t.entries ∧ (s.tableTmp.entries.map Slot.key).Nodup) ∧
      es.length + s.work ≤ s₀.work ∧ (s.Done ∨ ∃ w s', s.step w = some s') := by
  obtain ⟨n, lo, hi, h⟩ := split_run hwf hstart hrun
  have hidle : s.isIncrease = false → s.stage .helper = .idle :=
    Transition.invariant (P := fun s => s.isIncrease = false → s.stage .helper = .idle) hrun
      (fun _ => (split_start hstart).1) fun _ _ _ h hstep => idle_of_step h hstep
  refine ⟨fun x hx y hy hne => ?_, fun hdone => ?_, ?_, ?_⟩
  · rcases hxw : x.1 with - | -
    · rcases hyw : y.1 with - | -
      · exact (hne (hxw.trans hyw.symm)).elim
      · exact h.writes_ne hidle hx hy hxw hyw
    · rcases hyw : y.1 with - | -
      · exact (h.writes_ne hidle hy hx hyw hxw).symm
      · exact (hne (hxw.trans hyw.symm)).elim
  · have hperm := h.entries_perm hdone
    exact ⟨hperm, (hperm.map Slot.key).nodup_iff.mpr hwf.entries_nodup⟩
  · have hlen := Transition.countP_le_of_potential (P := fun _ => True) (Φ := work) (c := fun _ => true)
      (g := fun _ => false) (fun _ _ _ _ _ hstep => ⟨trivial, work_step hstep⟩) trivial hrun
      (Transition.guarded_of_forall (fun _ _ => trivial) s₀ es : Transition.Guarded step (fun _ _ => True) s₀ es)
    simpa using hlen
  · by_cases hdone : s.Done
    · exact .inl hdone
    · exact .inr (h.exists_step hdone)

/-- Two buckets, one for each worker. -/
theorem resize_keeps_pairs_two_buckets :
    ∃ s₀ s, start (((Table.create 1).putSeq ⟨2, some 7⟩).putSeq ⟨3, some 8⟩ : Table ℕ) (.increase 1) = some s₀ ∧
      Transition.run step s₀ ([.resizer, .helper, .helper] ++ List.replicate 5 .resizer ++ List.replicate 5 .helper) =
        some s ∧
      s.Done ∧
      s.tableTmp.entries.Perm (((Table.create 1).putSeq ⟨2, some 7⟩).putSeq ⟨3, some 8⟩ : Table ℕ).entries := by
  have hrun : ((start (((Table.create 1).putSeq ⟨2, some 7⟩).putSeq ⟨3, some 8⟩ : Table ℕ) (.increase 1)).bind fun s₀ =>
      (Transition.run step s₀
        ([.resizer, .helper, .helper] ++ List.replicate 5 .resizer ++ List.replicate 5 .helper)).map
          fun s => decide s.Done) = some true := by decide +kernel
  obtain ⟨s₀, hstart, hmap⟩ := Option.bind_eq_some_iff.mp hrun
  obtain ⟨s, hs, hdec⟩ := Option.map_eq_some_iff.mp hmap
  have hdone := of_decide_eq_true hdec
  have hwf := ((Table.wf_create (α := ℕ) 1).putSeq (s := ⟨2, some 7⟩) (by decide)).putSeq (s := ⟨3, some 8⟩) (by decide)
  exact ⟨s₀, s, hstart, hs, hdone, ((resize_keeps_pairs hwf hstart hs).2.1 hdone).1⟩

end Resizing

end Dinomo
