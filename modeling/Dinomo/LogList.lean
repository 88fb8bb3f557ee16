import Dinomo.Invariant.Check
import Dinomo.LocalLog
import Dinomo.ThreadTail

/-!
# Collecting the local copies of merged blocks

A thread keeps a copy of every block it has filled in `filterList`, newest first, until the block's oplogs are in
the index.  How far storage has come it infers from the `next` field of the blocks: once the remote field is cut, or
differs from the local copy because the block has been handed out again, the blocks behind it are taken for merged and
their copies are freed.  Both `gc_log_list`, which `get` calls, and `push_log_clean_list`, which a rotation calls, go
through the list in this way; between any two reads of a remote field the rest of the system may take steps.
-/

namespace Dinomo

open Function List Cluster BloomFilter

variable {Tid V : Type*}

/-- The settings of a server that matter for the lists.  `bloom` is the filter over the keys of a block, `logCacheLen`
is `kLogCacheLen`, if it is not `NO_LIMIT_LOG_LENGTH`. -/
structure ListConfig (V : Type*) where
  config : Config
  bloom : List (Oplog V) → Key → Bool
  logCacheLen : Option ℕ

/-- A cluster with the lists of the threads.  `walk` is the place of a loop over a list that is under way, `cleaned`
records that `push_log_clean_list` has been through the list. -/
structure LogLists (Tid V : Type*) where
  cluster : Cluster Tid V
  filterList : Tid → List (BloomFilter V)
  walk : Tid → Option ℕ
  cleaned : Tid → Bool

/-- The events of the lists: an event of the cluster, the start of `gc_log_list`, the start of a loop of
`push_log_clean_list`, and one turn of a loop. -/
inductive ListEvent (Tid V : Type*)
  | cluster (e : Event Tid V)
  | gc (t : Tid)
  | clean (t : Tid)
  | visit (t : Tid)

/-- One turn of the loop over the list: the list and the place of the next turn.  `next` reads the remote field. -/
def visitFilter (next : Addr → Addr) (fs : List (BloomFilter V)) (i : ℕ) : List (BloomFilter V) × Option ℕ :=
  match fs[i]? with
  | none => (fs, none)
  | some f =>
    if f.localLogBlock.next = 0 then (fs.take (i + 1), none)
    else if next f.raddr = 0 ∨ next f.raddr ≠ f.localLogBlock.next then (fs.take (i + 1), none)
    else (fs, some (i + 1))

/-- `kLogCacheLen` lets the rotation go on: there is no limit, or the list has been gone through and is short enough. -/
def ListConfig.allows (c : ListConfig V) (cleaned : Bool) (len : ℕ) : Bool :=
  match c.logCacheLen with
  | none => true
  | some n => cleaned && decide (len ≤ n)

namespace LogLists

/-- Before any call. -/
def init (logBuckets : ℕ) : LogLists Tid V := ⟨.init logBuckets, fun _ => [], fun _ => none, fun _ => false⟩

section Steps

variable [DecidableEq Tid]

/-- The copy of the current block, as a rotation puts it in front of the list. -/
def copy (c : ListConfig V) (n : Kn V) : BloomFilter V := ⟨c.bloom n.pool.buffer, n.pool, n.nonReplicatedAlloc⟩

/-- The lists after an event of the cluster: a rotation adds a copy, a completed `merge` clears the list, and a crash
loses it. -/
def listsAfter (c : ListConfig V) (l : LogLists Tid V) : Event Tid V → Tid → List (BloomFilter V)
  | .advance t =>
    match (l.cluster.kn t).ctl with
    | .write _ _ .clean => Function.update l.filterList t (copy c (l.cluster.kn t) :: l.filterList t)
    | .merge _ => Function.update l.filterList t []
    | _ => l.filterList
  | .crash t => Function.update l.filterList t []
  | _ => l.filterList

/-- A thread in a loop over its list takes no other step, and a rotation goes through the list first. -/
def enabled (c : ListConfig V) (l : LogLists Tid V) : Event Tid V → Bool
  | .invoke t _ => (l.walk t).isNone
  | .advance t =>
    (l.walk t).isNone &&
      match (l.cluster.kn t).ctl with
      | .write _ _ .clean => c.allows (l.cleaned t) (l.filterList t).length
      | _ => true
  | _ => true

/-- One event. -/
def step (c : ListConfig V) (l : LogLists Tid V) : ListEvent Tid V → Option (LogLists Tid V)
  | .cluster e =>
    if l.enabled c e then
      (l.cluster.step c.config e).map fun s =>
        { cluster := s
          filterList := l.listsAfter c e
          walk := match e with
            | .crash t => Function.update l.walk t none
            | _ => l.walk
          cleaned := match e with
            | .advance t => Function.update l.cleaned t false
            | _ => l.cleaned }
    else none
  | .gc t =>
    match (l.cluster.kn t).ctl with
    | .idle =>
      if l.walk t = none ∧ 1 < (l.filterList t).length then some { l with walk := Function.update l.walk t (some 0) }
      else none
    | _ => none
  | .clean t =>
    match (l.cluster.kn t).ctl with
    | .write _ _ .clean =>
      if l.walk t = none ∧ c.allows (l.cleaned t) (l.filterList t).length = false then
        some { l with walk := Function.update l.walk t (some 0) }
      else none
    | _ => none
  | .visit t =>
    match l.walk t with
    | none => none
    | some i =>
      let r := visitFilter (fun a => (l.cluster.st.mem a).next) (l.filterList t) i
      some { l with
        filterList := Function.update l.filterList t r.1
        walk := Function.update l.walk t r.2
        cleaned := if r.2 = none then Function.update l.cleaned t true else l.cleaned }

/-- A list of events. -/
def run (c : ListConfig V) (l : LogLists Tid V) (es : List (ListEvent Tid V)) : Option (LogLists Tid V) :=
  Transition.run (step c) l es

/-- The oplogs of a copy as entries of the thread's log. -/
def entriesOf (t : Tid) (f : BloomFilter V) : List (LogEntry Tid V) := f.localLogBlock.buffer.map (.ofOplog t f.raddr)

/-- A turn of a loop keeps the front of the list and frees only copies whose oplogs are all in the index. -/
def CollectsSafely (l l' : LogLists Tid V) (t : Tid) : Prop :=
  l'.filterList t <+: l.filterList t ∧
    ∀ f ∈ (l.filterList t).drop (l'.filterList t).length, ∀ x ∈ entriesOf t f, x ∈ l.cluster.st.applied

/-- The events that keep the log system in order. -/
def Orderly (l : LogLists Tid V) : ListEvent Tid V → Prop
  | .cluster e => l.cluster.Orderly e
  | _ => True

/-- A check of the events that keep the log system in order. -/
def checkOrderly [Fintype Tid] (l : LogLists Tid V) : ListEvent Tid V → Bool
  | .cluster e => l.cluster.checkOrderly e
  | _ => true

/-- Events that pass the check are in order. -/
theorem orderly_of_check [Fintype Tid] {l : LogLists Tid V} {e : ListEvent Tid V} (h : l.checkOrderly e = true) :
    l.Orderly e := by
  cases e with
  | cluster e => exact Cluster.orderly_of_check h
  | _ => trivial

end Steps

end LogLists

open LogLists

section Listing

variable [DecidableEq Tid] [Fintype Tid]

/-- The list of a thread against its log: the copies of the blocks that are still linked come first, linked in the
same way, and behind them are copies of blocks whose oplogs are merged. -/
structure Listing (s : Cluster Tid V) (C : List Addr) (t : Tid) (linked merged : List (BloomFilter V)) : Prop where
  chain : C = (s.kn t).current ++ linked.map BloomFilter.raddr
  next : linked.IsChain fun f g => f.localLogBlock.next = g.raddr
  head : (s.kn t).current ≠ [] → ∀ f ∈ linked.head?, (s.kn t).pool.next = f.raddr
  slot : (s.kn t).ctl.linkStage = some .slot → (s.kn t).pool.next = s.st.logMappingTable t
  buffer : ∀ f ∈ linked, (s.st.mem f.raddr).buffer = f.localLogBlock.buffer
  written : ∃ old, entriesBy t s.written = old ++ (linked ++ merged).reverse.flatMap (LogLists.entriesOf t) ++
    (s.kn t).pool.buffer.map (.ofOplog t (s.kn t).nonReplicatedAlloc)

variable {cfg : Config} {s s' : Cluster Tid V} {C : Tid → List Addr} {ρ : Addr → Role Tid} {t : Tid}
  {linked merged : List (BloomFilter V)}

omit [DecidableEq Tid] [Fintype Tid] in
/-- The unmerged oplogs of a block are among its oplogs. -/
theorem Storage.length_pendingIn_le (st : Storage Tid V) (t : Tid) (a : Addr) :
    (st.pendingIn t a).length ≤ (st.mem a).buffer.length := by
  unfold Storage.pendingIn Records.between
  rw [length_map]
  exact length_filter_le ..

omit [Fintype Tid] in
/-- The oplogs of the linked blocks that are not merged are among those of their copies. -/
theorem Listing.length_pending_le (h : Listing s (C t) t linked merged) :
    (s.st.pending t (linked.map raddr)).length ≤ (linked.reverse.flatMap (LogLists.entriesOf t)).length := by
  have hle : ∀ l : List (BloomFilter V), (∀ f ∈ l, (s.st.mem f.raddr).buffer = f.localLogBlock.buffer) →
      (s.st.pending t (l.map raddr)).length ≤ (l.reverse.flatMap (LogLists.entriesOf t)).length := by
    intro l hl
    induction l with
    | nil => simp [Storage.pending]
    | cons f l ih =>
      have hf := s.st.length_pendingIn_le t f.raddr
      have hrest := ih fun g hg => hl g (mem_cons_of_mem _ hg)
      rw [hl f mem_cons_self] at hf
      rw [map_cons, Storage.pending_cons, reverse_cons, flatMap_append, length_append,
        length_append]
      simp only [flatMap_cons, flatMap_nil, append_nil, LogLists.entriesOf, length_map] at hrest ⊢
      omega
  exact hle linked h.buffer

omit [DecidableEq Tid] in
/-- The oplogs of the current block that are not merged, and those not published, are among the staged ones. -/
theorem Inv.length_tail_le (h : Inv cfg s.st s.cores C ρ) (hl : (s.cores t).Live) :
    (s.st.pendingIn t (s.kn t).nonReplicatedAlloc).length + (s.unsent t).length ≤ (s.kn t).pool.buffer.length := by
  unfold Storage.pendingIn unsent entriesFrom
  rw [length_map, length_map]
  exact Records.length_between_add_suffixFrom_le ((h.thread t).liveOk hl).isPrefix _ _

/-- The oplogs of the copies behind the linked blocks are all in the index. -/
theorem Listing.mem_applied (h : Listing s (C t) t linked merged) (hp : s.Piped cfg C)
    (hc : (s.kn t).ctl ≠ .crashed) {f : BloomFilter V} (hf : f ∈ merged) {x : LogEntry Tid V}
    (hx : x ∈ LogLists.entriesOf t f) : x ∈ s.st.applied := by
  obtain ⟨ρ, hinv⟩ := hp.ok.inv
  obtain ⟨old, hwritten⟩ := h.written
  have horder := hp.sound.order t
  -- what is not applied is no longer than the linked copies and the staging pool
  have hlen : (s.st.pending t (C t)).length + (s.unsent t).length ≤
      (linked.reverse.flatMap (LogLists.entriesOf t)).length + (s.kn t).pool.buffer.length := by
    have hpending := h.length_pending_le
    by_cases hl : (s.cores t).Live
    · have htail := hinv.length_tail_le hl
      rw [h.chain, Kn.current_of_live hl, singleton_append, Storage.pending_cons, length_append]
      omega
    · have hnil : s.unsent t = [] := unsent_of_nil ((hinv.thread t).reset (Ctl.view_crashed hc) hl).buffer
      rw [h.chain, Kn.current_eq_nil hc hl, nil_append, hnil]
      simp only [length_nil]
      omega
  have heq : old ++ merged.reverse.flatMap (LogLists.entriesOf t) ++ (linked.reverse.flatMap (LogLists.entriesOf t) ++
      (s.kn t).pool.buffer.map (.ofOplog t (s.kn t).nonReplicatedAlloc)) =
      (s.pipeline C).appliedBy t ++ (s.st.pending t (C t) ++ s.unsent t) := by
    have hboth := hwritten.symm.trans horder
    simp only [reverse_append, flatMap_append, append_assoc] at hboth ⊢
    exact hboth
  have hpre : old ++ merged.reverse.flatMap (LogLists.entriesOf t) <+: (s.pipeline C).appliedBy t := by
    refine prefix_of_prefix_length_le ⟨_, heq⟩ ⟨_, rfl⟩ ?_
    have := congrArg List.length heq
    simp only [length_append, length_map] at this hlen ⊢
    omega
  have hmem : x ∈ (s.pipeline C).appliedBy t := by
    refine hpre.subset (mem_append_right _ (mem_flatMap.mpr ⟨f, mem_reverse.mpr hf, hx⟩))
  simp only [Pipeline.appliedBy, pipeline, mem_map, mem_filter] at hmem
  obtain ⟨_, ⟨⟨y, hy, rfl⟩, -⟩, rfl⟩ := hmem
  exact hy

omit [Fintype Tid] in
/-- A linked copy that is not the last points, on both sides, to the next one. -/
theorem Listing.next_eq (h : Listing s (C t) t linked merged) (hchain : ChainInv s.st (C t) ρ t) {pre post : List (BloomFilter V)}
    {f g : BloomFilter V} (hsplit : linked = pre ++ f :: g :: post) :
    f.localLogBlock.next = g.raddr ∧ (s.st.mem f.raddr).next = g.raddr ∧ g.raddr ≠ 0 := by
  have hC : C t = ((s.kn t).current ++ pre.map raddr) ++ f.raddr :: (g.raddr :: post.map raddr) := by
    rw [h.chain, hsplit]
    simp
  have hlinks := hchain.links
  rw [hC] at hlinks
  obtain ⟨hnext, h0, -⟩ := hlinks.after
  refine ⟨?_, hnext, h0⟩
  have hrel := h.next
  rw [hsplit] at hrel
  exact (isChain_append_cons_cons.mp hrel).2.1

omit [Fintype Tid] in
/-- A turn of a loop keeps the copies of all linked blocks. -/
theorem Listing.visit (h : Listing s (C t) t linked merged) (hchain : ChainInv s.st (C t) ρ t) (i : ℕ) :
    ∃ merged', (visitFilter (fun a => (s.st.mem a).next) (linked ++ merged) i).1 = linked ++ merged' ∧ merged' <+: merged := by
  -- the list is cut behind place `i` only if no linked block comes after it
  have hcut : ∀ f, (linked ++ merged)[i]? = some f → linked.length ≤ i + 1 ∨
      (f.localLogBlock.next ≠ 0 ∧ (s.st.mem f.raddr).next ≠ 0 ∧ (s.st.mem f.raddr).next = f.localLogBlock.next) := by
    intro f hf
    by_cases hi : linked.length ≤ i + 1
    · exact .inl hi
    · right
      have hlt : i + 1 < linked.length := by omega
      have hget : linked[i]? = some f := by rwa [List.getElem?_append_left (by omega)] at hf
      have hsplit : linked = linked.take i ++ f :: linked[i + 1] :: linked.drop (i + 1 + 1) := by
        obtain ⟨hi', rfl⟩ := List.getElem?_eq_some_iff.mp hget
        rw [← drop_eq_getElem_cons hlt, ← drop_eq_getElem_cons hi', take_append_drop]
      obtain ⟨hlocal, hremote, h0⟩ := h.next_eq hchain hsplit
      exact ⟨by rw [hlocal]; exact h0, by rw [hremote]; exact h0, by rw [hlocal, hremote]⟩
  have htake : linked.length ≤ i + 1 → ∃ merged', (linked ++ merged).take (i + 1) = linked ++ merged' ∧ merged' <+: merged :=
    fun hle => ⟨merged.take (i + 1 - linked.length), by rw [take_append, take_of_length_le hle], take_prefix _ _⟩
  unfold visitFilter
  split
  · exact ⟨merged, rfl, prefix_rfl⟩
  · rename_i f hf
    rcases hcut f hf with hle | ⟨hlocal, hremote, heq⟩
    · split_ifs
      · exact htake hle
      · exact htake hle
      · exact ⟨merged, rfl, prefix_rfl⟩
    · rw [if_neg hlocal, if_neg (by simp [heq, hlocal])]
      exact ⟨merged, rfl, prefix_rfl⟩

variable {e : Event Tid V} {w : Write V} {ret : Bool}

omit [DecidableEq Tid] in
/-- An event leaves the oplogs of a linked block alone that is not the current block of its thread. -/
theorem Inv.buffer_linked (h : Inv cfg s.st s.cores C ρ) (hout : Outside cfg s s' e) {a : Addr}
    (ha : a ∈ C t) (hne : (s.cores t).Live → a ≠ (s.kn t).nonReplicatedAlloc) :
    (s'.st.mem a).buffer = (s.st.mem a).buffer := by
  have hrole := ((h.chain t).mem_iff a).mp ha
  refine (hout.buffer a ((h.chain t).links.ne_zero ha)).resolve_right ?_
  rintro (⟨hl, rfl⟩ | ⟨hr, rfl⟩ | ⟨fresh, -, hfresh, hmem⟩)
  · have hown : ρ (s.kn e.tid).nonReplicatedAlloc = .chain e.tid := h.live_chain hl
    obtain rfl : t = e.tid := by simpa using hrole.symm.trans hown
    exact hne hl rfl
  · have hown : ρ (s.kn e.tid).replicatedAlloc = .repl e.tid := (h.thread e.tid).repl hr
    rw [hrole] at hown
    cases hown
  · rcases h.handedOut_cases hfresh hmem with hq | ⟨-, hu⟩
    · rw [h.queued, hrole] at hq
      cases hq
    · rw [hrole] at hu
      cases hu

omit [Fintype Tid] in
/-- The current block is left alone with the rest of the tail. -/
theorem Cluster.SameTail.current (h : SameTail t s s') : (s'.kn t).current = (s.kn t).current := by
  unfold Kn.current
  rw [h.alloc, h.stage]

/-- The oplogs of the linked blocks stay those of their copies. -/
theorem Listing.buffer_kept (h : Listing s (C t) t linked merged) (hinv : Inv cfg s.st s.cores C ρ)
    (hout : Outside cfg s s' e) : ∀ f ∈ linked, (s'.st.mem f.raddr).buffer = f.localLogBlock.buffer := by
  intro f hf
  rw [← h.buffer f hf]
  refine hinv.buffer_linked hout (t := t) ?_ fun hl heq => ?_
  · rw [h.chain]
    exact mem_append_right _ (mem_map_of_mem hf)
  · have hnodup := (hinv.chain t).nodup
    rw [h.chain, Kn.current_of_live hl, singleton_append, nodup_cons] at hnodup
    exact hnodup.1 (heq ▸ mem_map_of_mem hf)

/-- The list when the tail of the log is left alone. -/
theorem Listing.same (h : Listing s (C t) t linked merged) (hinv : Inv cfg s.st s.cores C ρ)
    (hout : Outside cfg s s' e) (htail : SameTail t s s') : Listing s' (C t) t linked merged where
  chain := by rw [htail.current]; exact h.chain
  next := h.next
  head := by rw [htail.current, htail.next]; exact h.head
  slot := by rw [htail.stage, htail.next, htail.slot]; exact h.slot
  buffer := h.buffer_kept hinv hout
  written := by rw [htail.written, htail.buffer, htail.alloc]; exact h.written

omit [Fintype Tid] in
/-- The list when the last block of the log is cut off. -/
theorem Listing.cut (h : Listing s (C t) t linked merged) (hlen : 2 ≤ (C t).length) :
    ∃ linked' f, linked = linked' ++ [f] ∧ Listing s (C t).dropLast t linked' (f :: merged) := by
  have hne : linked ≠ [] := by
    rintro rfl
    have hle : (s.kn t).current.length ≤ 1 := by
      unfold Kn.current
      split_ifs <;> simp
    rw [h.chain] at hlen
    simp only [map_nil, append_nil] at hlen
    omega
  obtain ⟨linked', f, rfl⟩ := eq_nil_or_concat linked |>.resolve_left hne
  rw [concat_eq_append] at h ⊢
  refine ⟨linked', f, rfl, ?_, ?_, fun hcur g hg => ?_, h.slot, fun g hg => ?_, ?_⟩
  · rw [h.chain, map_append, ← append_assoc, map_singleton, dropLast_concat]
  · exact (isChain_append.mp h.next).1
  · refine h.head hcur g ?_
    cases linked' with
    | nil => simp at hg
    | cons x l => simpa using hg
  · exact h.buffer g (mem_append_left _ hg)
  · simpa using h.written

omit [Fintype Tid] in
/-- The list when nothing but the current block is linked. -/
theorem Listing.clear (h : Listing s (C t) t linked merged) (hC : C t = (s.kn t).current) : Listing s (C t) t [] [] := by
  refine ⟨by simpa using hC, .nil, nofun, h.slot, nofun, ?_⟩
  obtain ⟨old, hw⟩ := h.written
  exact ⟨old ++ (linked ++ merged).reverse.flatMap (LogLists.entriesOf t), by simpa using hw⟩

omit [Fintype Tid] in
/-- What an event of the cluster does to the list of a thread. -/
theorem LogLists.listsAfter_cases (c : ListConfig V) (l : LogLists Tid V) (t : Tid) (e : Event Tid V) :
    l.listsAfter c e t = l.filterList t ∨
      (∃ w ret, e = .advance t ∧ (l.cluster.kn t).ctl = .write w ret .clean ∧
        l.listsAfter c e t = copy c (l.cluster.kn t) :: l.filterList t) ∨
      (∃ m, e = .advance t ∧ (l.cluster.kn t).ctl = .merge m ∧ l.listsAfter c e t = []) ∨
      e = .crash t := by
  cases e with
  | advance t' =>
    by_cases ht : t' = t
    · subst ht
      have hfun : l.listsAfter c (.advance t') = l.filterList ∨
          (∃ w ret, (l.cluster.kn t').ctl = .write w ret .clean ∧ l.listsAfter c (.advance t') =
            update l.filterList t' (copy c (l.cluster.kn t') :: l.filterList t')) ∨
          (∃ m, (l.cluster.kn t').ctl = .merge m ∧
            l.listsAfter c (.advance t') = update l.filterList t' []) := by
        simp only [listsAfter]
        split
        · rename_i w ret hctl
          exact .inr (.inl ⟨w, ret, hctl, rfl⟩)
        · rename_i m hctl
          exact .inr (.inr ⟨m, hctl, rfl⟩)
        · exact .inl rfl
      rcases hfun with hfun | ⟨w, ret, hctl, hfun⟩ | ⟨m, hctl, hfun⟩
      · exact .inl (by rw [hfun])
      · exact .inr (.inl ⟨w, ret, rfl, hctl, by rw [hfun, update_self]⟩)
      · exact .inr (.inr (.inl ⟨m, rfl, hctl, by rw [hfun, update_self]⟩))
    · refine .inl ?_
      have hfun : ∀ g : Tid → List (BloomFilter V), (∃ x, g = update l.filterList t' x) ∨ g = l.filterList →
          g t = l.filterList t := by
        rintro g (⟨x, rfl⟩ | rfl)
        · exact update_of_ne (Ne.symm ht) _ _
        · rfl
      refine hfun _ ?_
      simp only [listsAfter]
      split
      · exact .inl ⟨_, rfl⟩
      · exact .inl ⟨_, rfl⟩
      · exact .inr rfl
  | crash t' =>
    by_cases ht : t' = t
    · exact .inr (.inr (.inr (by rw [ht])))
    · exact .inl (update_of_ne (Ne.symm ht) _ _)
  | _ => exact .inl rfl

/-- The list of a thread is in order. -/
def Listed (s : Cluster Tid V) (C : List Addr) (t : Tid) (fs : List (BloomFilter V)) : Prop :=
  ∃ linked merged, fs = linked ++ merged ∧ Listing s C t linked merged

/-- A thread whose merge request is answered has nothing linked but its current block. -/
theorem Inv.chain_of_reply (h : Inv cfg s.st s.cores C ρ) {m : AfterMerge} (hctl : (s.kn t).ctl = .merge m)
    (hs' : s.advance cfg t = some s') : C t = (s.kn t).current := by
  have hview : (s.cores t).view = (Ctl.merge m : Ctl V).view := congrArg Ctl.view hctl
  have hl : (s.cores t).Live := (h.thread t).publishedLive (by rw [hview]; rfl)
  have hreply : s.st.mergeReply t = true := by
    simp only [advance, hctl] at hs'
    exact (Option.ite_none_right_eq_some.mp hs').1
  have hlen := ((h.log t).reply hreply).2.1
  have hhead := (h.thread t).live hl
  rw [Kn.current_of_live hl]
  cases hC : C t with
  | nil =>
    rw [hC] at hhead
    cases hhead
  | cons a rest =>
    rw [hC] at hhead hlen
    obtain rfl : a = (s.kn t).nonReplicatedAlloc := Option.some.inj hhead
    rw [length_cons] at hlen
    rw [eq_nil_of_length_eq_zero (by omega : rest.length = 0)]

/-- The list after a rotation. -/
theorem Listing.rotate (h : Listing s (C t) t linked merged) (hinv : Inv cfg s.st s.cores C ρ) (c : ListConfig V)
    (hctl : (s.kn t).ctl = .write w ret .clean)
    (hctl' : (s'.kn t).ctl = .write w true (if (s'.kn t).nonReplicatedAlloc = 0 then .retry else .link))
    (hbuf : (s'.kn t).pool.buffer = []) (hwritten : entriesBy t s'.written = entriesBy t s.written)
    (hst : s'.st = s.st) : Listing s' (C t) t (copy c (s.kn t) :: linked) merged := by
  have hview : (s.cores t).view = (Ctl.write w ret .clean : Ctl V).view := congrArg Ctl.view hctl
  have hpub : (s.cores t).view.published = true := by rw [hview]; rfl
  have hl : (s.cores t).Live := (hinv.thread t).publishedLive hpub
  have hcur : (s.kn t).current = [(s.kn t).nonReplicatedAlloc] := Kn.current_of_live hl
  have hcur' : (s'.kn t).current = [] := by
    refine if_neg fun hx => hx.1 ?_
    have hstage := hx.2
    rw [hctl'] at hstage
    by_contra h0
    rw [if_neg h0] at hstage
    cases hstage
  refine ⟨?_, ?_, by simp [hcur'], ?_, ?_, ?_⟩
  · rw [hcur', h.chain, hcur]
    rfl
  · refine isChain_cons.mpr ⟨fun g hg => ?_, h.next⟩
    exact h.head (by simp [hcur]) g hg
  · rw [hctl']
    split_ifs <;> nofun
  · intro f hf
    rw [hst]
    rcases mem_cons.mp hf with rfl | hf
    · exact (((hinv.thread t).liveOk hl).published hpub).1
    · exact h.buffer f hf
  · obtain ⟨old, hw⟩ := h.written
    refine ⟨old, ?_⟩
    rw [hwritten, hw, hbuf]
    simp [copy, LogLists.entriesOf]

/-- The list while a thread that has no current block goes on to link one. -/
theorem Listing.waiting (h : Listing s (C t) t linked merged) (hinv : Inv cfg s.st s.cores C ρ)
    (hc : (s.kn t).ctl ≠ .crashed) (hout : Outside cfg s s' e) (hl : ¬ (s.cores t).Live)
    (hcur' : (s'.kn t).current = []) (hslot : (s'.kn t).ctl.linkStage = some .slot →
      (s'.kn t).pool.next = s'.st.logMappingTable t) (hbuf : (s'.kn t).pool.buffer = (s.kn t).pool.buffer)
    (hwritten : entriesBy t s'.written = entriesBy t s.written) : Listing s' (C t) t linked merged := by
  have hnil : (s.kn t).pool.buffer = [] := ((hinv.thread t).reset (Ctl.view_crashed hc) hl).buffer
  refine ⟨?_, h.next, by simp [hcur'], hslot, h.buffer_kept hinv hout, ?_⟩
  · rw [h.chain, hcur', Kn.current_eq_nil hc hl]
  · rw [hwritten, hbuf, hnil]
    simpa [hnil] using h.written

/-- The list when the slot is set to the new block. -/
theorem Listing.link (h : Listing s (C t) t linked merged) (hinv : Inv cfg s.st s.cores C ρ)
    (hout : Outside cfg s s' e) (hctl : (s.kn t).ctl = .write w ret .slot)
    (hctl' : (s'.kn t).ctl = .write w ret .retry) (hkeep : KeepsBlock t s s')
    (hnext : (s'.kn t).pool.next = (s.kn t).pool.next) :
    Listing s' ((s.kn t).nonReplicatedAlloc :: C t) t linked merged := by
  have hc : (s.kn t).ctl ≠ .crashed := by rw [hctl]; nofun
  have hl : ¬ (s.cores t).Live := fun hl => by
    have := ((Kn.live_iff _).mp hl).2.2
    rw [hctl] at this
    cases this
  have hview : (s.cores t).view = (Ctl.write w ret .slot : Ctl V).view := congrArg Ctl.view hctl
  have h0 : (s.kn t).nonReplicatedAlloc ≠ 0 := fun h0 => by
    have hrole : ρ (s.kn t).nonReplicatedAlloc = .linking t := (hinv.thread t).linking (by rw [hview]; rfl)
    have halloc := hinv.allocated (s.kn t).nonReplicatedAlloc (by rw [hrole]; nofun)
    exact hinv.zero_allocated (h0 ▸ halloc)
  have hcur' : (s'.kn t).current = [(s.kn t).nonReplicatedAlloc] := by
    unfold Kn.current
    rw [hkeep.alloc, if_pos ⟨h0, by rw [hctl']; rfl⟩]
  have hC : C t = linked.map raddr := by rw [h.chain, Kn.current_eq_nil hc hl, nil_append]
  refine ⟨?_, h.next, fun _ f hf => ?_, by rw [hctl']; nofun, h.buffer_kept hinv hout, ?_⟩
  · rw [hcur', hC]
    rfl
  · -- the new block points to what was the head of the log
    obtain ⟨rest, rfl⟩ := List.head?_eq_some_iff.mp hf
    have hlinks := (hinv.chain t).links
    rw [hC, map_cons] at hlinks
    rw [hnext, h.slot (by rw [hctl]; rfl)]
    exact hlinks.1
  · rw [hkeep.written, hkeep.buffer, hkeep.alloc]
    exact h.written

/-- The list when an operation is staged. -/
theorem Listing.stage (h : Listing s (C t) t linked merged) (hinv : Inv cfg s.st s.cores C ρ)
    (hout : Outside cfg s s' e) {o : Oplog V}
    (hctl : (s.kn t).ctl = .write w ret .retry) (hctl' : (s'.kn t).ctl = .idle)
    (halloc : (s'.kn t).nonReplicatedAlloc = (s.kn t).nonReplicatedAlloc)
    (hnext : (s'.kn t).pool.next = (s.kn t).pool.next) (hbuf : (s'.kn t).pool.buffer = (s.kn t).pool.buffer ++ [o])
    (hwritten : entriesBy t s'.written = entriesBy t s.written ++ [.ofOplog t (s.kn t).nonReplicatedAlloc o]) :
    Listing s' (C t) t linked merged := by
  have hcur : (s'.kn t).current = (s.kn t).current := by
    unfold Kn.current
    rw [halloc, hctl, hctl']
    rfl
  refine ⟨by rw [hcur]; exact h.chain, h.next, ?_, by rw [hctl']; nofun, h.buffer_kept hinv hout, ?_⟩
  · rw [hcur, hnext]
    exact h.head
  · obtain ⟨old, hw⟩ := h.written
    exact ⟨old, by rw [hwritten, hw, hbuf, halloc]; simp⟩

/-- Every event of the cluster keeps the lists in order. -/
theorem Listed.step {c : ListConfig V} {l : LogLists Tid V} (h : Listed l.cluster (C t) t (l.filterList t))
    (hp : l.cluster.Piped c.config C) (hc : (l.cluster.kn t).ctl ≠ .crashed)
    (hs' : l.cluster.step c.config e = some s') (hc' : (s'.kn t).ctl ≠ .crashed) :
    Listed s' (l.cluster.chainsAfter C e t) t (l.listsAfter c e t) := by
  obtain ⟨linked, merged, hfs, h⟩ := h
  obtain ⟨ρ, hinv⟩ := hp.ok.inv
  have hout := outside_step hs'
  have hchain := hinv.chainsAfter_cases t e
  have hlists := l.listsAfter_cases c t e
  have hctlStage : (l.cluster.kn t).ctl.linkStage ≠ none → ¬ (l.cluster.cores t).Live := fun hne hl =>
    hne ((Kn.live_iff _).mp hl).2.2
  obtain ⟨htail, hno, hcr⟩ | ⟨w, ret, o, rfl, hctl, h0, hctl', halloc, hnext, hbuf, hwritten, -⟩ |
    ⟨w, ret, rfl, hctl, hctl', hbuf, hwritten, hst⟩ | ⟨w, ret, fresh, rfl, hctl, h0, hctl', hbuf, hwritten, -⟩ |
    ⟨w, ret, rfl, hctl, hctl', hkeep, hnext, hslot⟩ | ⟨w, ret, rfl, hctl, hctl', hkeep, hnext, -⟩ | ⟨rfl, hctl'⟩ :=
    tail_step (t := t) hs'
  · have hsame := h.same hinv hout htail
    rcases hchain with hC | ⟨rfl, hC, hlen⟩ | ⟨w, ret, rfl, hctl, -⟩
    · rw [hC]
      rcases hlists with hL | ⟨w, ret, rfl, hctl, -⟩ | ⟨m, rfl, hctl, hL⟩ | rfl
      · exact ⟨linked, merged, hL.trans hfs, hsame⟩
      · exact absurd rfl (hno rfl w ret .clean hctl).1
      · refine ⟨[], [], hL, hsame.clear ?_⟩
        rw [hinv.chain_of_reply hctl hs', htail.current]
      · exact absurd rfl hcr
    · obtain ⟨linked', f, rfl, hcut⟩ := hsame.cut hlen
      rw [hC]
      exact ⟨linked', f :: merged, by simpa [listsAfter] using hfs, hcut⟩
    · exact absurd rfl (hno rfl w ret .slot hctl).2
  · rcases hchain with hC | ⟨he, -, -⟩ | ⟨w', ret', -, hctl₂, -⟩
    · refine ⟨linked, merged, ?_, hC ▸ h.stage hinv hout hctl hctl' halloc hnext hbuf hwritten⟩
      simpa [listsAfter, hctl] using hfs
    · cases he
    · rw [hctl] at hctl₂
      cases hctl₂
  · rcases hchain with hC | ⟨he, -, -⟩ | ⟨w', ret', -, hctl₂, -⟩
    · refine ⟨copy c (l.cluster.kn t) :: linked, merged, ?_, hC ▸ h.rotate hinv c hctl hctl' hbuf hwritten hst⟩
      simp [listsAfter, hctl, hfs]
    · cases he
    · rw [hctl] at hctl₂
      cases hctl₂
  · rcases hchain with hC | ⟨he, -, -⟩ | ⟨w', ret', he, -, -⟩
    · refine ⟨linked, merged, hfs, hC ▸ h.waiting hinv hc hout ?_ ?_ ?_ hbuf hwritten⟩
      · exact fun hl => ((Kn.live_iff _).mp hl).2.1 h0
      · exact if_neg fun hx => by simp [hctl', Ctl.linkStage] at hx
      · simp [hctl', Ctl.linkStage]
    · cases he
    · cases he
  · rcases hchain with hC | ⟨he, -, -⟩ | ⟨w', ret', -, hctl₂, -⟩
    · refine ⟨linked, merged, ?_, hC ▸ h.waiting hinv hc hout ?_ ?_ ?_ hkeep.buffer hkeep.written⟩
      · simpa [listsAfter, hctl] using hfs
      · exact hctlStage (by simp [hctl, Ctl.linkStage])
      · exact if_neg fun hx => by simp [hctl', Ctl.linkStage] at hx
      · exact fun _ => by rw [hnext, hslot]
    · cases he
    · rw [hctl] at hctl₂
      cases hctl₂
  · rcases hchain with hC | ⟨he, -, -⟩ | ⟨w', ret', -, -, hC⟩
    · exfalso
      simp [chainsAfter, hctl] at hC
    · cases he
    · refine ⟨linked, merged, ?_, hC ▸ h.link hinv hout hctl hctl' hkeep hnext⟩
      simpa [listsAfter, hctl] using hfs
  · exact absurd hctl' hc'

omit [Fintype Tid] in
/-- Copies at the end of the list may be freed. -/
theorem Listing.free {rest : List (BloomFilter V)} (h : Listing s (C t) t linked (merged ++ rest)) :
    Listing s (C t) t linked merged := by
  refine ⟨h.chain, h.next, h.head, h.slot, h.buffer, ?_⟩
  obtain ⟨old, hw⟩ := h.written
  exact ⟨old ++ rest.reverse.flatMap (LogLists.entriesOf t), by simpa using hw⟩

omit [Fintype Tid] in
/-- A thread is crashed from its crash on. -/
theorem Cluster.crashed_step_iff (hs' : s.step cfg e = some s') :
    (s'.kn t).ctl = .crashed ↔ (s.kn t).ctl = .crashed ∨ e = .crash t := by
  have hwrite : ∀ {w : Write V} {ret stage w' ret' stage'}, (s.kn t).ctl = .write w ret stage →
      (s'.kn t).ctl = .write w' ret' stage' → e ≠ .crash t →
      ((s'.kn t).ctl = .crashed ↔ (s.kn t).ctl = .crashed ∨ e = .crash t) := fun hctl hctl' hne => by
    simp [hctl, hctl', hne]
  obtain ⟨htail, -, hne⟩ | ⟨w, ret, o, rfl, hctl, -, hctl', -⟩ | ⟨w, ret, rfl, hctl, hctl', -⟩ |
    ⟨w, ret, fresh, rfl, hctl, -, hctl', -⟩ | ⟨w, ret, rfl, hctl, hctl', -⟩ | ⟨w, ret, rfl, hctl, hctl', -⟩ |
    ⟨he, hctl'⟩ := tail_step (t := t) hs'
  · simp [htail.crashed, hne]
  · simp [hctl, hctl']
  · exact hwrite hctl hctl' nofun
  · exact hwrite hctl hctl' nofun
  · exact hwrite hctl hctl' nofun
  · exact hwrite hctl hctl' nofun
  · simp [hctl', he]

namespace LogLists

variable {c : ListConfig V} {l l' : LogLists Tid V}

/-- The invariant of the log system, with the lists of all running threads in order. -/
structure Ok (c : ListConfig V) (l : LogLists Tid V) (C : Tid → List Addr) : Prop where
  piped : l.cluster.Piped c.config C
  listed : ∀ t, (l.cluster.kn t).ctl ≠ .crashed → Listed l.cluster (C t) t (l.filterList t)
  lost : ∀ t, (l.cluster.kn t).ctl = .crashed → l.filterList t = []

/-- A turn of a loop keeps the copies of the linked blocks. -/
theorem Ok.exists_visit (h : l.Ok c C) (hc : (l.cluster.kn t).ctl ≠ .crashed) (i : ℕ) :
    ∃ linked merged rest, l.filterList t = linked ++ (merged ++ rest) ∧
      Listing l.cluster (C t) t linked (merged ++ rest) ∧
      (visitFilter (fun a => (l.cluster.st.mem a).next) (l.filterList t) i).1 = linked ++ merged := by
  obtain ⟨linked, all, hfs, hlist⟩ := h.listed t hc
  obtain ⟨ρ, hinv⟩ := h.piped.ok.inv
  obtain ⟨merged, hvisit, rest, rfl⟩ := hlist.visit (hinv.chain t) i
  exact ⟨linked, merged, rest, hfs, hlist, by rw [hfs, hvisit]⟩

/-- A turn of a loop frees only what is merged. -/
theorem Ok.collectsSafely (h : l.Ok c C) (hl' : l.step c (.visit t) = some l') : l.CollectsSafely l' t := by
  simp only [step] at hl'
  split at hl'
  · cases hl'
  rename_i i hwalk
  cases hl'
  unfold CollectsSafely
  simp only [update_self]
  by_cases hc : (l.cluster.kn t).ctl = .crashed
  · rw [h.lost t hc]
    simp [visitFilter]
  · obtain ⟨linked, merged, rest, hfs, hlist, hvisit⟩ := h.exists_visit hc i
    rw [hvisit, hfs, ← append_assoc]
    refine ⟨prefix_append _ _, fun f hf x hx => ?_⟩
    rw [drop_left] at hf
    exact hlist.mem_applied h.piped hc (mem_append_right _ hf) hx

/-- Every event keeps the lists in order. -/
theorem Ok.step {e : ListEvent Tid V} (h : l.Ok c C) (ho : l.Orderly e) (hl' : l.step c e = some l') :
    ∃ C', l'.Ok c C' := by
  cases e with
  | cluster e =>
    simp only [LogLists.step] at hl'
    obtain ⟨-, hl'⟩ := Option.ite_none_right_eq_some.mp hl'
    obtain ⟨s', hs', rfl⟩ := Option.map_eq_some_iff.mp hl'
    refine ⟨l.cluster.chainsAfter C e, h.piped.step ho hs', fun t hc' => ?_, fun t hc' => ?_⟩
    · have hc : (l.cluster.kn t).ctl ≠ .crashed := fun hc => hc' ((crashed_step_iff hs').mpr (.inl hc))
      exact (h.listed t hc).step h.piped hc hs' hc'
    · rcases (crashed_step_iff hs').mp hc' with hc | rfl
      · rcases l.listsAfter_cases c t e with hL | ⟨w, ret, -, hctl, -⟩ | ⟨m, -, hctl, -⟩ | rfl
        · exact hL.trans (h.lost t hc)
        · simp [hc] at hctl
        · simp [hc] at hctl
        · exact update_self ..
      · exact update_self ..
  | gc t =>
    simp only [LogLists.step] at hl'
    split at hl'
    · obtain ⟨-, hl'⟩ := Option.ite_none_right_eq_some.mp hl'
      cases hl'
      exact ⟨C, h.piped, h.listed, h.lost⟩
    · cases hl'
  | clean t =>
    simp only [LogLists.step] at hl'
    split at hl'
    · obtain ⟨-, hl'⟩ := Option.ite_none_right_eq_some.mp hl'
      cases hl'
      exact ⟨C, h.piped, h.listed, h.lost⟩
    · cases hl'
  | visit t =>
    simp only [LogLists.step] at hl'
    split at hl'
    · cases hl'
    rename_i i hwalk
    cases hl'
    refine ⟨C, h.piped, fun t' hc => ?_, fun t' hc => ?_⟩
    · by_cases ht : t' = t
      · subst ht
        obtain ⟨linked, merged, rest, -, hlist, hvisit⟩ := h.exists_visit hc i
        simp only [update_self]
        exact ⟨linked, merged, hvisit, hlist.free⟩
      · simp only [update_of_ne ht]
        exact h.listed t' hc
    · by_cases ht : t' = t
      · subst ht
        simp only [update_self, h.lost t' hc]
        rfl
      · simp only [update_of_ne ht]
        exact h.lost t' hc

/-- The lists are in order after every orderly run. -/
theorem exists_ok {logBuckets : ℕ} {es : List (ListEvent Tid V)} (hrun : (init logBuckets).run c es = some l)
    (hok : Transition.Guarded (LogLists.step c) Orderly (init logBuckets) es) : ∃ C, l.Ok c C := by
  refine Transition.invariant_of_guarded (P := fun l => ∃ C, LogLists.Ok c l C) ?_ ⟨fun _ => [], ?_, ?_, ?_⟩ hrun hok
  · rintro l e l' ⟨C, h⟩ ho hl'
    exact h.step ho hl'
  · exact Cluster.piped_init c.config logBuckets
  · intro t _
    refine ⟨[], [], rfl, ?_, .nil, nofun, nofun, nofun, [], rfl⟩
    simp [init, Cluster.init, Kn.init, Kn.current]
  · exact fun t _ => rfl

end LogLists

end Listing

namespace LogLists

/-- Blocks for 64 bytes of oplogs, one for each request, without batching and without a limit on the lists. -/
def smallBlocks : ListConfig ℕ := ⟨⟨64, 1, false, by decide, by decide⟩, fun _ _ => true, none⟩

/-- A `put` of a value that takes a whole block, when the current block is full and none is preallocated. -/
def fillBlock (t : Bool) (k : Key) (a : Addr) : List (Event Bool ℕ) := List.flatten
  [[.invoke t (.write (putWrite k 8 k 40 false))], .replicate 2 (.advance t), [.preallocate t [a]],
    .replicate 3 (.advance t)]

/-- A thread fills three blocks, a worker merges the first and cuts it off, and `get` starts to collect. -/
def threeBlocks : List (ListEvent Bool ℕ) :=
  (List.flatten [[.invoke false (.write (putWrite 1 8 1 40 false)), .preallocate false [1000]],
    .replicate 3 (.advance false), fillBlock false 2 2000, fillBlock false 3 3000, [.beginPass false .worker],
    .replicate 5 (.passStep false)]).map .cluster ++ [.gc false]

/-- One thread inserts a key and merges its log; another takes the key over, updates it and merges, upon which the
first thread's current block is pushed to the queue.  The first thread goes on to write to that block, the other is
given it, and a worker that finds it empty cuts it off the first thread's log. -/
def wipedBlock : List (ListEvent Bool ℕ) :=
  (List.flatten [[.invoke false (.write (putWrite 1 8 10 8 false)), .preallocate false [1000]],
    .replicate 3 (.advance false), [.invoke false (.merge true), .beginPass false .request],
    .replicate 3 (.passStep false), [.advance false],
    [.invoke true (.write (putWrite 1 8 20 40 true)), .preallocate true [2000]], .replicate 3 (.advance true),
    [.invoke true (.merge true), .beginPass true .request], .replicate 4 (.passStep true), [.advance true],
    [.invoke false (.write (putWrite 2 8 30 8 false)), .advance false],
    [.invoke true (.write (putWrite 3 8 40 40 false))], .replicate 2 (.advance true), [.preallocate true []],
    fillBlock false 4 3000, fillBlock false 5 4000, [.beginPass false .worker],
    .replicate 4 (.passStep false)]).map .cluster ++ [.gc false]

end LogLists

end Dinomo
