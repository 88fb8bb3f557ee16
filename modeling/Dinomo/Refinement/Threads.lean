import Dinomo.Refinement

/-!
# Steps of threads in the pipeline

A thread stages an operation, sends staged oplogs, publishes them with the header of its block, or
takes a new block.  Only staging and publishing are seen by the pipeline.
-/

namespace Dinomo

open Function Storage Cluster List

variable {Tid V : Type*} [DecidableEq Tid] [Fintype Tid] {cfg : Config} {s s' : Cluster Tid V}
  {C : Tid → List Addr} {ρ : Addr → Role Tid} {t : Tid} {a : Addr}

omit [DecidableEq Tid] [Fintype Tid] in
/-- The merged part of a block depends on the pass over its log and on its header. -/
theorem Storage.mpos_modBlock (st : Storage Tid V) {f : LogBlock V → LogBlock V}
    (hmerged : (f (st.mem a)).mergedOffset = (st.mem a).mergedOffset) (t : Tid) (b : Addr) :
    (st.modBlock a f).mpos t b = st.mpos t b := by
  refine mpos_congr rfl ?_
  by_cases hb : b = a
  · rw [hb, mem_modBlock_self, hmerged]
  · rw [mem_modBlock_of_ne _ hb]

/-- A thread changes a block in a way the pipeline does not see. -/
theorem Inv.sameLogs_modBlock (h : Inv cfg s.st s.cores C ρ) (hst : s.Staged cfg C)
    {f : LogBlock V → LogBlock V} {n : Kn V} (hs' : s'.st = s.st.modBlock a f)
    (hkn : s'.kn = update s.kn t n) (hbuf : n.pool.buffer = (s.kn t).pool.buffer)
    (halloc : n.nonReplicatedAlloc = (s.kn t).nonReplicatedAlloc)
    (hhist : s'.written = s.written ∧ s'.batchingRequests = s.batchingRequests ∧ s'.acked = s.acked)
    (hgrow : ∃ u, (f (s.st.mem a)).buffer = (s.st.mem a).buffer ++ u)
    (hmerged : (f (s.st.mem a)).mergedOffset = (s.st.mem a).mergedOffset)
    (hlinked : ∀ t', a ∈ C t' → (s.st.mem a).SamePublished (f (s.st.mem a))) : s.SameLogs s' C := by
  refine hst.sameLogs hkn hbuf (fun _ => halloc) ⟨hhist.1, hhist.2.1, hhist.2.2, by rw [hs']; rfl⟩
    (fun t' b hb => ⟨?_, by rw [hs', mpos_modBlock _ hmerged]⟩)
    (h.find_congr (fun k _ => resolve_eq_of (by rw [hs']; rfl) (by rw [hs']; rfl) k) fun k p _ _ => ?_) <;> rw [hs']
  · by_cases hba : b = a
    · rw [hba, mem_modBlock_self]
      exact hlinked t' (hba ▸ hb)
    · rw [mem_modBlock_of_ne _ hba]
      exact .of_eq rfl rfl
  · by_cases hpa : p.block = a
    · rw [hpa, mem_modBlock_self]
      exact hgrow
    · rw [mem_modBlock_of_ne _ hpa]
      exact ⟨[], (append_nil _).symm⟩

/-- A thread that appends to a block has not published more than it has staged. -/
theorem Inv.offset_le_tail (h : Inv cfg s.st s.cores C ρ) (hl : (s.cores t).Live) :
    (s.st.mem (s.kn t).nonReplicatedAlloc).offset ≤ (s.kn t).tailOffset cfg.batching := by
  have hlinked := (h.chain t).block _ (mem_of_mem_head? ((h.thread t).live hl))
  have hok := (h.thread t).liveOk hl
  have hle := Records.Boundary.le_extent (h.block _).aligned hlinked.offset
  obtain ⟨u, hu⟩ := hok.isPrefix
  have htail : (s.kn t).tailOffset cfg.batching = bytesOf (s.cores t).pool.buffer := hok.tail
  rw [htail, ← hu, bytesOf_append]
  exact Nat.le_add_right_of_le hle

/-- Sending staged oplogs is not seen by the pipeline. -/
theorem Inv.sameLogs_sendUnflushed (h : Inv cfg s.st s.cores C ρ) (hst : s.Staged cfg C) (hl : (s.cores t).Live)
    (hview : (s.cores t).view = .quiet) (hb : cfg.batching = true) (c : Ctl V) :
    s.SameLogs ((s.sendUnflushed t).setCtl t c) C := by
  have hok := (h.thread t).liveOk hl
  have hsend : writeOplogs (s.st.mem (s.cores t).alloc).buffer (s.kn t).unflushed = (s.cores t).pool.buffer :=
    hok.unflushed hb (by rw [hview]; rfl)
  obtain ⟨u, hu⟩ := hok.isPrefix
  have hgrow := hsend.trans hu.symm
  have hs' : ((s.sendUnflushed t).setCtl t c).st = s.st.modBlock (s.cores t).alloc fun b =>
      { b with buffer := writeOplogs b.buffer (s.kn t).unflushed } := rfl
  refine h.sameLogs_modBlock hst hs' rfl rfl rfl ⟨rfl, rfl, rfl⟩ ⟨u, hgrow⟩ rfl fun t' _ => ⟨⟨u, hgrow, ?_⟩, rfl⟩
  intro o ho
  have hlinked := (h.chain t).block _ (mem_of_mem_head? ((h.thread t).live hl))
  have hle := Records.Boundary.le_extent (h.block _).aligned hlinked.offset
  have hal := hok.aligned
  rw [← hu] at hal
  have := ((Records.laidOut_append.mp hal).2.bounds ho).1
  exact hle.trans (by simpa using this)

omit [Fintype Tid] in
/-- The entries of one thread after one more entry. -/
theorem entriesBy_concat (t' : Tid) (l : List (LogEntry Tid V)) (e : LogEntry Tid V) :
    entriesBy t' (l ++ [e]) = if e.tid = t' then entriesBy t' l ++ [e] else entriesBy t' l := by
  unfold entriesBy
  by_cases h : e.tid = t' <;> simp [filter_append, h]

omit [Fintype Tid] in
/-- One more entry, as a change of the entries of its thread. -/
theorem entriesBy_update (l : List (LogEntry Tid V)) (e : LogEntry Tid V) :
    (fun t' => entriesBy t' (l ++ [e])) =
      update (fun t' => entriesBy t' l) e.tid (entriesBy e.tid l ++ [e]) := by
  funext t'
  rw [entriesBy_concat]
  by_cases h : t' = e.tid
  · subst h
    rw [if_pos rfl, update_self]
  · rw [if_neg (Ne.symm h), update_of_ne h]

/-- What staging an operation does to the pool and to the staging pool. -/
theorem Inv.append_effect (h : Inv cfg s.st s.cores C ρ) (hl : (s.cores t).Live) (w : Write V) :
    (∃ f u, (s.append cfg t w).st = s.st.modBlock (s.kn t).nonReplicatedAlloc f ∧
      (f (s.st.mem (s.kn t).nonReplicatedAlloc)).buffer = (s.st.mem (s.kn t).nonReplicatedAlloc).buffer ++ u ∧
      (∀ o ∈ u, (s.st.mem (s.kn t).nonReplicatedAlloc).offset ≤ o.offset) ∧
      (f (s.st.mem (s.kn t).nonReplicatedAlloc)).offset = (s.st.mem (s.kn t).nonReplicatedAlloc).offset ∧
      (f (s.st.mem (s.kn t).nonReplicatedAlloc)).mergedOffset =
        (s.st.mem (s.kn t).nonReplicatedAlloc).mergedOffset) ∧
    (∃ n, (s.append cfg t w).kn = update s.kn t n ∧
      n.pool.buffer = (s.kn t).pool.buffer ++ [(s.nextEntry cfg t w).oplog] ∧
      n.nonReplicatedAlloc = (s.kn t).nonReplicatedAlloc) := by
  have hle := h.offset_le_tail hl
  have hok := (h.thread t).liveOk hl
  unfold Cluster.append
  cases hb : cfg.batching
  · have hend : bytesOf (s.st.mem (s.kn t).nonReplicatedAlloc).buffer ≤ (s.kn t).tailOffset cfg.batching := by
      obtain ⟨u, hu⟩ := hok.isPrefix
      have htail : (s.kn t).tailOffset cfg.batching = bytesOf (s.cores t).pool.buffer := hok.tail
      rw [htail, ← hu, bytesOf_append]
      exact Nat.le_add_right _ _
    refine ⟨⟨fun b => { b with buffer := writeOplog b.buffer (s.nextEntry cfg t w).oplog },
      [(s.nextEntry cfg t w).oplog], rfl, ?_, fun o ho => ?_, rfl, rfl⟩, ⟨_, rfl, rfl, rfl⟩⟩
    · exact (h.block _).aligned.writeOplog_end hend
    · rw [mem_singleton.mp ho]
      exact hle
  · exact ⟨⟨id, [], (modBlock_id _ _).symm, (append_nil _).symm, nofun, rfl, rfl⟩, ⟨_, rfl, rfl, rfl⟩⟩

/-- Staging an operation. -/
theorem Inv.pipeline_append (h : Inv cfg s.st s.cores C ρ) (hst : s.Staged cfg C) (hl : (s.cores t).Live)
    (w : Write V) : (s.append cfg t w).pipeline C = { s.pipeline C with
      written := update (s.pipeline C).written t ((s.pipeline C).written t ++ [s.nextEntry cfg t w])
      unsent := update s.unsent t (s.unsent t ++ [s.nextEntry cfg t w]) } := by
  have hle := h.offset_le_tail hl
  obtain ⟨⟨f, u, hst', hgrow, hu, hoff, hmerged⟩, n, hkn, hbuf, halloc⟩ := h.append_effect hl w
  have hhist : (s.append cfg t w).written = s.written ++ [s.nextEntry cfg t w] ∧
      (s.append cfg t w).batchingRequests = s.batchingRequests ∧ (s.append cfg t w).acked = s.acked := by
    unfold Cluster.append
    cases cfg.batching <;> exact ⟨rfl, rfl, rfl⟩
  generalize s.append cfg t w = s' at *
  have hpub : ∀ a, (s.st.mem a).SamePublished (s'.st.mem a) := by
    intro a
    rw [hst']
    by_cases ha : a = (s.kn t).nonReplicatedAlloc
    · rw [ha, mem_modBlock_self]
      exact ⟨⟨u, hgrow, hu⟩, hoff⟩
    · rw [mem_modBlock_of_ne _ ha]
      exact .of_eq rfl rfl
  have hmpos : ∀ t' a, s'.st.mpos t' a = s.st.mpos t' a := fun t' a => by
    rw [hst', mpos_modBlock _ hmerged]
  have hpending : (fun t' => s'.st.pending t' (C t')) = fun t' => s.st.pending t' (C t') := funext fun t' =>
    pending_congr fun a _ => pendingIn_congr (hpub a) (hmpos t' a)
  have hfind : s'.st.find = s.st.find := h.find_congr
    (fun k _ => resolve_eq_of (by rw [hst']; rfl) (by rw [hst']; rfl) k)
    fun k p _ _ => (hpub p.block).buffer.imp fun _ hx => hx.1
  have hunsent : s'.unsent = update s.unsent t (s.unsent t ++ [s.nextEntry cfg t w]) := by
    funext t'
    by_cases ht : t' = t
    · subst ht
      rw [update_self]
      unfold unsent
      rw [hkn, update_self, hbuf, halloc, (hpub _).offset]
      simp only [entriesFrom, Records.suffixFrom, filter_append, map_append]
      have hkeep : [(s.nextEntry cfg t' w).oplog].filter (fun o =>
          (s.st.mem (s.kn t').nonReplicatedAlloc).offset ≤ o.offset) = [(s.nextEntry cfg t' w).oplog] :=
        filter_eq_self.mpr fun o ho => by rw [mem_singleton.mp ho]; exact decide_eq_true hle
      rw [hkeep]
      rfl
    · rw [update_of_ne ht]
      have hknt : s'.kn t' = s.kn t' := by rw [hkn, update_of_ne ht]
      exact hst.unsent_congr (by rw [hknt]) (fun _ => by rw [hknt]) fun a _ => (hpub a).offset
  unfold pipeline
  rw [hhist.1, hhist.2.1, hhist.2.2, hpending, hfind, hunsent, entriesBy_update, hst']
  rfl

/-- Publishing a block: its unsent oplogs become pending. -/
theorem Inv.pipeline_publish (h : Inv cfg s.st s.cores C ρ) (hst : s.Staged cfg C) (hl : (s.cores t).Live)
    {pool : LogBlock V} {n : Kn V}
    (hst' : s'.st = s.st.modBlock (s.kn t).nonReplicatedAlloc fun b => b.withHeader pool)
    (hkn : s'.kn = update s.kn t n) (hbuf : n.pool.buffer = (s.kn t).pool.buffer)
    (halloc : n.nonReplicatedAlloc = (s.kn t).nonReplicatedAlloc)
    (hhist : s'.written = s.written ∧ s'.batchingRequests = s.batchingRequests ∧ s'.acked = s.acked)
    (hsent : (s.st.mem (s.kn t).nonReplicatedAlloc).buffer = (s.kn t).pool.buffer)
    (hoff : pool.offset = bytesOf (s.kn t).pool.buffer) : s'.pipeline C = { s.pipeline C with
      pending := update (s.pipeline C).pending t ((s.pipeline C).pending t ++ s.unsent t)
      unsent := update s.unsent t [] } := by
  have hhead := (h.thread t).live hl
  have hrole : ρ (s.kn t).nonReplicatedAlloc = .chain t := h.live_chain hl
  obtain ⟨rest, hC⟩ : ∃ rest, C t = (s.kn t).nonReplicatedAlloc :: rest := by
    cases hc : C t with
    | nil => rw [hc] at hhead; cases hhead
    | cons b rest => rw [hc] at hhead; exact ⟨rest, by rw [Option.some.inj hhead]; rfl⟩
  have hlinked := (h.chain t).block _ (mem_of_mem_head? hhead)
  have hal := (h.block (s.kn t).nonReplicatedAlloc).aligned
  have hle : (s.st.mem (s.kn t).nonReplicatedAlloc).offset ≤ bytesOf (s.kn t).pool.buffer := by
    rw [← hsent]
    exact Records.Boundary.le_extent hal hlinked.offset
  have hmem : ∀ a, a ≠ (s.kn t).nonReplicatedAlloc → s'.st.mem a = s.st.mem a := fun a ha => by
    rw [hst', mem_modBlock_of_ne _ ha]
  have hmema : s'.st.mem (s.kn t).nonReplicatedAlloc =
      (s.st.mem (s.kn t).nonReplicatedAlloc).withHeader pool := by
    rw [hst', mem_modBlock_self]
  have hmpos : ∀ t' a, s'.st.mpos t' a = s.st.mpos t' a := fun t' a => by
    rw [hst', mpos_modBlock _ rfl]
  have hother : ∀ t' a, t' ≠ t → a ∈ C t' → a ≠ (s.kn t).nonReplicatedAlloc := by
    rintro t' a ht' ha rfl
    have hr := ((h.chain t').mem_iff _).mp ha
    exact ht' (Role.chain.inj (hrole.symm.trans hr)).symm
  have hin : s'.st.pendingIn t (s.kn t).nonReplicatedAlloc =
      s.st.pendingIn t (s.kn t).nonReplicatedAlloc ++ s.unsent t := by
    unfold pendingIn unsent
    rw [hmema, hmpos, ← map_append]
    refine congrArg _ ?_
    change Records.between _ (s.st.mem (s.kn t).nonReplicatedAlloc).buffer _ pool.offset = _
    rw [hal.between_append (h.mpos_le hrole) (hle.trans hoff.ge), hoff, ← hsent]
    congr 1
    exact hal.between_extent Oplog.size_pos _
  have hpending : (fun t' => s'.st.pending t' (C t')) =
      update (fun t' => s.st.pending t' (C t')) t (s.st.pending t (C t) ++ s.unsent t) := by
    funext t'
    by_cases ht : t' = t
    · subst ht
      have hnodup := (h.chain t').nodup
      rw [hC] at hnodup
      rw [update_self, hC, pending_cons, pending_cons, hin, append_assoc]
      congr 1
      refine pending_congr fun a ha => pendingIn_congr ?_ (hmpos t' a)
      rw [hmem a fun hx => (nodup_cons.mp hnodup).1 (hx ▸ ha)]
      exact .of_eq rfl rfl
    · rw [update_of_ne ht]
      refine pending_congr fun a ha => pendingIn_congr ?_ (hmpos t' a)
      rw [hmem a (hother t' a ht ha)]
      exact .of_eq rfl rfl
  have hunsent : s'.unsent = update s.unsent t [] := by
    funext t'
    by_cases ht : t' = t
    · subst ht
      rw [update_self]
      unfold unsent
      rw [hkn, update_self, hbuf, halloc, hmema]
      refine map_eq_nil_iff.mpr ?_
      change entriesFrom (s.kn t').pool.buffer pool.offset = []
      rw [hoff]
      exact ((h.thread t').liveOk hl).aligned.suffixFrom_extent Oplog.size_pos (by rw [Nat.zero_add]; rfl)
    · rw [update_of_ne ht]
      have hknt : s'.kn t' = s.kn t' := by rw [hkn, update_of_ne ht]
      exact hst.unsent_congr (by rw [hknt]) (fun _ => by rw [hknt]) fun a ha => by rw [hmem a (hother t' a ht ha)]
  have hfind : s'.st.find = s.st.find := by
    refine h.find_congr (fun k _ => resolve_eq_of (by rw [hst']; rfl) (by rw [hst']; rfl) k)
      fun k p _ _ => ⟨[], ?_⟩
    rw [append_nil]
    by_cases hp : p.block = (s.kn t).nonReplicatedAlloc
    · rw [hp, hmema]
      rfl
    · rw [hmem _ hp]
  unfold pipeline
  rw [hhist.1, hhist.2.1, hhist.2.2, hpending, hfind, hunsent, hst']
  rfl

omit [Fintype Tid] in
/-- The held requests of a thread are its own. -/
theorem Cluster.Staged.entriesBy_held (hst : s.Staged cfg C) (t t' : Tid) :
    entriesBy t' (s.batchingRequests t) = if t' = t then s.batchingRequests t else [] := by
  unfold entriesBy
  split_ifs with ht
  · exact filter_eq_self.mpr fun e he => by rw [hst.owner t e he, ht]; exact decide_eq_true rfl
  · exact filter_eq_nil_iff.mpr fun e he => by simpa [hst.owner t e he] using Ne.symm ht

omit [Fintype Tid] in
/-- Answering the held requests of a thread. -/
theorem Cluster.Staged.pipeline_respondBatched (hst : s.Staged cfg C) (t : Tid) :
    (s.respondBatched t).pipeline C = { s.pipeline C with
      acked := update (s.pipeline C).acked t ((s.pipeline C).acked t ++ s.batchingRequests t)
      held := update s.batchingRequests t [] } := by
  have hacked : (fun t' => entriesBy t' (s.acked ++ s.batchingRequests t)) =
      update (fun t' => entriesBy t' s.acked) t (entriesBy t s.acked ++ s.batchingRequests t) := by
    funext t'
    have happ : entriesBy t' (s.acked ++ s.batchingRequests t) =
        entriesBy t' s.acked ++ entriesBy t' (s.batchingRequests t) := filter_append ..
    rw [happ, hst.entriesBy_held]
    by_cases ht : t' = t
    · rw [ht, if_pos rfl, update_self]
    · rw [if_neg ht, update_of_ne ht, append_nil]
  unfold respondBatched pipeline
  rw [hacked]
  rfl

/-- A thread with everything published has nothing unsent. -/
theorem Inv.unsent_eq_nil (h : Inv cfg s.st s.cores C ρ) (hl : (s.cores t).Live)
    (hoff : bytesOf (s.kn t).pool.buffer ≤ (s.st.mem (s.kn t).nonReplicatedAlloc).offset) :
    s.unsent t = [] := by
  refine map_eq_nil_iff.mpr ?_
  exact ((h.thread t).liveOk hl).aligned.suffixFrom_extent Oplog.size_pos (by rw [Nat.zero_add]; exact hoff)

omit [DecidableEq Tid] [Fintype Tid] in
/-- An empty staging pool has nothing unsent. -/
theorem Cluster.unsent_of_nil (h : (s.kn t).pool.buffer = []) : s.unsent t = [] := by
  unfold unsent
  rw [h]
  rfl

/-- Taking a new block after the old one was published is not seen by the pipeline. -/
theorem Inv.sameLogs_rotate (h : Inv cfg s.st s.cores C ρ) (hst : s.Staged cfg C) {w : Write V} {ret : Bool}
    (hctl : (s.kn t).ctl = .write w ret .clean) (c : Ctl V) :
    s.SameLogs (s.setKn t { (s.kn t).rotate with ctl := c }) C := by
  have hview : (s.cores t).view.published = true := by simp [cores, Kn.core, hctl, Ctl.view]
  have hl := (h.thread t).publishedLive hview
  have hpub := ((h.thread t).liveOk hl).published hview
  refine ⟨rfl, rfl, rfl, rfl, fun t' => ?_, fun _ _ _ => ⟨.of_eq rfl rfl, rfl⟩, rfl⟩
  by_cases ht : t' = t
  · subst ht
    rw [h.unsent_eq_nil hl hpub.2.ge, unsent_of_nil]
    simp [setKn, Kn.rotate]
  · have hkn : (s.setKn t { (s.kn t).rotate with ctl := c }).kn t' = s.kn t' := update_of_ne ht _ _
    exact hst.unsent_congr (by rw [hkn]) (fun _ => by rw [hkn]) fun _ _ => rfl

/-- Linking a new block in front of a log is not seen by the pipeline. -/
theorem Inv.pipeline_slot (h : Inv cfg s.st s.cores C ρ) {w : Write V} {ret : Bool}
    (hctl : (s.kn t).ctl = .write w ret .slot) (c : Ctl V) :
    (({ s with st := { s.st with
      logMappingTable := update s.st.logMappingTable t (s.kn t).nonReplicatedAlloc } }).setCtl t c).pipeline
        (update C t ((s.kn t).nonReplicatedAlloc :: C t)) = s.pipeline C := by
  have hview : (s.cores t).view.linking = true := by simp [cores, Kn.core, hctl, Ctl.view]
  have hblank := h.blank (Or.inr ((h.thread t).linking hview))
  have hin : s.st.pendingIn t (s.kn t).nonReplicatedAlloc = [] := by
    unfold pendingIn
    rw [show (s.st.mem (s.kn t).nonReplicatedAlloc).buffer = [] from hblank.buffer]
    rfl
  have hpending : (fun t' => s.st.pending t' (update C t ((s.kn t).nonReplicatedAlloc :: C t) t')) =
      fun t' => s.st.pending t' (C t') := by
    funext t'
    by_cases ht : t' = t
    · rw [ht, update_self, pending_cons, hin, append_nil]
    · rw [update_of_ne ht]
  have hunsent : (({ s with st := { s.st with
      logMappingTable := update s.st.logMappingTable t (s.kn t).nonReplicatedAlloc } }).setCtl t c).unsent =
        s.unsent := by
    funext t'
    unfold unsent
    by_cases ht : t' = t
    · subst ht
      simp [setCtl, setKn]
    · simp [setCtl, setKn, ht]
  unfold pipeline
  rw [hunsent]
  exact congrArg (fun p => (⟨_, _, p, _, _, _, _⟩ : Pipeline Tid (LogEntry Tid V) (Key → Option (Ptr × Oplog V))))
    hpending

/-- Handing out blocks to a thread is not seen by the pipeline. -/
theorem Inv.sameLogs_preallocate (h : Inv cfg s.st s.cores C ρ) (hst : s.Staged cfg C) {k : ℕ} {fresh : List Addr}
    (hfresh : s.st.Fresh k fresh) {n : Kn V} (hbuf : n.pool.buffer = (s.kn t).pool.buffer)
    (halloc : (s.kn t).pool.buffer ≠ [] → n.nonReplicatedAlloc = (s.kn t).nonReplicatedAlloc) :
    s.SameLogs (({ s with st := s.st.preallocate k fresh } : Cluster Tid V).setKn t n) C := by
  have hmem : ∀ a, a ∉ s.st.handedOut k fresh → (s.st.preallocate k fresh).mem a = s.st.mem a := fun a ha => by
    simp [Storage.preallocate, ha]
  refine hst.sameLogs rfl hbuf halloc ⟨rfl, rfl, rfl, rfl⟩ (fun t' a ha => ?_)
    (h.find_congr (fun k' _ => rfl) fun k' p hk hr => ⟨[], ?_⟩)
  · have hnot : a ∉ s.st.handedOut k fresh := by
      intro hx
      have hown := h.handedOut_ownerless hfresh hx
      rw [((h.chain t').mem_iff a).mp ha, Role.owner] at hown
      cases hown
    have heq : (({ s with st := s.st.preallocate k fresh } : Cluster Tid V).setKn t n).st.mem a = s.st.mem a :=
      hmem a hnot
    exact ⟨.of_eq (by rw [heq]) (by rw [heq]), mpos_congr rfl (by rw [heq])⟩
  · rw [append_nil]
    exact congrArg LogBlock.buffer (hmem _ (h.resolve_notMem_handedOut hfresh hk hr))

end Dinomo
