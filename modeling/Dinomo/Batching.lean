import Dinomo.Cluster

/-!
# Batching changes only timing

One thread runs a sequence of `put`, update and `remove` calls, once with batching and once without,
and the storage side answers its preallocation requests with the same blocks.  The two runs take the
same steps except that with batching a rotation writes the header in a step of its own.  In between, the
remote memory differs only in the current block, which lacks the staged oplogs when batching; after a
`flush` on one side and the header write of `merge` on the other the storage side is the same.
-/

namespace Dinomo

open Function LogBlock Transition

variable {Tid V : Type*}

/-- The configuration with batching switched on or off. -/
def Config.withBatching (cfg : Config) (batching : Bool) : Config := { cfg with batching := batching }

@[simp] theorem Config.withBatching_batching (cfg : Config) (b : Bool) : (cfg.withBatching b).batching = b := rfl

@[simp] theorem Config.withBatching_maxLogBlockLen (cfg : Config) (b : Bool) :
    (cfg.withBatching b).maxLogBlockLen = cfg.maxLogBlockLen := rfl

@[simp] theorem Config.withBatching_maxPreallocNum (cfg : Config) (b : Bool) :
    (cfg.withBatching b).maxPreallocNum = cfg.maxPreallocNum := rfl

/-- The events of a thread that only writes. -/
def Event.IsWrite (t : Tid) : Event Tid V → Prop
  | .invoke t' (.write _) => t' = t
  | .advance t' => t' = t
  | .preallocate t' _ => t' = t
  | _ => False

/-- The call an event starts. -/
def Event.writeCall : Event Tid V → Option (Write V)
  | .invoke _ (.write w) => some w
  | _ => none

/-- The blocks an event hands out. -/
def Event.blocks : Event Tid V → Option (List Addr)
  | .preallocate _ fresh => some fresh
  | _ => none

/-- The staged oplogs that a batching thread has not yet sent; at the clean-up of a rotation there are none. -/
def Kn.unsent (n : Kn V) : List (Oplog V) :=
  match n.ctl with
  | .write _ _ .clean => []
  | _ => n.pool.buffer

open Kn

/-- A batching thread as it would be without batching. -/
def Kn.direct (n : Kn V) (batched flushed : ℕ) : Kn V :=
  { n with pool := { n.pool with offset := n.batchedOffset }, batchedOffset := batched, flushedOffset := flushed }

namespace Storage

/-- Two changes of one block are one change. -/
theorem modBlock_modBlock (st : Storage Tid V) (a : Addr) (f g : LogBlock V → LogBlock V) :
    (st.modBlock a f).modBlock a g = st.modBlock a (g ∘ f) := by
  simp [modBlock]

/-- A change that changes nothing. -/
theorem modBlock_eq_self (st : Storage Tid V) (a : Addr) {f : LogBlock V → LogBlock V} (hf : f (st.mem a) = st.mem a) :
    st.modBlock a f = st := by
  rw [modBlock, hf, update_eq_self]

end Storage

/-- Write oplogs into a block. -/
def LogBlock.receive (os : List (Oplog V)) (b : LogBlock V) : LogBlock V :=
  { b with buffer := writeOplogs b.buffer os }

variable [DecidableEq Tid]

/-- A sequence of write events of a thread makes the calls `ws` and is given the blocks `fs`. -/
structure Event.Inputs (t : Tid) (es : List (Event Tid V)) (ws : List (Write V)) (fs : List (List Addr)) : Prop where
  events : ∀ e ∈ es, e.IsWrite t
  calls : es.filterMap Event.writeCall = ws
  blocks : es.filterMap Event.blocks = fs

/-- A run of the calls `ws` of one thread that all return; `fs` are the answers of the storage side to the
preallocation requests. -/
def Cluster.Writes (cfg : Config) (s : Cluster Tid V) (t : Tid) (ws : List (Write V)) (fs : List (List Addr))
    (s' : Cluster Tid V) : Prop :=
  ∃ es, Event.Inputs t es ws fs ∧ s.run cfg es = some s' ∧ (s'.kn t).ctl = .idle

/-- The batching thread and the other one are at the same place. -/
structure Cluster.Aligned (s₁ s₂ : Cluster Tid V) (t : Tid) : Prop where
  st : s₂.st = s₁.st.modBlock (s₁.kn t).nonReplicatedAlloc (LogBlock.receive (s₁.kn t).unsent)
  kn : ∃ b f, s₂.kn t = (s₁.kn t).direct b f
  written : s₂.written = s₁.written
  writing : (s₁.kn t).ctl = .idle ∨ ∃ w ret stage, (s₁.kn t).ctl = .write w ret stage ∧ stage ≠ .header
  flushed : (∀ w ret, (s₁.kn t).ctl ≠ .write w ret .clean) → (s₁.kn t).flushedOffset = 0
  fresh : ∀ w ret stage, (s₁.kn t).ctl = .write w ret stage → stage = .link ∨ stage = .slot →
    (s₁.kn t).pool.buffer = []
  noBlock : (s₁.kn t).nonReplicatedAlloc = 0 → (s₁.kn t).pool.buffer = [] ∧ (s₁.kn t).batchedOffset = 0
  staged : (s₁.kn t).ctl = .idle → (s₁.kn t).nonReplicatedAlloc ≠ 0 → 0 < (s₁.kn t).batchedOffset

/-- The batching thread has sent its staged oplogs and not yet the header, which the other one has. -/
structure Cluster.Lagging (s₁ s₂ : Cluster Tid V) (t : Tid) : Prop where
  st : s₂.st = s₁.st.modBlock (s₁.kn t).nonReplicatedAlloc
    (fun b => b.withHeader { (s₁.kn t).pool with offset := (s₁.kn t).batchedOffset })
  kn : ∃ w ret b f, (s₁.kn t).ctl = .write w ret .header ∧
    s₂.kn t = { (s₁.kn t).direct b f with ctl := .write w ret .clean }
  written : s₂.written = s₁.written
  alloc : (s₁.kn t).nonReplicatedAlloc ≠ 0

/-- No oplogs leave a block as it is. -/
@[simp] theorem LogBlock.receive_nil (b : LogBlock V) : receive [] b = b := rfl

/-- Oplogs arrive in order. -/
theorem LogBlock.receive_append (os : List (Oplog V)) (o : Oplog V) (b : LogBlock V) :
    receive (os ++ [o]) b = { receive os b with
      buffer := writeOplog (receive os b).buffer o } := by
  simp [receive, writeOplogs]

/-- The run of the batching thread and the other run are in step. -/
def Cluster.Mirrors (t : Tid) (s₁ s₂ : Cluster Tid V) : Prop := s₁.Aligned s₂ t ∨ s₁.Lagging s₂ t

namespace Cluster

variable {cfg : Config} {s₁ s₂ : Cluster Tid V} {t : Tid}

/-- The two threads are in the same control state. -/
theorem Aligned.ctl (h : s₁.Aligned s₂ t) : (s₂.kn t).ctl = (s₁.kn t).ctl := by
  obtain ⟨b, f, hkn⟩ := h.kn
  rw [hkn, direct]

/-- The two threads have the same current block. -/
theorem Aligned.alloc (h : s₁.Aligned s₂ t) : (s₂.kn t).nonReplicatedAlloc = (s₁.kn t).nonReplicatedAlloc := by
  obtain ⟨b, f, hkn⟩ := h.kn
  rw [hkn, direct]

/-- The two threads stage at the same offset. -/
theorem Aligned.tailOffset (h : s₁.Aligned s₂ t) : (s₂.kn t).tailOffset false = (s₁.kn t).tailOffset true := by
  obtain ⟨b, f, hkn⟩ := h.kn
  simp [Kn.tailOffset, hkn, Kn.direct]

/-- Nothing is left to send from an empty staging pool, and then the storage side is the same. -/
theorem Aligned.st_eq (h : s₁.Aligned s₂ t) (hun : (s₁.kn t).unsent = []) : s₂.st = s₁.st := by
  rw [h.st, hun]
  exact s₁.st.modBlock_eq_self _ rfl

/-- The header step brings the batching thread to the other one. -/
theorem Lagging.advance (h : s₁.Lagging s₂ t) :
    ∃ s₁', s₁.step (cfg.withBatching true) (.advance t) = some s₁' ∧ s₁'.Aligned s₂ t := by
  obtain ⟨w, ret, b, f, hctl, hkn⟩ := h.kn
  refine ⟨(s₁.publishBatch t).setCtl t (.write w ret .clean), ?_, ?_⟩
  · simp only [step, Cluster.advance, hctl, stepWrite]
  · have hn : ((s₁.publishBatch t).setCtl t (.write w ret .clean)).kn t =
        { s₁.kn t with
          pool := { (s₁.kn t).pool with offset := (s₁.kn t).batchedOffset }
          flushedOffset := (s₁.kn t).batchedOffset
          ctl := .write w ret .clean } := by
      simp [setCtl, setKn, publishBatch, sendHeader, modBlock]
    have hst : ((s₁.publishBatch t).setCtl t (.write w ret .clean)).st =
        s₁.st.modBlock (s₁.kn t).nonReplicatedAlloc
          (fun b => b.withHeader { (s₁.kn t).pool with offset := (s₁.kn t).batchedOffset }) := by
      simp [setCtl, setKn, publishBatch, sendHeader, modBlock]
    refine ⟨?_, ⟨b, f, ?_⟩, h.written, .inr ⟨w, ret, .clean, by rw [hn], nofun⟩, ?_, ?_, ?_, ?_⟩
    · rw [hst, hn, ← h.st]
      exact (s₂.st.modBlock_eq_self _ rfl).symm
    · rw [hn, hkn]
      rfl
    · rw [hn]
      exact fun hc => absurd rfl (hc w ret)
    · rw [hn]
      rintro w' ret' stage' ⟨⟩ (hx | hx) <;> cases hx
    · rw [hn]
      exact fun h0 => absurd h0 h.alloc
    · rw [hn]
      nofun

/-- The two threads take the same call. -/
theorem Aligned.invoke (h : s₁.Aligned s₂ t) (hidle : (s₁.kn t).ctl = .idle) (w : Write V) :
    (s₁.setCtl t (.write w false .retry)).Aligned (s₂.setCtl t (.write w false .retry)) t := by
  obtain ⟨b, f, hkn⟩ := h.kn
  have hn : (s₁.setCtl t (.write w false .retry)).kn t = { s₁.kn t with ctl := .write w false .retry } :=
    update_self _ _ _
  have hun : (s₁.kn t).unsent = (s₁.kn t).pool.buffer := by simp [unsent, hidle]
  refine ⟨?_, ⟨b, f, ?_⟩, h.written, .inr ⟨w, false, .retry, by rw [hn], nofun⟩, ?_, ?_, ?_, ?_⟩
  · rw [hn]
    exact h.st.trans (by rw [hun]; rfl)
  · rw [hn]
    simp [setCtl, setKn, hkn, direct]
  · rw [hn]
    exact fun _ => h.flushed (by rw [hidle]; nofun)
  · rw [hn]
    rintro w' ret' stage' ⟨⟩ (hx | hx) <;> cases hx
  · rw [hn]
    exact h.noBlock
  · rw [hn]
    nofun

variable {w : Write V} {ret : Bool}

/-- The two threads log the same operation, at once or in the staging pool only. -/
theorem Aligned.append (h : s₁.Aligned s₂ t) (hctl : (s₁.kn t).ctl = .write w ret .retry)
    (halloc : (s₁.kn t).nonReplicatedAlloc ≠ 0) :
    ((s₁.append (cfg.withBatching true) t w).acknowledge (cfg.withBatching true) t ret
        (s₁.nextEntry (cfg.withBatching true) t w)).Aligned
      ((s₂.append (cfg.withBatching false) t w).acknowledge (cfg.withBatching false) t ret
        (s₂.nextEntry (cfg.withBatching false) t w)) t := by
  obtain ⟨b, f, hkn⟩ := h.kn
  have hentry : s₂.nextEntry (cfg.withBatching false) t w = s₁.nextEntry (cfg.withBatching true) t w := by
    simp only [nextEntry, Config.withBatching_batching, h.tailOffset, h.alloc]
  rw [hentry]
  generalize he : s₁.nextEntry (cfg.withBatching true) t w = e at *
  have hn₁ : ((s₁.append (cfg.withBatching true) t w).acknowledge (cfg.withBatching true) t ret e).kn t =
      { s₁.kn t with
        pool := (s₁.kn t).pool.stage e.oplog
        batchedOffset := (s₁.kn t).batchedOffset + w.size
        ctl := .idle } := by
    cases ret <;> simp [acknowledge, Cluster.append, setKn, respondBatched, ← he]
  have hst₁ : ((s₁.append (cfg.withBatching true) t w).acknowledge (cfg.withBatching true) t ret e).st = s₁.st := by
    cases ret <;> simp [acknowledge, Cluster.append, setKn, respondBatched]
  have hw₁ : ((s₁.append (cfg.withBatching true) t w).acknowledge (cfg.withBatching true) t ret e).written =
      s₁.written ++ [e] := by
    cases ret <;> simp [acknowledge, Cluster.append, setKn, respondBatched, ← he]
  have hun : (s₁.kn t).unsent = (s₁.kn t).pool.buffer := by simp [unsent, hctl]
  refine ⟨?_, ⟨b, f, ?_⟩, ?_, ?_, ?_, ?_, ?_, ?_⟩
  · rw [hst₁, hn₁]
    have hst₂ : ((s₂.append (cfg.withBatching false) t w).acknowledge (cfg.withBatching false) t ret e).st =
        s₂.st.modBlock (s₂.kn t).nonReplicatedAlloc fun b => { b with buffer := writeOplog b.buffer e.oplog } := by
      simp [acknowledge, Cluster.append, setKn, modBlock, ← hentry]
    rw [hst₂, h.alloc, h.st, hun, Storage.modBlock_modBlock]
    congr 1
    funext b
    simp [unsent, stage, receive_append]
  · rw [hn₁]
    simp [acknowledge, Cluster.append, setKn, modBlock, hentry, hkn, direct, stage]
  · rw [hw₁]
    simp [acknowledge, Cluster.append, setKn, modBlock, hentry, h.written]
  · rw [hn₁]
    exact .inl rfl
  · rw [hn₁]
    exact fun _ => h.flushed (by rw [hctl]; nofun)
  · rw [hn₁]
    nofun
  · rw [hn₁]
    exact fun h0 => absurd h0 halloc
  · rw [hn₁]
    intro _ _
    exact Nat.lt_of_lt_of_le (Oplog.size_pos (w.at 0)) (Nat.le_add_left _ _)

/-- A full block: the batching thread sends its staged oplogs while the other one writes the header. -/
theorem Aligned.overflow (h : s₁.Aligned s₂ t) (hctl : (s₁.kn t).ctl = .write w ret .retry)
    (halloc : (s₁.kn t).nonReplicatedAlloc ≠ 0) :
    ((s₁.sendUnflushed t).setCtl t (.write w ret .header)).Lagging
      ((s₂.sendHeader t).setCtl t (.write w ret .clean)) t := by
  obtain ⟨b, f, hkn⟩ := h.kn
  have hn : ((s₁.sendUnflushed t).setCtl t (.write w ret .header)).kn t =
      { s₁.kn t with ctl := .write w ret .header } := update_self _ _ _
  have hflushed : (s₁.kn t).flushedOffset = 0 := h.flushed (by rw [hctl]; nofun)
  have hall : (s₁.kn t).unflushed = (s₁.kn t).pool.buffer := by
    simp [unflushed, entriesFrom, Records.suffixFrom, hflushed]
  have hun : (s₁.kn t).unsent = (s₁.kn t).pool.buffer := by simp [unsent, hctl]
  refine ⟨?_, ⟨w, ret, b, f, by rw [hn], ?_⟩, h.written, by rw [hn]; exact halloc⟩
  · have hst₁ : ((s₁.sendUnflushed t).setCtl t (.write w ret .header)).st =
        s₁.st.modBlock (s₁.kn t).nonReplicatedAlloc (LogBlock.receive (s₁.kn t).pool.buffer) := by
      simp only [setCtl, setKn, sendUnflushed, modBlock, hall]
      rfl
    have hst₂ : ((s₂.sendHeader t).setCtl t (.write w ret .clean)).st =
        s₂.st.modBlock (s₂.kn t).nonReplicatedAlloc fun b => b.withHeader (s₂.kn t).pool := rfl
    rw [hst₁, hst₂, hn, h.alloc, h.st, hun, hkn]
    rfl
  · rw [hn]
    simp [setCtl, setKn, sendHeader, modBlock, hkn, direct]

/-- With an empty staging pool the two threads take any step of `put` on the same storage side. -/
theorem Aligned.of_empty (h : s₁.Aligned s₂ t) {s₁' s₂' : Cluster Tid V} {n : Kn V} {b f : ℕ}
    {stage : WriteStage} (hn₁ : s₁'.kn t = n) (hn₂ : s₂'.kn t = n.direct b f) (hst : s₂'.st = s₁'.st)
    (hw₁ : s₁'.written = s₁.written) (hw₂ : s₂'.written = s₂.written) (hctl : n.ctl = .write w ret stage)
    (hheader : stage ≠ .header) (hbuf : n.pool.buffer = []) (hflushed : n.flushedOffset = 0)
    (hbatched : n.nonReplicatedAlloc = 0 → n.batchedOffset = 0) : s₁'.Aligned s₂' t := by
  subst hn₁
  have hun : (s₁'.kn t).unsent = [] := by
    rw [unsent, hctl]
    cases stage <;> first | exact hbuf | rfl
  refine ⟨?_, ⟨b, f, hn₂⟩, by rw [hw₁, hw₂, h.written], .inr ⟨w, ret, stage, hctl, hheader⟩, fun _ => hflushed,
    fun _ _ _ _ _ => hbuf, fun h0 => ⟨hbuf, hbatched h0⟩, fun hidle => ?_⟩
  · rw [hst, hun]
    exact (s₁'.st.modBlock_eq_self _ rfl).symm
  · rw [hctl] at hidle
    cases hidle

/-- The two threads rotate to the same block. -/
theorem Aligned.clean (h : s₁.Aligned s₂ t) (hctl : (s₁.kn t).ctl = .write w ret .clean) :
    Option.Rel (Mirrors t) (s₁.stepWrite (cfg.withBatching true) t w ret .clean)
      (s₂.stepWrite (cfg.withBatching false) t w ret .clean) := by
  obtain ⟨b, f, hkn⟩ := h.kn
  have hst := h.st_eq (by simp [unsent, hctl])
  refine .some (.inl <| h.of_empty (b := 0) (f := 0) (update_self _ _ _) ((update_self _ _ _).trans ?_) hst
    rfl rfl rfl ?_ rfl rfl fun _ => rfl)
  · rw [hkn]
    rfl
  · split_ifs <;> nofun

/-- The two threads link the new block to the head of their log, and point the log-mapping slot at it. -/
theorem Aligned.link (h : s₁.Aligned s₂ t) {stage : WriteStage} (hctl : (s₁.kn t).ctl = .write w ret stage)
    (hstage : stage = .link ∨ stage = .slot) :
    Option.Rel (Mirrors t) (s₁.stepWrite (cfg.withBatching true) t w ret stage)
      (s₂.stepWrite (cfg.withBatching false) t w ret stage) := by
  obtain ⟨b, f, hkn⟩ := h.kn
  have hbuf := h.fresh w ret _ hctl hstage
  have hflushed : (s₁.kn t).flushedOffset = 0 := h.flushed (by rcases hstage with rfl | rfl <;> simp [hctl])
  have hst := h.st_eq (by rcases hstage with rfl | rfl <;> simp [unsent, hctl, hbuf])
  have hnone : (s₁.kn t).nonReplicatedAlloc = 0 → (s₁.kn t).batchedOffset = 0 := fun h0 => (h.noBlock h0).2
  rcases hstage with rfl | rfl
  · refine .some (.inl <| h.of_empty (b := b) (f := f) (update_self _ _ _) ((update_self _ _ _).trans ?_) ?_
      rfl rfl rfl (by simp) hbuf hflushed hnone)
    · rw [hkn, hst]
      rfl
    · simp only [setKn, modBlock, h.alloc, hst]
  · refine .some (.inl <| h.of_empty (b := b) (f := f) (update_self _ _ _) ((update_self _ _ _).trans ?_) ?_
      rfl rfl rfl (by simp) hbuf hflushed hnone)
    · rw [hkn]
      rfl
    · simp only [setCtl, setKn, h.alloc, hst]

/-- A step of `put` or `remove` on both sides. -/
theorem Aligned.stepWrite (h : s₁.Aligned s₂ t) {stage : WriteStage}
    (hctl : (s₁.kn t).ctl = .write w ret stage) (hheader : stage ≠ .header) :
    Option.Rel (Mirrors t) (s₁.stepWrite (cfg.withBatching true) t w ret stage)
      (s₂.stepWrite (cfg.withBatching false) t w ret stage) := by
  cases stage with
  | retry =>
    have hsize := h.tailOffset
    simp only [Cluster.stepWrite, Config.withBatching_batching, Config.withBatching_maxLogBlockLen, h.alloc, hsize,
      if_true, Bool.false_eq_true, if_false]
    split_ifs with halloc hfit
    · exact .none
    · exact .some (.inl (h.append hctl halloc))
    · exact .some (.inr (h.overflow hctl halloc))
  | header => exact absurd rfl hheader
  | clean => exact h.clean hctl
  | link => exact h.link hctl (.inl rfl)
  | slot => exact h.link hctl (.inr rfl)

/-- The two threads get the same blocks. -/
theorem Aligned.preallocate (h : s₁.Aligned s₂ t) (fresh : List Addr) :
    Option.Rel (Mirrors t) (s₁.preallocate (cfg.withBatching true) t fresh)
      (s₂.preallocate (cfg.withBatching false) t fresh) := by
  obtain ⟨b, f, hkn⟩ := h.kn
  simp only [Cluster.preallocate, Config.withBatching_maxPreallocNum, h.ctl, h.alloc]
  rcases h.writing with hidle | ⟨w, ret, stage, hctl, -⟩
  · simp only [hidle, ite_self]
    exact .none
  by_cases hwait : stage = .retry ∧ (s₁.kn t).nonReplicatedAlloc = 0
  · obtain ⟨rfl, halloc⟩ := hwait
    obtain ⟨hbuf, hbatched⟩ := h.noBlock halloc
    have hst := h.st_eq (by simp [unsent, hctl, hbuf])
    simp only [hctl, halloc, hst, if_true]
    split_ifs with hfresh
    · refine .some (.inl <| h.of_empty (b := b) (f := f) (update_self _ _ _)
        ((update_self _ _ _).trans ?_) rfl rfl rfl rfl nofun hbuf (h.flushed (by rw [hctl]; nofun))
        fun _ => hbatched)
      rw [hkn]
      rfl
    · exact .none
  · -- without a request for blocks nothing is handed out
    cases stage with
    | retry =>
      simp only [hctl, if_neg fun h0 => hwait ⟨rfl, h0⟩, ite_self]
      exact .none
    | _ =>
      simp only [hctl, ite_self]
      exact .none

/-- An event of a writing thread on both sides. -/
theorem Aligned.step (h : s₁.Aligned s₂ t) {e : Event Tid V} (he : e.IsWrite t) :
    Option.Rel (Mirrors t) (s₁.step (cfg.withBatching true) e) (s₂.step (cfg.withBatching false) e) := by
  cases e with
  | invoke t' c =>
    cases c with
    | write w =>
      obtain rfl : t' = t := he
      simp only [Cluster.step, h.ctl]
      rcases h.writing with hidle | ⟨w', ret, stage, hctl, -⟩
      · simp only [hidle]
        exact .some (.inl (h.invoke hidle w))
      · simp only [hctl]
        exact .none
    | _ => exact he.elim
  | advance t' =>
    obtain rfl : t' = t := he
    simp only [Cluster.step, advance, h.ctl]
    rcases h.writing with hidle | ⟨w', ret, stage, hctl, hheader⟩
    · simp only [hidle]
      exact .none
    · simp only [hctl]
      exact h.stepWrite hctl hheader
  | preallocate t' fresh =>
    obtain rfl : t' = t := he
    exact h.preallocate fresh
  | _ => exact he.elim

/-- While the batching thread lags, its only event is the header step. -/
theorem Lagging.step (h : s₁.Lagging s₂ t) {e : Event Tid V} (he : e.IsWrite t) {s₁' : Cluster Tid V}
    (hs : s₁.step (cfg.withBatching true) e = some s₁') : e = .advance t ∧ s₁'.Aligned s₂ t := by
  obtain ⟨w, ret, b, f, hctl, -⟩ := h.kn
  cases e with
  | invoke t' c =>
    cases c with
    | write w =>
      obtain rfl : t' = t := he
      simp [Cluster.step, hctl] at hs
    | _ => exact he.elim
  | advance t' =>
    obtain rfl : t' = t := he
    obtain ⟨s, hs', halign⟩ : ∃ s, s₁.step (cfg.withBatching true) (.advance t') = some s ∧ s.Aligned s₂ t' := h.advance
    exact ⟨rfl, Option.some.inj (hs'.symm.trans hs) ▸ halign⟩
  | preallocate t' fresh =>
    obtain rfl : t' = t := he
    simp [Cluster.step, preallocate, hctl] at hs
  | _ => exact he.elim

end Cluster

variable {t : Tid}

/-- The inputs without the first event. -/
theorem Event.Inputs.tail {e : Event Tid V} {es : List (Event Tid V)} {ws : List (Write V)}
    {fs : List (List Addr)} (h : Event.Inputs t (e :: es) ws fs) :
    e.IsWrite t ∧ ∃ ws' fs', Event.Inputs t es ws' fs' ∧ ws = e.writeCall.toList ++ ws' ∧ fs = e.blocks.toList ++ fs' := by
  refine ⟨h.events e List.mem_cons_self, _, _,
    ⟨fun e' he' => h.events e' (List.mem_cons_of_mem _ he'), rfl, rfl⟩, ?_, ?_⟩
  · rw [← h.calls, List.filterMap_cons]
    cases e.writeCall <;> rfl
  · rw [← h.blocks, List.filterMap_cons]
    cases e.blocks <;> rfl

/-- The inputs with one more event. -/
theorem Event.Inputs.cons {e : Event Tid V} {es : List (Event Tid V)} {ws : List (Write V)}
    {fs : List (List Addr)} (h : Event.Inputs t es ws fs) (he : e.IsWrite t) :
    Event.Inputs t (e :: es) (e.writeCall.toList ++ ws) (e.blocks.toList ++ fs) := by
  refine ⟨List.forall_mem_cons.mpr ⟨he, h.events⟩, ?_, ?_⟩
  · rw [List.filterMap_cons, h.calls]
    cases e.writeCall <;> rfl
  · rw [List.filterMap_cons, h.blocks]
    cases e.blocks <;> rfl

namespace Cluster

variable {cfg : Config} {s₁ s₂ : Cluster Tid V} {t : Tid} {es : List (Event Tid V)} {ws : List (Write V)}
  {fs : List (List Addr)}

/-- The other run follows a run with batching. -/
theorem Mirrors.run_direct (h : Mirrors t s₁ s₂) (hes : Event.Inputs t es ws fs) {s₁' : Cluster Tid V}
    (hrun : s₁.run (cfg.withBatching true) es = some s₁') :
    ∃ es' s₂', Event.Inputs t es' ws fs ∧ s₂.run (cfg.withBatching false) es' = some s₂' ∧ Mirrors t s₁' s₂' := by
  induction es generalizing s₁ s₂ ws fs with
  | nil =>
    obtain rfl : s₁ = s₁' := Option.some.inj hrun
    exact ⟨[], s₂, hes, rfl, h⟩
  | cons e es ih =>
    obtain ⟨s, hs, hrest⟩ := run_cons_eq_some.mp hrun
    obtain ⟨he, ws', fs', hes', rfl, rfl⟩ := hes.tail
    rcases h with halign | hlag
    · have hstep : Option.Rel (Mirrors t) (some s) (s₂.step (cfg.withBatching false) e) := hs ▸ halign.step he
      generalize hx : s₂.step (cfg.withBatching false) e = x at hstep
      cases hstep with
      | some hm =>
        obtain ⟨es', s₂', hin, hrun', hm'⟩ := ih hm hes' hrest
        exact ⟨e :: es', s₂', hin.cons he, run_cons_eq_some.mpr ⟨_, hx, hrun'⟩, hm'⟩
    · -- the header step has no counterpart
      obtain ⟨rfl, halign⟩ := hlag.step he hs
      exact ih (.inl halign) hes' hrest

/-- The run with batching follows the other run. -/
theorem Mirrors.run_batching (h : Mirrors t s₁ s₂) (hes : Event.Inputs t es ws fs) {s₂' : Cluster Tid V}
    (hrun : s₂.run (cfg.withBatching false) es = some s₂') :
    ∃ es' s₁', Event.Inputs t es' ws fs ∧ s₁.run (cfg.withBatching true) es' = some s₁' ∧ Mirrors t s₁' s₂' := by
  induction es generalizing s₁ s₂ ws fs with
  | nil =>
    obtain rfl : s₂ = s₂' := Option.some.inj hrun
    exact ⟨[], s₁, hes, rfl, h⟩
  | cons e es ih =>
    obtain ⟨s, hs, hrest⟩ := run_cons_eq_some.mp hrun
    obtain ⟨he, ws', fs', hes', rfl, rfl⟩ := hes.tail
    have haligned : ∀ s₁ : Cluster Tid V, s₁.Aligned s₂ t → ∃ es' s₁',
        Event.Inputs t es' (e.writeCall.toList ++ ws') (e.blocks.toList ++ fs') ∧
          s₁.run (cfg.withBatching true) es' = some s₁' ∧ Mirrors t s₁' s₂' := by
      intro s₁ halign
      have hstep : Option.Rel (Mirrors t) (s₁.step (cfg.withBatching true) e) (some s) := hs ▸ halign.step he
      generalize hx : s₁.step (cfg.withBatching true) e = x at hstep
      cases hstep with
      | some hm =>
        obtain ⟨es', s₁', hin, hrun', hm'⟩ := ih hm hes' hrest
        exact ⟨e :: es', s₁', hin.cons he, run_cons_eq_some.mpr ⟨_, hx, hrun'⟩, hm'⟩
    rcases h with halign | hlag
    · exact haligned s₁ halign
    · -- the header step comes first
      obtain ⟨s', hs', halign⟩ : ∃ s', s₁.step (cfg.withBatching true) (.advance t) = some s' ∧ s'.Aligned s₂ t :=
        hlag.advance
      obtain ⟨es', s₁', hin, hrun', hm⟩ := haligned s' halign
      exact ⟨.advance t :: es', s₁', hin.cons (e := .advance t) rfl,
        run_cons_eq_some.mpr ⟨s', hs', hrun'⟩, hm⟩

variable {s s' : Cluster Tid V}

/-- An idle thread that only writes can only take a call. -/
theorem eq_invoke_of_idle (hidle : (s.kn t).ctl = .idle) {e : Event Tid V} (he : e.IsWrite t)
    (hs : s.step cfg e = some s') : ∃ w, e = .invoke t (.write w) := by
  cases e with
  | invoke t' c =>
    cases c with
    | write w =>
      obtain rfl : t' = t := he
      exact ⟨w, rfl⟩
    | _ => exact he.elim
  | advance t' =>
    obtain rfl : t' = t := he
    simp [step, advance, hidle] at hs
  | preallocate t' fresh =>
    obtain rfl : t' = t := he
    simp [step, preallocate, hidle] at hs
  | _ => exact he.elim

/-- A thread inside a call goes on or is given blocks. -/
theorem eq_of_not_idle (hbusy : (s.kn t).ctl ≠ .idle) {e : Event Tid V} (he : e.IsWrite t)
    (hs : s.step cfg e = some s') : e = .advance t ∨ ∃ fresh, e = .preallocate t fresh := by
  cases e with
  | invoke t' c =>
    cases c with
    | write w =>
      obtain rfl : t' = t := he
      simp only [step] at hs
      cases hs
    | _ => exact he.elim
  | advance t' =>
    obtain rfl : t' = t := he
    exact .inl rfl
  | preallocate t' fresh =>
    obtain rfl : t' = t := he
    exact .inr ⟨fresh, rfl⟩
  | _ => exact he.elim

/-- A thread that waits for blocks does not go on by itself. -/
theorem advance_of_preallocate {fresh : List Addr} (hs : s.preallocate cfg t fresh = some s') :
    s.advance cfg t = none := by
  obtain ⟨-, ⟨w, ret, hctl, halloc, -⟩ | ⟨w, hctl, hpop, -⟩⟩ := preallocate_cases hs
  · simp [advance, hctl, stepWrite, halloc]
  · simp [advance, hctl, stepPutReplicated, newReplicated, hpop]

/-- What a thread does is decided by its calls and the blocks it is given. -/
theorem run_unique {s'' : Cluster Tid V} {es' : List (Event Tid V)} (hes : Event.Inputs t es ws fs)
    (hes' : Event.Inputs t es' ws fs) (hrun : s.run cfg es = some s') (hidle : (s'.kn t).ctl = .idle)
    (hrun' : s.run cfg es' = some s'') (hidle' : (s''.kn t).ctl = .idle) : s' = s'' := by
  induction es generalizing s ws fs es' with
  | nil =>
    obtain rfl : s = s' := Option.some.inj hrun
    cases es' with
    | nil => exact Option.some.inj hrun'
    | cons e' es' =>
      -- an idle thread needs another call to go on
      obtain ⟨s₁, hs₁, -⟩ := run_cons_eq_some.mp hrun'
      obtain ⟨he', ws', fs', -, rfl, -⟩ := hes'.tail
      obtain ⟨w, rfl⟩ := eq_invoke_of_idle hidle he' hs₁
      exact absurd hes.calls (by simp [Event.writeCall])
  | cons e es ih =>
    obtain ⟨s₁, hs₁, hrest⟩ := run_cons_eq_some.mp hrun
    obtain ⟨he, ws₁, fs₁, hes₁, hws, hfs⟩ := hes.tail
    cases es' with
    | nil =>
      obtain rfl : s = s'' := Option.some.inj hrun'
      obtain ⟨w, rfl⟩ := eq_invoke_of_idle hidle' he hs₁
      exact absurd (hes'.calls.trans hws) (by simp [Event.writeCall])
    | cons e' es' =>
      obtain ⟨s₂, hs₂, hrest'⟩ := run_cons_eq_some.mp hrun'
      obtain ⟨he', ws₂, fs₂, hes₂, hws', hfs'⟩ := hes'.tail
      obtain ⟨rfl, rfl, rfl⟩ : e = e' ∧ ws₁ = ws₂ ∧ fs₁ = fs₂ := by
        by_cases hctl : (s.kn t).ctl = .idle
        · obtain ⟨w, rfl⟩ := eq_invoke_of_idle hctl he hs₁
          obtain ⟨w', rfl⟩ := eq_invoke_of_idle hctl he' hs₂
          obtain ⟨rfl, rfl⟩ := List.cons.inj (hws.symm.trans hws')
          exact ⟨rfl, rfl, hfs.symm.trans hfs'⟩
        · rcases eq_of_not_idle hctl he hs₁ with rfl | ⟨fresh, rfl⟩ <;>
            rcases eq_of_not_idle hctl he' hs₂ with rfl | ⟨fresh', rfl⟩
          · exact ⟨rfl, hws.symm.trans hws', hfs.symm.trans hfs'⟩
          · exact absurd ((advance_of_preallocate hs₂).symm.trans hs₁) nofun
          · exact absurd ((advance_of_preallocate hs₁).symm.trans hs₂) nofun
          · obtain ⟨rfl, rfl⟩ := List.cons.inj (hfs.symm.trans hfs')
            exact ⟨rfl, hws.symm.trans hws', rfl⟩
      obtain rfl := Option.some.inj (hs₁.symm.trans hs₂)
      exact ih hes₁ hes₂ hrest hrest'

omit [DecidableEq Tid] in
/-- A batching thread that is idle and the other one are at the same place. -/
theorem Mirrors.aligned (h : Mirrors t s₁ s₂) (hidle : (s₁.kn t).ctl = .idle ∨ (s₂.kn t).ctl = .idle) :
    s₁.Aligned s₂ t := by
  refine h.resolve_right fun hlag => ?_
  obtain ⟨w, ret, b, f, hctl, hkn⟩ := hlag.kn
  rw [hctl, hkn] at hidle
  rcases hidle with hx | hx <;> cases hx

omit [DecidableEq Tid] in
/-- Two threads that have not made a call are at the same place. -/
theorem aligned_of_init (h : s.kn t = .init) : s.Aligned s t := by
  refine ⟨?_, ⟨0, 0, ?_⟩, rfl, .inl ?_, ?_, ?_, ?_, ?_⟩ <;> rw [h]
  · exact (s.st.modBlock_eq_self _ rfl).symm
  · rfl
  · rfl
  · exact fun _ => rfl
  · nofun
  · exact fun _ => ⟨rfl, rfl⟩
  · exact fun _ h0 => absurd rfl h0

/-- The events of a `flush`: a thread with nothing to send only answers its requests. -/
def flushEvents (s : Cluster Tid V) (t : Tid) : List (Event Tid V) :=
  if (s.kn t).flushedOffset < (s.kn t).batchedOffset then [.invoke t .flush, .advance t] else [.invoke t .flush]

/-- After `flush` on one side and the header write of `merge` on the other the storage side is the same. -/
theorem Aligned.publish (h : s₁.Aligned s₂ t) (hidle : (s₁.kn t).ctl = .idle) :
    ∃ f₁ f₂, s₁.run (cfg.withBatching true) (s₁.flushEvents t) = some f₁ ∧
      s₂.run (cfg.withBatching false) [.invoke t (.merge false)] = some f₂ ∧ f₁.st = f₂.st := by
  obtain ⟨b, f, hkn⟩ := h.kn
  have hidle₂ : (s₂.kn t).ctl = .idle := h.ctl.trans hidle
  have hflushed : (s₁.kn t).flushedOffset = 0 := h.flushed (by rw [hidle]; nofun)
  have hun : (s₁.kn t).unsent = (s₁.kn t).pool.buffer := by simp [unsent, hidle]
  by_cases halloc : (s₁.kn t).nonReplicatedAlloc = 0
  · obtain ⟨hbuf, hbatched⟩ := h.noBlock halloc
    refine ⟨s₁.respondBatched t, s₂.setCtl t .idle, ?_, ?_, (h.st_eq (by rw [hun, hbuf])).symm⟩
    · simp [flushEvents, hflushed, hbatched, Cluster.run, Transition.run, Cluster.step, hidle, Cluster.invoke]
    · simp [Cluster.run, Transition.run, Cluster.step, hidle₂, Cluster.invoke, startMerge, h.alloc, halloc, afterMerge]
  · have hpos := h.staged hidle halloc
    have hall : (s₁.kn t).unflushed = (s₁.kn t).pool.buffer := by
      simp [unflushed, entriesFrom, Records.suffixFrom, hflushed]
    refine ⟨((s₁.sendUnflushed t).setCtl t (.flush .done)).stepFlush t .done,
      (s₂.sendHeader t).setCtl t (.merge (.done false)), ?_, ?_, ?_⟩
    · have hctl : (((s₁.sendUnflushed t).setCtl t (.flush .done)).kn t).ctl = .flush .done := by simp [setCtl, setKn]
      simp [flushEvents, hflushed, hpos, Cluster.run, Transition.run, Cluster.step, hidle, Cluster.invoke, advance, hctl]
    · simp [Cluster.run, Transition.run, Cluster.step, hidle₂, Cluster.invoke, startMerge, h.alloc, halloc]
    · have hst₁ : (((s₁.sendUnflushed t).setCtl t (.flush .done)).stepFlush t .done).st =
          (s₁.st.modBlock (s₁.kn t).nonReplicatedAlloc (LogBlock.receive (s₁.kn t).pool.buffer)).modBlock
            (s₁.kn t).nonReplicatedAlloc
              fun b => b.withHeader { (s₁.kn t).pool with offset := (s₁.kn t).batchedOffset } := by
        simp only [stepFlush, respondBatched, setCtl, setKn, publishBatch, sendHeader, modBlock, sendUnflushed,
          update_self, hall]
        rfl
      have hst₂ : ((s₂.sendHeader t).setCtl t (.merge (.done false))).st =
          s₂.st.modBlock (s₂.kn t).nonReplicatedAlloc fun b => b.withHeader (s₂.kn t).pool := rfl
      rw [hst₁, hst₂, h.alloc, h.st, hun, hkn]
      rfl

end Cluster

/-- One thread makes the same calls with and without batching and is given the same blocks.  One run
returns from all calls if the other does, and after a `flush` and the header write of `merge` the
storage side is the same. -/
theorem batching_changes_only_timing {s : Cluster Tid V} {t : Tid} (hinit : s.kn t = .init) (cfg : Config)
    (ws : List (Write V)) (fs : List (List Addr)) :
    ((∃ s₁, s.Writes (cfg.withBatching true) t ws fs s₁) ↔ ∃ s₂, s.Writes (cfg.withBatching false) t ws fs s₂) ∧
      ∀ s₁ s₂, s.Writes (cfg.withBatching true) t ws fs s₁ → s.Writes (cfg.withBatching false) t ws fs s₂ →
        s₁.written = s₂.written ∧ ∃ f₁ f₂, s₁.run (cfg.withBatching true) (s₁.flushEvents t) = some f₁ ∧
          s₂.run (cfg.withBatching false) [.invoke t (.merge false)] = some f₂ ∧ f₁.st = f₂.st := by
  have hstart : Cluster.Mirrors t s s := .inl (Cluster.aligned_of_init hinit)
  refine ⟨⟨?_, ?_⟩, ?_⟩
  · rintro ⟨s₁, es, hin, hrun, hidle⟩
    obtain ⟨es', s₂, hin', hrun', hm⟩ := hstart.run_direct hin hrun
    exact ⟨s₂, es', hin', hrun', (hm.aligned (.inl hidle)).ctl.trans hidle⟩
  · rintro ⟨s₂, es, hin, hrun, hidle⟩
    obtain ⟨es', s₁, hin', hrun', hm⟩ := hstart.run_batching hin hrun
    exact ⟨s₁, es', hin', hrun', (hm.aligned (.inr hidle)).ctl.symm.trans hidle⟩
  · rintro s₁ s₂ ⟨es, hin, hrun, hidle⟩ ⟨es₂, hin₂, hrun₂, hidle₂⟩
    obtain ⟨es', s₂', hin', hrun', hm⟩ := hstart.run_direct hin hrun
    have halign := hm.aligned (.inl hidle)
    obtain rfl : s₂' = s₂ := Cluster.run_unique hin' hin₂ hrun' (halign.ctl.trans hidle) hrun₂ hidle₂
    exact ⟨halign.written.symm, halign.publish hidle⟩

/-- Two puts of which one fills a block, and an update. -/
def rotateCalls : List (Write ℕ) :=
  [putWrite 1 8 10 1500000 false, putWrite 2 8 20 1500000 false, putWrite 1 8 30 8 true]

/-- The calls with a rotation that takes `steps` steps. -/
def rotateRun (steps : ℕ) : List (Event Bool ℕ) := List.flatten
  [[.invoke false (.write (putWrite 1 8 10 1500000 false)), .preallocate false [2097152, 4194304]],
    .replicate 3 (.advance false),
    [.invoke false (.write (putWrite 2 8 20 1500000 false))], .replicate steps (.advance false),
    [.invoke false (.write (putWrite 1 8 30 8 true)), .advance false]]

/-- The rotation takes one step more with batching, and the log is the same. -/
theorem batching_changes_only_timing_rotateRun : ∃ s₁ s₂ : Cluster Bool ℕ,
    Cluster.run ((Config.initial true).withBatching true) (.init 2) (rotateRun 6) = some s₁ ∧
      Cluster.run ((Config.initial true).withBatching false) (.init 2) (rotateRun 5) = some s₂ ∧
      s₁.written = s₂.written ∧ ∃ f₁ f₂,
        s₁.run ((Config.initial true).withBatching true) (s₁.flushEvents false) = some f₁ ∧
          s₂.run ((Config.initial true).withBatching false) [.invoke false (.merge false)] = some f₂ ∧ f₁.st = f₂.st := by
  have hstate₁ : (Cluster.run ((Config.initial true).withBatching true) (.init 2) (rotateRun 6)).map
      (fun s => (s.kn false).ctl) = some .idle := by decide +kernel
  have hstate₂ : (Cluster.run ((Config.initial true).withBatching false) (.init 2) (rotateRun 5)).map
      (fun s => (s.kn false).ctl) = some .idle := by decide +kernel
  obtain ⟨s₁, hrun₁, hidle₁⟩ := Option.map_eq_some_iff.mp hstate₁
  obtain ⟨s₂, hrun₂, hidle₂⟩ := Option.map_eq_some_iff.mp hstate₂
  have hin₁ : Event.Inputs false (rotateRun 6) rotateCalls [[2097152, 4194304]] :=
    ⟨by simp [rotateRun, Event.IsWrite], rfl, rfl⟩
  have hin₂ : Event.Inputs false (rotateRun 5) rotateCalls [[2097152, 4194304]] :=
    ⟨by simp [rotateRun, Event.IsWrite], rfl, rfl⟩
  exact ⟨s₁, s₂, hrun₁, hrun₂, (batching_changes_only_timing rfl (.initial true) rotateCalls [[2097152, 4194304]]).2 s₁ s₂
    ⟨_, hin₁, hrun₁, hidle₁⟩ ⟨_, hin₂, hrun₂, hidle₂⟩⟩

end Dinomo
