import Dinomo.Invariant.Accounting
import Dinomo.Invariant.Rotation

/-!
# Replicated writes keep the invariant

A replicated write appends its oplog to the thread's replicated block, swaps it into the indirect
pointer of the key, and counts the superseded oplog in the block that holds it.  Between the swap and
the count the superseded oplog is owed: it is no longer referred to and not yet counted.
-/

namespace Dinomo

open Chain Function List Option Storage

variable {Tid V : Type*} {cfg : Config}

/-- A replicated write has written its oplog, and may have superseded another one. -/
def CtlView.writing (w : Write V) (owed : Option (Ptr × Option ℕ)) : CtlView V :=
  { (CtlView.quiet : CtlView V) with inflight := some w, owed := owed }

open CtlView

/-- A thread whose replicated block is full asks for another one. -/
def CtlView.refilling : CtlView V := { (CtlView.quiet : CtlView V) with retired := true }

/-- A replicated write does nothing to the thread's own log. -/
theorem CtlView.still_writing (w : Write V) (owed : Option (Ptr × Option ℕ)) : (writing w owed).Still :=
  ⟨rfl, rfl, rfl, rfl, rfl, rfl⟩

/-- Nor does a thread that waits for a replicated block. -/
theorem CtlView.still_refilling : (refilling : CtlView V).Still := ⟨rfl, rfl, rfl, rfl, rfl, rfl⟩

section Facts

variable {st st' : Storage Tid V} {C : List Addr} {ρ ρ' : Addr → Role Tid} {t : Tid} {k : KnCore V}

/-- The oplogs of a replicated block lie below the write position, up to the one being written. -/
theorem ReplOk.offset_lt {b : LogBlock V} (h : ReplOk b k) (hal : Aligned b.buffer)
    (hinflight : k.view.inflight = none) : ∀ o ∈ b.buffer, o.offset < k.replOffset := by
  obtain ⟨pre, hbuf, hbytes, -⟩ := h.buffer
  rw [hinflight] at hbuf
  simp only [map_none, toList_none, append_nil] at hbuf
  intro o ho
  have := hal.bounds ho
  have hpos := o.size_pos
  rw [← hbuf] at hbytes
  change 0 ≤ o.offset ∧ o.offset + o.size ≤ 0 + bytesOf b.buffer at this
  omega

end Facts

section Rules

variable [DecidableEq Tid] [Fintype Tid] {st : Storage Tid V} {K : Tid → KnCore V} {C : Tid → List Addr}
  {ρ : Addr → Role Tid} {t : Tid}

omit [DecidableEq Tid] in
/-- The replicated block of a thread is not linked in its log. -/
theorem Inv.repl_notMem (h : Inv cfg st K C ρ) (ha : (K t).ReplActive) : (K t).replAlloc ∉ C t := by
  rw [(h.chain t).mem_iff, (h.thread t).repl ha]
  exact nofun

/-- A thread writes to its replicated block and moves on. -/
theorem Inv.replStep (h : Inv cfg st K C ρ) (hactive : (K t).ReplActive) (hold : (K t).view.Still)
    {f : LogBlock V → LogBlock V} {v : CtlView V} (hnew : v.Still) (hretired : v.retired = false)
    (howed : v.owed = (K t).view.owed)
    (hbuf : (st.mem (K t).replAlloc).buffer <+: (f (st.mem (K t).replAlloc)).buffer)
    (hmerged : (f (st.mem (K t).replAlloc)).mergedOffset = (st.mem (K t).replAlloc).mergedOffset)
    (hvalid : (f (st.mem (K t).replAlloc)).validCounter = (st.mem (K t).replAlloc).validCounter)
    (hinv : (f (st.mem (K t).replAlloc)).localInvalidCounter = (st.mem (K t).replAlloc).localInvalidCounter ∧
      (f (st.mem (K t).replAlloc)).globalInvalidCounter = (st.mem (K t).replAlloc).globalInvalidCounter)
    (haligned : Aligned (f (st.mem (K t).replAlloc)).buffer)
    (hkeys : ∀ o ∈ (f (st.mem (K t).replAlloc)).buffer, o.key ≠ 0)
    (hok : ReplOk (f (st.mem (K t).replAlloc)) { K t with view := v }) :
    Inv cfg (st.modBlock (K t).replAlloc f) (update K t { K t with view := v }) C ρ := by
  have hrole := (h.thread t).repl hactive
  have hnotin := h.repl_notMem hactive
  have hmema := st.mem_modBlock_self (K t).replAlloc f
  have hd : ∀ a ∈ C t, (st.mem a).SameData ((st.modBlock (K t).replAlloc f).mem a) := fun a ha =>
    .of_eq (st.mem_modBlock_of_ne (ne_of_mem_of_not_mem ha hnotin) f)
  have hzero := (h.block (K t).replAlloc).repl t hrole
  refine h.threadStep hold.waiting hold.crashed (by rw [hrole, Role.owner])
    (fun hx => hnotin (mem_of_mem_tail hx)) hbuf hmerged (by omega) howed hnew.crashed rfl ?_ ?_ ?_ ?_
  · exact .of_role hrole (h.allocated _ (by simp [hrole])) (by rw [hmema]; exact haligned) (by rw [hmema]; exact hkeys)
      (by rw [hmema]; exact hvalid.trans hzero)
  · intro hc
    have hpos : 0 < (st.mem (K t).replAlloc).localInvalidCounter +
        (st.mem (K t).replAlloc).globalInvalidCounter := by
      rcases hc.role with ⟨hr, -⟩ | ⟨_, -, hpos⟩ | ⟨_, hr, -⟩
      · rw [hrole] at hr
        cases hr
      · exact hpos
      · rw [hrole] at hr
        cases hr
    refine ⟨hc.alloc, Or.inr (Or.inl ⟨t, hrole, ?_⟩)⟩
    rw [hmema]
    omega
  · exact (h.chain t).congr (fun _ => Iff.rfl) hd rfl
  · have ht := h.thread t
    refine ht.still rfl hold hnew hd ht.raddrs ht.nodup_raddrs (fun _ => hrole)
      (fun a ha => ⟨(ht.repl_only a ha).1, hretired⟩) (fun _ => ?_) (fun _ => hactive.2.1)
    change ReplOk ((st.modBlock (K t).replAlloc f).mem (K t).replAlloc) _
    rw [hmema]
    exact hok

/-- A thread writes the oplog of a replicated write. -/
theorem Inv.writeReplicated (h : Inv cfg st K C ρ) (hactive : (K t).ReplActive)
    (hquiet : (K t).view = .quiet) {w : Write V} (hkey : w.key ≠ 0) (hwrite : w.opType.isWrite) :
    Inv cfg (st.modBlock (K t).replAlloc fun b =>
        { b with buffer := writeOplog b.buffer (w.at (K t).replOffset) })
      (update K t { K t with view := .writing w none }) C ρ := by
  have hold : (K t).view.Still := by rw [hquiet]; exact still_quiet
  have hro := (h.thread t).replOk hactive
  have hb := h.block (K t).replAlloc
  obtain ⟨pre, hbuf, hbytes, hlen⟩ := hro.buffer
  rw [hquiet] at hbuf
  simp only [quiet, map_none, toList_none, append_nil] at hbuf
  subst hbuf
  have happend : writeOplog (st.mem (K t).replAlloc).buffer (w.at (K t).replOffset) =
      (st.mem (K t).replAlloc).buffer ++ [w.at (K t).replOffset] := hb.aligned.writeOplog_end hbytes.le
  refine h.replStep hactive hold (still_writing _ _) rfl (by rw [hquiet]; rfl) ?_ rfl rfl ⟨rfl, rfl⟩ ?_ ?_ ?_
  · rw [happend]
    exact prefix_append _ _
  · rw [happend, ← hbytes]
    exact hb.aligned.append_at w
  · rw [happend]
    intro o ho
    rcases mem_append.mp ho with ho | ho
    · exact hb.keys o ho
    · rw [mem_singleton.mp ho]
      exact hkey
  · refine ⟨⟨(st.mem (K t).replAlloc).buffer, happend, hbytes, hlen⟩, ?_⟩
    rw [happend]
    intro o ho
    rcases mem_append.mp ho with ho | ho
    · exact hro.writes o ho
    · rw [mem_singleton.mp ho]
      exact hwrite

/-- A thread publishes the offset of a full replicated block. -/
theorem Inv.syncOffset (h : Inv cfg st K C ρ) (hactive : (K t).ReplActive) (hquiet : (K t).view = .quiet) :
    Inv cfg (st.modBlock (K t).replAlloc fun b => { b with offset := (K t).replOffset })
      (update K t { K t with view := .quiet }) C ρ := by
  have hold : (K t).view.Still := by rw [hquiet]; exact still_quiet
  have hro := (h.thread t).replOk hactive
  have hb := h.block (K t).replAlloc
  refine h.replStep hactive hold still_quiet rfl (by rw [hquiet]) (prefix_refl _) rfl rfl
    ⟨rfl, rfl⟩ hb.aligned hb.keys ⟨?_, hro.writes⟩
  have := hro.buffer
  rw [hquiet] at this
  exact this

/-- A full replicated block is given up: its valid counter is written and no thread owns it. -/
theorem Inv.retire (h : Inv cfg st K C ρ) (hactive : (K t).ReplActive) (hquiet : (K t).view = .quiet)
    (honce : (K t).replNumEntries = (st.mem (K t).replAlloc).localInvalidCounter +
      (st.mem (K t).replAlloc).globalInvalidCounter → st.ComparedOnce (K t).replAlloc) :
    Inv cfg (st.modBlock (K t).replAlloc fun b => { b with validCounter := (K t).replNumEntries })
      (update K t { K t with view := .refilling }) C
      (update ρ (K t).replAlloc .unowned) := by
  have hold : (K t).view.Still := by rw [hquiet]; exact still_quiet
  have ht := h.thread t
  have hrole := ht.repl hactive
  have hnotin := h.repl_notMem hactive
  have hro := ht.replOk hactive
  have hb := h.block (K t).replAlloc
  generalize ha : (K t).replAlloc = a at *
  have hmem : ∀ b, b ≠ a → (st.modBlock a fun b => { b with validCounter := (K t).replNumEntries }).mem b =
      st.mem b := fun b hne => st.mem_modBlock_of_ne hne _
  have hmema := st.mem_modBlock_self a fun b => { b with validCounter := (K t).replNumEntries }
  have hst' : { st with mem := (st.modBlock a fun b => { b with validCounter := (K t).replNumEntries }).mem } =
      st.modBlock a fun b => { b with validCounter := (K t).replNumEntries } := rfl
  generalize (st.modBlock a fun b => { b with validCounter := (K t).replNumEntries }) = st' at *
  have hdata : ∀ b, st'.mem b = { st.mem b with validCounter := (st'.mem b).validCounter } := by
    intro b
    by_cases hne : b = a
    · rw [hne, hmema]
    · rw [hmem b hne]
  have hρ : ∀ b, b ≠ a → update ρ a .unowned b = ρ b := fun b hne => update_of_ne hne _ _
  have hρa : update ρ a .unowned a = .unowned := update_self _ _ _
  have hcount : (K t).replNumEntries = writes (st.mem a).buffer := by
    obtain ⟨pre, hbuf, -, hlen⟩ := hro.buffer
    rw [hquiet] at hbuf
    simp only [quiet, map_none, toList_none, append_nil] at hbuf
    rw [← hlen, ← hbuf, writes, writesIn, countP_eq_length.mpr]
    exact fun o ho => by simp [hro.writes o ho]
  have hpool : SamePool st st' K (update K t { K t with view := .refilling }) ρ (update ρ a .unowned) :=
    { ht := by rw [← hst']
      cells := by rw [← hst']
      allocated := by rw [← hst']
      queue := by rw [← hst']
      buffer := fun b => by rw [hdata b]
      counters := fun b => by rw [hdata b]; exact ⟨rfl, rfl⟩
      released := fun b o ho => by
        by_cases hne : b = a
        · -- all its oplogs are installed, so none of them becomes released by the new role
          subst hne
          have hlt := hro.offset_lt hb.aligned (by rw [hquiet]; rfl) o ho
          simp [isReleased, hrole, KnCore.installed, hlt]
        · refine isReleased_congr (hρ b hne)
            (fun t' _ => mpos_congr (by rw [← hst']) (by rw [hmem b hne])) (fun t' o hx => ?_) o
          rw [update_of_ne]
          rintro rfl
          exact hne ((ht.repl_only b hx).1.trans ha)
      owed := update_congr K t { K t with view := .refilling } (fun k : KnCore V => k.view.owed)
        (by rw [hquiet]; rfl)
      queued := fun b => by
        by_cases hne : b = a
        · simp [hne, hrole]
        · rw [hρ b hne]
      used := fun b hx => by
        by_cases hne : b = a
        · rw [hne, hρa] at hx
          exact absurd rfl hx
        · rwa [← hρ b hne] }
  have hd : ∀ b ∈ C t, (st.mem b).SameData (st'.mem b) := fun b hbC =>
    .of_eq (hmem b fun hx => hnotin (hx ▸ hbC))
  have hsame : ∀ t', t' ≠ t → SameFor t' st st' ρ (update ρ a .unowned) := by
    intro t' ht'
    refine ⟨fun b hbo => hρ b ?_, fun b hbo => .of_eq (hmem b ?_), by rw [← hst'], by rw [← hst'], by rw [← hst'],
      by rw [← hst']⟩
    · rintro rfl
      rw [hrole, hρa] at hbo
      rcases hbo with hbo | hbo
      · exact ht' (some.inj hbo).symm
      · cases hbo
    · rintro rfl
      rw [hrole] at hbo
      exact ht' (some.inj hbo).symm
  have hthread : ThreadInv cfg st' (C t) (update ρ a .unowned) t { K t with view := .refilling } := by
    refine ht.still rfl hold still_refilling hd (fun b hbr h0 => ?_) ht.nodup_raddrs
      (fun hx => absurd hx.2.2 (by simp [refilling])) (fun b hx => ?_)
      (fun hx => absurd hx.2.2 (by simp [refilling])) (fun hx => by cases hx)
    · have := ht.raddrs b hbr h0
      rw [hρ b]
      · exact this
      · rintro rfl
        rw [hrole] at this
        cases this
    · by_cases hne : b = a
      · rw [hne, hρa] at hx
        cases hx
      · rw [hρ b hne] at hx
        exact absurd ((ht.repl_only b hx).1.trans ha) hne
  have hchain : ChainInv st' (C t) (update ρ a .unowned) t := by
    refine (h.chain t).congr (fun b => ?_) hd (by rw [← hst'])
    by_cases hne : b = a
    · simp [hne, hrole]
    · rw [hρ b hne]
  have hlogs := LogInv.update h.log hsame ((h.log t).step hold.waiting hold.crashed (by rw [← hst']) (by rw [← hst'])
    (by rw [← hst']) hthread hchain fun p _ hp => hp.congr hd)
  rw [update_eq_self] at hlogs
  have halloc := hpool.allocated
  have hprog : st'.progressTable = st.progressTable := by rw [← hst']
  refine { h.keep hpool (fun b => ?_) (fun t' p b hp hx => ?_) (fun t₁ t₂ p₁ p₂ b h₁ h₂ hb₁ hb₂ hall => ?_) with
    log := hlogs }
  · by_cases hne : b = a
    · subst hne
      refine .of_role hρa ?_ (by rw [hpool.buffer]; exact hb.aligned) (by rw [hpool.buffer]; exact hb.keys) (Or.inr ?_)
      · rw [halloc]
        exact h.allocated b (by simp [hrole])
      · rw [hmema]
        exact hcount
    · exact (h.block b).congr (hρ b hne) (hmem b hne) (by rw [halloc]; exact id)
  · have hc := h.check t' p b (hprog ▸ hp) hx
    by_cases hne : b = a
    · subst hne
      exact ⟨by rw [halloc]; exact hc.alloc, Or.inl ⟨hρa, Or.inl (by rw [hmema]; exact hcount)⟩⟩
    · exact hc.congr (hρ b hne) (hmem b hne) (by rw [halloc]; exact hc.alloc)
  · rw [hprog] at h₁ h₂
    by_cases hne : b = a
    · subst hne
      rw [hmema] at hall
      exact honce hall t₁ t₂ p₁ p₂ h₁ h₂ hb₁ hb₂
    · exact h.check_unique t₁ t₂ p₁ p₂ b h₁ h₂ hb₁ hb₂ (hmem b hne ▸ hall)

/-- A preallocated block becomes the replicated block of a thread. -/
theorem Inv.takeReplicated (h : Inv cfg st K C ρ) (hview : (K t).view = .refilling)
    (h0 : (popLogBlocksRaddr (K t).raddrs).1 ≠ 0) :
    ∃ ρ', Inv cfg st (update K t { K t with
      raddrs := (popLogBlocksRaddr (K t).raddrs).2, replAlloc := (popLogBlocksRaddr (K t).raddrs).1
      replOffset := 0, replNumEntries := 0, view := .quiet }) C ρ' := by
  have ht := h.thread t
  obtain ⟨hrole, hrest, hnodup⟩ := ht.pop h0
  have hblank := h.block (popLogBlocksRaddr (K t).raddrs).1
  have hzero := hblank.prealloc t hrole
  have hnone : ∀ b, ρ b ≠ .repl t := fun b hb => by
    have := (ht.repl_only b hb).2
    rw [hview] at this
    cases this
  have hold : (K t).view.Still := by rw [hview]; exact still_refilling
  have hinv := h.retag (N := (popLogBlocksRaddr (K t).raddrs).1) (r := .repl t) hold.waiting hold.crashed
    (Or.inl hrole) rfl st.logMappingTable (C t)
    { K t with
      raddrs := (popLogBlocksRaddr (K t).raddrs).2, replAlloc := (popLogBlocksRaddr (K t).raddrs).1
      replOffset := 0, replNumEntries := 0, view := .quiet }
    (by rw [hview]; rfl) rfl (Or.inr hnone) (fun _ _ => rfl) ?_ ?_ ?_ (fun _ _ hx => hx)
  · rw [update_eq_self] at hinv
    exact ⟨_, hinv⟩
  · exact .of_role (update_self _ _ _) (h.allocated _ (by simp [hrole])) hblank.aligned hblank.keys
      (by rw [hzero]; rfl)
  · exact (h.chain t).retag (by simp [hrole]) (by simp)
  · refine ht.still rfl hold still_quiet (fun _ _ => .of_eq rfl) (fun a ha ha0 => ?_) hnodup
      (fun _ => update_self _ _ _) (fun a ha => ?_) (fun _ => ?_) nofun
    · obtain ⟨hr, hne⟩ := hrest a ha ha0
      rw [update_of_ne hne]
      exact hr
    · by_cases hne : a = (popLogBlocksRaddr (K t).raddrs).1
      · exact ⟨hne, rfl⟩
      · rw [update_of_ne hne] at ha
        exact absurd ha (hnone a)
    · change ReplOk (st.mem (popLogBlocksRaddr (K t).raddrs).1) _
      rw [hzero]
      exact ⟨⟨[], rfl, rfl, rfl⟩, nofun⟩

omit [DecidableEq Tid] [Fintype Tid] in
/-- What the keys refer to after the cell of one key is redirected. -/
theorem resolve_cell {c : Addr} {p q : Ptr} {k k' : Key} (hidx : IndexInv st K ρ) (hk : k ≠ 0) (hk' : k' ≠ 0)
    (hht : st.ht.get k = some (.indirect c)) (hc : st.cells c = some (.oplog p)) :
    st.resolve k = some p ∧
      resolve { st with cells := update st.cells c (some (.oplog q)) } k' =
        if k' = k then some q else st.resolve k' := by
  refine ⟨by simp [resolve, hht, hc], ?_⟩
  split_ifs with heq
  · simp [resolve, heq, hht]
  · unfold resolve
    cases hg : st.ht.get k' with
    | none => rfl
    | some v =>
      cases v with
      | oplog p' => rfl
      | indirect c' =>
        have hne : c' ≠ c := by
          rintro rfl
          exact heq (hidx.cell_inj k' k c' hk' hk hg hht)
        simp only [update_of_ne hne]

/-- A replicated write swaps its oplog into the indirect pointer of its key. -/
theorem Inv.swapCell (h : Inv cfg st K C ρ) {w : Write V} (hview : (K t).view = .writing w none)
    (hkey : w.key ≠ 0) {c : Addr} {p : Ptr} (hht : st.ht.get w.key = some (.indirect c))
    (hc : st.cells c = some (.oplog p)) :
    Inv cfg
      { st with cells := update st.cells c (some (.oplog ⟨(K t).replAlloc, (K t).replOffset⟩)) }
      (update K t { K t with view := .writing w (some (p, none)) }) C ρ := by
  have ht := h.thread t
  have hold : (K t).view.Still := by rw [hview]; exact still_writing _ _
  have hactive : (K t).ReplActive :=
    ⟨hold.crashed, ht.inflight (by rw [hview]; rfl), by rw [hview]; rfl⟩
  have hrole := ht.repl hactive
  have hro := ht.replOk hactive
  obtain ⟨pre, hbuf, hbytes, hlen⟩ := hro.buffer
  have hbuf' : (st.mem (K t).replAlloc).buffer = pre ++ [w.at (K t).replOffset] := by
    rw [hbuf, hview]
    rfl
  have hlast : w.at (K t).replOffset ∈ (st.mem (K t).replAlloc).buffer := by simp [hbuf']
  have hK : ∀ t', t' ≠ t → update K t { K t with view := .writing w (some (p, none)) } t' = K t' :=
    fun t' ht' => update_of_ne ht' _ _
  generalize hst' : ({ st with
    cells := update st.cells c (some (.oplog ⟨(K t).replAlloc, (K t).replOffset⟩)) } :
      Storage Tid V) = st'
  generalize hK' : update K t { K t with view := .writing w (some (p, none)) } = K' at *
  have hKt : K' t = { K t with view := .writing w (some (p, none)) } := by rw [← hK', update_self]
  have hcounted : Counted st st' none := by
    rw [← hst']
    exact ⟨rfl, rfl, fun _ => .of_eq rfl, fun _ _ => rfl, fun _ => rfl⟩
  have hmem : st'.mem = st.mem := by rw [← hst']
  have hresolve : ∀ k', k' ≠ 0 → st'.resolve k' =
      if k' = w.key then some ⟨(K t).replAlloc, (K t).replOffset⟩ else st.resolve k' := by
    intro k' hk'
    rw [← hst']
    exact (resolve_cell h.index hkey hk' hht hc).2
  have hp : st.resolve w.key = some p := (resolve_cell (q := p) h.index hkey hkey hht hc).1
  -- the write position does not move yet, but the oplog at it is now installed
  have hisrel : ∀ b o, st.isReleased K ρ b o = true → st'.isReleased K' ρ b o = true := by
    intro b o ho
    by_cases hb : ρ b = .repl t
    · simp [isReleased, hb, hKt, KnCore.installed, writing]
    · rwa [isReleased_congr rfl (fun t' _ => mpos_congr (by rw [← hst']) (by rw [hmem])) fun t' o hx => ?_]
      rw [hK t' fun ht' => hb (ht' ▸ hx)]
  have hnew : st'.isReleased K' ρ (K t).replAlloc (w.at (K t).replOffset) = true := by
    simp [isReleased, hrole, hKt, KnCore.installed, writing]
  have hrel : ∀ b, st.released K ρ b + hits b (some ⟨(K t).replAlloc, (K t).replOffset⟩) ≤
      st'.released K' ρ b := by
    intro b
    unfold released
    rw [hmem, hits_some]
    split_ifs with hb
    · obtain rfl : (K t).replAlloc = b := hb
      refine writesIn_succ_le (fun o _ ho => hisrel _ o ho) hlast (hro.writes _ hlast) ?_ hnew
      simp [isReleased, hrole, KnCore.installed, hview, writing, quiet]
    · exact writesIn_mono fun o _ ho => hisrel b o ho
  have hthread : ThreadInv cfg st' (C t) ρ t (K' t) := by
    rw [hKt]
    refine ht.still rfl hold (still_writing _ _) (fun a _ => .of_eq (by rw [hmem])) ht.raddrs
      ht.nodup_raddrs (fun _ => hrole) (fun a ha => ⟨(ht.repl_only a ha).1, rfl⟩) (fun _ => ?_)
      (fun _ => hactive.2.1)
    rw [hmem]
    exact ⟨⟨pre, hbuf', hbytes, hlen⟩, hro.writes⟩
  have hsame : ∀ t', SameFor t' st st' ρ ρ := fun t' => by
    rw [← hst']
    exact ⟨fun _ _ => rfl, fun _ _ => .of_eq rfl, rfl, rfl, rfl, rfl⟩
  have hlog := (h.log t).step hold.waiting hold.crashed (hsame t).progress (hsame t).reply (hsame t).done hthread
    ((h.chain t).frame (hsame t)) fun q _ hq => hq.congr fun a _ => .of_eq (by rw [hmem])
  have hindex : IndexInv st' K' ρ := by
    refine
      { full := by rw [← hst']; exact h.index.full
        cell_alloc := by rw [← hst']; exact h.index.cell_alloc
        cell_some := fun k' c' hk' hg => ?_
        cell_inj := by rw [← hst']; exact h.index.cell_inj
        ref := fun k' q hk' hr => ?_ }
    · rw [← hst'] at hg ⊢
      by_cases hcc : c' = c
      · exact ⟨_, by rw [hcc]; exact update_self _ _ _⟩
      · obtain ⟨q, hq⟩ := h.index.cell_some k' c' hk' hg
        exact ⟨q, (update_of_ne hcc _ _).trans hq⟩
    · rw [hresolve k' hk'] at hr
      rw [hmem]
      split_ifs at hr with heq
      · cases hr
        exact ⟨_, hlast, rfl, heq.symm, hro.writes _ hlast, hnew⟩
      · obtain ⟨o, ho, hoff, hok, hw, hm⟩ := h.index.ref k' q hk' hr
        exact ⟨o, ho, hoff, hok, hw, hisrel _ o hm⟩
  refine { h.counted hcounted (by simp) (fun t' q b hq hb => ?_) (by rw [← hst']; exact h.check_unique) hindex
    (fun t' q off ho => ?_) (fun b => ?_) with log := fun t' => ?_ }
  · exact hcounted.checkOk h.toPoolInv (h.check t' q b (by rw [← hst'] at hq; exact hq) hb) (by simp)
  · by_cases ht' : t' = t
    · rw [ht', hKt] at ho
      obtain ⟨rfl, rfl⟩ := Prod.mk.inj (some.inj ho)
      obtain ⟨o, hmo, hoff, -⟩ := h.index.ref w.key p hkey hp
      exact ⟨⟨o, hmo, hoff⟩, by simp⟩
    · rw [hK t' ht'] at ho
      exact h.owed t' q off ho
  · have hadd := h.refs_redirect hcounted hindex hkey (fun k' hk' hne => by rw [hresolve k' hk', if_neg hne]) b
    have howed := owedTo_update K t { K t with view := .writing w (some (p, none)) } b
    rw [hK'] at howed
    rw [hp, hresolve _ hkey, if_pos rfl] at hadd
    have hr := hrel b
    simp only [hview, writing, map_none, map_some, hits_none] at howed ⊢
    omega
  · by_cases ht' : t' = t
    · rw [ht']
      exact hlog
    · rw [hK t' ht']
      exact (h.log t').frame (hsame t')

/-- A replicated write counts the oplog it has superseded, and its own oplog is complete. -/
theorem Inv.countOwed (h : Inv cfg st K C ρ) {w : Write V} {p : Ptr} {off : Option ℕ}
    (hview : (K t).view = .writing w (some (p, off)))
    (hlast : (st.mem p.block).lastValid →
      st.ComparedOnce p.block ∧ (st.Compared p.block → ∀ t', ρ p.block ≠ .chain t')) :
    Inv cfg (st.modBlock p.block fun b => { b with globalInvalidCounter := b.globalInvalidCounter + 1 })
      (update K t { K t with
        replOffset := (K t).replOffset + w.size, replNumEntries := (K t).replNumEntries + 1
        view := .quiet }) C ρ := by
  have ht := h.thread t
  have hold : (K t).view.Still := by rw [hview]; exact still_writing _ _
  have hactive : (K t).ReplActive :=
    ⟨hold.crashed, ht.inflight (by rw [hview]; rfl), by rw [hview]; rfl⟩
  have hrole := ht.repl hactive
  have hro := ht.replOk hactive
  obtain ⟨pre, hbuf, hbytes, hlen⟩ := hro.buffer
  have hbuf' : (st.mem (K t).replAlloc).buffer = pre ++ [w.at (K t).replOffset] := by
    rw [hbuf, hview]
    rfl
  obtain ⟨⟨o, ho, hoff⟩, -⟩ := h.owed t p off (by rw [hview]; rfl)
  have howed := owedTo_update K t { K t with
    replOffset := (K t).replOffset + w.size, replNumEntries := (K t).replNumEntries + 1, view := .quiet }
  generalize hk' : ({ K t with
    replOffset := (K t).replOffset + w.size, replNumEntries := (K t).replNumEntries + 1
    view := .quiet } : KnCore V) = k' at *
  generalize hst' : (st.modBlock p.block fun b =>
    { b with globalInvalidCounter := b.globalInvalidCounter + 1 }) = st'
  have hmem : ∀ b, b ≠ p.block → st'.mem b = st.mem b := fun b hb => by simp [← hst', modBlock, hb]
  have hmemp : st'.mem p.block =
      { st.mem p.block with globalInvalidCounter := (st.mem p.block).globalInvalidCounter + 1 } := by
    simp [← hst', modBlock]
  have hcounted : Counted st st' (some p) := by
    refine ⟨by rw [← hst']; rfl, by rw [← hst']; rfl, fun b => ?_, fun b hb => hmem b fun hbp => ?_, fun b => ?_⟩
    · by_cases hb : b = p.block
      · rw [hb, hmemp]
        exact ⟨rfl, rfl, rfl, rfl, rfl⟩
      · exact .of_eq (hmem b hb)
    · simp [hbp] at hb
    · by_cases hb : b = p.block
      · rw [hb, hmemp, hits_some, if_pos rfl, Nat.add_assoc]
      · rw [hmem b hb, hits_some, if_neg (Ne.symm hb), Nat.add_zero]
  have hd := hcounted.data
  have hsame : ∀ t', SameFor t' st st' ρ ρ := fun t' => by
    refine ⟨fun _ _ => rfl, fun b _ => hd b, ?_, ?_, ?_, ?_⟩ <;> rw [← hst'] <;> rfl
  have hlt : ∀ o ∈ (st.mem (K t).replAlloc).buffer, o.offset < (K t).replOffset + w.size := by
    intro o ho
    have := (h.block (K t).replAlloc).aligned.bounds ho
    have hsize := o.size_pos
    have htotal : bytesOf (st.mem (K t).replAlloc).buffer = (K t).replOffset + w.size := by
      rw [hbuf', bytesOf_append, hbytes, bytesOf_singleton, Write.at_size]
    change 0 ≤ o.offset ∧ o.offset + o.size ≤ 0 + bytesOf (st.mem (K t).replAlloc).buffer at this
    omega
  -- the oplogs of the replicated block were all installed and stay so
  have hisrel : ∀ b, ∀ o ∈ (st.mem b).buffer, st'.isReleased (update K t k') ρ b o =
      st.isReleased K ρ b o := by
    intro b o ho
    by_cases hb : ρ b = .repl t
    · have hbr := (ht.repl_only b hb).1
      subst hbr
      simp [isReleased, hb, KnCore.installed, ← hk', hlt o ho, hview, writing]
    · refine isReleased_congr rfl (fun t' _ => mpos_congr (hsame t').progress (hd b).mergedOffset)
        (fun t' o' hx => ?_) o
      rw [update_of_ne]
      rintro rfl
      exact hb hx
  have hreleased : ∀ b, st'.released (update K t k') ρ b = st.released K ρ b := by
    intro b
    unfold released
    rw [(hd b).buffer]
    exact writesIn_congr (hisrel b)
  have hthread : ThreadInv cfg st' (C t) ρ t k' := by
    subst hk'
    refine ht.still rfl hold still_quiet (fun a _ => hd a) ht.raddrs
      ht.nodup_raddrs (fun _ => hrole) (fun a ha => ⟨(ht.repl_only a ha).1, rfl⟩) (fun _ => ?_) (fun hx => by cases hx)
    refine ⟨⟨(st.mem (K t).replAlloc).buffer, ?_, ?_, ?_⟩, ?_⟩
    · rw [(hd _).buffer]
      simp [quiet]
    · rw [hbuf', bytesOf_append, hbytes, bytesOf_singleton, Write.at_size]
    · rw [hbuf', length_append, hlen]
      rfl
    · rw [(hd _).buffer]
      exact hro.writes
  have hlogs := LogInv.update h.log (fun t' _ => hsame t') ((h.log t).step hold.waiting hold.crashed
    (hsame t).progress (hsame t).reply (hsame t).done hthread ((h.chain t).frame (hsame t))
    fun q _ hq => hq.congr fun a _ => hd a)
  rw [update_eq_self] at hlogs
  have hrefs : ∀ b, st'.refs b = st.refs b := fun b => by
    rw [refs, (hd b).buffer, ← hst']
    rfl
  have hindex : IndexInv st' (update K t k') ρ := by
    refine
      { full := by rw [← hst']; exact h.index.full
        cell_alloc := by rw [← hst']; exact h.index.cell_alloc
        cell_some := by rw [← hst']; exact h.index.cell_some
        cell_inj := by rw [← hst']; exact h.index.cell_inj
        ref := fun k q hk hr => ?_ }
    obtain ⟨o', ho', hoff, hok, hw, hm⟩ := h.index.ref k q hk (by rw [← hst'] at hr; exact hr)
    exact ⟨o', by rw [(hd _).buffer]; exact ho', hoff, hok, hw, by rw [hisrel _ o' ho']; exact hm⟩
  refine { h.counted hcounted (fun r hr => ?_) (fun t' q b hq hb => ?_) (fun t₁ t₂ p₁ p₂ b h₁ h₂ hb₁ hb₂ hall => ?_) hindex
    (fun t' q off' ho' => ?_) (fun b => ?_) with log := hlogs }
  · cases hr
    exact ⟨o, ho, hoff⟩
  · rw [(hsame t').progress] at hq
    refine hcounted.checkOk h.toPoolInv (h.check t' q b hq hb) fun r hr hrb hlv => ?_
    cases hr
    subst hrb
    exact (hlast hlv).2 ⟨t', q, hq, hb⟩
  · rw [(hsame t₁).progress] at h₁
    rw [(hsame t₂).progress] at h₂
    rcases hcounted.agree hall with ⟨hall, -⟩ | ⟨r, hr, rfl, hlv⟩
    · exact h.check_unique t₁ t₂ p₁ p₂ b h₁ h₂ hb₁ hb₂ hall
    · cases hr
      exact (hlast hlv).1 t₁ t₂ p₁ p₂ h₁ h₂ hb₁ hb₂
  · by_cases ht' : t' = t
    · rw [ht', update_self, ← hk'] at ho'
      cases ho'
    · rw [update_of_ne ht'] at ho'
      exact h.owed t' q off' ho'
  · have hob := howed b
    rw [show k'.view.owed = none by rw [← hk']; rfl, hview] at hob
    simp only [writing, map_some, map_none, hits_none] at hob
    rw [hreleased, hrefs]
    omega

end Rules

end Dinomo
