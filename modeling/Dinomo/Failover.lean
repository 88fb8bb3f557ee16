import Dinomo.LastWrite
import Dinomo.OrderedMerge
import Dinomo.Ownership

/-!
# Acknowledged writes and failover

A thread crashes, and a storage manager merges what the thread has published.  With batching, a write is acknowledged
after its block publishes it; without, it is acknowledged when its oplog is written, and the offset that makes it part of
the log follows with the header of a full block or of a merge request.
-/

namespace Dinomo

open Function List

variable {Tid V : Type*}

/-- The writes of a key: an insertion, then updates. -/
def Sequenced (es : List (LogEntry Tid V)) : Prop :=
  ∀ pre e post, es = pre ++ e :: post → e.oplog.opType = if pre = [] then .insert else .update

section Words

variable {α : Type*} {f : LogEntry Tid V → α} {es es' : List (LogEntry Tid V)} {k : Key}

/-- A first part of a sequence of writes. -/
theorem Sequenced.isPrefix (h : Sequenced es) (hp : es' <+: es) : Sequenced es' := by
  obtain ⟨u, rfl⟩ := hp
  rintro pre e post rfl
  exact h pre e (post ++ u) (by simp)

/-- One more write. -/
theorem Sequenced.concat (h : Sequenced es) {e : LogEntry Tid V}
    (he : e.oplog.opType = if es = [] then .insert else .update) : Sequenced (es ++ [e]) := by
  intro pre e' post heq
  rcases eq_nil_or_concat post with rfl | ⟨post, y, rfl⟩
  · obtain ⟨rfl, hlast⟩ := append_inj' heq rfl
    obtain rfl := (List.cons.inj hlast).1
    exact he
  · refine h pre e' post ?_
    have heq' : es ++ [e] = (pre ++ e' :: post) ++ [y] := by simpa using heq
    exact (append_inj' heq' rfl).1

/-- A sequence of writes leaves its last word. -/
theorem Sequenced.wordAfterAll (h : Sequenced es) : wordAfterAll f none es = es.getLast?.map f := by
  induction es using List.reverseRecOn with
  | nil => rfl
  | append_singleton es e ih =>
    rw [wordAfterAll_concat, ih (h.isPrefix (prefix_append _ _)), List.getLast?_concat, h es e [] rfl]
    cases es using List.reverseRecOn with
    | nil => rfl
    | append_singleton es e' => simp [OpType.wordAfter]

/-- Each key goes through its own entries. -/
theorem foldl_apply (idx : Key → Option (Ptr × Oplog V)) (es : List (LogEntry Tid V)) (k : Key) :
    es.foldl LogEntry.apply idx k = Dinomo.wordAfterAll (fun e => (e.ptr, e.oplog)) (idx k) (entriesOf k es) := by
  induction es generalizing idx with
  | nil => rfl
  | cons e es ih =>
    rw [foldl_cons, ih]
    by_cases he : e.oplog.key = k
    · have hes : entriesOf k (e :: es) = e :: entriesOf k es := filter_cons_of_pos (by simpa using he)
      rw [hes, LogEntry.apply, he, update_self]
      rfl
    · have hes : entriesOf k (e :: es) = entriesOf k es := filter_cons_of_neg (by simpa using he)
      rw [hes, LogEntry.apply, update_of_ne (Ne.symm he)]

end Words

/-- The events of a node whose clients put and update keys of their own thread, with any passes and crashes. -/
def Event.Request (owner : Key → Tid) : Event Tid V → Prop
  | .invoke t (.write w) => owner w.key = t ∧ w.opType.isWrite = true
  | .invoke _ .flush => True
  | .invoke _ (.merge _) => True
  | .invoke _ _ => False
  | _ => True

/-- What the writes need to survive: a `PUT` is for a new key and an `UPDATE` for one that was put, no key is the empty
marker, and a thread without batching crashes only when its block publishes all it has staged. -/
def Cluster.Recoverable (cfg : Config) (s : Cluster Tid V) : Event Tid V → Prop
  | .invoke _ (.write w) => w.key ≠ 0 ∧ w.opType = if entriesOf w.key s.written = [] then .insert else .update
  | .crash t => cfg.batching = true ∨ s.unsent t = []
  | _ => True

instance (cfg : Config) (s : Cluster Tid V) : ∀ e : Event Tid V, Decidable (s.Recoverable cfg e)
  | .invoke _ (.write w) =>
    inferInstanceAs (Decidable (w.key ≠ 0 ∧ w.opType = if entriesOf w.key s.written = [] then .insert else .update))
  | .crash t => inferInstanceAs (Decidable (cfg.batching = true ∨ s.unsent t = []))
  | .invoke _ .flush | .invoke _ (.merge _) | .invoke _ (.swap _ _) | .invoke _ (.putReplicated _ _ _ _ _)
  | .invoke _ (.getReplicated _ _) | .advance _ | .preallocate _ _ | .install _ _ | .beginPass _ _ | .passStep _ =>
    .isTrue trivial

variable [DecidableEq Tid]

instance (owner : Key → Tid) : ∀ e : Event Tid V, Decidable (e.Request owner)
  | .invoke t (.write w) => inferInstanceAs (Decidable (owner w.key = t ∧ w.opType.isWrite = true))
  | .invoke _ (.swap _ _) | .invoke _ (.putReplicated _ _ _ _ _) | .invoke _ (.getReplicated _ _) => .isFalse id
  | .invoke _ .flush | .invoke _ (.merge _) | .advance _ | .preallocate _ _ | .install _ _ | .beginPass _ _ | .passStep _
  | .crash _ => .isTrue trivial

/-- The writes a thread has acknowledged are what the index leads to, unless they were overwritten. -/
structure Cluster.KeepsAcked (s : Cluster Tid V) (t : Tid) : Prop where
  acked : entriesBy t s.acked <+: entriesBy t s.written
  kept : ∀ pre e post, entriesBy t s.written = pre ++ e :: post → pre.length < (entriesBy t s.acked).length →
    (∀ e' ∈ post, e'.oplog.key ≠ e.oplog.key) → s.st.find e.oplog.key = some (e.ptr, e.oplog)
  orLater : ∀ pre e post, entriesBy t s.written = pre ++ e :: post → pre.length < (entriesBy t s.acked).length →
    ∃ e' ∈ e :: post, e'.oplog.key = e.oplog.key ∧ s.st.find e.oplog.key = some (e'.ptr, e'.oplog)

/-- The invariant of such a node. -/
structure Cluster.Recovering (owner : Key → Tid) (cfg : Config) (s : Cluster Tid V) [Fintype Tid] (C : Tid → List Addr) :
    Prop where
  piped : s.Piped cfg C
  owned : s.Owned owner C
  replayed : (s.pipeline C).Replayed LogEntry.apply fun _ => none
  sequenced : ∀ k, Sequenced (entriesOf k s.written)
  calls : ∀ t w ret stage, (s.kn t).ctl = .write w ret stage →
    w.opType = if entriesOf w.key s.written = [] then .insert else .update
  crashed : cfg.batching = false → ∀ t, (s.kn t).ctl = .crashed → s.unsent t = []

namespace Cluster

variable {owner : Key → Tid} {cfg : Config} {s s' : Cluster Tid V} {C : Tid → List Addr} {t : Tid} {e : Event Tid V}

/-- A thread that writes its own keys changes the index only through its passes, and nothing is staged or published for
a thread that has crashed. -/
theorem Owned.labels (h : s.Owned owner C) (he : e.Local owner) (hs' : s.step cfg e = some s') :
    ∀ l ∈ s.labels cfg e, l.Plain ∧ ∀ t, l.moves = some t → t = e.tid ∧ (s.kn t).ctl ≠ .crashed := by
  have hmerge : ∀ t m, (s.kn t).ctl = .idle → ∀ l ∈ s.mergeLabels cfg t m, l.Plain ∧ ∀ t', l.moves = some t' →
      t' = t ∧ (s.kn t').ctl ≠ .crashed := by
    intro t m hctl l hl
    unfold mergeLabels at hl
    split_ifs at hl <;> simp only [mem_singleton, not_mem_nil] at hl <;> subst hl
    · exact ⟨trivial, by simp [Pipeline.Label.moves]⟩
    · refine ⟨trivial, fun t' ht' => ?_⟩
      cases ht'
      exact ⟨rfl, by rw [hctl]; simp⟩
  cases e with
  | invoke t c =>
    simp only [Cluster.step] at hs'
    split at hs'
    · rename_i hctl
      cases c with
      | write w => simp [Cluster.labels]
      | flush =>
        simp only [Cluster.labels]
        split_ifs <;> simp [Pipeline.Label.Plain, Pipeline.Label.moves]
      | merge clear => exact hmerge t _ hctl
      | _ => exact he.elim
    · cases hs'
  | advance t =>
    have hcall := (h.calls t).1
    simp only [Cluster.labels, Event.tid]
    split
    · rename_i w ret hctl
      split_ifs <;> simp [Pipeline.Label.Plain, Pipeline.Label.moves, hctl]
    · rename_i hctl
      simp [Pipeline.Label.Plain, Pipeline.Label.moves, hctl]
    · rename_i hctl
      simp [Pipeline.Label.Plain, Pipeline.Label.moves, hctl]
    · rename_i hctl
      simp [Pipeline.Label.Plain, Pipeline.Label.moves, hctl]
    · simp [Pipeline.Label.Plain, Pipeline.Label.moves]
    · rename_i hctl
      rw [hctl] at hcall
      exact hcall.elim
    · simp
  | passStep t =>
    simp only [Cluster.labels]
    split <;> simp [Pipeline.Label.Plain, Pipeline.Label.moves]
  | _ => simp [Cluster.labels]

/-- What an event does to the writes: it stages the one its thread is at, or goes on with it. -/
theorem Owned.writes (h : s.Owned owner C) (he : e.Local owner) (hs' : s.step cfg e = some s') :
    ∃ n, s'.kn = update s.kn e.tid n ∧
      (s'.written = s.written ∨ ∃ w ret x, (s.kn e.tid).ctl = .write w ret .retry ∧ n.ctl = .idle ∧
        s'.written = s.written ++ [x] ∧ x.tid = e.tid ∧ x.oplog.toWrite = w) ∧
      ∀ w ret stage, n.ctl = .write w ret stage →
        e.started = some w ∨ ∃ ret stage, (s.kn e.tid).ctl = .write w ret stage := by
  cases e with
  | beginPass t kind =>
    cases stepped hs'
    exact ⟨s.kn t, (update_eq_self _ _).symm, .inl rfl, fun w ret stage hctl => .inr ⟨ret, stage, hctl⟩⟩
  | passStep t =>
    cases stepped hs'
    exact ⟨s.kn t, (update_eq_self _ _).symm, .inl rfl, fun w ret stage hctl => .inr ⟨ret, stage, hctl⟩⟩
  | _ =>
    obtain ⟨n, hn⟩ := h.localStep he nofun nofun hs'
    exact ⟨n, hn.kn, hn.written, hn.call⟩

/-- A thread is crashed after an event if it was before, or if the event is its crash. -/
theorem crashed_of_step (hs' : s.step cfg e = some s') (hctl' : (s'.kn e.tid).ctl = .crashed) :
    (s.kn e.tid).ctl = .crashed ∨ e = .crash e.tid := by
  cases tail_step (t := e.tid) hs' with
  | same hsame _ _ => exact .inl (hsame.crashed.mp hctl')
  | stage w ret o _ _ _ hidle => exact absurd (hidle.symm.trans hctl') nofun
  | rotate w ret _ _ hctl => exact absurd (hctl.symm.trans hctl') nofun
  | allocate w ret fresh _ _ _ hctl => exact absurd (hctl.symm.trans hctl') nofun
  | link w ret _ _ hctl => exact absurd (hctl.symm.trans hctl') nofun
  | slot w ret _ _ hctl => exact absurd (hctl.symm.trans hctl') nofun
  | crash he => exact .inr he

omit [DecidableEq Tid] in
/-- Requests for keys other than the empty marker are local. -/
theorem Recoverable.local (hreq : e.Request owner) (hrec : s.Recoverable cfg e) : e.Local owner := by
  cases e with
  | invoke t c =>
    match c with
    | .write w => exact ⟨hreq.1, hrec.1⟩
    | .flush => trivial
    | .merge clear => trivial
  | _ => trivial

variable [Fintype Tid]

/-- Every recoverable request keeps the invariant. -/
theorem Recovering.step (h : s.Recovering owner cfg C) (hreq : e.Request owner) (hrec : s.Recoverable cfg e)
    (hs' : s.step cfg e = some s') : s'.Recovering owner cfg (s.chainsAfter C e) := by
  have he := hrec.local hreq
  have ho := h.owned.orderly h.piped.ok he
  have hsim := h.piped.ok.simulates h.piped.staged ho hs'
  have hlabels := h.owned.labels he hs'
  obtain ⟨n, hkn, hwritten, hcall⟩ := h.owned.writes he hs'
  refine ⟨h.piped.step ho hs', h.owned.step h.piped.ok he hs', h.replayed.run (fun l hl => (hlabels l hl).1) hsim.run,
    fun k => ?_, fun t w ret stage hctl => ?_, fun hb t hctl => ?_⟩
  · rcases hwritten with hw | ⟨w, ret, x, hctl, -, hw, -, hx⟩
    · rw [hw]
      exact h.sequenced k
    · rw [hw, entriesOf, filter_append]
      by_cases hk : x.oplog.key = k
      · have hlast : [x].filter (fun e => decide (e.oplog.key = k)) = [x] := filter_cons_of_pos (by simpa using hk)
        rw [hlast]
        refine (h.sequenced k).concat ?_
        have hop := h.calls _ w ret _ hctl
        rw [← hx, hk] at hop
        exact hop
      · have hlast : [x].filter (fun e => decide (e.oplog.key = k)) = [] := filter_cons_of_neg (by simpa using hk)
        rw [hlast, append_nil]
        exact h.sequenced k
  · by_cases ht : t = e.tid
    · subst ht
      rw [hkn, update_self] at hctl
      have hw : s'.written = s.written := hwritten.resolve_right fun ⟨_, _, _, _, hidle, _⟩ =>
        absurd (hidle.symm.trans hctl) nofun
      rw [hw]
      rcases hcall w ret stage hctl with hstart | ⟨ret', stage', hctl'⟩
      · cases e with
        | invoke t c =>
          match c with
          | .write w' =>
            cases hstart
            exact hrec.2
        | _ => cases hstart
      · exact h.calls _ w ret' stage' hctl'
    · rw [hkn, update_of_ne ht] at hctl
      have hold := h.calls t w ret stage hctl
      rcases hwritten with hw | ⟨w', ret', x, hctl', -, hw, -, hx⟩
      · rw [hw]
        exact hold
      · -- the staged write is of another thread, so of another key
        have hown : owner w.key = t := by
          have := (h.owned.calls t).1
          rw [hctl] at this
          exact this
        have hown' : owner x.oplog.key = e.tid := by
          have := (h.owned.calls e.tid).1
          rw [hctl'] at this
          rw [hx]
          exact this
        have hne : x.oplog.key ≠ w.key := fun hx => ht (hown.symm.trans ((congrArg owner hx).symm.trans hown'))
        have hlast : [x].filter (fun e => decide (e.oplog.key = w.key)) = [] :=
          filter_cons_of_neg (by simpa using hne)
        rw [hw, entriesOf, filter_append, hlast, append_nil]
        exact hold
  · have hunsent : (∀ l ∈ s.labels cfg e, l.moves ≠ some t) → s'.unsent t = s.unsent t := fun hmoves =>
      Pipeline.unsent_run hmoves hsim.run
    by_cases ht : t = e.tid
    · subst ht
      rcases crashed_of_step hs' hctl with hctl | hcrash
      · rw [hunsent fun l hl hmoves => ((hlabels l hl).2 _ hmoves).2 hctl]
        exact h.crashed hb _ hctl
      · rw [hunsent]
        · rw [hcrash] at hrec
          exact hrec.resolve_left (by simp [hb])
        · intro l hl
          rw [hcrash] at hl
          cases hl
    · rw [hkn, update_of_ne ht] at hctl
      rw [hunsent fun l hl hmoves => ht ((hlabels l hl).2 _ hmoves).1]
      exact h.crashed hb t hctl

/-- Before any call. -/
theorem recovering_init (owner : Key → Tid) (cfg : Config) (logBuckets : ℕ) :
    (init logBuckets : Cluster Tid V).Recovering owner cfg fun _ => [] where
  piped := piped_init cfg logBuckets
  owned := owned_init owner logBuckets
  replayed := find_init logBuckets
  sequenced k := fun pre e post heq => by simp [init, entriesOf] at heq
  calls _ _ _ _ := nofun
  crashed _ _ := nofun

/-- The index leads to the last applied write of a key. -/
theorem Recovering.find_eq (h : s.Recovering owner cfg C) (k : Key) : s.st.find k =
    (entriesOf k (entriesBy (owner k) s.st.applied)).getLast?.map fun e => (e.ptr, e.oplog) := by
  have hpfx : ∀ t, entriesBy t s.st.applied <+: entriesBy t s.written := fun t => by
    rw [← s.appliedBy_pipeline C t]
    exact h.piped.sound.appliedBy_prefix t
  -- the applied entries of a key are by its owner
  have hown : ∀ e ∈ s.st.applied, owner e.oplog.key = e.tid := fun e he => by
    have hmem : e ∈ entriesBy e.tid s.written := (hpfx e.tid).subset (mem_filter.mpr ⟨he, by simp⟩)
    exact h.owned.written e (mem_of_mem_filter hmem)
  have hentries : entriesOf k s.st.applied = entriesOf k (entriesBy (owner k) s.st.applied) := by
    rw [entriesBy, entriesOf, entriesOf, filter_filter]
    refine filter_congr fun e he => ?_
    have := hown e he
    by_cases hk : e.oplog.key = k
    · simp [hk, ← this]
    · simp [hk]
  have hwritten : entriesOf k (entriesBy (owner k) s.written) = entriesOf k s.written := by
    rw [entriesBy, entriesOf, entriesOf, filter_filter]
    refine filter_congr fun e he => ?_
    have := h.owned.written e he
    by_cases hk : e.oplog.key = k
    · simp [hk, ← this]
    · simp [hk]
  have hseq : Sequenced (entriesOf k (entriesBy (owner k) s.st.applied)) := by
    refine (h.sequenced k).isPrefix ?_
    rw [← hwritten]
    exact (hpfx (owner k)).filter _
  have hfind : s.st.find k = (s.st.applied.foldl LogEntry.apply fun _ => none) k := by
    have hreplayed : s.st.find = _ := h.replayed
    have hmap : (s.pipeline C).applied.map Prod.snd = s.st.applied := by
      simp only [pipeline, map_map]
      exact map_id _
    rw [hreplayed, hmap]
  rw [hfind, foldl_apply, hentries, hseq.wordAfterAll]

/-- After a failover the index leads to what was acknowledged. -/
theorem Recovering.keepsAcked (h : s.Recovering owner cfg C) (hdone : s.st.failoverDone t = true) : s.KeepsAcked t := by
  obtain ⟨ρ, hinv⟩ := h.piped.ok.inv
  obtain ⟨hview, hdrained⟩ := (hinv.log t).failover hdone
  have hctl : (s.kn t).ctl = .crashed := by
    by_contra hctl
    exact absurd (hview.symm.trans (Ctl.view_crashed hctl)) nofun
  have horder : entriesBy t s.written = entriesBy t s.st.applied ++ s.unsent t := by
    have horder := h.piped.sound.order t
    rw [s.appliedBy_pipeline C t] at horder
    change entriesBy t s.written = entriesBy t s.st.applied ++ s.st.pending t (C t) ++ s.unsent t at horder
    rwa [hinv.pending_eq_nil hdrained, append_nil] at horder
  have hacked : entriesBy t s.acked <+: entriesBy t s.written := ⟨_, (h.piped.sound.acks t).symm⟩
  have happlied : entriesBy t s.acked <+: entriesBy t s.st.applied := by
    cases hb : cfg.batching with
    | true =>
      have hsound := h.piped.sound
      rw [hb] at hsound
      have hpfx := hsound.acked_prefix t
      rw [s.appliedBy_pipeline C t] at hpfx
      change entriesBy t s.acked <+: entriesBy t s.st.applied ++ s.st.pending t (C t) at hpfx
      rwa [hinv.pending_eq_nil hdrained, append_nil] at hpfx
    | false =>
      rw [h.crashed hb t hctl, append_nil] at horder
      rwa [horder] at hacked
  have hlater : ∀ pre e post, entriesBy t s.written = pre ++ e :: post →
      pre.length < (entriesBy t s.acked).length →
      ∃ e' ∈ e :: post, e'.oplog.key = e.oplog.key ∧ s.st.find e.oplog.key = some (e'.ptr, e'.oplog) := by
    intro pre e post hsplit hlen
    have hmem : e ∈ entriesBy t s.written := by rw [hsplit]; simp
    obtain ⟨hwritten, htid⟩ := mem_filter.mp hmem
    have hown : owner e.oplog.key = t := (h.owned.written e hwritten).trans (by simpa using htid)
    -- the acknowledged entry is among the applied ones
    obtain ⟨post', hpost, hpfx⟩ : ∃ post', entriesBy t s.st.applied = pre ++ e :: post' ∧ post' <+: post := by
      have hle : (pre ++ [e]).length ≤ (entriesBy t s.st.applied).length := by
        have := happlied.length_le
        simp only [length_append, length_singleton]
        omega
      have hpre : pre ++ [e] <+: entriesBy t s.written := ⟨post, by simp [hsplit]⟩
      obtain ⟨post', hpost'⟩ := prefix_of_prefix_length_le hpre ⟨_, horder.symm⟩ hle
      refine ⟨post', by simp [← hpost'], s.unsent t, ?_⟩
      rw [hsplit, ← hpost'] at horder
      simpa using horder.symm
    have hes : entriesOf e.oplog.key (entriesBy t s.st.applied) =
        entriesOf e.oplog.key pre ++ e :: entriesOf e.oplog.key post' := by
      rw [hpost, entriesOf, filter_append, filter_cons_of_pos (by simp)]
      rfl
    have hfind := h.find_eq e.oplog.key
    rw [hown, hes, List.getLast?_append] at hfind
    have hne : (e :: entriesOf e.oplog.key post') ≠ [] := cons_ne_nil _ _
    rw [List.getLast?_eq_some_getLast hne, Option.some_or, Option.map_some] at hfind
    refine ⟨(e :: entriesOf e.oplog.key post').getLast hne, ?_, ?_, hfind⟩
    · rcases mem_cons.mp (getLast_mem hne) with heq | hmem
      · rw [heq]
        exact mem_cons_self
      · exact mem_cons_of_mem _ (hpfx.subset (mem_of_mem_filter hmem))
    · rcases mem_cons.mp (getLast_mem hne) with heq | hmem
      · rw [heq]
      · simpa using (mem_filter.mp hmem).2
  refine ⟨hacked, fun pre e post hsplit hlen hnot => ?_, hlater⟩
  obtain ⟨e', he', hkey, hfind⟩ := hlater pre e post hsplit hlen
  rcases mem_cons.mp he' with rfl | he'
  · exact hfind
  · exact absurd hkey (hnot e' he')

end Cluster

variable {owner : Key → Tid} {cfg : Config} {s : Cluster Tid V} {t : Tid} [Fintype Tid]

/-- With batching, a key is put and acknowledged, then updated; the thread crashes before the update is published. -/
def crashRun : List (Event Bool ℕ) := List.flatten
  [[.invoke false (.write (putWrite 1 8 10 8 false)), .preallocate false [2097152, 4194304]],
    .replicate 3 (.advance false),
    [.invoke false .flush, .advance false, .invoke false (.write (putWrite 1 8 20 8 true)), .advance false, .crash false,
      .beginPass false .failover], .replicate 3 (.passStep false)]

/-- Without batching, a key is put and acknowledged, and the thread crashes. -/
def unpublishedRun : List (Event Bool ℕ) := List.flatten
  [[.invoke false (.write (putWrite 1 8 10 8 false)), .preallocate false [2097152, 4194304]],
    .replicate 3 (.advance false), [.crash false, .beginPass false .failover], .replicate 2 (.passStep false)]

end Dinomo
