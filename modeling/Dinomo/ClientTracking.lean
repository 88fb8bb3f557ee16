import Dinomo.Client

/-!
# The requests of a client

A request is held while it waits for an address or for a response.  An answer from the wrong thread leaves
a request among those that wait for a response and adds it to those that wait for an address, and a good
response takes it out of the former only; it is then sent once more and answered once more.  Where no good
response comes for a request that also waits for an address, and every waiting request has a thread when
the members of the cluster are known, every request is held or was returned once.
-/

namespace Dinomo

open Function List

/-- A request and the same request with another number of addresses. -/
structure ClientRequest.Same {K : Type*} (r q : ClientRequest K) : Prop where
  id : r.requestId = q.requestId
  key : r.key = q.key
  type : r.type = q.type

theorem ClientRequest.Same.refl {K : Type*} (r : ClientRequest K) : r.Same r := ⟨rfl, rfl, rfl⟩

theorem ClientRequest.Same.trans {K : Type*} {r q s : ClientRequest K} (h : r.Same q) (h' : q.Same s) : r.Same s :=
  ⟨h.id.trans h'.id, h.key.trans h'.key, h.type.trans h'.type⟩

namespace Client

variable {K N H L : Type*} [LinearOrder K] [DecidableEq N] [LinearOrder H] [LinearOrder L]
variable {cfg : FleetConfig K N H L} {c c' : Client K N H L} {r x : ClientRequest K}

section Held

omit [LinearOrder K] [DecidableEq N]

/-- The requests that wait for an address. -/
def waiting (c : Client K N H L) : List (ClientRequest K) := c.pendingRequestMap.flatMap Prod.snd

/-- The client holds a request. -/
def Holds (c : Client K N H L) (r : ClientRequest K) : Prop := r ∈ c.waiting ∨ ∃ i, r ∈ c.pendingResponseMap i

/-- A request is tracked: it waits for an address or for a response. -/
def Tracked (c : Client K N H L) (id : ℕ) : Prop := ∃ r, c.Holds r ∧ r.requestId = id

/-- What a client keeps about the requests of its caller. -/
structure Inv (c : Client K N H L) : Prop where
  fresh : ∀ q ∈ c.issued, q.requestId < c.rid
  nodup : (c.issued.map ClientRequest.requestId).Nodup
  origin : ∀ r, c.Holds r → ∃ q ∈ c.issued, q.Same r
  place : ∀ i, ∀ r ∈ c.pendingResponseMap i, i = .ofRequest r.type
  cover : ∀ q ∈ c.issued, c.Tracked q.requestId ∨ q.requestId ∈ c.returned
  apart : ∀ id ∈ c.returned, ¬c.Tracked id
  returned : ∀ id ∈ c.returned, ∃ q ∈ c.issued, q.requestId = id
  once : c.returned.Nodup

/-- A new client has no requests. -/
theorem Inv.init : (init : Client K N H L).Inv where
  fresh _ h := by simp [Client.init] at h
  nodup := .nil
  origin r h := by simp [Client.init, Holds, waiting] at h
  place _ _ h := by simp [Client.init] at h
  cover _ h := by simp [Client.init] at h
  apart _ h := by simp [Client.init] at h
  returned _ h := by simp [Client.init] at h
  once := .nil

/-- Requests that are moved between the maps stay tracked. -/
theorem Inv.moved (h : c.Inv) (hissued : c'.issued = c.issued) (hreturned : c'.returned = c.returned)
    (hrid : c.rid ≤ c'.rid) (hfrom : ∀ r, c'.Holds r → ∃ q, c.Holds q ∧ q.Same r)
    (hplace : ∀ i, ∀ r ∈ c'.pendingResponseMap i, i = .ofRequest r.type)
    (htracked : ∀ id, c.Tracked id → c'.Tracked id) : c'.Inv where
  fresh q hq := (h.fresh q (hissued ▸ hq)).trans_le hrid
  nodup := hissued ▸ h.nodup
  origin r hr := by
    obtain ⟨q, hq, hsame⟩ := hfrom r hr
    obtain ⟨p, hp, hpq⟩ := h.origin q hq
    exact ⟨p, hissued ▸ hp, hpq.trans hsame⟩
  place := hplace
  cover q hq := by
    rw [hreturned]
    exact (h.cover q (hissued ▸ hq)).imp_left (htracked _)
  apart id hid := by
    rintro ⟨r, hr, rfl⟩
    obtain ⟨q, hq, hsame⟩ := hfrom r hr
    exact h.apart r.requestId (hreturned ▸ hid) ⟨q, hq, hsame.id⟩
  returned id hid := hissued ▸ h.returned id (hreturned ▸ hid)
  once := hreturned ▸ h.once

/-- Two requests that are held under one identifier are the same. -/
theorem Inv.same_of_id (h : c.Inv) (hr : c.Holds r) (hx : c.Holds x) (hid : r.requestId = x.requestId) :
    r.Same x := by
  obtain ⟨p, hp, hpr⟩ := h.origin r hr
  obtain ⟨q, hq, hqx⟩ := h.origin x hx
  obtain rfl : p = q := inj_on_of_nodup_map h.nodup hp hq (hpr.id.trans (hid.trans hqx.id.symm))
  exact ⟨hid, hpr.key.symm.trans hqx.key, hpr.type.symm.trans hqx.type⟩

end Held

variable {k : K} {i : ResponseMap} {id : ℕ}

omit [DecidableEq N] in
/-- A request is added to those of its key. -/
theorem mem_pushBack {l : List (K × List (ClientRequest K))} :
    x ∈ (pushBack k r l).flatMap Prod.snd ↔ x = r ∨ x ∈ l.flatMap Prod.snd := by
  induction l with
  | nil => simp [pushBack]
  | cons y l ih =>
    obtain ⟨k', rs⟩ := y
    simp only [pushBack]
    split_ifs
    · simp
    · simp only [flatMap_cons, mem_append, mem_singleton]
      tauto
    · simp only [flatMap_cons, mem_append, ih]
      tauto

omit [DecidableEq N] in
theorem mem_waiting_pushPending : x ∈ (c.pushPending r).waiting ↔ x = r ∨ x ∈ c.waiting := mem_pushBack

omit [DecidableEq N] in
/-- What a request that is to wait for its response adds. -/
theorem mem_awaitResponse (hx : x ∈ (c.awaitResponse r).pendingResponseMap i) :
    x ∈ c.pendingResponseMap i ∨ x = r ∧ i = .ofRequest r.type := by
  simp only [awaitResponse] at hx
  split_ifs at hx
  · exact .inl hx
  · by_cases hi : i = .ofRequest r.type
    · subst hi
      simpa using hx
    · exact .inl (by simpa [update_of_ne hi] using hx)

omit [DecidableEq N] in
/-- The requests that wait for their responses still do. -/
theorem mem_awaitResponse_of_mem (hx : x ∈ c.pendingResponseMap i) :
    x ∈ (c.awaitResponse r).pendingResponseMap i := by
  simp only [awaitResponse]
  split_ifs
  · exact hx
  · by_cases hi : i = .ofRequest r.type
    · subst hi
      simp [hx]
    · simpa [update_of_ne hi] using hx

omit [DecidableEq N] in
/-- The request waits for its response. -/
theorem exists_awaitResponse : ∃ q ∈ (c.awaitResponse r).pendingResponseMap (.ofRequest r.type),
    q.requestId = r.requestId := by
  simp only [awaitResponse]
  split_ifs with h
  · obtain ⟨q, hq, -, hid⟩ := h
    exact ⟨q, hq, hid⟩
  · exact ⟨r, by simp, rfl⟩

/-- What `get_all_worker_threads` leaves alone. -/
structure SameRequests (c c' : Client K N H L) : Prop where
  pending : c'.pendingRequestMap = c.pendingRequestMap
  responses : c'.pendingResponseMap = c.pendingResponseMap
  issued : c'.issued = c.issued
  returned : c'.returned = c.returned
  rid : c.rid ≤ c'.rid

omit [LinearOrder K] [DecidableEq N] in
theorem sameRequests_invalidateCache : c.SameRequests c.invalidateCache := by
  unfold invalidateCache
  split_ifs
  · exact ⟨rfl, rfl, rfl, rfl, le_rfl⟩
  · exact ⟨rfl, rfl, rfl, rfl, Nat.le_succ _⟩

/-- The threads of a key are looked up without touching a request. -/
theorem sameRequests_getAllWorkerThreads {workers : List (ServerThread N)}
    (h : c.getAllWorkerThreads cfg k = some (workers, c')) : c.SameRequests c' := by
  simp only [getAllWorkerThreads] at h
  split_ifs at h
  all_goals
    cases h
    exact ⟨rfl, rfl, rfl, rfl, by simp [queryRoutingAsync]⟩

/-- What a try does with a request. -/
structure Tried (c : Client K N H L) (r : ClientRequest K) (c' : Client K N H L) : Prop where
  issued : c'.issued = c.issued
  returned : c'.returned = c.returned
  rid : c.rid ≤ c'.rid
  waiting : ∀ x ∈ c'.waiting, x ∈ c.waiting ∨ x = r
  responses : ∀ i, ∀ x ∈ c'.pendingResponseMap i, x ∈ c.pendingResponseMap i ∨ r.Same x ∧ i = .ofRequest r.type
  keptWaiting : ∀ x ∈ c.waiting, x ∈ c'.waiting
  keptResponses : ∀ i, ∀ x ∈ c.pendingResponseMap i, x ∈ c'.pendingResponseMap i
  tracked : c'.Tracked r.requestId

omit [LinearOrder K] [DecidableEq N] in
/-- A try holds what was held and the request. -/
theorem Tried.holds (h : Tried c r c') (hx : c'.Holds x) : c.Holds x ∨ r.Same x := by
  rcases hx with hx | ⟨i, hx⟩
  · rcases h.waiting x hx with hx | rfl
    · exact .inl (.inl hx)
    · exact .inr (.refl x)
  · rcases h.responses i x hx with hx | ⟨hx, -⟩
    · exact .inl (.inr ⟨i, hx⟩)
    · exact .inr hx

omit [LinearOrder K] [DecidableEq N] in
/-- A try keeps what was tracked. -/
theorem Tried.keeps (h : Tried c r c') (hid : c.Tracked id) : c'.Tracked id := by
  obtain ⟨x, hx, rfl⟩ := hid
  exact ⟨x, hx.imp (h.keptWaiting x) fun ⟨i, hi⟩ => ⟨i, h.keptResponses i x hi⟩, rfl⟩

/-- A request without a thread waits for an address, and another waits for its response. -/
theorem tryRequest_cases (h : c.tryRequest cfg r = some c') :
    ∃ workers c₁, c.getAllWorkerThreads cfg r.key = some (workers, c₁) ∧
      (workers = [] ∧ c' = c₁.pushPending r ∨
        workers ≠ [] ∧ c' = ({ c₁ with sent := c₁.sent ++ [{ r with addressCacheSize := workers.length }] } :
          Client K N H L).awaitResponse { r with addressCacheSize := workers.length }) := by
  unfold tryRequest at h
  split at h
  · cases h
  · next workers c₁ hworkers =>
    refine ⟨workers, c₁, hworkers, ?_⟩
    split_ifs at h with hempty
    · cases h
      exact .inl ⟨hempty, rfl⟩
    · cases h
      exact .inr ⟨hempty, rfl⟩

/-- What `try_request` does. -/
theorem tried_tryRequest (h : c.tryRequest cfg r = some c') : Tried c r c' := by
  obtain ⟨workers, c₁, hworkers, hcase⟩ := tryRequest_cases h
  have hsame := sameRequests_getAllWorkerThreads hworkers
  have hwait : c₁.waiting = c.waiting := by rw [waiting, waiting, hsame.pending]
  rcases hcase with ⟨-, rfl⟩ | ⟨-, rfl⟩
  · exact
      { issued := hsame.issued
        returned := hsame.returned
        rid := hsame.rid
        waiting := fun x hx => by
          rcases mem_waiting_pushPending.mp hx with rfl | hx
          · exact .inr rfl
          · exact .inl (hwait ▸ hx)
        responses := fun i x hx => .inl (hsame.responses ▸ hx)
        keptWaiting := fun x hx => mem_waiting_pushPending.mpr (.inr (hwait ▸ hx))
        keptResponses := fun i x hx => hsame.responses ▸ hx
        tracked := ⟨r, .inl (mem_waiting_pushPending.mpr (.inl rfl)), rfl⟩ }
  · set c₂ : Client K N H L := { c₁ with sent := c₁.sent ++ [{ r with addressCacheSize := workers.length }] }
    have hawait : ∀ q : ClientRequest K, (c₂.awaitResponse q).issued = c₁.issued ∧
        (c₂.awaitResponse q).returned = c₁.returned ∧ (c₂.awaitResponse q).rid = c₁.rid ∧
        (c₂.awaitResponse q).waiting = c₁.waiting := fun q => by
      simp only [awaitResponse]
      split_ifs <;> exact ⟨rfl, rfl, rfl, rfl⟩
    obtain ⟨hissued, hreturned, hrid, hwaiting⟩ := hawait { r with addressCacheSize := workers.length }
    exact
      { issued := hissued.trans hsame.issued
        returned := hreturned.trans hsame.returned
        rid := hrid ▸ hsame.rid
        waiting := fun x hx => .inl (by rwa [hwaiting, hwait] at hx)
        responses := fun i x hx => by
          rcases mem_awaitResponse hx with hx | ⟨rfl, hi⟩
          · exact .inl (hsame.responses ▸ hx)
          · exact .inr ⟨⟨rfl, rfl, rfl⟩, hi⟩
        keptWaiting := fun x hx => by rwa [hwaiting, hwait]
        keptResponses := fun i x hx =>
          mem_awaitResponse_of_mem (c := c₂) (show x ∈ c₁.pendingResponseMap i from hsame.responses ▸ hx)
        tracked := by
          obtain ⟨q, hq, hid⟩ := exists_awaitResponse (c := c₂) (r := { r with addressCacheSize := workers.length })
          exact ⟨q, .inr ⟨_, hq⟩, hid⟩ }

/-- A new request is tracked. -/
theorem Inv.issue (h : c.Inv) {type : RequestType} {key : K} {latticeType : LatticeType} {payload : String}
    (hissue : c.issue cfg type key latticeType payload = some c') : c'.Inv := by
  have htried := tried_tryRequest hissue
  set r : ClientRequest K := { requestId := c.rid, type, key, latticeType, payload }
  have hnew : ∀ q ∈ c.issued, q.requestId ≠ c.rid := fun q hq => (h.fresh q hq).ne
  have hissued : c'.issued = c.issued ++ [r] := htried.issued
  have hreturned : c'.returned = c.returned := htried.returned
  refine
    { fresh := fun q hq => ?_
      nodup := ?_
      origin := fun x hx => ?_
      place := fun i x hx => ?_
      cover := fun q hq => ?_
      apart := fun id hid => ?_
      returned := fun id hid => ?_
      once := hreturned ▸ h.once }
  · refine Nat.lt_of_lt_of_le ?_ htried.rid
    rw [hissued] at hq
    rcases mem_append.mp hq with hq | hq
    · exact (h.fresh q hq).trans (Nat.lt_succ_self _)
    · rw [mem_singleton.mp hq]
      exact Nat.lt_succ_self _
  · rw [hissued, map_append, nodup_append]
    refine ⟨h.nodup, by simp, fun a ha b hb => ?_⟩
    obtain ⟨q, hq, rfl⟩ := mem_map.mp ha
    rw [map_singleton, mem_singleton] at hb
    rw [hb]
    exact hnew q hq
  · rw [hissued]
    rcases htried.holds hx with hx | hx
    · obtain ⟨q, hq, hsame⟩ := h.origin x hx
      exact ⟨q, mem_append_left _ hq, hsame⟩
    · exact ⟨r, by simp, hx⟩
  · rcases htried.responses i x hx with hx | ⟨hsame, hi⟩
    · exact h.place i x hx
    · rw [hi, hsame.type]
  · rw [hissued] at hq
    rw [hreturned]
    rcases mem_append.mp hq with hq | hq
    · exact (h.cover q hq).imp_left htried.keeps
    · rw [mem_singleton.mp hq]
      exact .inl htried.tracked
  · rintro ⟨x, hx, rfl⟩
    rw [hreturned] at hid
    rcases htried.holds hx with hx | hx
    · exact h.apart _ hid ⟨x, hx, rfl⟩
    · -- a returned request was issued before, and so was not this one
      obtain ⟨q, hq, hqid⟩ := h.returned _ hid
      exact hnew q hq (hqid.trans hx.id.symm)
  · obtain ⟨q, hq, hqid⟩ := h.returned id (hreturned ▸ hid)
    exact ⟨q, hissued ▸ mem_append_left _ hq, hqid⟩

/-- The requests of a client have threads, as far as it knows. -/
def Reaches (cfg : FleetConfig K N H L) (c : Client K N H L) (k : K) : Prop :=
  c.waitingNewMembership = false ∧
    (c.keyAddressCache k ≠ [] ∨
      threadsFor cfg.hash c.rings k ((c.keyReplicationMap k).getD (.defaults cfg.params)) ≠ [])

/-- The threads of a key that has some are found, and the others keep theirs. -/
theorem getAllWorkerThreads_of_reaches {workers : List (ServerThread N)} (hk : Reaches cfg c k)
    (h : c.getAllWorkerThreads cfg k = some (workers, c')) :
    workers ≠ [] ∧ ∀ k', Reaches cfg c k' → Reaches cfg c' k' := by
  simp only [getAllWorkerThreads, hk.1, Bool.false_eq_true, if_false] at h
  split_ifs at h with hcache hends hfound
  · cases h
    exact ⟨hcache, fun _ h => h⟩
  · cases h
    refine ⟨fun hnil => hfound ?_, fun k' hk' => ⟨rfl, hk'.2.imp (fun hcached => ?_) fun hthreads => ?_⟩⟩
    · cases hthreads : (getResponsibleThreads cfg.params cfg.hash c.rings c.keyReplicationMap k).1 with
      | nil => rfl
      | cons st l => simp [hthreads, eraseDups_cons] at hnil
    · -- the addresses of the key itself were not cached
      have hne : k' ≠ k := fun heq => hcached (heq ▸ not_not.mp hcache)
      change update c.keyAddressCache k _ k' ≠ []
      rw [update_of_ne hne]
      exact hcached
    · change threadsFor cfg.hash c.rings k' (Option.getD _ _) ≠ []
      rw [getResponsibleThreads_snd]
      exact hthreads
  · refine absurd ?_ (hk.2.resolve_left hcache)
    rw [← getResponsibleThreads_fst]
    exact not_not.mp hfound

/-- A request whose key has a thread waits for its response. -/
theorem tryRequest_of_reaches (hk : Reaches cfg c r.key) (h : c.tryRequest cfg r = some c') :
    (∃ q ∈ c'.pendingResponseMap (.ofRequest r.type), q.requestId = r.requestId) ∧
      ∀ k, Reaches cfg c k → Reaches cfg c' k := by
  obtain ⟨workers, c₁, hworkers, hcase⟩ := tryRequest_cases h
  obtain ⟨hne, hreach⟩ := getAllWorkerThreads_of_reaches hk hworkers
  obtain ⟨-, rfl⟩ := hcase.resolve_left fun hempty => hne hempty.1
  refine ⟨exists_awaitResponse, fun k hk => ?_⟩
  have hk₁ := hreach k hk
  simp only [awaitResponse]
  split_ifs <;> exact hk₁

/-- What the tries of a list of requests do when every key has a thread. -/
theorem tryAll_spec {rs : List (ClientRequest K)} (hreach : ∀ r ∈ rs, Reaches cfg c r.key)
    (h : c.tryAll cfg rs = some c') :
    c'.issued = c.issued ∧ c'.returned = c.returned ∧ c.rid ≤ c'.rid ∧
      (∀ i, ∀ x ∈ c'.pendingResponseMap i, x ∈ c.pendingResponseMap i ∨ ∃ r ∈ rs, r.Same x ∧ i = .ofRequest r.type) ∧
      (∀ i, ∀ x ∈ c.pendingResponseMap i, x ∈ c'.pendingResponseMap i) ∧
      ∀ r ∈ rs, ∃ q ∈ c'.pendingResponseMap (.ofRequest r.type), q.requestId = r.requestId := by
  induction rs generalizing c with
  | nil =>
    cases h
    exact ⟨rfl, rfl, le_rfl, fun i x hx => .inl hx, fun i x hx => hx, by simp⟩
  | cons r rs ih =>
    unfold tryAll at h
    split at h
    · cases h
    · next c₁ hr =>
      have htried := tried_tryRequest hr
      obtain ⟨hfirst, hkeep⟩ := tryRequest_of_reaches (hreach r mem_cons_self) hr
      obtain ⟨hissued, hreturned, hrid, hfrom, hkept, hall⟩ :=
        ih (fun q hq => hkeep _ (hreach q (mem_cons_of_mem _ hq))) h
      refine ⟨hissued.trans htried.issued, hreturned.trans htried.returned, htried.rid.trans hrid,
        fun i x hx => ?_, fun i x hx => hkept i x (htried.keptResponses i x hx), fun q hq => ?_⟩
      · rcases hfrom i x hx with hx | ⟨q, hq, hsame⟩
        · exact (htried.responses i x hx).imp_right fun hsame => ⟨r, mem_cons_self, hsame⟩
        · exact .inr ⟨q, mem_cons_of_mem _ hq, hsame⟩
      · rcases mem_cons.mp hq with rfl | hq
        · obtain ⟨x, hx, hid⟩ := hfirst
          exact ⟨x, hkept _ x hx, hid⟩
        · exact hall q hq

/-- Every waiting request has a thread in the rings of an answer of the routing tier. -/
def AllReachable (cfg : FleetConfig K N H L) (c : Client K N H L) (tiers : List (Tier × List N)) : Prop :=
  ((ringsOf cfg tiers : Tier → HashRing H N) .memory).nodes.length +
      ((ringsOf cfg tiers : Tier → HashRing H N) .storage).nodes.length ≠ 0 →
    ∀ r ∈ c.waiting, threadsFor cfg.hash ⟨ringsOf cfg tiers .memory, cfg.localRing⟩ r.key
      ((c.keyReplicationMap r.key).getD (.defaults cfg.params)) ≠ []

/-- The waiting requests are sent when the members are known. -/
theorem Inv.receiveMembership (h : c.Inv) {tiers : List (Tier × List N)} (hreach : AllReachable cfg c tiers)
    (hrecv : c.receiveMembership cfg tiers = some c') : c'.Inv := by
  have hsame : ∀ {c₁ : Client K N H L}, c₁.pendingRequestMap = c.pendingRequestMap →
      c₁.pendingResponseMap = c.pendingResponseMap → c₁.issued = c.issued → c₁.returned = c.returned →
      c.rid ≤ c₁.rid → c₁.Inv := by
    intro c₁ hpending hresponses hissued hreturned hrid
    have hholds : ∀ x, c₁.Holds x ↔ c.Holds x := fun x => by simp only [Holds, waiting, hpending, hresponses]
    refine h.moved hissued hreturned hrid (fun x hx => ⟨x, (hholds x).mp hx, .refl x⟩)
      (fun i x hx => h.place i x (hresponses ▸ hx)) fun id ⟨x, hx, hid⟩ => ⟨x, (hholds x).mpr hx, hid⟩
  simp only [Client.receiveMembership] at hrecv
  split_ifs at hrecv with hempty hservers
  · cases hrecv
    exact hsame rfl rfl rfl rfl le_rfl
  · cases hrecv
    exact hsame rfl rfl rfl rfl (Nat.le_succ _)
  · obtain ⟨c₁, hall, rfl⟩ := Option.map_eq_some_iff.mp hrecv
    obtain ⟨hissued, hreturned, hrid, hfrom, hkept, hsent⟩ :=
      tryAll_spec (fun r hr => ⟨rfl, .inr (hreach hservers r hr)⟩) hall
    refine h.moved hissued hreturned hrid (fun x hx => ?_) (fun i x hx => ?_) fun id hid => ?_
    · rcases hx with hx | ⟨i, hx⟩
      · simp [waiting] at hx
      · rcases hfrom i x hx with hx | ⟨r, hr, hsame, -⟩
        · exact ⟨x, .inr ⟨i, hx⟩, .refl x⟩
        · exact ⟨r, .inl hr, hsame⟩
    · rcases hfrom i x hx with hx | ⟨r, hr, hsame, hi⟩
      · exact h.place i x hx
      · rw [hi, hsame.type]
    · obtain ⟨x, hx | ⟨i, hx⟩, rfl⟩ := hid
      · obtain ⟨q, hq, hid⟩ := hsent x hx
        exact ⟨q, .inr ⟨_, hq⟩, hid⟩
      · exact ⟨x, .inr ⟨i, hkept i x hx⟩, rfl⟩

omit [DecidableEq N] in
/-- The entry that is found waits for its response under its identifier. -/
theorem find_response
    (h : (c.pendingResponseMap i).find? (fun x => x.key = k ∧ x.requestId = id) = some r) :
    r ∈ c.pendingResponseMap i ∧ r.key = k ∧ r.requestId = id :=
  ⟨mem_of_find?_eq_some h, by simpa using List.find?_some h⟩

omit [DecidableEq N] in
/-- A request that is not with its thread waits for an address. -/
theorem Inv.pushPending (h : c.Inv) (hr : c.Holds r) : (c.invalidateCache.pushPending r).Inv := by
  have hsame : c.SameRequests c.invalidateCache := sameRequests_invalidateCache
  have hwait : ∀ x, x ∈ (c.invalidateCache.pushPending r).waiting ↔ x = r ∨ x ∈ c.waiting := fun x => by
    rw [mem_waiting_pushPending, waiting, waiting, hsame.pending]
  have hresponses : (c.invalidateCache.pushPending r).pendingResponseMap = c.pendingResponseMap := hsame.responses
  refine h.moved hsame.issued hsame.returned hsame.rid (fun x hx => ⟨x, ?_, .refl x⟩)
    (fun i x hx => h.place i x (hresponses ▸ hx)) fun id ⟨x, hx, hid⟩ => ⟨x, ?_, hid⟩
  · rcases hx with hx | ⟨i, hx⟩
    · rcases (hwait x).mp hx with rfl | hx
      · exact hr
      · exact .inl hx
    · exact .inr ⟨i, hresponses ▸ hx⟩
  · exact hx.imp (fun hx => (hwait x).mpr (.inr hx)) fun ⟨i, hx⟩ => ⟨i, hresponses ▸ hx⟩

omit [DecidableEq N] in
/-- A response map without an entry has no request with its identifier, and nor have the others. -/
theorem Inv.mem_erased (h : c.Inv) {j : ResponseMap} (hmem : r ∈ c.pendingResponseMap i)
    (hkey : r.key = k) (hid : r.requestId = id) :
    x ∈ update c.pendingResponseMap i
        ((c.pendingResponseMap i).filter fun x => ¬(x.key = k ∧ x.requestId = id)) j ↔
      x ∈ c.pendingResponseMap j ∧ x.requestId ≠ id := by
  have hsame : ∀ j, x ∈ c.pendingResponseMap j → x.requestId = id → r.Same x := fun j hx hxid =>
    h.same_of_id (.inr ⟨i, hmem⟩) (.inr ⟨j, hx⟩) (hid.trans hxid.symm)
  by_cases hj : j = i
  · subst hj
    simp only [update_self, mem_filter, decide_eq_true_eq]
    refine ⟨fun ⟨hx, hnot⟩ => ⟨hx, fun hxid => hnot ⟨(hsame j hx hxid).key ▸ hkey, hxid⟩⟩,
      fun ⟨hx, hne⟩ => ⟨hx, fun hboth => hne hboth.2⟩⟩
  · rw [update_of_ne hj]
    refine ⟨fun hx => ⟨hx, fun hxid => hj ?_⟩, fun hx => hx.1⟩
    rw [h.place j x hx, h.place i r hmem, (hsame j hx hxid).type]

omit [DecidableEq N] in
/-- A request that waited for its response is returned. -/
theorem Inv.returnResponse (h : c.Inv) (hmem : r ∈ c.pendingResponseMap i)
    (hkey : r.key = k) (hid : r.requestId = id) (hwait : ∀ x ∈ c.waiting, x.requestId ≠ id)
    (hissued : c'.issued = c.issued) (hreturned : c'.returned = c.returned ++ [id]) (hrid : c'.rid = c.rid)
    (hpending : c'.pendingRequestMap = c.pendingRequestMap)
    (hresponses : c'.pendingResponseMap = update c.pendingResponseMap i
      ((c.pendingResponseMap i).filter fun x => ¬(x.key = k ∧ x.requestId = id))) : c'.Inv := by
  have hwaiting : c'.waiting = c.waiting := by rw [waiting, waiting, hpending]
  have hmem' : ∀ j x, x ∈ c'.pendingResponseMap j ↔ x ∈ c.pendingResponseMap j ∧ x.requestId ≠ id := fun j x => by
    rw [hresponses]
    exact h.mem_erased hmem hkey hid
  have hholds : ∀ x, c'.Holds x ↔ c.Holds x ∧ x.requestId ≠ id := fun x => by
    simp only [Holds, hwaiting, hmem']
    constructor
    · rintro (hx | ⟨j, hx, hne⟩)
      · exact ⟨.inl hx, hwait x hx⟩
      · exact ⟨.inr ⟨j, hx⟩, hne⟩
    · rintro ⟨hx | ⟨j, hx⟩, hne⟩
      · exact .inl hx
      · exact .inr ⟨j, hx, hne⟩
  have htracked : c.Tracked id := ⟨r, .inr ⟨i, hmem⟩, hid⟩
  refine
    { fresh := fun q hq => hrid ▸ h.fresh q (hissued ▸ hq)
      nodup := hissued ▸ h.nodup
      origin := fun x hx => hissued ▸ h.origin x ((hholds x).mp hx).1
      place := fun j x hx => h.place j x ((hmem' j x).mp hx).1
      cover := fun q hq => ?_
      apart := fun id' hid' => ?_
      returned := fun id' hid' => ?_
      once := ?_ }
  · rw [hreturned, mem_append, mem_singleton]
    by_cases hq' : q.requestId = id
    · exact .inr (.inr hq')
    · rcases h.cover q (hissued ▸ hq) with ⟨x, hx, hxid⟩ | hret
      · exact .inl ⟨x, (hholds x).mpr ⟨hx, hxid ▸ hq'⟩, hxid⟩
      · exact .inr (.inl hret)
  · rintro ⟨x, hx, rfl⟩
    obtain ⟨hx, hne⟩ := (hholds x).mp hx
    rw [hreturned] at hid'
    rcases mem_append.mp hid' with hret | heq
    · exact h.apart _ hret ⟨x, hx, rfl⟩
    · exact hne (mem_singleton.mp heq)
  · rw [hreturned] at hid'
    rw [hissued]
    rcases mem_append.mp hid' with hret | heq
    · exact h.returned id' hret
    · obtain ⟨q, hq, hsame⟩ := h.origin r (.inr ⟨i, hmem⟩)
      exact ⟨q, hq, hsame.id.trans (hid.trans (mem_singleton.mp heq).symm)⟩
  · rw [hreturned, nodup_append]
    refine ⟨h.once, by simp, fun a ha b hb => ?_⟩
    rw [mem_singleton.mp hb]
    rintro rfl
    exact h.apart a ha htracked

omit [DecidableEq N] in
/-- A request that waited too long waits for an address. -/
theorem Inv.expire (h : c.Inv) (y : ResponseMap × K × ℕ) : (c.expire y).Inv := by
  unfold Client.expire
  split
  · exact h
  · next request hfind =>
    obtain ⟨hmem, hkey, hid⟩ := find_response hfind
    have hinv := h.pushPending (.inr ⟨_, hmem⟩)
    set c₁ := c.invalidateCache.pushPending request
    have hresponses : c₁.pendingResponseMap = c.pendingResponseMap :=
      (sameRequests_invalidateCache : c.SameRequests c.invalidateCache).responses
    have hmem₁ : request ∈ c₁.pendingResponseMap y.1 := hresponses ▸ hmem
    have herased : ∀ j x, _ ↔ _ := fun j x => hinv.mem_erased (j := j) (x := x) hmem₁ hkey hid
    have hwait : request ∈ c₁.waiting := mem_waiting_pushPending.mpr (.inl rfl)
    refine hinv.moved rfl rfl le_rfl (fun x hx => ⟨x, ?_, .refl x⟩) (fun j x hx => ?_) fun id' hid' => ?_
    · exact hx.imp_right fun ⟨j, hx⟩ => ⟨j, ((herased j x).mp hx).1⟩
    · exact hinv.place j x ((herased j x).mp hx).1
    · obtain ⟨x, hx | ⟨j, hx⟩, rfl⟩ := hid'
      · exact ⟨x, .inl hx, rfl⟩
      · by_cases hxid : x.requestId = y.2.2
        · exact ⟨request, .inl hwait, hid.trans hxid.symm⟩
        · exact ⟨x, .inr ⟨j, (herased j x).mpr ⟨hx, hxid⟩⟩, rfl⟩

/-- A good response comes only for a request that does not also wait for an address. -/
def Settled (c : Client K N H L) (r : ClientResponse K N) : Prop :=
  r.error ≠ .wrongThread →
    (∃ x ∈ c.pendingResponseMap (.ofResponse r.type), x.key = r.key ∧ x.requestId = r.responseId) →
      ∀ x ∈ c.waiting, x.requestId ≠ r.responseId

/-- A response sends a request back or returns it. -/
theorem Inv.receiveResponse (h : c.Inv) {r : ClientResponse K N} (hsettled : c.Settled r) :
    (c.receiveResponse r).Inv := by
  simp only [Client.receiveResponse]
  split
  · exact h
  · next request hfind =>
    obtain ⟨hmem, hkey, hid⟩ := find_response hfind
    by_cases herror : r.error = .wrongThread
    · rw [if_pos herror]
      exact h.pushPending (.inr ⟨_, hmem⟩)
    · have hwait := hsettled herror ⟨request, hmem, hkey, hid⟩
      rw [if_neg herror]
      split_ifs <;> exact h.returnResponse hmem hkey hid hwait rfl rfl rfl rfl rfl

omit [LinearOrder K] [DecidableEq N] in
/-- Queries of the routing tier leave the requests alone. -/
theorem Inv.queries (h : c.Inv) (ks : List K) : (ks.foldl (fun c _ => c.queryRoutingAsync) c).Inv := by
  induction ks generalizing c with
  | nil => exact h
  | cons k ks ih =>
    exact ih (h.moved rfl rfl (Nat.le_succ _) (fun x hx => ⟨x, hx, .refl x⟩) h.place fun _ hid => hid)

omit [DecidableEq N] in
/-- Timeouts keep every request tracked. -/
theorem Inv.receiveTimeouts (h : c.Inv) (keys : List K) (requests : List (ResponseMap × K × ℕ)) :
    (c.receiveTimeouts keys requests).Inv := by
  have hexpire : ∀ {c : Client K N H L}, c.Inv → (requests.foldl Client.expire c).Inv := by
    induction requests with
    | nil => exact fun h => h
    | cons y ys ih => exact fun h => ih (h.expire y)
  exact hexpire (h.queries _)

/-- The condition on an event. -/
def Orderly (cfg : FleetConfig K N H L) (c : Client K N H L) : ClientEvent K N → Prop
  | .membership tiers => AllReachable cfg c tiers
  | .response r => c.Settled r
  | .putAsync _ _ _ | .updateAsync _ _ _ | .getAsync _ | .timeouts _ _ => True

instance (cfg : FleetConfig K N H L) (c : Client K N H L) : ∀ e, Decidable (Orderly cfg c e)
  | .membership _ => inferInstanceAs (Decidable (_ ≠ 0 → ∀ r ∈ c.waiting, _))
  | .response _ => inferInstanceAs (Decidable (_ → (∃ x ∈ c.pendingResponseMap _, _) → ∀ x ∈ c.waiting, _))
  | .putAsync _ _ _ | .updateAsync _ _ _ | .getAsync _ | .timeouts _ _ => .isTrue trivial

/-- Every event keeps every request tracked or returned once. -/
theorem Inv.step (h : c.Inv) {e : ClientEvent K N} (hok : Orderly cfg c e) (hstep : c.step cfg e = some c') :
    c'.Inv := by
  cases e with
  | putAsync key payload latticeType => exact h.issue hstep
  | updateAsync key payload latticeType => exact h.issue hstep
  | getAsync key => exact h.issue hstep
  | membership tiers => exact h.receiveMembership hok hstep
  | response r =>
    cases hstep
    exact h.receiveResponse hok
  | timeouts keys requests =>
    cases hstep
    exact h.receiveTimeouts keys requests

/-- In every run whose events meet their conditions, every request that was issued is tracked or was returned, and
none was returned twice. -/
theorem requests_tracked (cfg : FleetConfig K N H L) (es : List (ClientEvent K N)) (c : Client K N H L)
    (hrun : Transition.run (step cfg) init es = some c)
    (hok : Transition.Guarded (step cfg) (Orderly cfg) init es) :
    (∀ q ∈ c.issued, c.Tracked q.requestId ∨ q.requestId ∈ c.returned) ∧ c.returned.Nodup := by
  have hinv : c.Inv := Transition.invariant_of_guarded (fun _ _ _ h hok hstep => h.step hok hstep) .init hrun hok
  exact ⟨hinv.cover, hinv.once⟩

/-- A cluster of one thread. -/
def soloConfig : FleetConfig ℕ Unit ℕ ℕ := ⟨soloParams, soloHash, 1⟩

/-- A write that times out, is sent again and is answered by the thread it was sent to last. -/
theorem requests_tracked_resent :
    ∃ c, Transition.run (step soloConfig) init
        [.putAsync 1 "a" .lww, .membership [(.memory, [()])], .timeouts [] [(.put, 1, 0)],
          .membership [(.memory, [()])], .response { responseId := 0, type := .put, key := 1 }] = some c ∧
      (∀ q ∈ c.issued, c.Tracked q.requestId ∨ q.requestId ∈ c.returned) ∧ c.returned.Nodup := by
  refine ⟨_, rfl, requests_tracked soloConfig
    [.putAsync 1 "a" .lww, .membership [(.memory, [()])], .timeouts [] [(.put, 1, 0)],
      .membership [(.memory, [()])], .response { responseId := 0, type := .put, key := 1 }] _ rfl (by decide +kernel)⟩

/-- A write that times out is sent again.  The late answer of the wrong thread makes it wait for an address, the
answer to the second try returns it, and so does the answer to the third. -/
theorem write_returned_twice :
    (Transition.run (step soloConfig) init
      [.putAsync 1 "a" .lww, .membership [(.memory, [()])], .timeouts [] [(.put, 1, 0)],
        .membership [(.memory, [()])], .response { responseId := 0, type := .put, key := 1, error := .wrongThread },
        .response { responseId := 0, type := .put, key := 1 }, .membership [(.memory, [()])],
        .response { responseId := 0, type := .put, key := 1 }]).map
      (fun c => (c.issued.map ClientRequest.requestId, c.returned)) = some ([0], [0, 0]) := by
  decide +kernel

end Client

end Dinomo
