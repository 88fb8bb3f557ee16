import Mathlib.Data.List.Perm.Subperm
import Dinomo.Library.HashRing

/-!
# Hash rings and membership

`HashRing` of the source: the positions of the virtual threads of the servers, the set of servers that are present,
and how often each has joined.  Every process keeps a ring of its own and learns of joins and departures in an order
of its own.  A position that is taken is left as it is by an insertion, and a removal drops whatever is at the
positions of the server.
-/

namespace Dinomo

open List HashRing

/-- The hash of each virtual thread of a server, and the number of virtual threads. -/
structure RingParams (H N : Type*) where
  hash : N → ℕ → H
  virtualThreads : ℕ

/-- `HashRing`. -/
structure ServerRing (H N : Type*) [LinearOrder H] where
  positions : HashRing H N
  uniqueServers : List N
  serverJoinCount : N → Option ℤ

/-- A call of the ring. -/
inductive RingCall (N : Type*)
  | insert (n : N) (joinCount : ℤ)
  | remove (n : N)
deriving DecidableEq, Repr

/-- The hashes of a server. -/
def RingParams.hashes {H N : Type*} (p : RingParams H N) (n : N) : List H := (List.range p.virtualThreads).map (p.hash n)

/-- No two virtual threads of servers have the same hash. -/
def RingParams.Distinct {H N : Type*} (p : RingParams H N) : Prop :=
  ∀ n v m w, v < p.virtualThreads → w < p.virtualThreads → p.hash n v = p.hash m w → n = m ∧ v = w

namespace ServerRing

variable {H N : Type*} [LinearOrder H] [DecidableEq N] (p : RingParams H N)

/-- A ring without servers. -/
def empty : ServerRing H N := ⟨.empty, [], fun _ => none⟩

/-- `insert`: a server that is present only has its count raised; it reports whether something changed. -/
def insert (r : ServerRing H N) (n : N) (joinCount : ℤ) : Bool × ServerRing H N :=
  if n ∈ r.uniqueServers then
    if (r.serverJoinCount n).getD 0 < joinCount then
      (true, { r with serverJoinCount := Function.update r.serverJoinCount n (some joinCount) })
    else (false, r)
  else
    (true,
      { positions := r.positions.insertAll (p.hashes n) n
        uniqueServers := n :: r.uniqueServers
        serverJoinCount := Function.update r.serverJoinCount n (some joinCount) })

/-- `remove`. -/
def remove (r : ServerRing H N) (n : N) : ServerRing H N where
  positions := r.positions.eraseAll (p.hashes n)
  uniqueServers := r.uniqueServers.erase n
  serverJoinCount := Function.update r.serverJoinCount n none

/-- One call. -/
def call (r : ServerRing H N) : RingCall N → ServerRing H N
  | .insert n joinCount => (r.insert p n joinCount).2
  | .remove n => r.remove p n

/-- A sequence of calls. -/
def calls (cs : List (RingCall N)) : ServerRing H N := cs.foldl (call p) empty

/-- `size`. -/
def size (r : ServerRing H N) : ℕ := r.positions.nodes.length

/-- The content of a ring is a function of the servers that are present. -/
structure Lawful (p : RingParams H N) : Prop where
  /-- The order of the calls does not matter. -/
  order : ∀ cs cs', (∀ n, n ∈ (calls p cs).uniqueServers ↔ n ∈ (calls p cs').uniqueServers) →
    (calls p cs).positions = (calls p cs').positions
  /-- A removal leaves the positions of other servers alone. -/
  others : ∀ cs n m h, m ≠ n →
    ((h, m) ∈ (calls p (cs ++ [.remove n])).positions.nodes ↔ (h, m) ∈ (calls p cs).positions.nodes)
  /-- The servers that are present can be counted from the size. -/
  count : ∀ cs, (calls p cs).uniqueServers.Nodup ∧ (calls p cs).size = p.virtualThreads * (calls p cs).uniqueServers.length

variable {p} {r : ServerRing H N}

omit [LinearOrder H] [DecidableEq N] in
/-- Different virtual threads of a server have different hashes. -/
theorem nodup_hashes (hp : p.Distinct) (n : N) : (p.hashes n).Nodup := by
  refine nodup_range.map_on fun v hv w hw heq => ?_
  exact (hp n v n w (mem_range.mp hv) (mem_range.mp hw) heq).2

omit [LinearOrder H] [DecidableEq N] in
/-- Servers with a common hash are the same. -/
theorem eq_of_mem_hashes (hp : p.Distinct) {n m : N} {h : H} (hn : h ∈ p.hashes n) (hm : h ∈ p.hashes m) : n = m := by
  obtain ⟨v, hv, rfl⟩ := mem_map.mp hn
  obtain ⟨w, hw, heq⟩ := mem_map.mp hm
  exact (hp n v m w (mem_range.mp hv) (mem_range.mp hw) heq.symm).1

/-- Every entry belongs to a server that is present and is at one of its hashes. -/
structure Sound (p : RingParams H N) (r : ServerRing H N) : Prop where
  nodup : r.uniqueServers.Nodup
  entries : ∀ x ∈ r.positions.nodes, x.2 ∈ r.uniqueServers ∧ x.1 ∈ p.hashes x.2

/-- A call keeps the entries at their places. -/
theorem Sound.call (h : r.Sound p) (c : RingCall N) : (r.call p c).Sound p := by
  cases c with
  | insert n joinCount =>
    simp only [ServerRing.call, ServerRing.insert]
    split_ifs with hn hcount
    · exact ⟨h.nodup, h.entries⟩
    · exact h
    · refine ⟨nodup_cons.mpr ⟨hn, h.nodup⟩, fun x hx => ?_⟩
      rcases mem_insertAll hx with hx | hx
      · exact ⟨mem_cons_of_mem _ (h.entries x hx).1, (h.entries x hx).2⟩
      · exact ⟨hx.2 ▸ mem_cons_self, hx.2 ▸ hx.1⟩
  | remove n =>
    refine ⟨h.nodup.erase n, fun x hx => ?_⟩
    obtain ⟨hx, hnot⟩ := mem_eraseAll.mp hx
    obtain ⟨hin, hhash⟩ := h.entries x hx
    have hne : x.2 ≠ n := fun heq => hnot (heq ▸ hhash)
    exact ⟨(mem_erase_of_ne hne).mpr hin, hhash⟩

/-- An insertion keeps the entries that are there. -/
theorem mem_positions_insert {x : H × N} (hx : x ∈ r.positions.nodes) (n : N) (joinCount : ℤ) :
    x ∈ (r.insert p n joinCount).2.positions.nodes := by
  unfold ServerRing.insert
  split_ifs
  · exact hx
  · exact hx
  · exact mem_insertAll_of_mem hx

/-- Every hash of a server that is present has the server. -/
def Complete (p : RingParams H N) (r : ServerRing H N) : Prop :=
  ∀ n ∈ r.uniqueServers, ∀ h ∈ p.hashes n, (h, n) ∈ r.positions.nodes

/-- With distinct hashes a call keeps the servers at all their places. -/
theorem Complete.call (hp : p.Distinct) (h : r.Complete p) (hsound : r.Sound p) (c : RingCall N) :
    (r.call p c).Complete p := by
  cases c with
  | insert n joinCount =>
    simp only [ServerRing.call, ServerRing.insert]
    split_ifs with hn hcount
    · exact h
    · exact h
    · intro m hm hash hhash
      -- the server is new, so its hashes are free
      have hfree : ∀ y ∈ r.positions.nodes, y.1 ∉ p.hashes n := fun y hy hin => by
        obtain ⟨hpresent, hown⟩ := hsound.entries y hy
        exact hn (eq_of_mem_hashes hp hown hin ▸ hpresent)
      refine (mem_insertAll_iff (nodup_hashes hp n) hfree).mpr ?_
      rcases mem_cons.mp hm with rfl | hm
      · exact .inl ⟨hhash, rfl⟩
      · exact .inr (h m hm hash hhash)
  | remove n =>
    intro m hm hash hhash
    have hne : m ≠ n := fun heq => hsound.nodup.not_mem_erase (heq ▸ hm)
    exact mem_eraseAll.mpr
      ⟨h m (mem_of_mem_erase hm) hash hhash, fun hin => hne (eq_of_mem_hashes hp hhash hin)⟩

/-- Entries stay at their places in every sequence of calls. -/
theorem sound_calls (cs : List (RingCall N)) : (calls p cs).Sound p :=
  List.foldlRecOn cs (call p) (motive := Sound p) ⟨nodup_nil, fun x hx => absurd hx not_mem_nil⟩
    fun _ h c _ => h.call c

/-- With distinct hashes, so do servers. -/
theorem complete_calls (hp : p.Distinct) (cs : List (RingCall N)) : (calls p cs).Complete p := by
  have hboth : (calls p cs).Sound p ∧ (calls p cs).Complete p :=
    List.foldlRecOn cs (call p) (motive := fun r => r.Sound p ∧ r.Complete p)
      ⟨sound_calls [], fun n hn => absurd hn not_mem_nil⟩ fun _ h c _ => ⟨h.1.call c, h.2.call hp h.1 c⟩
  exact hboth.2

/-- With distinct hashes the entries are the hashes of the servers that are present. -/
theorem mem_positions (hp : p.Distinct) (cs : List (RingCall N)) {x : H × N} :
    x ∈ (calls p cs).positions.nodes ↔ x.2 ∈ (calls p cs).uniqueServers ∧ x.1 ∈ p.hashes x.2 :=
  ⟨(sound_calls cs).entries x, fun hx => complete_calls hp cs x.2 hx.1 x.1 hx.2⟩

/-- The hashes of all servers that are present. -/
def allHashes (p : RingParams H N) (r : ServerRing H N) : List H := r.uniqueServers.flatMap p.hashes

omit [DecidableEq N] in
/-- There are as many of them as virtual threads. -/
theorem length_allHashes (r : ServerRing H N) :
    (allHashes p r).length = p.virtualThreads * r.uniqueServers.length := by
  have hlength : ∀ n, (p.hashes n).length = p.virtualThreads := fun n => by simp [RingParams.hashes]
  simp only [allHashes, length_flatMap, hlength, map_const', sum_replicate_nat, Nat.mul_comm]

/-- With distinct hashes there is one entry for each of them. -/
theorem size_calls (hp : p.Distinct) (cs : List (RingCall N)) :
    (calls p cs).size = p.virtualThreads * (calls p cs).uniqueServers.length := by
  set r := calls p cs
  have hnodup : (allHashes p r).Nodup := by
    refine nodup_flatMap.mpr ⟨fun n _ => nodup_hashes hp n, (sound_calls cs).nodup.imp fun hne h hn hm => ?_⟩
    exact hne (eq_of_mem_hashes hp hn hm)
  have hperm : (r.positions.nodes.map Prod.fst).Perm (allHashes p r) := by
    refine (perm_ext_iff_of_nodup (r.positions.sorted.map _ fun _ _ hlt => hlt.ne) hnodup).mpr fun h => ?_
    simp only [mem_map, allHashes, mem_flatMap]
    constructor
    · rintro ⟨x, hx, rfl⟩
      exact ⟨x.2, (mem_positions hp cs).mp hx⟩
    · rintro ⟨n, hn, hh⟩
      exact ⟨(h, n), (mem_positions hp cs).mpr ⟨hn, hh⟩, rfl⟩
  rw [size, ← length_map Prod.fst, hperm.length_eq, length_allHashes]

/-- If the size is right, the hashes of the servers that are present are different. -/
theorem nodup_allHashes {cs : List (RingCall N)}
    (hsize : (calls p cs).size = p.virtualThreads * (calls p cs).uniqueServers.length) :
    (allHashes p (calls p cs)).Nodup := by
  set r := calls p cs
  have hkeys : (r.positions.nodes.map Prod.fst).Nodup := r.positions.sorted.map _ fun _ _ hlt => hlt.ne
  have hsub : r.positions.nodes.map Prod.fst ⊆ allHashes p r := fun h hh => by
    obtain ⟨x, hx, rfl⟩ := mem_map.mp hh
    exact mem_flatMap.mpr ⟨x.2, (sound_calls cs).entries x hx⟩
  have hlength : (allHashes p r).length ≤ (r.positions.nodes.map Prod.fst).length := by
    rw [length_allHashes, length_map, ← hsize, size]
  exact ((subperm_of_subset hkeys hsub).perm_of_length_le hlength).nodup_iff.mp hkeys

end ServerRing

/-- The content of a ring is a function of the servers that are present, for every sequence of calls, if and only if no
two virtual threads have the same hash. -/
theorem ring_function_of_membership_iff {H N : Type*} [LinearOrder H] [DecidableEq N] (p : RingParams H N) :
    ServerRing.Lawful p ↔ p.Distinct := by
  constructor
  · intro hlaws n v m w hv hw heq
    by_cases hnm : n = m
    · subst hnm
      have hnodup := ServerRing.nodup_allHashes (hlaws.count [.insert n 0]).2
      have hhashes : (p.hashes n).Nodup := by simpa [ServerRing.allHashes, ServerRing.calls, ServerRing.call,
        ServerRing.insert, ServerRing.empty] using hnodup
      exact ⟨rfl, List.inj_on_of_nodup_map hhashes (List.mem_range.mpr hv) (List.mem_range.mpr hw) heq⟩
    · have hnodup := ServerRing.nodup_allHashes (hlaws.count [.insert m 0, .insert n 0]).2
      have hhashes : (p.hashes n ++ p.hashes m).Nodup := by simpa [ServerRing.allHashes, ServerRing.calls, ServerRing.call,
        ServerRing.insert, ServerRing.empty, hnm] using hnodup
      have hdisjoint := List.disjoint_of_nodup_append hhashes
      exact absurd (List.mem_map.mpr ⟨w, List.mem_range.mpr hw, heq.symm⟩)
        (hdisjoint (List.mem_map_of_mem (List.mem_range.mpr hv)))
  · intro hp
    refine ⟨fun cs cs' hsame => ?_, fun cs n m h hne => ?_, fun cs => ⟨(ServerRing.sound_calls cs).nodup, ServerRing.size_calls hp cs⟩⟩
    · refine HashRing.ext_of_mem fun x => ?_
      rw [ServerRing.mem_positions hp, ServerRing.mem_positions hp, hsame]
    · have hservers : (ServerRing.calls p (cs ++ [.remove n])).uniqueServers = (ServerRing.calls p cs).uniqueServers.erase n := by
        simp [ServerRing.calls, ServerRing.call, ServerRing.remove]
      rw [ServerRing.mem_positions hp, ServerRing.mem_positions hp, hservers, List.mem_erase_of_ne hne]

/-- Two servers with one hash in common, that of their first virtual threads. -/
def oneCollision : RingParams ℕ Bool where
  hash n v := if n ∧ v ≠ 0 then 3000 + v else v
  virtualThreads := 3000

/-- The server that comes first gets the position. -/
theorem oneCollision_first (n m : Bool) :
    (0, n) ∈ (ServerRing.calls oneCollision [.insert n 0, .insert m 0]).positions.nodes := by
  have hnodup : (oneCollision.hashes n).Nodup := by
    refine nodup_range.map_on fun v hv w hw heq => ?_
    have hv : v < 3000 := mem_range.mp hv
    have hw : w < 3000 := mem_range.mp hw
    simp only [oneCollision] at heq
    split_ifs at heq with hleft hright hright
    · omega
    · omega
    · omega
    · exact heq
  have hmem : (0, n) ∈ (empty.insertAll (oneCollision.hashes n) n).nodes := by
    refine (mem_insertAll_iff hnodup fun y hy => absurd hy not_mem_nil).mpr (.inl ⟨?_, rfl⟩)
    exact mem_map.mpr ⟨0, mem_range.mpr (by decide), by simp [oneCollision]⟩
  have hfirst : (ServerRing.empty.insert oneCollision n 0).2.positions =
      empty.insertAll (oneCollision.hashes n) n := by simp [ServerRing.insert, ServerRing.empty]
  rw [← hfirst] at hmem
  exact ServerRing.mem_positions_insert hmem m 0

/-- The same servers in another order give another ring. -/
theorem colliding_servers_depend_on_order :
    (ServerRing.calls oneCollision [.insert false 0, .insert true 0]).uniqueServers = [true, false] ∧
    (ServerRing.calls oneCollision [.insert true 0, .insert false 0]).uniqueServers = [false, true] ∧
      (ServerRing.calls oneCollision [.insert false 0, .insert true 0]).positions ≠
        (ServerRing.calls oneCollision [.insert true 0, .insert false 0]).positions ∧ ¬ServerRing.Lawful oneCollision := by
  have hne : (ServerRing.calls oneCollision [.insert false 0, .insert true 0]).positions ≠
      (ServerRing.calls oneCollision [.insert true 0, .insert false 0]).positions := by
    intro heq
    have hfalse := oneCollision_first false true
    have htrue := oneCollision_first true false
    rw [heq] at hfalse
    -- no ring has two entries at one hash
    have hunique := List.inj_on_of_nodup_map
      ((ServerRing.calls oneCollision [.insert true 0, .insert false 0]).positions.sorted.map Prod.fst fun _ _ hlt => hlt.ne)
      hfalse htrue rfl
    cases hunique
  refine ⟨by simp [ServerRing.calls, ServerRing.call, ServerRing.insert, ServerRing.empty],
    by simp [ServerRing.calls, ServerRing.call, ServerRing.insert, ServerRing.empty], hne, fun hlaws => hne (hlaws.order _ _ fun n => ?_)⟩
  cases n <;> decide

end Dinomo
