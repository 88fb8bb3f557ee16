import Dinomo.Library.RingIterator
import Dinomo.RingMembership

/-!
# Servers that lose keys to a new one

`get_partition_range_changed_threads` looks for the entry behind each position of a server that was just
inserted.  Where new positions are next to each other, the entry behind the first is the new server's own,
and only the last of them is next to the server that loses the keys of all of them.
-/

namespace Dinomo

open List

namespace HashRing

variable {H N : Type*} [LinearOrder H]

/-- `find_predecessor`: the entry behind the lower bound of a hash.  There is none in an empty ring, and an
iterator at the end cannot go on. -/
def findPredecessor (r : HashRing H N) (h : H) : Option (H × N) :=
  if r.nodes = [] then none
  else if r.lowerBound h = r.nodes.length then none
  else r.nodes[r.advance (r.lowerBound h)]?

/-- The loop of `get_partition_range_changed_threads`, which has no result if an entry is missing. -/
def changedThreads [DecidableEq N] (r : HashRing H N) : List H → List N → Option (List N)
  | [], threads => some threads
  | h :: hs, threads =>
    (r.findPredecessor h).bind fun pos =>
      r.changedThreads hs (if pos.2 ∈ threads then threads else threads ++ [pos.2])

variable {r : HashRing H N} {h : H}

/-- With an entry at or after the hash there is one behind it, in the order of the walk. -/
theorem findPredecessor_eq_some {x : H × N} (hx : x ∈ r.nodes) (hle : h ≤ x.1) :
    ∃ pos, r.findPredecessor h = some pos ∧ r.next h = some pos.2 := by
  have hne : r.nodes ≠ [] := ne_nil_of_mem hx
  have hlt := lowerBound_lt hx hle
  have hiter : r.findIterator h = r.lowerBound h := if_neg hlt.ne
  obtain ⟨pos, hpos⟩ : ∃ pos, r.nodes[r.advance (r.lowerBound h)]? = some pos :=
    ⟨_, List.getElem?_eq_getElem (advance_lt hlt)⟩
  refine ⟨pos, by rw [findPredecessor, if_neg hne, if_neg hlt.ne, hpos], ?_⟩
  rw [next, List.head?_eq_getElem?]
  by_cases hone : r.nodes.length = 1
  · -- the entry behind the only one is that one
    have hwalk : (r.walk h).length = 1 := (r.length_walk h).trans hone
    have hzero : r.advance (r.lowerBound h) = 0 := by
      have hend := advance_lt hlt
      omega
    have hfirst := getElem?_walk (h := h) (show 0 < r.nodes.length by omega)
    rw [Nat.add_zero, Nat.mod_eq_of_lt (findIterator_lt hne), hiter] at hfirst
    have hlower : r.lowerBound h = 0 := by omega
    rw [show 1 = (r.walk h).length by rw [hwalk], rotate_length, hfirst, hlower, ← hzero, hpos]
    rfl
  · have hlen : 1 < (r.walk h).length := by
      rw [length_walk]
      omega
    have hsecond := getElem?_walk (h := h) (show 1 < r.nodes.length by omega)
    rw [hiter, ← advance_eq_mod hlt, hpos] at hsecond
    rw [List.getElem?_rotate (by omega), Nat.zero_add, Nat.mod_eq_of_lt hlen, hsecond]
    rfl

variable [DecidableEq N]

/-- The loop collects the values behind the hashes. -/
theorem changedThreads_eq_some {hs : List H} {threads : List N} (hnodup : threads.Nodup)
    (hentry : ∀ h ∈ hs, ∃ x ∈ r.nodes, h ≤ x.1) :
    ∃ found, r.changedThreads hs threads = some found ∧ found.Nodup ∧
      ∀ m, m ∈ found ↔ m ∈ threads ∨ ∃ h ∈ hs, r.next h = some m := by
  induction hs generalizing threads with
  | nil => exact ⟨threads, rfl, hnodup, fun m => by simp⟩
  | cons h hs ih =>
    obtain ⟨x, hx, hle⟩ := hentry h mem_cons_self
    obtain ⟨pos, hpos, hnext⟩ := findPredecessor_eq_some hx hle
    have hrest : ∀ h ∈ hs, ∃ x ∈ r.nodes, h ≤ x.1 := fun h hh => hentry h (mem_cons_of_mem _ hh)
    -- what has been collected with this value
    set collected := if pos.2 ∈ threads then threads else threads ++ [pos.2] with hcollected
    have hmem : ∀ m, m ∈ collected ↔ m ∈ threads ∨ m = pos.2 := fun m => by
      rw [hcollected]
      split_ifs with hin
      · exact ⟨.inl, fun hm => hm.elim id fun heq => heq ▸ hin⟩
      · rw [mem_append, mem_singleton]
    have hnodup' : collected.Nodup := by
      rw [hcollected]
      split_ifs with hin
      · exact hnodup
      · exact nodup_append.mpr ⟨hnodup, nodup_singleton _, fun a ha b hb heq =>
          hin (mem_singleton.mp hb ▸ heq ▸ ha)⟩
    obtain ⟨found, hfound, hnodup, hiff⟩ := ih hnodup' hrest
    refine ⟨found, by rw [changedThreads, hpos, Option.bind_some, ← hcollected, hfound], hnodup, fun m => ?_⟩
    rw [hiff m, hmem m, or_assoc]
    refine or_congr_right ⟨?_, ?_⟩
    · rintro (rfl | ⟨h', hh', hm⟩)
      · exact ⟨h, mem_cons_self, hnext⟩
      · exact ⟨h', mem_cons_of_mem _ hh', hm⟩
    · rintro ⟨h', hh', hm⟩
      rcases mem_cons.mp hh' with rfl | hh'
      · exact .inl (Option.some.inj (hm.symm.trans hnext))
      · exact .inr ⟨h', hh', hm⟩

end HashRing

namespace ServerRing

variable {H N : Type*} [LinearOrder H] [DecidableEq N] (p : RingParams H N)

/-- `get_partition_range_changed_threads`. -/
def getPartitionRangeChangedThreads (r : ServerRing H N) (n : N) : Option (List N) :=
  r.positions.changedThreads (p.hashes n) []

end ServerRing

/-- A server that is inserted into any ring finds all servers that lose a hash to it, each once. -/
theorem join_notifies_losers {H N : Type*} [LinearOrder H] [DecidableEq N] (p : RingParams H N)
    (cs : List (RingCall N)) (n : N) (joinCount : ℤ) (hnew : n ∉ (ServerRing.calls p cs).uniqueServers) :
    ∃ threads, ((ServerRing.calls p cs).insert p n joinCount).2.getPartitionRangeChangedThreads p n = some threads ∧
      threads.Nodup ∧ ∀ m h, (ServerRing.calls p cs).positions.find h = some m →
        ((ServerRing.calls p cs).insert p n joinCount).2.positions.find h ≠ some m → m ∈ threads := by
  set r := ServerRing.calls p cs with hr
  have hinsert : (r.insert p n joinCount).2.positions = r.positions.insertAll (p.hashes n) n := by
    simp [ServerRing.insert, hnew]
  have hfresh : ∀ x ∈ r.positions.nodes, x.2 ≠ n := fun x hx heq =>
    hnew (heq ▸ ((ServerRing.sound_calls cs).entries x hx).1)
  rw [ServerRing.getPartitionRangeChangedThreads, hinsert]
  have hpositions : ∀ h ∈ p.hashes n, ∃ x ∈ (r.positions.insertAll (p.hashes n) n).nodes, h ≤ x.1 := fun h hh => by
    obtain ⟨x, hx, hxh⟩ := HashRing.exists_mem_insertAll (r := r.positions) (n := n) hh
    exact ⟨x, hx, hxh.ge⟩
  obtain ⟨threads, hthreads, hnodup, hmem⟩ := HashRing.changedThreads_eq_some List.nodup_nil hpositions
  refine ⟨threads, hthreads, hnodup, fun m h hold hlost => ?_⟩
  have htaken := (HashRing.find_insertAll hfresh hold).resolve_left hlost
  obtain ⟨h', hh', hnext⟩ := HashRing.next_of_find_insertAll hfresh hold htaken
  exact (hmem m).mpr (.inr ⟨h', hh', hnext⟩)

/-- Servers with two positions each, twenty behind one another. -/
def twoPositions : RingParams ℕ ℕ := ⟨fun n v => 20 * n + 100 * v, 2⟩

/-- Server `4` joins servers `1` and `2`; server `1` loses hash `170` to it, which it had from the other side of the end
of the ring. -/
theorem join_notifies_losers_twoPositions :
    4 ∉ (ServerRing.calls twoPositions [.insert 1 0, .insert 2 0]).uniqueServers ∧
      ∃ threads, ((ServerRing.calls twoPositions [.insert 1 0, .insert 2 0]).insert twoPositions 4
        0).2.getPartitionRangeChangedThreads twoPositions 4 = some threads ∧ threads.Nodup ∧ 1 ∈ threads := by
  have hnew : 4 ∉ (ServerRing.calls twoPositions [.insert 1 0, .insert 2 0]).uniqueServers := by decide
  obtain ⟨threads, hthreads, hnodup, hmem⟩ := join_notifies_losers twoPositions [.insert 1 0, .insert 2 0] 4 0 hnew
  exact ⟨hnew, threads, hthreads, hnodup, hmem 1 170 (by decide) (by decide)⟩

end Dinomo
