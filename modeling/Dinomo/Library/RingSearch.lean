import Dinomo.Library.HashRing

/-!
# The search for different values in a ring

The search goes from the entry that serves a hash round the ring and collects values that it has not met,
until it has the number that is wanted.  It has no bound of its own: in a ring with fewer different values
it does not end.
-/

namespace Dinomo.HashRing

open List

variable {H N : Type*} [LinearOrder H] [DecidableEq N]

/-- The number of different values of a ring. -/
def count (r : HashRing H N) : ℕ := (r.nodes.map Prod.snd).eraseDups.length

/-- The loop over the entries that are left in this round, with the values found so far. -/
def searchLoop (round : List N) (rep : ℕ) : ℕ → List N → List N → Option (List N)
  | 0, _, found => if rep ≤ found.length then some found else none
  | _ + 1, [], found => if rep ≤ found.length then some found else none
  | fuel + 1, n :: rest, found =>
    if rep ≤ found.length then some found
    else
      searchLoop round rep fuel (if rest = [] then round else rest) (if n ∈ found then found else found ++ [n])

/-- The search for `rep` different values from the entry that serves a hash, with a number of steps. -/
def search (r : HashRing H N) (h : H) (rep fuel : ℕ) : Option (List N) :=
  if r.nodes = [] then some [] else searchLoop ((r.walk h).map Prod.snd) rep fuel ((r.walk h).map Prod.snd) []

/-- The different values of a list with one more. -/
theorem eraseDups_concat (l : List N) (n : N) :
    (l ++ [n]).eraseDups = if n ∈ l.eraseDups then l.eraseDups else l.eraseDups ++ [n] := by
  rw [eraseDups_append]
  simp only [mem_eraseDups]
  split_ifs with h
  · simp [List.removeAll, h]
  · simp [List.removeAll, h, eraseDups_cons]

/-- A search that can end within the round ends with the first different values of it. -/
theorem searchLoop_eq {round rest done : List N} {rep : ℕ} (hround : done ++ rest = round)
    (hdone : done.eraseDups.length ≤ rep) (hrep : rep ≤ round.eraseDups.length) :
    searchLoop round rep rest.length rest done.eraseDups = some (round.eraseDups.take rep) := by
  have hstop : ∀ d, d <+: round → d.eraseDups.length = rep → d.eraseDups = round.eraseDups.take rep := by
    rintro d ⟨l, rfl⟩ heq
    rw [eraseDups_append, take_append_of_le_length heq.ge, ← heq, take_length]
  induction rest generalizing done with
  | nil =>
    rw [append_nil] at hround
    have heq : done.eraseDups.length = rep := le_antisymm hdone (hround ▸ hrep)
    simp only [length_nil, searchLoop, heq.ge, if_true]
    rw [← hstop done (hround ▸ prefix_refl _) heq]
  | cons n rest ih =>
    by_cases hfound : rep ≤ done.eraseDups.length
    · rw [length_cons, searchLoop, if_pos hfound, ← hstop done ⟨_, hround⟩ (le_antisymm hdone hfound)]
    · have hround' : done ++ [n] ++ rest = round := by rw [append_assoc, singleton_append, hround]
      have hdone' : (done ++ [n]).eraseDups.length ≤ rep := by
        rw [eraseDups_concat]
        split_ifs
        · exact hdone
        · rw [length_append, length_singleton]
          omega
      rw [length_cons, searchLoop, if_neg hfound, ← eraseDups_concat]
      cases rest with
      | nil =>
        -- the round is over, so everything in it has been met
        rw [append_nil] at hround'
        have heq : (done ++ [n]).eraseDups.length = rep := le_antisymm hdone' (hround' ▸ hrep)
        rw [length_nil, searchLoop, if_pos heq.ge, ← hstop _ (hround' ▸ prefix_refl _) heq]
      | cons m rest =>
        rw [if_neg (cons_ne_nil _ _)]
        exact ih hround' hdone'

/-- Different values of a list are no more than its different values. -/
theorem length_le_eraseDups {l l' : List N} (hnodup : l.Nodup) (hsub : l ⊆ l') : l.length ≤ l'.eraseDups.length :=
  (subperm_of_subset hnodup fun _ hn => mem_eraseDups.mpr (hsub hn)).length_le

/-- A search for more values than the round has finds no end. -/
theorem searchLoop_eq_none {round : List N} {rep : ℕ} (hrep : round.eraseDups.length < rep) (fuel : ℕ)
    {rest found : List N} (hrest : rest ⊆ round) (hfound : found ⊆ round) (hnodup : found.Nodup) :
    searchLoop round rep fuel rest found = none := by
  have hlt : ¬rep ≤ found.length := by
    have hle : found.length ≤ round.eraseDups.length := length_le_eraseDups hnodup hfound
    omega
  induction fuel generalizing rest found with
  | zero => rw [searchLoop, if_neg hlt]
  | succ fuel ih =>
    cases rest with
    | nil => rw [searchLoop, if_neg hlt]
    | cons n rest =>
      obtain ⟨hn, hrest⟩ := cons_subset.mp hrest
      have hnext : (if rest = [] then round else rest) ⊆ round := by
        split_ifs
        · exact List.Subset.refl _
        · exact hrest
      have hfound' : (if n ∈ found then found else found ++ [n]) ⊆ round := by
        split_ifs
        · exact hfound
        · exact append_subset.mpr ⟨hfound, cons_subset.mpr ⟨hn, nil_subset _⟩⟩
      have hnodup' : (if n ∈ found then found else found ++ [n]).Nodup := by
        split_ifs with hin
        · exact hnodup
        · exact nodup_append.mpr
            ⟨hnodup, nodup_singleton n, fun a ha b hb heq => hin (mem_singleton.mp hb ▸ heq ▸ ha)⟩
      rw [searchLoop, if_neg hlt]
      refine ih hnext hfound' hnodup' ?_
      have hle := length_le_eraseDups hnodup' hfound'
      omega

variable {r : HashRing H N} {h : H} {rep : ℕ}

omit [DecidableEq N] in
/-- The walk has the entries of the ring. -/
theorem mem_walk {x : H × N} : x ∈ r.walk h ↔ x ∈ r.nodes := by
  simp only [walk, mem_append, mem_filter, decide_eq_true_eq, ← and_or_left]
  exact and_iff_left (le_or_gt _ _)

/-- From every hash the walk meets all values. -/
theorem length_eraseDups_walk : ((r.walk h).map Prod.snd).eraseDups.length = r.count := by
  refine le_antisymm (length_le_eraseDups (nodup_eraseDups _) fun n hn => ?_)
    (length_le_eraseDups (nodup_eraseDups _) fun n hn => ?_)
  · obtain ⟨x, hx, rfl⟩ := mem_map.mp (mem_eraseDups.mp hn)
    exact mem_map_of_mem (mem_walk.mp hx)
  · obtain ⟨x, hx, rfl⟩ := mem_map.mp (mem_eraseDups.mp hn)
    exact mem_map_of_mem (mem_walk.mpr hx)

/-- The search can end if the ring has the values that are wanted. -/
theorem ends_iff : r.Ends h rep ↔ r.nodes = [] ∨ rep ≤ r.count := by
  rw [Ends, responsible, length_take, length_eraseDups_walk, inf_eq_left]

/-- A search that can end does so with the responsible values. -/
theorem search_eq (hends : r.Ends h rep) :
    r.search h rep (r.walk h).length = some (r.responsible h rep) := by
  rcases ends_iff.mp hends with hempty | hrep
  · simp [search, responsible, walk, hempty]
  · by_cases hempty : r.nodes = []
    · simp [search, responsible, walk, hempty]
    · have hcount : rep ≤ ((r.walk h).map Prod.snd).eraseDups.length := hrep.trans_eq length_eraseDups_walk.symm
      have hloop := searchLoop_eq (nil_append ((r.walk h).map Prod.snd)) rep.zero_le hcount
      rw [length_map] at hloop
      rw [search, if_neg hempty]
      exact hloop

/-- A search that cannot end runs for any number of steps. -/
theorem search_eq_none (hends : ¬r.Ends h rep) (fuel : ℕ) : r.search h rep fuel = none := by
  obtain ⟨hempty, hrep⟩ := not_or.mp fun hor => hends (ends_iff.mpr hor)
  rw [search, if_neg hempty]
  refine searchLoop_eq_none ?_ fuel (List.Subset.refl _) (nil_subset _) nodup_nil
  rw [length_eraseDups_walk]
  exact not_le.mp hrep

end Dinomo.HashRing
