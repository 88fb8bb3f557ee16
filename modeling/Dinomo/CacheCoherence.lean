import Dinomo.AdaptiveCache

/-!
# The coherence of the adaptive cache

A reader that gets a shortcut follows it to an operation log, so an entry must have the length and the
address that were stored last for its key.  An update that promotes a shortcut stores the new value and
its length in the node but leaves the old address there; a later demotion brings the address out.  Where
no update does that, and the callback of a look-up reads what was stored, every entry is the latest.
-/

namespace Dinomo

open AdaptiveHybridCache

/-- A cache with what was stored last for each key. -/
structure TrackedCache (κ ν : Type) [DecidableEq κ] where
  cache : AdaptiveHybridCache κ ν
  latest : κ → Option (CachedEntry ν)

namespace TrackedCache

variable {κ ν : Type} [DecidableEq κ]

/-- What is stored last after a call. -/
def record (latest : κ → Option (CachedEntry ν)) : CacheCall κ ν → κ → Option (CachedEntry ν)
  | .insert key value valLen shortcut | .update key value valLen shortcut =>
    Function.update latest key (some ⟨value, valLen, shortcut⟩)
  | .find _ _ | .remove _ | .clear | .updateMissCost _ => latest

/-- Carry out a call. -/
def step (t : TrackedCache κ ν) (e : CacheCall κ ν) : Option (TrackedCache κ ν) :=
  (t.cache.step e).map (⟨·, record t.latest e⟩)

/-- A new cache, in which nothing has been stored. -/
def new (capacity valueSize shortcutSize missCost : UInt64) : TrackedCache κ ν :=
  ⟨.new capacity valueSize shortcutSize missCost, fun _ => none⟩

/-- Every entry is the latest of its key, and so is what a reader finds. -/
structure Coherent (t : TrackedCache κ ν) : Prop where
  values : ∀ k n, t.cache.vMap.lookup k = some n → t.latest k = some n.entry
  shortcuts : ∀ k n, t.cache.sMap.lookup k = some n → ∃ v, t.latest k = some ⟨v, n.valLen, n.shortcut⟩
  finds : ∀ k copy x c', t.cache.find k copy = some (some x, c') →
    ∃ v, t.latest k = some ⟨v, x.valLen, x.shortcut⟩ ∧ (x.value = none ∨ x.value = v)

/-- A key that is stored is defined: it is admissible as a shortcut, or there is an entry to evict. -/
def Storable (c : AdaptiveHybridCache κ ν) (key : κ) : Prop :=
  c.vMap.lookup key = none →
    ((c.sMap.lookup key).isSome → (c.used key).Admissible key) ∧
      (c.sMap.lookup key = none → c.vMap.size = 0 → c.sMap.size = 0 →
        c.currentCacheSizeInBytes + c.valueSize ≤ c.maxCacheSizeInBytes ∨
          c.currentCacheSizeInBytes + c.shortcutSize ≤ c.maxCacheSizeInBytes)

instance (c : AdaptiveHybridCache κ ν) (key : κ) : Decidable (Storable c key) :=
  inferInstanceAs (Decidable (_ → _ ∧ _))

/--
An update that promotes a shortcut has its address; the callback of a look-up that promotes one reads
the value that was stored with it; and what makes room for a key is there.
-/
def Safe (t : TrackedCache κ ν) : CacheCall κ ν → Prop
  | .insert key _ _ shortcut | .update key _ _ shortcut =>
    Storable t.cache key ∧
      (t.cache.vMap.lookup key = none → ∀ n ∈ t.cache.sMap.lookup key,
        (t.cache.used key).admission key ≠ .refused → n.shortcut = shortcut)
  | .find key copy =>
    t.cache.vMap.lookup key = none → ∀ n ∈ t.cache.sMap.lookup key,
      (t.cache.used key).Admissible key ∧
        ((t.cache.used key).admission key ≠ .refused →
          ∀ x ∈ t.latest key, x.value = some (copy none n.valLen n.shortcut))
  | .remove _ | .clear | .updateMissCost _ => True

instance [DecidableEq ν] (t : TrackedCache κ ν) : ∀ e, Decidable (t.Safe e)
  | .insert _ _ _ _ | .update _ _ _ _ => inferInstanceAs (Decidable (_ ∧ (_ → ∀ n ∈ t.cache.sMap.lookup _, _)))
  | .find _ _ => inferInstanceAs (Decidable (_ → ∀ n ∈ t.cache.sMap.lookup _, _ ∧ (_ → ∀ x ∈ t.latest _, _)))
  | .remove _ | .clear | .updateMissCost _ => .isTrue trivial

/-- The invariant of the maps for the latest entries. -/
def Inv (t : TrackedCache κ ν) : Prop := t.cache.Inv (fun k x => t.latest k = some x) none

variable {t : TrackedCache κ ν}

/-- The invariant makes the cache coherent. -/
theorem Inv.coherent (h : t.Inv) : t.Coherent where
  values k n hn := (h.values k n hn).2
  shortcuts k n hn := (h.shortcuts k n (by simp) hn).2
  finds k copy x c' hfind := by
    rcases hv : t.cache.vMap.lookup k with - | n
    · rcases hs : t.cache.sMap.lookup k with - | n
      · rw [find_none hv hs] at hfind
        cases hfind
      · rw [find_shortcut hv hs copy rfl] at hfind
        obtain ⟨_, -, heq⟩ := Option.map_eq_some_iff.mp hfind
        cases heq
        obtain ⟨v, hlatest⟩ := (h.shortcuts k n (by simp) hs).2
        exact ⟨v, hlatest, .inl (h.keys k n hs).2⟩
    · rw [find_value hv] at hfind
      cases hfind
      exact ⟨n.value, (h.values k n hv).2, .inr rfl⟩

/-- A storable key is stored. -/
theorem insert_isSome {c : AdaptiveHybridCache κ ν} {key : κ} (h : Storable c key) (value : Option ν)
    (valLen shortcut : ℕ) : ∃ c', c.insert key value valLen shortcut = some c' := by
  rcases hv : c.vMap.lookup key with - | n
  · rcases hs : c.sMap.lookup key with - | n
    · rw [insert_new hv hs, insertNew]
      have hroom := (h hv).2 hs
      split_ifs with hfits hfits' hsize
      · exact ⟨_, rfl⟩
      · exact ⟨_, rfl⟩
      · obtain ⟨evicted, v, hevict⟩ := FixedSizedCache.lru_evict_isSome hsize
        simp [hevict]
      · have hsize : c.vMap.size = 0 := by simpa using hsize
        have hpos : c.sMap.size ≠ 0 := fun hz => by
          rcases hroom hsize hz with hle | hle
          · exact hfits hle
          · exact hfits' hle
        obtain ⟨evicted, s, hevict⟩ := FixedSizedCache.lfu_evict_isSome hpos
        simp [hevict]
    · rw [insert_shortcut hv hs]
      exact promote_isSome (c := c.used key) hs ((h hv).1 (by simp [hs])) _ _
  · exact ⟨_, insert_value hv⟩

/-- A look-up of an admissible key is defined. -/
theorem find_isSome {c : AdaptiveHybridCache κ ν} {key : κ}
    (h : c.vMap.lookup key = none → (c.sMap.lookup key).isSome → (c.used key).Admissible key)
    (copy : Option ν → ℕ → ℕ → ν) : ∃ r c', c.find key copy = some (r, c') := by
  rcases hv : c.vMap.lookup key with - | n
  · rcases hs : c.sMap.lookup key with - | n
    · exact ⟨_, _, find_none hv hs copy⟩
    · have hlookup := FixedSizedCache.lookup_put (c.sMap.touch key) key key { n with weight := n.weight + 1 }
      rw [if_pos rfl] at hlookup
      rw [find_shortcut hv hs copy rfl]
      obtain ⟨c', hc'⟩ := promote_isSome hlookup ((h hv (by simp [hs])).put hs _) _ _
      exact ⟨_, _, Option.map_eq_some_iff.mpr ⟨c', hc', rfl⟩⟩
  · exact ⟨_, _, find_value hv copy⟩

/-- A safe call is defined and keeps the invariant. -/
theorem Inv.step (h : t.Inv) {e : CacheCall κ ν} (hsafe : t.Safe e) : ∃ t', t.step e = some t' ∧ t'.Inv := by
  have hinsert : ∀ (key : κ) (value : Option ν) (valLen shortcut : ℕ), Storable t.cache key →
      (t.cache.vMap.lookup key = none → ∀ n ∈ t.cache.sMap.lookup key,
        (t.cache.used key).admission key ≠ .refused → n.shortcut = shortcut) →
      ∃ c', t.cache.insert key value valLen shortcut = some c' ∧
        Inv ⟨c', Function.update t.latest key (some ⟨value, valLen, shortcut⟩)⟩ := by
    intro key value valLen shortcut hstore haddr
    obtain ⟨c', hc'⟩ := insert_isSome hstore value valLen shortcut
    refine ⟨c', hc', AdaptiveHybridCache.Inv.insert h hc' (fun k x hk hx => ?_) ?_ fun n hv hs hadm => ?_⟩
    · exact (Function.update_of_ne hk _ _).trans hx
    · exact Function.update_self ..
    · rw [haddr hv n hs hadm]
      exact Function.update_self ..
  cases e with
  | insert key value valLen shortcut =>
    obtain ⟨c', hc', hinv⟩ := hinsert key value valLen shortcut hsafe.1 hsafe.2
    exact ⟨_, Option.map_eq_some_iff.mpr ⟨c', hc', rfl⟩, hinv⟩
  | update key value valLen shortcut =>
    obtain ⟨c', hc', hinv⟩ := hinsert key value valLen shortcut hsafe.1 hsafe.2
    exact ⟨_, Option.map_eq_some_iff.mpr ⟨c', hc', rfl⟩, hinv⟩
  | find key copy =>
    have hadm : t.cache.vMap.lookup key = none → (t.cache.sMap.lookup key).isSome →
        (t.cache.used key).Admissible key := fun hv hs => by
      obtain ⟨n, hn⟩ := Option.isSome_iff_exists.mp hs
      exact (hsafe hv n hn).1
    obtain ⟨r, c', hc'⟩ := find_isSome hadm copy
    refine ⟨⟨c', t.latest⟩, ?_, AdaptiveHybridCache.Inv.find h hc' fun n hv hs hprom => ?_⟩
    · simp only [TrackedCache.step, AdaptiveHybridCache.step, hc', Option.map_some, record]
    · -- the callback reads the value that was stored with the shortcut
      obtain ⟨v, hlatest⟩ := (h.shortcuts key n (by simp) hs).2
      have hread := (hsafe hv n hs).2 hprom _ hlatest
      rw [hlatest, ← hread]
  | remove key => exact ⟨_, rfl, AdaptiveHybridCache.Inv.remove h key⟩
  | clear => exact ⟨_, rfl, .of_empty rfl rfl⟩
  | updateMissCost newMissCost => exact ⟨_, rfl, ⟨h.disjoint, h.values, h.keys, h.shortcuts⟩⟩

/-- Every sequence of safe calls is defined and leaves the cache coherent. -/
theorem cache_coherent {capacity valueSize shortcutSize missCost : UInt64} {calls : List (CacheCall κ ν)}
    (hsafe : Transition.Guarded step Safe (new capacity valueSize shortcutSize missCost) calls) :
    ∃ t, Transition.run step (new capacity valueSize shortcutSize missCost) calls = some t ∧ t.Coherent := by
  obtain ⟨t, hrun, hinv⟩ := Transition.exists_run_of_guarded (P := Inv) (fun _ _ h => h.step)
    (AdaptiveHybridCache.Inv.of_empty rfl rfl) hsafe
  exact ⟨t, hrun, hinv.coherent⟩

/-- A look-up that promotes a shortcut with the value that was stored. -/
theorem cache_coherent_promotion :
    ∃ t : TrackedCache ℕ ℕ,
      Transition.run step (new 16 16 8 1)
        [.insert 0 (some 5) 1 64, .insert 1 (some 6) 1 128, .find 0 fun _ _ _ => 5, .update 0 (some 7) 1 192,
          .insert 2 (some 8) 1 256] = some t ∧ t.Coherent :=
  cache_coherent (by decide +kernel)

/-- A key that is stored at a new address and promoted by it is found at its old address once it is demoted. -/
theorem promoted_update_keeps_shortcut :
    (Transition.run step (new 16 16 8 1 : TrackedCache ℕ ℕ)
      [.insert 0 (some 5) 1 64, .insert 1 (some 6) 1 128, .update 0 (some 7) 1 192,
        .insert 2 (some 8) 1 256]).map
      (fun t => ((t.cache.find 0 fun _ _ _ => 5).map Prod.fst, t.latest 0)) =
    some (some (some ⟨none, 1, 64⟩), some ⟨some 7, 1, 192⟩) := by decide +kernel

end TrackedCache

end Dinomo
