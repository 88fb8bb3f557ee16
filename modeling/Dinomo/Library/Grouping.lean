import Dinomo.Library.RingSearch

/-!
# Values grouped by their keys

A map from keys to sets of values, filled with one pair after the other.  Keys and values are kept in the order in which
they first appear.
-/

namespace Dinomo

open List

namespace Grouping

variable {α β γ δ : Type*} [DecidableEq α] [DecidableEq β] [DecidableEq γ] [DecidableEq δ]

/-- Add a value to a set. -/
def addValue (v : β) (vs : List β) : List β := if v ∈ vs then vs else vs ++ [v]

/-- Add a value to the set of a key. -/
def add (k : α) (v : β) : List (α × List β) → List (α × List β)
  | [] => [(k, [v])]
  | (k', vs) :: m => if k = k' then (k', addValue v vs) :: m else (k', vs) :: add k v m

/-- The sets after all pairs. -/
def groups (l : List (α × β)) : List (α × List β) := l.foldl (fun m x => add x.1 x.2 m) []

/-- The keys of the pairs. -/
def keysOf (l : List (α × β)) : List α := (l.map Prod.fst).eraseDups

/-- The values of a key. -/
def valuesOf (l : List (α × β)) (k : α) : List β := ((l.filter fun x => x.1 = k).map Prod.snd).eraseDups

/-- All values of each key, in their order. -/
def collect (l : List (α × β)) : List (α × List β) := (keysOf l).map fun k => (k, (l.filter fun x => x.1 = k).map Prod.snd)

omit [DecidableEq β] in
/-- The values that are collected for a key are those it has in the pairs. -/
theorem mem_collect {l : List (α × β)} {k : α} {v : β} : (∃ vs, (k, vs) ∈ collect l ∧ v ∈ vs) ↔ (k, v) ∈ l := by
  constructor
  · rintro ⟨vs, hvs, hv⟩
    obtain ⟨k', -, heq⟩ := mem_map.mp hvs
    cases heq
    obtain ⟨x, hx, rfl⟩ := mem_map.mp hv
    obtain ⟨hx, hk⟩ := mem_filter.mp hx
    exact of_decide_eq_true hk ▸ hx
  · intro hkv
    refine ⟨_, mem_map.mpr ⟨k, mem_eraseDups.mpr (mem_map_of_mem hkv), rfl⟩, ?_⟩
    exact mem_map.mpr ⟨(k, v), mem_filter.mpr ⟨hkv, decide_eq_true rfl⟩, rfl⟩

/-- A value for a key that is present changes the set of that key, and for another key it is a new set. -/
theorem add_map (k : α) (v : β) (f : α → List β) {keys : List α} (hnodup : keys.Nodup) :
    add k v (keys.map fun k' => (k', f k')) =
      if k ∈ keys then keys.map fun k' => (k', if k' = k then addValue v (f k) else f k')
      else (keys.map fun k' => (k', f k')) ++ [(k, [v])] := by
  induction keys with
  | nil => rfl
  | cons a keys ih =>
    obtain ⟨hnotin, hnodup⟩ := nodup_cons.mp hnodup
    rw [map_cons, add]
    by_cases hk : k = a
    · subst hk
      have hrest : keys.map (fun k' => (k', if k' = k then addValue v (f k) else f k')) = keys.map fun k' => (k', f k') :=
        map_congr_left fun b hb => by rw [if_neg (ne_of_mem_of_not_mem hb hnotin)]
      rw [if_pos rfl, if_pos mem_cons_self, map_cons, if_pos rfl, hrest]
    · rw [if_neg hk, ih hnodup]
      by_cases hin : k ∈ keys
      · rw [if_pos hin, if_pos (mem_cons_of_mem _ hin), map_cons, if_neg (Ne.symm hk)]
      · rw [if_neg hin, if_neg (by simp [hk, hin])]
        rfl

/-- The values of a key with one more pair. -/
theorem valuesOf_concat (l : List (α × β)) (x : α × β) (k : α) :
    valuesOf (l ++ [x]) k = if k = x.1 then addValue x.2 (valuesOf l k) else valuesOf l k := by
  unfold valuesOf addValue
  by_cases hk : k = x.1
  · rw [if_pos hk, filter_append, filter_cons_of_pos (by simpa using hk.symm), filter_nil, map_append]
    exact HashRing.eraseDups_concat _ _
  · rw [if_neg hk, filter_append, filter_cons_of_neg (by simpa using Ne.symm hk), filter_nil, append_nil]

omit [DecidableEq β] in
/-- The keys with one more pair. -/
theorem keysOf_concat (l : List (α × β)) (x : α × β) : keysOf (l ++ [x]) = addValue x.1 (keysOf l) := by
  rw [keysOf, map_append]
  exact HashRing.eraseDups_concat _ _

/-- A key that no pair has has no values. -/
theorem valuesOf_eq_nil {l : List (α × β)} {k : α} (hk : k ∉ keysOf l) : valuesOf l k = [] := by
  unfold valuesOf
  rw [filter_eq_nil_iff.mpr fun y hy => ?_]
  · rfl
  · rw [decide_eq_true_iff]
    exact fun heq => hk (mem_eraseDups.mpr (mem_map.mpr ⟨y, hy, heq⟩))

/-- Every key of the pairs has the set of its values. -/
theorem groups_eq (l : List (α × β)) : groups l = (keysOf l).map fun k => (k, valuesOf l k) := by
  induction l using List.reverseRecOn with
  | nil => rfl
  | append_singleton l x ih =>
    have hfold : groups (l ++ [x]) = add x.1 x.2 (groups l) := by
      rw [groups, foldl_append]
      rfl
    rw [hfold, ih, add_map x.1 x.2 _ (show (keysOf l).Nodup from HashRing.nodup_eraseDups _), keysOf_concat]
    by_cases hin : x.1 ∈ keysOf l
    · rw [if_pos hin, show addValue x.1 (keysOf l) = keysOf l from if_pos hin]
      refine map_congr_left fun k _ => ?_
      rw [valuesOf_concat]
      split_ifs with hk
      · rw [hk]
      · rfl
    · have hold : ((keysOf l).map fun k => (k, valuesOf (l ++ [x]) k)) = (keysOf l).map fun k => (k, valuesOf l k) := by
        refine map_congr_left fun k hk => ?_
        rw [valuesOf_concat, if_neg (ne_of_mem_of_not_mem hk hin)]
      rw [if_neg hin, show addValue x.1 (keysOf l) = keysOf l ++ [x.1] from if_neg hin, map_append,
        map_singleton, valuesOf_concat, if_pos rfl, valuesOf_eq_nil hin, hold]
      rfl

/-- Different names for the values keep the order of first appearance. -/
theorem eraseDups_map {f : α → γ} {l : List α} (hf : ∀ a ∈ l, ∀ b ∈ l, f a = f b → a = b) :
    (l.map f).eraseDups = l.eraseDups.map f := by
  induction l using List.reverseRecOn with
  | nil => rfl
  | append_singleton l a ih =>
    have hl : ∀ b ∈ l, ∀ c ∈ l, f b = f c → b = c := fun b hb c hc =>
      hf b (mem_append_left _ hb) c (mem_append_left _ hc)
    have hin : f a ∈ l.eraseDups.map f ↔ a ∈ l.eraseDups := by
      refine ⟨fun h => ?_, mem_map_of_mem⟩
      obtain ⟨b, hb, heq⟩ := mem_map.mp h
      have hbl : b ∈ l := mem_eraseDups.mp hb
      exact hf b (mem_append_left _ hbl) a (mem_append_right _ (mem_singleton_self a)) heq ▸ hb
    rw [map_append, map_singleton, HashRing.eraseDups_concat, HashRing.eraseDups_concat, ih hl]
    simp only [hin]
    split_ifs
    · rfl
    · rw [map_append, map_singleton]

section Names

variable {ι : Type*} [DecidableEq ι] {key : ι → α} (name : α → γ) (val : ι → δ) {l : List ι}

omit [DecidableEq δ] [DecidableEq ι] in
/-- The keys of items that are known by names for their keys. -/
theorem keysOf_named (hname : ∀ i ∈ l, ∀ j ∈ l, name (key i) = name (key j) → key i = key j) :
    keysOf (l.map fun i => (name (key i), val i)) = (l.map key).eraseDups.map name := by
  rw [← eraseDups_map, keysOf, map_map, map_map]
  · rfl
  · intro a ha b hb heq
    obtain ⟨i, hi, rfl⟩ := mem_map.mp ha
    obtain ⟨j, hj, rfl⟩ := mem_map.mp hb
    exact hname i hi j hj heq

/-- The values of such a key count its items, if items of one key have different values. -/
theorem length_valuesOf_named (hname : ∀ i ∈ l, ∀ j ∈ l, name (key i) = name (key j) → key i = key j)
    (hval : ∀ i ∈ l, ∀ j ∈ l, key i = key j → val i = val j → i = j) {k : α} (hk : k ∈ (l.map key).eraseDups) :
    (valuesOf (l.map fun i => (name (key i), val i)) (name k)).length = (l.filter fun i => key i = k).eraseDups.length := by
  obtain ⟨i₀, hi₀, rfl⟩ := mem_map.mp (mem_eraseDups.mp hk)
  have hfilter : ((l.map fun i => (name (key i), val i)).filter fun x => x.1 = name (key i₀)).map Prod.snd =
      (l.filter fun i => key i = key i₀).map val := by
    rw [filter_map, map_map]
    refine congrArg (List.map val) (filter_congr fun i hi => ?_)
    simp only [Function.comp_apply, decide_eq_decide]
    exact ⟨hname i hi i₀ hi₀, congrArg name⟩
  rw [valuesOf, hfilter, eraseDups_map, length_map]
  intro i hi j hj heq
  obtain ⟨hi, hkey⟩ := mem_filter.mp hi
  obtain ⟨hj, hkey'⟩ := mem_filter.mp hj
  exact hval i hi j hj ((of_decide_eq_true hkey).trans (of_decide_eq_true hkey').symm) heq

end Names

end Grouping

end Dinomo
