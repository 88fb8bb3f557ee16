import Dinomo.Addresses
import Mathlib.Algebra.Order.Ring.Rat

/-!
# Statistics of the servers

The threads of the servers report their statistics to the monitor under metadata keys.  The monitor takes the keys apart and
keeps the reports in tables, under the public and the private address of the server with a slash between them; counts of
accesses are kept for each key under this text with the number of the thread behind a colon.  When a server departs, the
monitor drops the entries under its private address.

The tables of a tier are two levels deep in the source, by server and by thread.  Here an entry has both as its key.  The
other tables that a report fills are neither read nor changed by what is modelled here.
-/

namespace Dinomo

open List

/-- A text without the delimiters of messages and keys, as an address of a server is. -/
structure PlainAddress (a : Address) : Prop where
  ne_nil : a ≠ []
  no_colon : ':' ∉ a
  no_bar : '|' ∉ a
  no_slash : '/' ∉ a

/-- `Tier_Name`. -/
def Tier.name : Tier → KeyText
  | .memory => "MEMORY".toList
  | .storage => "STORAGE".toList

/-- `Tier_Parse`; without a result the tier stays uninitialised. -/
def Tier.parse (t : KeyText) : Option Tier := [Tier.memory, .storage].find? fun tier => tier.name = t

/-- What a thread reports, with the type under which it does. -/
inductive Statistics
  | serverStats (storageConsumption : ℕ) (occupancy : ℚ) (epoch : ℕ)
  | keyAccess (counts : List (KeyText × ℕ))
  | keySize (sizes : List (KeyText × ℕ))
deriving DecidableEq

/-- The name of the type. -/
def Statistics.typeName : Statistics → KeyText
  | .serverStats _ _ _ => "stats".toList
  | .keyAccess _ => "access".toList
  | .keySize _ => "size".toList

/-- A report of a thread. -/
structure Report where
  publicIp : Address
  privateIp : Address
  tid : ℕ
  tier : Tier
  statistics : Statistics

/-- `get_metadata_key`, for the statistics of a thread. -/
def Report.metadataKey (r : Report) : KeyText :=
  "ANNA_METADATA".toList ++ '|' :: (r.statistics.typeName ++ '|' :: (r.publicIp ++ '|' :: (r.privateIp ++ '|' ::
    (decimal r.tid ++ '|' :: r.tier.name))))

/-- A table with an entry for each thread. -/
abbrev StatTable (V : Type*) := List ((Address × ℕ) × V)

/-- `table[ip_pair][tid] = v`. -/
def StatTable.assign {V : Type*} (t : StatTable V) (ip : Address) (tid : ℕ) (v : V) : StatTable V :=
  t.filter (fun e => e.1 ≠ (ip, tid)) ++ [((ip, tid), v)]

/-- `table.erase(ip)`. -/
def StatTable.eraseIp {V : Type*} (t : StatTable V) (ip : Address) : StatTable V := t.filter fun e => e.1.1 ≠ ip

/-- The tables of the monitor: consumption and occupancy of a tier, and the accesses of each key. -/
structure StatTables where
  consumption : Tier → StatTable ℕ
  occupancy : Tier → StatTable (ℚ × ℕ)
  keyAccessFrequency : List ((KeyText × Address) × ℕ)

/-- `stoi` of a text that begins with a digit. -/
def stoi (t : KeyText) : Option ℕ :=
  let digits := t.takeWhile (KeyText.isDigit 10)
  if digits = [] then none else some (KeyText.value 10 digits)

/-- The text under which a server has its entries. -/
def ipPair (publicIp privateIp : Address) : Address := publicIp ++ '/' :: privateIp

/-- The items that `collect_internal_stats` reads from a key: the type, the text of the server, the thread and the tier. -/
def statTokens (k : KeyText) : Option (KeyText × Address × ℕ × Tier) :=
  match KeyText.split '|' k with
  | _ :: type :: publicIp :: privateIp :: tid :: tier :: _ =>
    (stoi tid).bind fun tid => (Tier.parse tier).map fun tier => (type, ipPair publicIp privateIp, tid, tier)
  | _ => none

namespace StatTables

/-- Tables without entries. -/
def empty : StatTables := ⟨fun _ => [], fun _ => [], []⟩

/-- `key_access_frequency[key][address] = count`. -/
def assignAccess (f : List ((KeyText × Address) × ℕ)) (key : KeyText) (address : Address) (count : ℕ) :
    List ((KeyText × Address) × ℕ) :=
  f.filter (fun e => e.1 ≠ (key, address)) ++ [((key, address), count)]

/-- The statistics of a thread go into the tables. -/
def store (s : StatTables) (ip : Address) (tid : ℕ) (tier : Tier) : Statistics → StatTables
  | .serverStats storageConsumption occupancy epoch =>
    { s with
      consumption := Function.update s.consumption tier ((s.consumption tier).assign ip tid storageConsumption)
      occupancy := Function.update s.occupancy tier ((s.occupancy tier).assign ip tid (occupancy, epoch)) }
  | .keyAccess counts =>
    { s with
      keyAccessFrequency := counts.foldl (fun f x => assignAccess f x.1 (ip ++ ':' :: decimal tid) x.2)
        s.keyAccessFrequency }
  | .keySize _ => s

/-- `collect_internal_stats`, for a tuple of a request; the type in its key tells what its payload is. -/
def collect (s : StatTables) (error : ℕ) (key : KeyText) (payload : Statistics) : Option StatTables :=
  if error = 0 then
    (statTokens key).map fun tokens =>
      if tokens.1 = payload.typeName then s.store tokens.2.1 tokens.2.2.1 tokens.2.2.2 payload else s
  else some s

/-- The counts of the threads of a departed server are erased, for every key. -/
def eraseThreads (f : List ((KeyText × Address) × ℕ)) (privateIp : Address) (threads : ℕ) :
    List ((KeyText × Address) × ℕ) :=
  (List.range threads).foldl (fun f i => f.filter fun e => e.1.2 ≠ privateIp ++ ':' :: decimal i) f

/-- `membership_handler` as far as it changes the tables; `threads` has the thread counts of the tiers. -/
def membershipHandler (threads : Tier → ℕ) (s : StatTables) (serialized : KeyText) : Option StatTables :=
  match KeyText.split ':' serialized with
  | type :: tier :: _ :: privateIp :: _ =>
    if type = "depart".toList then
      (Tier.parse tier).map fun tier =>
        { consumption := Function.update s.consumption tier ((s.consumption tier).eraseIp privateIp)
          occupancy := Function.update s.occupancy tier ((s.occupancy tier).eraseIp privateIp)
          keyAccessFrequency := eraseThreads s.keyAccessFrequency privateIp (threads tier) }
    else some s
  | _ => none

end StatTables

/-- The message of a server that departs. -/
def departMessage (tier : Tier) (publicIp privateIp : Address) : KeyText :=
  "depart".toList ++ ':' :: (tier.name ++ ':' :: (publicIp ++ ':' :: privateIp))

/-- What happens to the tables: a tuple of a report arrives, a server departs, or an epoch ends and they are cleared. -/
inductive StatEvent
  | report (error : ℕ) (r : Report)
  | depart (tier : Tier) (publicIp privateIp : Address)
  | epochEnd

/-- The addresses of an event are plain. -/
def StatEvent.Plain : StatEvent → Prop
  | .report _ r => PlainAddress r.publicIp ∧ PlainAddress r.privateIp
  | .depart _ publicIp privateIp => PlainAddress publicIp ∧ PlainAddress privateIp
  | .epochEnd => True

namespace StatTables

/-- One event. -/
def step (threads : Tier → ℕ) (s : StatTables) : StatEvent → Option StatTables
  | .report error r => s.collect error r.metadataKey r.statistics
  | .depart tier publicIp privateIp => s.membershipHandler threads (departMessage tier publicIp privateIp)
  | .epochEnd => some empty

/-- A history of events. -/
def run (threads : Tier → ℕ) (history : List StatEvent) : Option StatTables :=
  history.foldl (fun s e => s.bind fun s => s.step threads e) (some empty)

/-- The addresses of the server of an entry, as the removal policy reads them. -/
def serverOf (ip : Address) : Option (Address × Address) :=
  match KeyText.split '/' ip with
  | publicIp :: privateIp :: _ => some (publicIp, privateIp)
  | _ => none

/-- The server with the least occupancy, which the removal policy selects; `mean` is how the occupancies of the threads of a
server are summed up. -/
def leastOccupied (mean : List (ℚ × ℕ) → ℚ) (t : StatTable (ℚ × ℕ)) : ℚ × Option (Address × Address) :=
  (t.map fun e => e.1.1).eraseDups.foldl (fun best ip =>
    let occupancy := mean ((t.filter fun e => e.1.1 = ip).map Prod.snd)
    if occupancy < best.1 then (occupancy, serverOf ip) else best) (1, none)

end StatTables

/-- An entry of one of the tables. -/
inductive StatEntry
  | consumption (tier : Tier) (ip : Address) (tid : ℕ) (bytes : ℕ)
  | occupancy (tier : Tier) (ip : Address) (tid : ℕ) (occupancy : ℚ × ℕ)
  | access (key : KeyText) (address : Address) (count : ℕ)

/-- The tables have an entry. -/
def StatTables.Has (s : StatTables) : StatEntry → Prop
  | .consumption tier ip tid bytes => ((ip, tid), bytes) ∈ s.consumption tier
  | .occupancy tier ip tid occupancy => ((ip, tid), occupancy) ∈ s.occupancy tier
  | .access key address count => ((key, address), count) ∈ s.keyAccessFrequency

/-- An entry is one of a server. -/
def StatEntry.BelongsTo (publicIp privateIp : Address) : StatEntry → Prop
  | .consumption _ ip _ _ | .occupancy _ ip _ _ => ip = ipPair publicIp privateIp
  | .access _ address _ => ∃ tid, address = ipPair publicIp privateIp ++ ':' :: decimal tid

section Texts

variable {publicIp privateIp : Address}

/-- The text of a number is read as the number. -/
theorem stoi_decimal (n : ℕ) : stoi (decimal n) = some n := by
  obtain ⟨hvalue, hdigits, -⟩ := KeyText.value_toDigits n
  have hall : (decimal n).takeWhile (KeyText.isDigit 10) = decimal n := takeWhile_eq_self_iff.mpr hdigits
  simp only [stoi, hall]
  rw [if_neg (show decimal n ≠ [] from Nat.toDigits_ne_nil), decimal, hvalue]

/-- The name of a tier is read as the tier. -/
theorem Tier.parse_name (tier : Tier) : Tier.parse tier.name = some tier := by
  cases tier <;> decide

/-- The name of a tier has no delimiter. -/
theorem Tier.notMem_name (tier : Tier) : '|' ∉ tier.name ∧ ':' ∉ tier.name ∧ tier.name ≠ [] := by
  cases tier <;> decide

/-- The name of a type has no delimiter. -/
theorem Statistics.notMem_typeName (st : Statistics) : '|' ∉ st.typeName := by
  cases st <;> simp [Statistics.typeName]

/-- The items that the collector reads from a key with plain addresses. -/
theorem statTokens_append {name type : KeyText} (hname : '|' ∉ name) (htype : '|' ∉ type) (hpublic : PlainAddress publicIp)
    (hprivate : PlainAddress privateIp) (tid : ℕ) (tier : Tier) :
    statTokens (name ++ '|' :: (type ++ '|' :: (publicIp ++ '|' :: (privateIp ++ '|' :: (decimal tid ++ '|' :: tier.name))))) =
      some (type, ipPair publicIp privateIp, tid, tier) := by
  obtain ⟨hbar, -, hne⟩ := tier.notMem_name
  rw [statTokens, split_append_delim hname, split_append_delim htype, split_append_delim hpublic.no_bar,
    split_append_delim hprivate.no_bar, split_append_delim (notMem_decimal (by decide) tid),
    KeyText.split_of_notMem hbar hne]
  simp only [stoi_decimal, Tier.parse_name, Option.bind_some, Option.map_some]

/-- They are those of the report. -/
theorem statTokens_metadataKey {r : Report} (hpublic : PlainAddress r.publicIp) (hprivate : PlainAddress r.privateIp) :
    statTokens r.metadataKey = some (r.statistics.typeName, ipPair r.publicIp r.privateIp, r.tid, r.tier) :=
  statTokens_append (by decide) r.statistics.notMem_typeName hpublic hprivate r.tid r.tier

/-- The text of a server is taken apart at the slash. -/
theorem serverOf_ipPair (hpublic : PlainAddress publicIp) (hprivate : PlainAddress privateIp) :
    StatTables.serverOf (ipPair publicIp privateIp) = some (publicIp, privateIp) := by
  rw [StatTables.serverOf, ipPair, split_append_delim hpublic.no_slash,
    KeyText.split_of_notMem hprivate.no_slash hprivate.ne_nil]

/-- Entries of a server have a slash in their text. -/
theorem slash_mem_ipPair (publicIp privateIp : Address) : '/' ∈ ipPair publicIp privateIp :=
  mem_append_right _ mem_cons_self

end Texts

namespace StatTables

variable {s : StatTables} {publicIp privateIp : Address}

/-- Every entry is one of a server with plain addresses. -/
def Keyed (s : StatTables) : Prop :=
  ∀ e, s.Has e → ∃ publicIp privateIp, PlainAddress publicIp ∧ PlainAddress privateIp ∧ e.BelongsTo publicIp privateIp

/-- Counts that are assigned are kept under the given address. -/
theorem mem_foldl_assignAccess {address : Address} {counts : List (KeyText × ℕ)} {f : List ((KeyText × Address) × ℕ)}
    {e : (KeyText × Address) × ℕ} (he : e ∈ counts.foldl (fun f x => assignAccess f x.1 address x.2) f) :
    e ∈ f ∨ e.1.2 = address := by
  induction counts generalizing f with
  | nil => exact .inl he
  | cons x counts ih =>
    rcases ih he with he | he
    · rcases mem_append.mp he with he | he
      · exact .inl (mem_of_mem_filter he)
      · exact .inr (mem_singleton.mp he ▸ rfl)
    · exact .inr he

/-- An entry of a table after an assignment. -/
theorem mem_assign {V : Type*} {t : StatTable V} {ip : Address} {tid : ℕ} {v : V} {e : (Address × ℕ) × V}
    (he : e ∈ t.assign ip tid v) : e ∈ t ∨ e.1.1 = ip := by
  rcases mem_append.mp he with he | he
  · exact .inl (mem_of_mem_filter he)
  · exact .inr (mem_singleton.mp he ▸ rfl)

/-- An entry of the tables of the tiers after an assignment in one of them. -/
theorem mem_update_assign {V : Type*} {tables : Tier → StatTable V} {tier tier' : Tier} {ip : Address} {tid : ℕ} {v : V}
    {e : (Address × ℕ) × V} (he : e ∈ Function.update tables tier ((tables tier).assign ip tid v) tier') :
    e ∈ tables tier' ∨ e.1.1 = ip := by
  by_cases htier : tier' = tier
  · subst htier
    rw [Function.update_self] at he
    exact mem_assign he
  · rw [Function.update_of_ne htier] at he
    exact .inl he

/-- New entries are those of the server that reports. -/
theorem has_store {tid : ℕ} {tier : Tier} {st : Statistics} {e : StatEntry}
    (he : (s.store (ipPair publicIp privateIp) tid tier st).Has e) : s.Has e ∨ e.BelongsTo publicIp privateIp := by
  cases st with
  | serverStats storageConsumption occupancy epoch =>
    cases e with
    | consumption tier' ip tid' bytes => exact mem_update_assign he
    | occupancy tier' ip tid' occupancy => exact mem_update_assign he
    | access key address count => exact .inl he
  | keyAccess counts =>
    cases e with
    | consumption tier' ip tid' bytes => exact .inl he
    | occupancy tier' ip tid' occupancy => exact .inl he
    | access key address count => exact (mem_foldl_assignAccess he).imp_right fun heq => ⟨tid, heq⟩
  | keySize sizes => exact .inl he

/-- Nothing is erased under an address without a slash. -/
theorem Keyed.membershipHandler (h : s.Keyed) (threads : Tier → ℕ) (tier : Tier) (hpublic : PlainAddress publicIp)
    (hprivate : PlainAddress privateIp) :
    s.membershipHandler threads (departMessage tier publicIp privateIp) = some s := by
  have hsplit : KeyText.split ':' (departMessage tier publicIp privateIp) =
      ["depart".toList, tier.name, publicIp, privateIp] := by
    rw [departMessage, split_append_delim (by decide), split_append_delim tier.notMem_name.2.1,
      split_append_delim hpublic.no_colon, KeyText.split_of_notMem hprivate.no_colon hprivate.ne_nil]
  -- the texts of all entries have a slash, and what is erased has none
  have hip : ∀ {V : Type} (t : StatTable V), (∀ e ∈ t, '/' ∈ e.1.1) → t.eraseIp privateIp = t := fun t ht =>
    filter_eq_self.mpr fun e he => decide_eq_true fun heq => hprivate.no_slash (heq ▸ ht e he)
  have hconsumption : (s.consumption tier).eraseIp privateIp = s.consumption tier := hip _ fun e he => by
    obtain ⟨publicIp', privateIp', -, -, hpair⟩ := h (.consumption tier e.1.1 e.1.2 e.2) he
    exact (hpair : e.1.1 = _) ▸ slash_mem_ipPair _ _
  have hoccupancy : (s.occupancy tier).eraseIp privateIp = s.occupancy tier := hip _ fun e he => by
    obtain ⟨publicIp', privateIp', -, -, hpair⟩ := h (.occupancy tier e.1.1 e.1.2 e.2) he
    exact (hpair : e.1.1 = _) ▸ slash_mem_ipPair _ _
  have haccess : eraseThreads s.keyAccessFrequency privateIp (threads tier) = s.keyAccessFrequency := by
    have hone : ∀ i, (s.keyAccessFrequency.filter fun e => e.1.2 ≠ privateIp ++ ':' :: decimal i) =
        s.keyAccessFrequency := fun i => filter_eq_self.mpr fun e he => decide_eq_true fun heq => by
      obtain ⟨publicIp', privateIp', -, -, tid, hpair⟩ := h (.access e.1.1 e.1.2 e.2) he
      have hslash : '/' ∈ privateIp ++ ':' :: decimal i := heq ▸ hpair ▸ mem_append_left _ (slash_mem_ipPair _ _)
      rcases mem_append.mp hslash with hslash | hslash
      · exact hprivate.no_slash hslash
      · exact (mem_cons.mp hslash).elim (by decide) (notMem_decimal (by decide) i)
    exact List.foldlRecOn (List.range (threads tier)) _ (motive := fun f => f = s.keyAccessFrequency) rfl
      fun f hf i _ => hf ▸ hone i
  rw [StatTables.membershipHandler, hsplit]
  simp only [if_true, Tier.parse_name, Option.map_some, hconsumption, hoccupancy, haccess, Function.update_eq_self]

/-- An event with plain addresses keeps the entries in order. -/
theorem Keyed.step (h : s.Keyed) (threads : Tier → ℕ) {e : StatEvent} (he : e.Plain) : ∃ s', s.step threads e = some s' ∧ s'.Keyed := by
  cases e with
  | report error r =>
    obtain ⟨hpublic, hprivate⟩ := he
    rw [StatTables.step, collect]
    split_ifs
    · rw [statTokens_metadataKey hpublic hprivate, Option.map_some, if_pos rfl]
      refine ⟨_, rfl, fun entry hentry => ?_⟩
      rcases has_store hentry with hentry | hentry
      · exact h entry hentry
      · exact ⟨_, _, hpublic, hprivate, hentry⟩
    · exact ⟨s, rfl, h⟩
  | depart tier publicIp privateIp => exact ⟨s, h.membershipHandler threads tier he.1 he.2, h⟩
  | epochEnd =>
    refine ⟨_, rfl, fun entry hentry => ?_⟩
    cases entry <;> exact absurd hentry not_mem_nil

/-- So does a history. -/
theorem keyed_run (threads : Tier → ℕ) (history : List StatEvent) (hplain : ∀ e ∈ history, e.Plain) :
    ∃ s, run threads history = some s ∧ s.Keyed := by
  induction history using List.reverseRecOn with
  | nil =>
    refine ⟨empty, rfl, fun entry hentry => ?_⟩
    cases entry <;> exact absurd hentry not_mem_nil
  | append_singleton history e ih =>
    obtain ⟨s, hs, hkeyed⟩ := ih fun e he => hplain e (mem_append_left _ he)
    obtain ⟨s', hs', hkeyed'⟩ := hkeyed.step threads (hplain e (mem_append_right _ mem_cons_self))
    refine ⟨s', ?_, hkeyed'⟩
    rw [run, foldl_append, ← run, hs]
    exact hs'

/-- The removal policy selects a server that has an entry. -/
theorem exists_of_leastOccupied {mean : List (ℚ × ℕ) → ℚ} {t : StatTable (ℚ × ℕ)} {server : Address × Address}
    (hserver : (leastOccupied mean t).2 = some server) : ∃ e ∈ t, serverOf e.1.1 = some server := by
  have hloop : ∀ (ips : List Address) (best : ℚ × Option (Address × Address)),
      (∀ ip ∈ ips, ∃ e ∈ t, e.1.1 = ip) → (best.2 = some server → ∃ e ∈ t, serverOf e.1.1 = some server) →
      (ips.foldl (fun best ip => let occupancy := mean ((t.filter fun e => e.1.1 = ip).map Prod.snd)
        if occupancy < best.1 then (occupancy, serverOf ip) else best) best).2 = some server →
      ∃ e ∈ t, serverOf e.1.1 = some server := by
    intro ips
    induction ips with
    | nil => exact fun best _ hbest => hbest
    | cons ip ips ih =>
      intro best hips hbest
      refine ih _ (fun ip hip => hips ip (mem_cons_of_mem _ hip)) ?_
      dsimp only
      split_ifs
      · obtain ⟨e, he, rfl⟩ := hips ip mem_cons_self
        exact fun heq => ⟨e, he, heq⟩
      · exact hbest
  refine hloop _ (1, none) (fun ip hip => ?_) (fun heq => absurd heq (by simp)) hserver
  obtain ⟨e, he, heq⟩ := mem_map.mp (mem_eraseDups.mp hip)
  exact ⟨e, he, heq⟩

/-- What the departure of a server should do: its entries are gone, those of the others are as before, and the removal
policy does not select it. -/
structure Forgets (mean : List (ℚ × ℕ) → ℚ) (s s' : StatTables) (publicIp privateIp : Address) : Prop where
  gone : ∀ e, s'.Has e → ¬e.BelongsTo publicIp privateIp
  others : ∀ e, ¬e.BelongsTo publicIp privateIp → (s'.Has e ↔ s.Has e)
  notSelected : (leastOccupied mean (s'.occupancy .memory)).2 ≠ some (publicIp, privateIp)

end StatTables

/-- After every history of reports, departures and ends of epochs, the message of a departing server makes the monitor forget
the server if and only if it has no statistics of it. -/
theorem departed_forgotten_iff (threads : Tier → ℕ) (mean : List (ℚ × ℕ) → ℚ) (history : List StatEvent)
    (hplain : ∀ e ∈ history, e.Plain) (tier : Tier) {publicIp privateIp : Address} (hpublic : PlainAddress publicIp)
    (hprivate : PlainAddress privateIp) :
    ∃ s s', StatTables.run threads history = some s ∧
      s.membershipHandler threads (departMessage tier publicIp privateIp) = some s' ∧
      (StatTables.Forgets mean s s' publicIp privateIp ↔ ∀ e, s.Has e → ¬e.BelongsTo publicIp privateIp) := by
  obtain ⟨s, hs, hkeyed⟩ := StatTables.keyed_run threads history hplain
  refine ⟨s, s, hs, hkeyed.membershipHandler threads tier hpublic hprivate, fun h => h.gone, fun hnone => ?_⟩
  refine ⟨hnone, fun e _ => Iff.rfl, fun hselected => ?_⟩
  obtain ⟨e, he, hserver⟩ := StatTables.exists_of_leastOccupied hselected
  obtain ⟨publicIp', privateIp', hpublic', hprivate', hpair⟩ := hkeyed (.occupancy .memory e.1.1 e.1.2 e.2) he
  have hpair : e.1.1 = ipPair publicIp' privateIp' := hpair
  rw [hpair, serverOf_ipPair hpublic' hprivate'] at hserver
  cases hserver
  exact hnone (.occupancy .memory e.1.1 e.1.2 e.2) he hpair

/-- A thread of a server reports that it is hardly used. -/
def idleReport : Report where
  publicIp := "52.0.0.1".toList
  privateIp := "10.0.0.1".toList
  tid := 0
  tier := .memory
  statistics := .serverStats 100 (1 / 20) 7

/-- The tables with its report. -/
def idleTables : StatTables :=
  StatTables.empty.store (ipPair "52.0.0.1".toList "10.0.0.1".toList) 0 .memory (.serverStats 100 (1 / 20) 7)

/-- The mean occupancy of the threads of a server. -/
def meanOccupancy (l : List (ℚ × ℕ)) : ℚ := (l.map Prod.fst).sum / l.length

/-- The addresses in the report are plain. -/
theorem plain_idleReport : PlainAddress "52.0.0.1".toList ∧ PlainAddress "10.0.0.1".toList :=
  ⟨⟨by decide, by decide, by decide, by decide⟩, ⟨by decide, by decide, by decide, by decide⟩⟩

/-- The report leads to the tables. -/
theorem run_idleReport : StatTables.run (fun _ => 1) [.report 0 idleReport] = some idleTables := by
  have htokens := statTokens_metadataKey (r := idleReport) plain_idleReport.1 plain_idleReport.2
  rw [StatTables.run, foldl_cons, foldl_nil, Option.bind_some, StatTables.step, StatTables.collect, if_pos rfl,
    htokens, Option.map_some, if_pos rfl]
  rfl

/-- Another server, of which there are no statistics, is forgotten. -/
theorem departed_forgotten_iff_idleReport :
    ∃ s s', StatTables.run (fun _ => 1) [.report 0 idleReport] = some s ∧
      s.membershipHandler (fun _ => 1) (departMessage .memory "52.0.0.2".toList "10.0.0.2".toList) = some s' ∧
      StatTables.Forgets meanOccupancy s s' "52.0.0.2".toList "10.0.0.2".toList := by
  obtain ⟨s, s', hs, hs', hiff⟩ := departed_forgotten_iff (fun _ => 1) meanOccupancy [.report 0 idleReport]
    (fun e he => List.mem_singleton.mp he ▸ plain_idleReport) .memory
    (⟨by decide, by decide, by decide, by decide⟩ : PlainAddress "52.0.0.2".toList)
    (⟨by decide, by decide, by decide, by decide⟩ : PlainAddress "10.0.0.2".toList)
  refine ⟨s, s', hs, hs', hiff.mpr fun e he hbelongs => ?_⟩
  obtain rfl := Option.some.inj (run_idleReport.symm.trans hs)
  cases e with
  | consumption tier ip tid bytes =>
    rcases StatTables.has_store he with hold | hnew
    · exact absurd hold List.not_mem_nil
    · exact absurd ((hnew : ip = _).symm.trans hbelongs) (by decide)
  | occupancy tier ip tid occupancy =>
    rcases StatTables.has_store he with hold | hnew
    · exact absurd hold List.not_mem_nil
    · exact absurd ((hnew : ip = _).symm.trans hbelongs) (by decide)
  | access key address count => exact absurd he List.not_mem_nil

/-- A server that has reported departs: its entries stay, and the removal policy selects it. -/
theorem departed_server_selected :
    ∃ s', idleTables.membershipHandler (fun _ => 1) (departMessage .memory "52.0.0.1".toList "10.0.0.1".toList) = some s' ∧
      StatTables.run (fun _ => 1) [.report 0 idleReport] = some idleTables ∧
      s'.Has (.consumption .memory (ipPair "52.0.0.1".toList "10.0.0.1".toList) 0 100) ∧
      s'.Has (.occupancy .memory (ipPair "52.0.0.1".toList "10.0.0.1".toList) 0 (1 / 20, 7)) ∧
      StatTables.leastOccupied meanOccupancy (s'.occupancy .memory) =
        (1 / 20, some ("52.0.0.1".toList, "10.0.0.1".toList)) := by
  obtain ⟨s, hs, hkeyed⟩ := StatTables.keyed_run (fun _ => 1) [.report 0 idleReport]
    (fun e he => List.mem_singleton.mp he ▸ plain_idleReport)
  obtain rfl := Option.some.inj (run_idleReport.symm.trans hs)
  refine ⟨idleTables, hkeyed.membershipHandler _ .memory plain_idleReport.1 plain_idleReport.2, hs, List.mem_singleton.mpr rfl,
    List.mem_singleton.mpr rfl, ?_⟩
  decide +kernel

end Dinomo
