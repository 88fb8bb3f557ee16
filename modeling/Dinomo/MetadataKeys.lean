import Dinomo.ReplicationRounds
import Dinomo.ServerStatistics

/-!
# Metadata keys

The factors of a key and the statistics of a thread are stored under keys of their own.  Such a key is an identifier, a type
and the data it is about, with delimiters between them.  `get_key_from_metadata` looks for the first two delimiters by their
positions, while `is_metadata` and `split_metadata_key` cut the whole key at its delimiters.
-/

namespace Dinomo

open List

/-- `MetadataType`. -/
inductive MetadataType
  | replication
  | serverStats
  | keyAccess
  | keySize
deriving DecidableEq

/-- `Tier`, with the values that are no tier of servers. -/
inductive TierId
  | unspecified
  | memory
  | storage
  | routing
deriving DecidableEq

/-- `Tier_Name`, for all values. -/
def TierId.name : TierId → KeyText
  | .unspecified => "TIER_UNSPECIFIED".toList
  | .memory => "MEMORY".toList
  | .storage => "STORAGE".toList
  | .routing => "ROUTING".toList

/-- `Tier_Parse`. -/
def TierId.parse (t : KeyText) : Option TierId :=
  [TierId.unspecified, .memory, .storage, .routing].find? fun tier => tier.name = t

/-- The name of a type in the key of a thread.  The replication factors are not stored for a thread. -/
def MetadataType.name : MetadataType → Option KeyText
  | .replication => none
  | .serverStats => some "stats".toList
  | .keyAccess => some "access".toList
  | .keySize => some "size".toList

/-- The type with a name. -/
def MetadataType.parse (t : KeyText) : Option MetadataType :=
  [MetadataType.serverStats, .keyAccess, .keySize].find? fun type => type.name = some t

/-- The value of a tier of servers. -/
def Tier.id : Tier → TierId
  | .memory => .memory
  | .storage => .storage

/-- The type of a report. -/
def Statistics.type : Statistics → MetadataType
  | .serverStats _ _ _ => .serverStats
  | .keyAccess _ => .keyAccess
  | .keySize _ => .keySize

/-- `get_metadata_key`, for a thread. -/
def threadMetadataKey (publicIp privateIp : Address) (tier : TierId) (threadNum : ℕ) (type : MetadataType) : KeyText :=
  match type.name with
  | none => []
  | some name => "ANNA_METADATA".toList ++ '|' :: (name ++ '|' :: (publicIp ++ '|' :: (privateIp ++ '|' ::
      (decimal threadNum ++ '|' :: tier.name))))

/-- `get_metadata_key`, for a data key. -/
def dataMetadataKey (k : KeyText) (type : MetadataType) : KeyText :=
  if type = .replication then getMetadataKey k else []

/-- `split_metadata_key`. -/
def splitMetadataKey (k : KeyText) : List KeyText := KeyText.split '|' k

namespace KeyText

/-- `find` of the delimiter from a position on; `none` is `npos`. -/
def find (k : KeyText) (pos : ℕ) : Option ℕ := ((k.drop pos).findIdx? (· = '|')).map (pos + ·)

/-- The position behind one that was found.  The sum of `npos` and one is zero. -/
def behind (n : Option ℕ) : ℕ := n.elim 0 (· + 1)

/-- `substr` from a position up to one that was found, or to the end. -/
def substr (k : KeyText) (pos : ℕ) (n : Option ℕ) : KeyText := n.elim (k.drop pos) fun n => (k.drop pos).take (n - pos)

/-- `get_key_from_metadata`, by positions. -/
def keyFromMetadata (k : KeyText) : KeyText :=
  let nId := k.find 0
  let nType := k.find (behind nId)
  if k.substr (behind nId) nType = "replication".toList then k.drop (behind nType) else []

/-- From a position on, the text up to the next delimiter is read, and then the text behind it. -/
theorem substr_find (k : KeyText) (pos : ℕ) :
    k.substr pos (k.find pos) = (k.drop pos).takeWhile (· ≠ '|') ∧
    k.drop (behind (k.find pos)) = if '|' ∈ k.drop pos then ((k.drop pos).dropWhile (· ≠ '|')).tail else k := by
  by_cases hmem : '|' ∈ k.drop pos
  · obtain ⟨a, b, heq, ha⟩ := eq_append_cons_of_mem hmem
    have hnot : a.findIdx? (· = '|') = none := by simpa using fun c hc => ne_of_mem_of_not_mem hc ha
    have hfind : k.find pos = some (pos + a.length) := by
      rw [find, heq, List.findIdx?_append, hnot]
      simp [List.findIdx?_cons]
    have hdrop : k.drop (pos + a.length + 1) = b := by
      rw [Nat.add_assoc, ← drop_drop, heq, ← drop_drop, drop_left, drop_one, tail_cons]
    obtain ⟨hread, hrest⟩ := takeWhile_append_delim ha b
    rw [if_pos hmem, hfind]
    simp only [substr, behind, Option.elim_some, heq, hread, hrest, hdrop, tail_cons, and_true,
      Nat.add_sub_cancel_left, take_left]
  · have hfind : k.find pos = none := by
      rw [find, Option.map_eq_none_iff]
      simpa using fun c hc => ne_of_mem_of_not_mem hc hmem
    have hall : ∀ c ∈ k.drop pos, decide (c ≠ '|') = true := fun c hc => decide_eq_true (ne_of_mem_of_not_mem hc hmem)
    rw [if_neg hmem, hfind, takeWhile_eq_self_iff.mpr hall]
    exact ⟨rfl, drop_zero⟩

/-- The positions cut a key at its first delimiters. -/
theorem keyFromMetadata_eq (k : KeyText) : k.keyFromMetadata = getKeyFromMetadata k := by
  obtain ⟨-, hrest⟩ := substr_find k 0
  obtain ⟨htype, hkey⟩ := substr_find k (behind (k.find 0))
  rw [drop_zero] at hrest
  simp only [keyFromMetadata, getKeyFromMetadata, dataKey, htype, hkey, hrest]

/-- A text behind the identifier is metadata. -/
theorem isMetadata_append (k : KeyText) : isMetadata ("ANNA_METADATA".toList ++ '|' :: k) = some true := by
  rw [isMetadata, split_append_delim (by decide), List.head?_cons, Option.map_some, decide_eq_true rfl]

end KeyText

section Keys

variable {publicIp privateIp : Address} {tier : TierId} {threadNum : ℕ} {type : MetadataType} {name : KeyText}

theorem TierId.parse_name (tier : TierId) : TierId.parse tier.name = some tier ∧ '|' ∉ tier.name ∧ tier.name ≠ [] := by
  cases tier <;> decide

/-- The types of statistics have names without delimiter, which are not that of the replication factors. -/
theorem MetadataType.exists_name (htype : type ≠ .replication) : ∃ name, type.name = some name ∧
    MetadataType.parse name = some type ∧ '|' ∉ name ∧ name ≠ "replication".toList := by
  cases type with
  | replication => exact absurd rfl htype
  | _ => exact ⟨_, rfl, by decide⟩

theorem threadMetadataKey_eq (hname : type.name = some name) : threadMetadataKey publicIp privateIp tier threadNum type =
    "ANNA_METADATA".toList ++ '|' :: (name ++ '|' :: (publicIp ++ '|' :: (privateIp ++ '|' ::
      (decimal threadNum ++ '|' :: tier.name)))) := by
  rw [threadMetadataKey, hname]

/-- The items of a statistics key. -/
theorem splitMetadataKey_thread (hname : type.name = some name) (hbar : '|' ∉ name) (hpublic : '|' ∉ publicIp)
    (hprivate : '|' ∉ privateIp) : splitMetadataKey (threadMetadataKey publicIp privateIp tier threadNum type) =
      ["ANNA_METADATA".toList, name, publicIp, privateIp, decimal threadNum, tier.name] := by
  obtain ⟨-, htier, hne⟩ := tier.parse_name
  rw [threadMetadataKey_eq hname, splitMetadataKey, split_append_delim (by decide), split_append_delim hbar, split_append_delim hpublic, split_append_delim hprivate,
    split_append_delim (notMem_decimal (by decide) _), KeyText.split_of_notMem htier hne]

/-- Keys with one identifier have the same type if they are equal. -/
theorem type_eq_of_append {identifier type type' k k' : KeyText} (htype : '|' ∉ type) (htype' : '|' ∉ type')
    (heq : identifier ++ '|' :: (type ++ '|' :: k) = identifier ++ '|' :: (type' ++ '|' :: k')) : type = type' := by
  have hrest := (List.cons.inj (append_cancel_left heq)).2
  rw [← (takeWhile_append_delim htype k).1, hrest, (takeWhile_append_delim htype' k').1]

/-- A statistics key is no replication key. -/
theorem threadMetadataKey_ne_data (hname : type.name = some name) (hbar : '|' ∉ name) (hne : name ≠ "replication".toList)
    (k : KeyText) : threadMetadataKey publicIp privateIp tier threadNum type ≠ dataMetadataKey k .replication := by
  intro heq
  rw [threadMetadataKey_eq hname] at heq
  exact hne (type_eq_of_append hbar (by decide) heq)

/-- The keys of the reports are those of the threads. -/
theorem Report.metadataKey_eq (r : Report) :
    r.metadataKey = threadMetadataKey r.publicIp r.privateIp r.tier.id r.tid r.statistics.type := by
  obtain ⟨_, _, _, tier, statistics⟩ := r
  cases tier <;> cases statistics <;> rfl

end Keys

/-- Every key is read from its replication key, which is metadata.  A key of statistics is metadata and no replication key,
and if the addresses have no delimiter, its items are the identifier, the type, the addresses, the number of the thread and
the tier. -/
theorem metadata_keys_inverted :
    (∀ k : KeyText, (dataMetadataKey k .replication).keyFromMetadata = k ∧
      KeyText.isMetadata (dataMetadataKey k .replication) = some true) ∧
    ∀ (publicIp privateIp : Address) (tier : TierId) (threadNum : ℕ) (type : MetadataType), type ≠ .replication →
      KeyText.isMetadata (threadMetadataKey publicIp privateIp tier threadNum type) = some true ∧
      (∀ k, threadMetadataKey publicIp privateIp tier threadNum type ≠ dataMetadataKey k .replication) ∧
      ('|' ∉ publicIp → '|' ∉ privateIp → ∃ typeText numText tierText,
        splitMetadataKey (threadMetadataKey publicIp privateIp tier threadNum type) =
          ["ANNA_METADATA".toList, typeText, publicIp, privateIp, numText, tierText] ∧
        MetadataType.parse typeText = some type ∧ KeyText.value 10 numText = threadNum ∧
        TierId.parse tierText = some tier) := by
  refine ⟨fun k => ⟨?_, KeyText.isMetadata_append _⟩, fun publicIp privateIp tier threadNum type htype => ?_⟩
  · rw [KeyText.keyFromMetadata_eq]
    exact getKeyFromMetadata_getMetadataKey k
  · obtain ⟨name, hname, hparse, hbar, hne⟩ := MetadataType.exists_name htype
    refine ⟨?_, threadMetadataKey_ne_data hname hbar hne, fun hpublic hprivate => ?_⟩
    · rw [threadMetadataKey_eq hname]
      exact KeyText.isMetadata_append _
    · exact ⟨name, decimal threadNum, tier.name, splitMetadataKey_thread hname hbar hpublic hprivate, hparse,
        (KeyText.value_toDigits threadNum).1, tier.parse_name.1⟩

/-- A key with delimiters, and the items of a statistics key. -/
theorem metadata_keys_inverted_access :
    (dataMetadataKey "|a|".toList .replication).keyFromMetadata = "|a|".toList ∧ ∃ typeText numText tierText,
      splitMetadataKey (threadMetadataKey "10.0.0.1".toList "10.0.0.2".toList .memory 3 .keyAccess) =
        ["ANNA_METADATA".toList, typeText, "10.0.0.1".toList, "10.0.0.2".toList, numText, tierText] ∧
      MetadataType.parse typeText = some .keyAccess ∧ KeyText.value 10 numText = 3 ∧
      TierId.parse tierText = some .memory :=
  ⟨(metadata_keys_inverted.1 _).1,
    (metadata_keys_inverted.2 _ _ _ _ _ (by decide)).2.2 (by decide) (by decide)⟩

end Dinomo
