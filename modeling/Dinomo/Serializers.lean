import Dinomo.KeyNumbers
import Dinomo.Server

/-!
# The serializers of a KVS thread

A thread has one serializer for each lattice type but `NONE`.  The one for last-writer-wins values reads a number
from a data key and calls the Dinomo store; the others keep a map from keys to lattices of their type, and all their
calls but `get` and `put` have empty bodies.  The calls return what can stop the thread: an exception of `stoul` or a
null pointer in the table of serializers.
-/

namespace Dinomo

/-- What stops a thread in the middle of a request. -/
inductive Fault
  | emptyVector
  | endlessSearch
  | stoul (e : StoulError)
  | noSerializer
deriving DecidableEq, Repr

/-- The calls of `DinomoKVStore`; its data keys are numbers. -/
structure Kvs (δ : Type*) where
  get : ℕ → δ → (String × AnnaError) × δ
  getReplicated : ℕ → δ → (String × AnnaError) × δ
  getMeta : KeyText → δ → (String × AnnaError) × δ
  put : ℕ → String → δ → Bool × δ
  update : ℕ → String → δ → Bool × δ
  putReplicated : ℕ → String → δ → δ
  updateReplicated : ℕ → String → δ → δ
  putMeta : KeyText → String → δ → δ

/-- The text form of a last-writer-wins value, a timestamp and a value; that of the default value is empty. -/
structure LwwCodec where
  serialize : ℕ × String → String
  deserialize : String → ℕ × String
  deserialize_serialize : ∀ v, deserialize (serialize v) = v
  serialize_default : serialize (0, "") = ""

/-- Timestamps as so many zeros. -/
def LwwCodec.unary : LwwCodec where
  serialize v := if v = (0, "") then "" else String.ofList (List.replicate v.1 '0' ++ ',' :: v.2.toList)
  deserialize text :=
    ((text.toList.takeWhile (· = '0')).length, String.ofList ((text.toList.dropWhile (· = '0')).drop 1))
  deserialize_serialize v := by
    by_cases hv : v = (0, "")
    · rw [if_pos hv, hv]
      decide
    · have htake : (List.replicate v.1 '0' ++ ',' :: v.2.toList).takeWhile (fun x => decide (x = '0')) =
          List.replicate v.1 '0' := by
        rw [List.takeWhile_append_of_pos (by simp), List.takeWhile_cons_of_neg (by decide), List.append_nil]
      have hdrop : (List.replicate v.1 '0' ++ ',' :: v.2.toList).dropWhile (fun x => decide (x = '0')) =
          ',' :: v.2.toList := by
        rw [List.dropWhile_append_of_pos (by simp), List.dropWhile_cons_of_neg (by decide)]
      rw [if_neg hv, String.toList_ofList, htake, hdrop]
      simp
  serialize_default := rfl

/-- The lattices of the types that are not last-writer-wins. -/
structure LatticeOps (W : LatticeType → Type*) where
  bottom : ∀ t, W t
  merge : ∀ t, W t → W t → W t
  size : ∀ t, W t → ℕ
  isEmpty : ∀ t, W t → Bool
  serialize : ∀ t, W t → String
  deserialize : ∀ t, String → W t

/-- The stores of a thread.  `performed` lists the calls that reached one of them. -/
structure NodeStore (δ : Type*) (W : LatticeType → Type*) where
  kvs : δ
  lattices : ∀ t, KeyText → Option (W t)
  performed : List (Executed KeyText)

/-- `Serializer`, with the faults of its calls. -/
structure FallibleSerializer (σ : Type*) where
  get : KeyText → σ → Except Fault ((String × AnnaError) × σ)
  getReplicated : KeyText → σ → Except Fault ((String × AnnaError) × σ)
  getMeta : KeyText → σ → Except Fault ((String × AnnaError) × σ)
  put : KeyText → String → σ → Except Fault (Bool × σ)
  update : KeyText → String → σ → Except Fault (Bool × σ)
  putReplicated : KeyText → String → σ → Except Fault σ
  updateReplicated : KeyText → String → σ → Except Fault σ
  putMeta : KeyText → String → σ → Except Fault σ

section Serializers

variable {δ : Type*} {W : LatticeType → Type*}

namespace NodeStore

/-- A call of the Dinomo store. -/
def withKvs (s : NodeStore δ W) (kvs : δ) (call : Executed KeyText) : NodeStore δ W :=
  { s with kvs := kvs, performed := s.performed ++ [call] }

/-- `KVStore::put`: the entry of the key, created if it is missing, is merged with the value. -/
def putLattice (ops : LatticeOps W) (t : LatticeType) (s : NodeStore δ W) (k : KeyText) (payload : String) :
    NodeStore δ W :=
  let value := ops.merge t ((s.lattices t k).getD (ops.bottom t)) (ops.deserialize t payload)
  { s with
    lattices := Function.update s.lattices t (Function.update (s.lattices t) k (some value))
    performed := s.performed ++ [.put false k payload] }

end NodeStore

/-- A call with the number of a key. -/
def withNumber {α : Type*} (k : KeyText) (f : ℕ → α) : Except Fault α :=
  match k.stoul with
  | .error e => .error (.stoul e)
  | .ok n => .ok (f n)

/-- A call with a key that has a number. -/
theorem withNumber_ok {α : Type*} {k : KeyText} {n : ℕ} (h : k.stoul = .ok n) (f : ℕ → α) : withNumber k f = .ok (f n) := by
  rw [withNumber, h]

/-- A call with a key that has none. -/
theorem withNumber_error {α : Type*} {k : KeyText} {e : StoulError} (h : k.stoul = .error e) (f : ℕ → α) :
    withNumber k f = .error (.stoul e) := by
  rw [withNumber, h]

/-- What the last-writer-wins serializer makes of the bytes it read. -/
def LwwCodec.read (codec : LwwCodec) (res : String × AnnaError) : String × AnnaError :=
  (codec.serialize (codec.deserialize res.1), if (codec.deserialize res.1).2 = "" then .keyDne else res.2)

/-- `MemoryLWWSerializer`. -/
def lwwSerializer (kvs : Kvs δ) (codec : LwwCodec) : FallibleSerializer (NodeStore δ W) where
  get k s := withNumber k fun n =>
    let got := kvs.get n s.kvs
    (codec.read got.1, s.withKvs got.2 (.get false k))
  getReplicated k s := withNumber k fun n =>
    let got := kvs.getReplicated n s.kvs
    (codec.read got.1, s.withKvs got.2 (.get true k))
  getMeta k s :=
    let got := kvs.getMeta k s.kvs
    .ok (codec.read got.1, s.withKvs got.2 (.getMeta k))
  put k payload s := withNumber k fun n =>
    let done := kvs.put n payload s.kvs
    (done.1, s.withKvs done.2 (.put false k payload))
  update k payload s := withNumber k fun n =>
    let done := kvs.update n payload s.kvs
    (done.1, s.withKvs done.2 (.update false k payload))
  putReplicated k payload s := withNumber k fun n =>
    s.withKvs (kvs.putReplicated n payload s.kvs) (.put true k payload)
  updateReplicated k payload s := withNumber k fun n =>
    s.withKvs (kvs.updateReplicated n payload s.kvs) (.update true k payload)
  putMeta k payload s := .ok (s.withKvs (kvs.putMeta k payload s.kvs) (.putMeta k payload))

/-- `MemorySetSerializer` and the serializers like it: only `get` and `put` have a body. -/
def memorySerializer (ops : LatticeOps W) (t : LatticeType) : FallibleSerializer (NodeStore δ W) where
  get k s :=
    let value := (s.lattices t k).getD (ops.bottom t)
    -- the serializer of ordered sets makes no test for an empty value
    let missing := (s.lattices t k).isNone || (t ≠ .orderedSet && ops.isEmpty t value)
    .ok ((ops.serialize t value, if missing then .keyDne else .noError), s)
  getReplicated _ s := .ok (("", .noError), s)
  getMeta _ s := .ok (("", .noError), s)
  put k payload s :=
    let s' := s.putLattice ops t k payload
    .ok (ops.size t ((s'.lattices t k).getD (ops.bottom t)) ≠ 0, s')
  update _ _ s := .ok (true, s)
  putReplicated _ _ s := .ok s
  updateReplicated _ _ s := .ok s
  putMeta _ _ s := .ok s

/-- The table `serializers` that `run` fills in. -/
def serializerMap (kvs : Kvs δ) (codec : LwwCodec) (ops : LatticeOps W) :
    LatticeType → Option (FallibleSerializer (NodeStore δ W))
  | .none => none
  | .lww => some (lwwSerializer kvs codec)
  | t => some (memorySerializer ops t)

end Serializers

end Dinomo
