/-
# `Dpx.Engine.Interface` — keys, records, batches and the engine boundary

What every layer of the store agrees on (`engine/engine.go`, and the record
codecs of `conductor/fsm.go` and `engine/memory/memory.go`):

  * keys and values are byte strings; a Go string, a `[]byte` and a map key are
    all `Bytes`, ordered bytewise as Go orders strings;
  * a Go map or the ordered B-tree over such keys is `GoMap`: finite,
    extensional, listed in ascending key order;
  * the reserved key space `__dpx:` holds one version record per user key and
    the applied index;
  * a batch is the list of its mutations in call order; `BatchOp.effect` says
    what a batch does to ONE key, which is the specification every engine is
    measured against (`LawfulEngine`).

`uint64` quantities that are stored or compared (epochs, indices) are `UInt64`.
-/
import Std.Data.ExtTreeMap
import Dpx.Lib.LittleEndian

namespace Dpx

abbrev Bytes := List UInt8

abbrev Key := Bytes

/-- A Go map with byte-string keys, or the ordered tree over them. -/
abbrev GoMap (β : Type) := Std.ExtTreeMap Key β

/-- Bytewise order, as Go compares strings. -/
def less (a b : Key) : Bool := compare a b == .lt

/-! ## Epoch records -/

/-- The log index of the last write to a key, and whether it was a credit. -/
structure EpochRecord where
  epoch : UInt64
  isCredit : Bool
  deriving DecidableEq, Repr

/-- The zero record: what a map read of an absent key yields. -/
def EpochRecord.zero : EpochRecord := ⟨0, false⟩

/-- `m[k]` on a map of epoch records. -/
def epochOf (m : GoMap EpochRecord) (k : Key) : EpochRecord := (m[k]?).getD .zero

/-- Nine bytes: the epoch little-endian, then the credit flag. -/
def encodeEpochRecord (er : EpochRecord) : Bytes :=
  LittleEndian.putUint64 er.epoch ++ [if er.isCredit then 1 else 0]

/-- The conductor's decoder: `none` on a short record. -/
def decodeEpochRecord? (b : Bytes) : Option EpochRecord :=
  if b.length < 9 then none
  else some ⟨LittleEndian.uint64 b, b[8]?.getD 0 == 1⟩

/-- The engines' decoder: the zero record on a short one. -/
def decodeEpochRecord (b : Bytes) : EpochRecord :=
  if b.length < 9 then .zero
  else ⟨LittleEndian.uint64 (b.take 8), b[8]?.getD 0 == 1⟩

def encodeUint64 (v : UInt64) : Bytes := LittleEndian.putUint64 v

@[simp] theorem length_encodeEpochRecord (er : EpochRecord) :
    (encodeEpochRecord er).length = 9 := by
  simp [encodeEpochRecord]

theorem encodeEpochRecord_flag (er : EpochRecord) :
    (encodeEpochRecord er)[8]? = some (if er.isCredit then 1 else 0) := by
  simp [encodeEpochRecord]

@[simp] theorem decodeEpochRecord?_encode (er : EpochRecord) :
    decodeEpochRecord? (encodeEpochRecord er) = some er := by
  obtain ⟨e, c⟩ := er
  simp only [decodeEpochRecord?, length_encodeEpochRecord, encodeEpochRecord_flag]
  cases c <;> simp [encodeEpochRecord]

@[simp] theorem decodeEpochRecord_encode (er : EpochRecord) :
    decodeEpochRecord (encodeEpochRecord er) = er := by
  have htake : (encodeEpochRecord er).take 8 = LittleEndian.putUint64 er.epoch :=
    List.take_left' (LittleEndian.length_putUint64 _)
  obtain ⟨e, c⟩ := er
  simp only [decodeEpochRecord, length_encodeEpochRecord, encodeEpochRecord_flag, htake]
  cases c <;> simp

/-! ## Balances -/

def encodeInt64 (v : Int64) : Bytes := LittleEndian.putUint64 v.toUInt64

/-- A value shorter than eight bytes counts as zero. -/
def decodeInt64 (b : Bytes) : Int64 :=
  if b.length < 8 then 0 else (LittleEndian.uint64 b).toInt64

def mergeInt64 (base delta : Bytes) : Bytes :=
  encodeInt64 (decodeInt64 base + decodeInt64 delta)

@[simp] theorem decodeInt64_encodeInt64 (v : Int64) : decodeInt64 (encodeInt64 v) = v := by
  simp [decodeInt64, encodeInt64]

theorem encodeInt64_inj {a b : Int64} : encodeInt64 a = encodeInt64 b ↔ a = b := by
  constructor
  · intro hab
    rw [← decodeInt64_encodeInt64 a, hab, decodeInt64_encodeInt64]
  · rintro rfl
    rfl

theorem length_encodeInt64 (v : Int64) : (encodeInt64 v).length = 8 := by
  simp [encodeInt64]

theorem encodeInt64_decodeInt64 {b : Bytes} (hb : b.length = 8) :
    encodeInt64 (decodeInt64 b) = b := by
  rw [decodeInt64, if_neg (by omega), encodeInt64]
  exact LittleEndian.putUint64_uint64 hb

/-! ## The reserved key space -/

/-- `"__dpx:"` -/
def dpxPrefix : Bytes := [0x5f, 0x5f, 0x64, 0x70, 0x78, 0x3a]

/-- `"__dpx:ver:"` -/
def verPrefix : Bytes := dpxPrefix ++ [0x76, 0x65, 0x72, 0x3a]

/-- `"__dpx:applied"` -/
def appliedKey : Key := dpxPrefix ++ [0x61, 0x70, 0x70, 0x6c, 0x69, 0x65, 0x64]

def versionKey (key : Key) : Key := verPrefix ++ key

def isReserved (key : Key) : Bool := dpxPrefix.isPrefixOf key

theorem versionKey_inj {a b : Key} : versionKey a = versionKey b ↔ a = b := by
  simp [versionKey]

theorem isReserved_versionKey (k : Key) : isReserved (versionKey k) = true := by
  simp [isReserved, versionKey, verPrefix, dpxPrefix, List.isPrefixOf]

theorem isReserved_appliedKey : isReserved appliedKey = true := by decide

theorem versionKey_ne_appliedKey (k : Key) : versionKey k ≠ appliedKey := by
  simp [versionKey, verPrefix, appliedKey, dpxPrefix]

theorem ne_versionKey_of_user {k : Key} (hk : isReserved k = false) (j : Key) :
    k ≠ versionKey j := by
  rintro rfl
  rw [isReserved_versionKey] at hk
  exact Bool.noConfusion hk

theorem ne_appliedKey_of_user {k : Key} (hk : isReserved k = false) : k ≠ appliedKey := by
  rintro rfl
  rw [isReserved_appliedKey] at hk
  exact Bool.noConfusion hk

/-! ## Batches -/

/-- One mutation of a batch: `'s'`, `'d'` or `'m'`. -/
inductive BatchOp where
  | set (key value : Bytes)
  | delete (key : Bytes)
  | merge (key value : Bytes)
  deriving DecidableEq, Repr

namespace BatchOp

def key : BatchOp → Key
  | .set k _ | .delete k | .merge k _ => k

/-- What one mutation makes of the value of its own key. -/
def act : BatchOp → Option Bytes → Option Bytes
  | .set _ v, _ => some v
  | .delete _, _ => none
  | .merge _ v, old => some (mergeInt64 (old.getD []) v)

/-- What a batch makes of the value `v` of key `k`. -/
def effect (k : Key) (v : Option Bytes) (ops : List BatchOp) : Option Bytes :=
  ops.foldl (fun v op => if op.key = k then op.act v else v) v

@[simp] theorem effect_nil (k : Key) (v : Option Bytes) : effect k v [] = v := rfl

theorem effect_cons (k : Key) (v : Option Bytes) (op : BatchOp) (ops : List BatchOp) :
    effect k v (op :: ops) = effect k (if op.key = k then op.act v else v) ops := rfl

theorem effect_append (k : Key) (v : Option Bytes) (xs ys : List BatchOp) :
    effect k v (xs ++ ys) = effect k (effect k v xs) ys :=
  List.foldl_append

theorem effect_of_forall_ne {k : Key} {ops : List BatchOp} (h : ∀ op ∈ ops, op.key ≠ k)
    (v : Option Bytes) : effect k v ops = v := by
  induction ops generalizing v with
  | nil => rfl
  | cons op ops ih =>
      simp only [List.forall_mem_cons] at h
      rw [effect_cons, if_neg h.1]
      exact ih h.2 v

end BatchOp

/-! ## The engine boundary -/

structure WriteOptions where
  sync : Bool

/-- An error an engine hands up, as its text. -/
structure EngineError where
  text : String
  deriving DecidableEq, Repr

/-- The part of the `StorageEngine` interface the conductor calls.  A call that
can fail returns the error beside the state it leaves behind; `rawIter` is the
list a scan of `[start, end)` yields, with the iterator's final error. -/
class StorageEngine (σ : Type) where
  applyBatch : σ → List BatchOp → WriteOptions → Option EngineError × σ
  sync : σ → Option EngineError × σ
  get : σ → Key → Option Bytes
  currentSequence : σ → UInt64
  rawIter : σ → Bytes → Bytes → List (Bytes × Bytes) × Option EngineError

/-- Batches applied one after another. -/
def applyBatches {σ : Type} [StorageEngine σ] (e : σ) (wo : WriteOptions)
    (batches : List (List BatchOp)) : σ :=
  batches.foldl (fun e ops => (StorageEngine.applyBatch e ops wo).2) e

/-- Engines that never fail and whose batches act on each key alone, in order. -/
class LawfulEngine (σ : Type) [StorageEngine σ] : Prop where
  applyBatch_ok : ∀ (e : σ) ops wo, (StorageEngine.applyBatch e ops wo).1 = none
  sync_ok : ∀ e : σ, StorageEngine.sync e = (none, e)
  get_applyBatch : ∀ (e : σ) ops wo k,
    StorageEngine.get (StorageEngine.applyBatch e ops wo).2 k =
      BatchOp.effect k (StorageEngine.get e k) ops

end Dpx
