/-
# `Dpx.Engine.Memory` — the copy-on-write B-tree engines

`engine/memory/memory.go`, plain and sharded.  A state is an immutable tree with
the applied index read off the `__dpx:applied` record; the plain engine publishes
one state, the sharded engine one per shard, and a snapshot is the states it
loaded.  `tidwall/btree` is an ordered map with value-semantics `Copy`, so a tree
is a `GoMap` and a clone is the value itself.

The sharded engine routes every key by the low seven bits of its FNV-1a hash.
That the two engines answer alike for every key is `ShardedEngine.get_applyBatch`
beside `State.get_applyOps`: both apply a batch key by key.
-/
import Dpx.Lib.Fnv
import Dpx.Lib.Scan
import Dpx.Engine.Interface

namespace Dpx

/-! ## Sharding -/

def numShards : Nat := 128

abbrev ShardId := Fin numShards

/-- `shardFor`: the FNV-1a hash masked with `numShards - 1`. -/
def shardFor (key : Key) : ShardId :=
  ⟨(Fnv.fnv32a key).toNat % numShards, Nat.mod_lt _ (by decide)⟩

/-- The version record of a key never lives in the key's own shard: the prefix
moves the hash to another residue and every later byte permutes residues. -/
theorem shardFor_versionKey_ne (k : Key) : shardFor (versionKey k) ≠ shardFor k := by
  intro heq
  have hpre : (Fnv.fnv32a verPrefix).toNat % 2 ^ 7 ≠ Fnv.offset32.toNat % 2 ^ 7 := by
    decide +kernel
  exact Fnv.fnv32a_append_mod_ne (w := 7) (by decide) hpre k (Fin.mk.inj heq)

theorem foldl_update {I B : Type} [DecidableEq I] (f : I → B → B) :
    ∀ (is : List I) (g : I → B), is.Nodup → ∀ j,
      (is.foldl (fun g i => Function.update g i (f i (g i))) g) j =
        if j ∈ is then f j (g j) else g j
  | [], g, _, j => by simp
  | i :: is, g, hnd, j => by
      obtain ⟨hi, hnd'⟩ := List.nodup_cons.mp hnd
      rw [List.foldl_cons, foldl_update f is _ hnd' j]
      by_cases hj : j = i
      · subst hj
        simp [hi]
      · simp [hj]

theorem foldl_or_single {A B I : Type} [DecidableEq I] {r : A → Option B} {step : A → I → A}
    {part : I → Option B} {home : I} (hstep : ∀ a i, r (step a i) = (part i).or (r a))
    (hother : ∀ i, i ≠ home → part i = none) (is : List I) :
    ∀ a, r (is.foldl step a) = if home ∈ is then (part home).or (r a) else r a := by
  induction is with
  | nil => exact fun _ => rfl
  | cons i is ih =>
      intro a
      rw [List.foldl_cons, ih, hstep]
      by_cases hi : i = home
      · subst hi
        rw [← Option.or_assoc, Option.or_self]
        simp
      · rw [hother i hi, Option.none_or]
        simp [Ne.symm hi]

/-! ## Ranges -/

/-- `k` lies in `[start, fin)`; an empty `fin` bounds nothing. -/
def inRange (start fin : Bytes) (k : Key) : Bool := !less k start && (fin = [] || less k fin)

/-! ## One state -/

/-- An immutable state: the tree and the applied index. -/
structure State where
  tree : GoMap Bytes
  applied : UInt64
  deriving DecidableEq

namespace State

/-- What `New` stores. -/
def empty : State := ⟨∅, 0⟩

def get (s : State) (k : Key) : Option Bytes := s.tree[k]?

/-- One mutation of the loop in `applyBatchLegacy` and `applyBatchSharded`. -/
def applyOp (s : State) : BatchOp → State
  | .set k v =>
      { tree := s.tree.insert k v
        applied := if k = appliedKey ∧ 8 ≤ v.length then LittleEndian.uint64 v else s.applied }
  | .delete k => { s with tree := s.tree.erase k }
  | .merge k v =>
      let old := (s.tree[k]?).getD []
      { s with tree := s.tree.insert k (encodeInt64 (decodeInt64 old + decodeInt64 v)) }

def applyOps (s : State) (ops : List BatchOp) : State := ops.foldl applyOp s

/-- `GetVersion` of a snapshot of one state. -/
def getVersion (s : State) (key : Key) : EpochRecord :=
  match s.tree[versionKey key]? with
  | none => .zero
  | some v => decodeEpochRecord v

@[simp] theorem get_empty (k : Key) : State.empty.get k = none := by
  simp [get, empty]

theorem get_applyOp (s : State) (op : BatchOp) (k : Key) :
    (s.applyOp op).get k = if op.key = k then op.act (s.get k) else s.get k := by
  by_cases h : op.key = k
  · rw [if_pos h]
    subst h
    cases op <;> simp [applyOp, get, BatchOp.key, BatchOp.act, mergeInt64]
  · rw [if_neg h]
    cases op <;>
      simp_all [applyOp, get, BatchOp.key, Std.ExtTreeMap.getElem?_insert,
        Std.ExtTreeMap.getElem?_erase]

theorem get_applyOps (s : State) (ops : List BatchOp) (k : Key) :
    (s.applyOps ops).get k = BatchOp.effect k (s.get k) ops := by
  induction ops generalizing s with
  | nil => rfl
  | cons op ops ih =>
      rw [BatchOp.effect_cons, ← get_applyOp]
      exact ih (s.applyOp op)

theorem getVersion_eq (s : State) (k : Key) :
    s.getVersion k = ((s.get (versionKey k)).map decodeEpochRecord).getD .zero := by
  rw [getVersion, get]
  cases s.tree[versionKey k]? <;> rfl

/-- `rawIterLegacy`: with a bound, `Ascend` from the start and stop at the end;
without one, a full scan that skips what lies below the start. -/
def rawIter (s : State) (start fin : Bytes) : List (Bytes × Bytes) :=
  if fin = [] then s.tree.toList.filter fun it => !less it.1 start
  else (s.tree.toList.dropWhile fun it => less it.1 start).takeWhile fun it => less it.1 fin

/-- `NewIter` of a snapshot: the same walk, passing over the reserved keys. -/
def newIter (s : State) (start fin : Bytes) : List (Bytes × Bytes) :=
  if fin = [] then s.tree.toList.filter fun it => !less it.1 start && !isReserved it.1
  else
    ((s.tree.toList.dropWhile fun it => less it.1 start).takeWhile fun it =>
      less it.1 fin).filter fun it => !isReserved it.1

/-- `Sequence` of a snapshot. -/
def sequence (s : State) : UInt64 := s.applied

theorem lists_rawIter (s : State) (start fin : Bytes) :
    Scan.Lists (fun k v => s.get k = some v ∧ inRange start fin k = true)
      (s.rawIter start fin) := by
  have htree : Scan.Lists (fun k v => s.get k = some v) s.tree.toList := Scan.lists_toList s.tree
  rw [rawIter]
  split
  · rename_i hfin
    refine (htree.filter fun k => !less k start).congr fun k v => ?_
    simp [inRange, hfin]
  · rename_i hfin
    refine (htree.walk start fin).congr fun k v => ?_
    simp [inRange, hfin, less, Scan.below]

theorem lists_newIter (s : State) (start fin : Bytes) :
    Scan.Lists (fun k v => s.get k = some v ∧ (inRange start fin k && !isReserved k) = true)
      (s.newIter start fin) := by
  have hraw : s.newIter start fin = (s.rawIter start fin).filter fun it => !isReserved it.1 := by
    rw [newIter, rawIter]
    split
    · rw [List.filter_filter]
      refine List.filter_congr fun it _ => ?_
      rw [Bool.and_comm]
    · rfl
  rw [hraw]
  refine ((s.lists_rawIter start fin).filter fun k => !isReserved k).congr fun k v => ?_
  simp [and_assoc]

theorem get_of_mem_rawIter {s : State} {start fin : Bytes} {it : Bytes × Bytes}
    (h : it ∈ s.rawIter start fin) : s.get it.1 = some it.2 :=
  (((s.lists_rawIter start fin).mem_iff it.1 it.2).mp h).1

theorem rawIter_empty (start fin : Bytes) : State.empty.rawIter start fin = [] := by
  refine List.eq_nil_iff_forall_not_mem.mpr fun it hit => ?_
  have hget := get_of_mem_rawIter hit
  rw [get_empty] at hget
  cases hget

end State

/-! ## The plain engine -/

/-- `applyBatchLegacy`, `Sync`, `Get`, `CurrentSequence`, `rawIterLegacy`. -/
instance : StorageEngine State where
  applyBatch s ops _ := (none, s.applyOps ops)
  sync s := (none, s)
  get := State.get
  currentSequence s := s.applied
  rawIter s start fin := (s.rawIter start fin, none)

instance : LawfulEngine State where
  applyBatch_ok _ _ _ := rfl
  sync_ok _ := rfl
  get_applyBatch s ops _ k := s.get_applyOps ops k

/-! ## The sharded engine -/

/-- One state per shard. -/
structure ShardedEngine where
  shards : ShardId → State

namespace ShardedEngine

/-- What `NewSharded` stores. -/
def new : ShardedEngine := ⟨fun _ => .empty⟩

def get (e : ShardedEngine) (k : Key) : Option Bytes := (e.shards (shardFor k)).get k

/-- The part of a batch that `shardedBatch` files under shard `i`. -/
def byShard (ops : List BatchOp) (i : ShardId) : List BatchOp :=
  ops.filter fun op => shardFor op.key = i

/-- The shards a batch names, ascending. -/
def touched (ops : List BatchOp) : List ShardId :=
  (List.finRange numShards).filter fun i => byShard ops i ≠ []

@[simp] theorem touched_nil : touched [] = [] := by
  simp [touched, byShard]

theorem nodup_touched (ops : List BatchOp) : (touched ops).Nodup :=
  (List.nodup_finRange _).filter _

theorem mem_touched {ops : List BatchOp} {op : BatchOp} (h : op ∈ ops) :
    shardFor op.key ∈ touched ops := by
  have hmem : op ∈ byShard ops (shardFor op.key) :=
    List.mem_filter.mpr ⟨h, decide_eq_true rfl⟩
  refine List.mem_filter.mpr ⟨List.mem_finRange _, decide_eq_true ?_⟩
  exact List.ne_nil_of_mem hmem

/-- The locked section of `applyBatchSharded` for one shard. -/
def applySection (e : ShardedEngine) (ops : List BatchOp) (i : ShardId) : ShardedEngine :=
  ⟨Function.update e.shards i ((e.shards i).applyOps (byShard ops i))⟩

/-- `applyBatchSharded`: the sections of the shards the batch names, ascending. -/
def applyBatch (e : ShardedEngine) (ops : List BatchOp) : ShardedEngine :=
  (touched ops).foldl (fun e i => e.applySection ops i) e

/-- `GetVersion` of a snapshot, which has loaded the state of every shard. -/
def getVersion (e : ShardedEngine) (key : Key) : EpochRecord :=
  match (e.shards (shardFor (versionKey key))).tree[versionKey key]? with
  | none => .zero
  | some v => decodeEpochRecord v

def currentSequence (e : ShardedEngine) : UInt64 :=
  (List.finRange numShards).foldl
    (fun m i => if m < (e.shards i).applied then (e.shards i).applied else m) 0

/-- `rawIterSharded`: the concatenated shard scans, sorted by key. -/
def rawIter (e : ShardedEngine) (start fin : Bytes) : List (Bytes × Bytes) :=
  ((List.finRange numShards).flatMap fun i => (e.shards i).rawIter start fin).mergeSort
    fun a b => !less b.1 a.1

/-- `NewIter` of a snapshot: the concatenated shard walks, sorted by key. -/
def newIter (e : ShardedEngine) (start fin : Bytes) : List (Bytes × Bytes) :=
  ((List.finRange numShards).flatMap fun i => (e.shards i).newIter start fin).mergeSort
    fun a b => !less b.1 a.1

/-- `Sequence` of a snapshot. -/
def sequence (e : ShardedEngine) : UInt64 :=
  (List.finRange numShards).foldl
    (fun m i => if m < (e.shards i).applied then (e.shards i).applied else m) 0

theorem foldl_applySection (ops : List BatchOp) (is : List ShardId) :
    ∀ e : ShardedEngine, (is.foldl (fun e i => e.applySection ops i) e).shards =
      is.foldl (fun g i => Function.update g i ((g i).applyOps (byShard ops i))) e.shards := by
  induction is with
  | nil => exact fun _ => rfl
  | cons i is ih => exact fun e => ih _

theorem byShard_of_not_mem {ops : List BatchOp} {j : ShardId} (h : j ∉ touched ops) :
    byShard ops j = [] := by
  simpa [touched] using h

theorem applyBatch_shards (e : ShardedEngine) (ops : List BatchOp) (j : ShardId) :
    (e.applyBatch ops).shards j = (e.shards j).applyOps (byShard ops j) := by
  rw [applyBatch, foldl_applySection,
    foldl_update (fun i (s : State) => s.applyOps (byShard ops i)) _ _ (nodup_touched ops) j]
  split
  · rfl
  · rename_i hj
    rw [byShard_of_not_mem hj]
    rfl

theorem effect_byShard (k : Key) (v : Option Bytes) (ops : List BatchOp) :
    BatchOp.effect k v (byShard ops (shardFor k)) = BatchOp.effect k v ops := by
  induction ops generalizing v with
  | nil => rfl
  | cons op ops ih =>
      rw [byShard, List.filter_cons]
      by_cases h : shardFor op.key = shardFor k
      · rw [if_pos (by simpa using h), BatchOp.effect_cons, BatchOp.effect_cons]
        exact ih _
      · have hne : op.key ≠ k := fun hk => h (hk ▸ rfl)
        rw [if_neg (by simpa using h), BatchOp.effect_cons, if_neg hne]
        exact ih v

theorem get_applyBatch (e : ShardedEngine) (ops : List BatchOp) (k : Key) :
    (e.applyBatch ops).get k = BatchOp.effect k (e.get k) ops := by
  rw [get, applyBatch_shards, State.get_applyOps, effect_byShard]
  rfl

theorem getVersion_eq (e : ShardedEngine) (k : Key) :
    e.getVersion k = ((e.get (versionKey k)).map decodeEpochRecord).getD .zero := by
  rw [getVersion, get, State.get]
  cases (e.shards (shardFor (versionKey k))).tree[versionKey k]? <;> rfl

theorem rawIter_new (start fin : Bytes) : ShardedEngine.new.rawIter start fin = [] := by
  have hflat : ((List.finRange numShards).flatMap fun i =>
      (ShardedEngine.new.shards i).rawIter start fin) = [] :=
    List.flatMap_eq_nil_iff.mpr fun i _ => State.rawIter_empty start fin
  rw [rawIter, hflat, List.mergeSort_nil]

end ShardedEngine

instance : StorageEngine ShardedEngine where
  applyBatch e ops _ := (none, e.applyBatch ops)
  sync e := (none, e)
  get := ShardedEngine.get
  currentSequence := ShardedEngine.currentSequence
  rawIter e start fin := (e.rawIter start fin, none)

instance : LawfulEngine ShardedEngine where
  applyBatch_ok _ _ _ := rfl
  sync_ok _ := rfl
  get_applyBatch e ops _ k := e.get_applyBatch ops k

end Dpx
