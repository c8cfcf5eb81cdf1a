/-
# `Dpx.Engine.Mvcc` — the multi-version engine

`engine/memory/mvcc.go`.  A key's versions are appended to one list, each tagged with
the commit sequence of its batch; a snapshot is a sequence number, and a read finds the
newest version at or below it.  A batch commits in three kinds of atomic steps:

  * `reserve` takes a commit sequence from `seqCounter`;
  * `writeSection` appends a shard's part of the batch under the shard's lock;
  * `publish` raises `lastCommitted`, from which snapshots take their number.

`applyBatch` files each mutation under the shard its key hashes to.  `applyShardDirect`
files all of them under the shard it is told.  Reads look a key up under its hash.

Here both run without interruption; calls that overlap are the subject of
`Dpx.Engine.MvccCalls`.  Go visits the shards of a batch in map order; sections of
different shards commute, so the model visits them in ascending order.

The counters are `uint64` in the source and natural numbers here.  `nextSeqWrapping` and
`applyBatchWrapping` are what the source does; below `2^64` mutations the two are the same.
-/
import Dpx.Lib.VersionList
import Dpx.Engine.Memory

namespace Dpx

open VersionList (Sorted newest upTo above)

/-! ## Versions -/

/-- A single versioned value. -/
structure MvccEntry where
  seq : Nat
  value : Bytes
  deleted : Bool
  deriving DecidableEq, Repr

/-- What a read that ends at this version answers. -/
def MvccEntry.live (v : MvccEntry) : Option Bytes := if v.deleted then none else some v.value

/-- The last value that is not a tombstone; the empty value if there is none. -/
def getCurrentValue (entries : List MvccEntry) : Bytes :=
  ((entries.reverse.find? fun v => !v.deleted).map (·.value)).getD []

/-- The version a mutation appends to `entries`. -/
def entryOf (commitSeq : Nat) (entries : List MvccEntry) : BatchOp → MvccEntry
  | .set _ v => ⟨commitSeq, v, false⟩
  | .delete _ => ⟨commitSeq, [], true⟩
  | .merge _ v =>
      ⟨commitSeq, encodeInt64 (decodeInt64 (getCurrentValue entries) + decodeInt64 v), false⟩

/-- `findVersion`: bisection with an exclusive upper end. -/
def findVersion (entries : List MvccEntry) (targetSeq : Nat) : Option Nat :=
  VersionList.bisect (fun i => (entries[i]?).any fun v => v.seq ≤ targetSeq) entries.length 0
    entries.length none

/-- `findVersionLinear`: from the end. -/
def findVersionLinear (entries : List MvccEntry) (seq : Nat) : Option Nat :=
  (List.range entries.length).reverse.find? fun i => (entries[i]?).any fun v => v.seq ≤ seq

/-- What a run of mutations of one key makes of its versions. -/
def grow (commitSeq : Nat) (entries : List MvccEntry) (ops : List BatchOp) : List MvccEntry :=
  ops.foldl (fun entries op => entries ++ [entryOf commitSeq entries op]) entries

theorem entryOf_seq (c : Nat) (entries : List MvccEntry) (op : BatchOp) :
    (entryOf c entries op).seq = c := by
  cases op <;> rfl

theorem exists_grow (c : Nat) (ops : List BatchOp) :
    ∀ entries, ∃ new, grow c entries ops = entries ++ new ∧ new.length = ops.length ∧
      ∀ v ∈ new, v.seq = c := by
  induction ops with
  | nil => exact fun entries => ⟨[], (List.append_nil _).symm, rfl, fun v hv => nomatch hv⟩
  | cons op ops ih =>
      intro entries
      obtain ⟨new, hnew, hlen, hseq⟩ := ih (entries ++ [entryOf c entries op])
      refine ⟨entryOf c entries op :: new, ?_, congrArg (· + 1) hlen, ?_⟩
      · show grow c (entries ++ [entryOf c entries op]) ops = _
        rw [hnew, List.append_assoc]
        rfl
      · intro v hv
        rcases List.mem_cons.mp hv with rfl | hv
        · exact entryOf_seq c entries op
        · exact hseq v hv

theorem sorted_grow {c : Nat} {entries : List MvccEntry} (h : Sorted MvccEntry.seq entries)
    (hle : ∀ v ∈ entries, v.seq ≤ c) (ops : List BatchOp) :
    Sorted MvccEntry.seq (grow c entries ops) := by
  obtain ⟨new, hnew, -, hseq⟩ := exists_grow c ops entries
  rw [hnew]
  refine List.pairwise_append.mpr ⟨h, List.Pairwise.imp_of_mem (R := fun _ _ => True) ?_
    (List.pairwise_of_forall fun _ _ => trivial), ?_⟩
  · intro a b ha hb _
    exact le_of_eq ((hseq a ha).trans (hseq b hb).symm)
  · intro a ha b hb
    rw [hseq b hb]
    exact hle a ha

theorem mem_grow {c : Nat} {entries : List MvccEntry} {ops : List BatchOp} {v : MvccEntry}
    (h : v ∈ grow c entries ops) : v ∈ entries ∨ (v.seq = c ∧ ops ≠ []) := by
  obtain ⟨new, hnew, hlen, hseq⟩ := exists_grow c ops entries
  rw [hnew] at h
  rcases List.mem_append.mp h with hv | hv
  · exact Or.inl hv
  · refine Or.inr ⟨hseq v hv, ?_⟩
    rintro rfl
    rw [List.length_eq_zero_iff.mp hlen] at hv
    exact absurd hv List.not_mem_nil

/-- A reader below the commit sequence does not notice the growth. -/
theorem newest_grow {c s : Nat} (h : s < c) (entries : List MvccEntry) (ops : List BatchOp) :
    newest MvccEntry.seq s (grow c entries ops) = newest MvccEntry.seq s entries := by
  obtain ⟨new, hnew, -, hseq⟩ := exists_grow c ops entries
  rw [hnew]
  refine VersionList.newest_append_above entries fun v hv => ?_
  rw [hseq v hv]
  exact h

/-! ## The value a run of mutations leaves -/

/-- What mutations of one key make of it: `cur` is the last value that is no tombstone,
`out` what a read answers.  A merge builds on `cur`, tombstone or not. -/
def lastValue : Bytes → Option Bytes → List BatchOp → Option Bytes
  | _, out, [] => out
  | _, _, .set _ v :: ops => lastValue v (some v) ops
  | cur, _, .delete _ :: ops => lastValue cur none ops
  | cur, _, .merge _ v :: ops =>
      let new := encodeInt64 (decodeInt64 cur + decodeInt64 v)
      lastValue new (some new) ops

/-- What a read at the end of the list answers. -/
def latest (entries : List MvccEntry) : Option Bytes := entries.getLast?.bind MvccEntry.live

theorem getCurrentValue_concat (entries : List MvccEntry) (v : MvccEntry) :
    getCurrentValue (entries ++ [v]) =
      if v.deleted then getCurrentValue entries else v.value := by
  rw [getCurrentValue, List.reverse_append, List.reverse_singleton, List.singleton_append,
    List.find?_cons]
  cases v.deleted <;> rfl

theorem latest_concat (entries : List MvccEntry) (v : MvccEntry) :
    latest (entries ++ [v]) = v.live := by
  rw [latest, List.getLast?_concat]
  rfl

theorem latest_grow (c : Nat) (ops : List BatchOp) : ∀ entries,
    latest (grow c entries ops) = lastValue (getCurrentValue entries) (latest entries) ops := by
  induction ops with
  | nil => exact fun _ => rfl
  | cons op ops ih =>
      intro entries
      show latest (grow c (entries ++ [entryOf c entries op]) ops) = _
      rw [ih, getCurrentValue_concat, latest_concat]
      cases op <;> rfl

theorem lastValue_of_sets {k : Key} {b : Bytes} {ops : List BatchOp} (hne : ops ≠ [])
    (h : ∀ op ∈ ops, op = .set k b) (cur : Bytes) (out : Option Bytes) :
    lastValue cur out ops = some b := by
  have hall : ∀ (ops : List BatchOp), (∀ op ∈ ops, op = .set k b) →
      lastValue b (some b) ops = some b := by
    intro ops
    induction ops with
    | nil => exact fun _ => rfl
    | cons op ops ih =>
        intro h
        rw [h op List.mem_cons_self]
        exact ih fun o ho => h o (List.mem_cons_of_mem _ ho)
  cases ops with
  | nil => exact absurd rfl hne
  | cons op ops =>
      rw [h op List.mem_cons_self]
      exact hall ops fun o ho => h o (List.mem_cons_of_mem _ ho)

/-! ## Shards -/

abbrev MvccShard := GoMap (List MvccEntry)

/-- One turn of the loop inside a locked section. -/
def writeOp (commitSeq : Nat) (s : MvccShard) (op : BatchOp) : MvccShard :=
  let entries := (s[op.key]?).getD []
  s.insert op.key (entries ++ [entryOf commitSeq entries op])

def writeOps (commitSeq : Nat) (s : MvccShard) (ops : List BatchOp) : MvccShard :=
  ops.foldl (writeOp commitSeq) s

/-- The mutations of one key. -/
def opsOn (k : Key) (ops : List BatchOp) : List BatchOp := ops.filter fun op => op.key = k

theorem opsOn_cons (k : Key) (op : BatchOp) (ops : List BatchOp) :
    opsOn k (op :: ops) = if op.key = k then op :: opsOn k ops else opsOn k ops := by
  simp [opsOn, List.filter_cons]

theorem getElem?_writeOps (c : Nat) (k : Key) (ops : List BatchOp) :
    ∀ s : MvccShard, ((writeOps c s ops)[k]?).getD [] = grow c ((s[k]?).getD []) (opsOn k ops) := by
  induction ops with
  | nil => exact fun _ => rfl
  | cons op ops ih =>
      intro s
      show ((writeOps c (writeOp c s op) ops)[k]?).getD [] = _
      rw [ih, opsOn_cons]
      by_cases hk : op.key = k
      · subst hk
        simp only [writeOp, Std.ExtTreeMap.getElem?_insert_self, if_true]
        rfl
      · have hget : (writeOp c s op)[k]? = s[k]? := by
          simp [writeOp, Std.ExtTreeMap.getElem?_insert, hk]
        rw [hget, if_neg hk]

/-! ## The engine -/

structure MVCCEngine where
  sharded : Bool
  shards : ShardId → MvccShard
  seqCounter : Nat
  lastCommitted : Nat
  oldestSnapshot : Nat
  snapshotCount : Int

/-- A snapshot is a sequence number; it reads the engine as it is at the read. -/
structure MvccSnapshot where
  seq : Nat
  deriving DecidableEq, Repr

namespace MVCCEngine

def newMVCCEngine (sharded : Bool) : MVCCEngine := ⟨sharded, fun _ => ∅, 0, 0, 0, 0⟩

/-- The versions of `k` in shard `i`; an absent key has none. -/
def versions (e : MVCCEngine) (i : ShardId) (k : Key) : List MvccEntry :=
  ((e.shards i)[k]?).getD []

/-- `Get` of the engine: the latest version. -/
def get (e : MVCCEngine) (key : Key) : Option Bytes :=
  match (e.shards (shardFor key))[key]? with
  | none => none
  | some entries =>
      match entries.getLast? with
      | none => none
      | some latest => if latest.deleted then none else some latest.value

/-- `GetSnapshot`.  Zero in `oldestSnapshot` stands for no snapshot. -/
def getSnapshot (e : MVCCEngine) : MvccSnapshot × MVCCEngine :=
  let seq := e.lastCommitted
  let old := e.oldestSnapshot
  (⟨seq⟩, { e with
    snapshotCount := e.snapshotCount + 1
    oldestSnapshot := if old = 0 ∨ seq < old then seq else old })

/-- `Close` of a snapshot. -/
def closeSnapshot (e : MVCCEngine) : MVCCEngine := { e with snapshotCount := e.snapshotCount - 1 }

/-! ### Commits -/

/-- The commit sequence `n` mutations reserve. -/
def nextSeq (e : MVCCEngine) (n : Nat) : Nat := e.seqCounter + n

/-- The same with the counter of the source, which has 64 bits. -/
def nextSeqWrapping (e : MVCCEngine) (n : Nat) : Nat := e.nextSeq n % 2 ^ 64

theorem nextSeqWrapping_eq {e : MVCCEngine} {n : Nat} (h : e.seqCounter + n < 2 ^ 64) :
    e.nextSeqWrapping n = e.nextSeq n :=
  Nat.mod_eq_of_lt h

/-- The counter moves on to `commitSeq`. -/
def reserveAt (e : MVCCEngine) (commitSeq : Nat) : MVCCEngine := { e with seqCounter := commitSeq }

def reserve (e : MVCCEngine) (n : Nat) : MVCCEngine := { e with seqCounter := e.nextSeq n }

def writeSection (e : MVCCEngine) (commitSeq : Nat) (i : ShardId) (ops : List BatchOp) :
    MVCCEngine :=
  { e with shards := Function.update e.shards i (writeOps commitSeq (e.shards i) ops) }

/-- The monotonic store: `lastCommitted` never falls. -/
def publish (e : MVCCEngine) (commitSeq : Nat) : MVCCEngine :=
  if commitSeq ≤ e.lastCommitted then e else { e with lastCommitted := commitSeq }

def applyBatch (e : MVCCEngine) (ops : List BatchOp) : MVCCEngine :=
  if ops = [] then e
  else
    let commitSeq := e.nextSeq ops.length
    ((ShardedEngine.touched ops).foldl
      (fun e i => e.writeSection commitSeq i (ShardedEngine.byShard ops i))
      (e.reserve ops.length)).publish commitSeq

/-- `ApplyBatch` with the counter of the source. -/
def applyBatchWrapping (e : MVCCEngine) (ops : List BatchOp) : MVCCEngine :=
  if ops = [] then e
  else
    let commitSeq := e.nextSeqWrapping ops.length
    ((ShardedEngine.touched ops).foldl
      (fun (e : MVCCEngine) i => e.writeSection commitSeq i (ShardedEngine.byShard ops i))
      (e.reserveAt commitSeq)).publish commitSeq

theorem applyBatchWrapping_eq {e : MVCCEngine} {ops : List BatchOp}
    (h : e.seqCounter + ops.length < 2 ^ 64) : e.applyBatchWrapping ops = e.applyBatch ops := by
  rw [applyBatchWrapping, applyBatch, nextSeqWrapping_eq h]
  rfl

/-- Everything goes to shard `shardIdx`, whatever the keys hash to. -/
def applyShardDirect (e : MVCCEngine) (shardIdx : ShardId) (writes : List BatchOp) :
    Nat × MVCCEngine :=
  let commitSeq := e.nextSeq writes.length
  (commitSeq,
    ((e.reserve writes.length).writeSection commitSeq shardIdx writes).publish commitSeq)

/-! ### Compaction -/

/-- The boundary `Compact` works with; zero if no snapshot is open. -/
def safeSeq (e : MVCCEngine) : Nat := if 0 < e.snapshotCount then e.oldestSnapshot else 0

/-- How many of more than two versions go. -/
def removeCount (safeSeq : Nat) (entries : List MvccEntry) : Nat :=
  if 0 < safeSeq then
    let removeCount := (entries.takeWhile fun v => v.seq < safeSeq).length
    if entries.length - removeCount < 2 then entries.length - 2 else removeCount
  else entries.length - 2

/-- What is kept of a key's versions; `none` if the key itself goes. -/
def compactEntries (safeSeq : Nat) (entries : List MvccEntry) : Option (List MvccEntry) :=
  if safeSeq = 0 ∧ (entries.getLast?.any fun v => v.deleted) then none
  else if entries.length ≤ 2 then some entries
  else some (entries.drop (removeCount safeSeq entries))

/-- `Compact`, with the number of versions it removed. -/
def compact (e : MVCCEngine) : Nat × MVCCEngine :=
  ((List.finRange numShards).foldl (fun n i => (e.shards i).foldl (fun n _ entries =>
      n + (entries.length - ((compactEntries e.safeSeq entries).getD []).length)) n) 0,
    { e with shards := fun i =>
        (e.shards i).filterMap fun _ entries => compactEntries e.safeSeq entries })

/-! ### Scans -/

/-- `newIterator`: the live pairs of the range at `seq`, reserved keys left out. -/
def newIterator (e : MVCCEngine) (start fin : Bytes) (seq : Nat) : List (Bytes × Bytes) :=
  ((List.finRange numShards).flatMap fun i =>
    (e.shards i).toList.filterMap fun (k, entries) =>
      if less k start then none
      else if fin ≠ [] ∧ !less k fin then none
      else if isReserved k then none
      else
        match findVersionLinear entries seq with
        | none => none
        | some idx =>
            match entries[idx]? with
            | none => none
            | some v => v.live.map fun value => (k, value)).mergeSort
    fun a b => !less b.1 a.1

end MVCCEngine

/-- `ApplyBatch`, `Sync`, `Get`, `CurrentSequence` and `RawIter`. -/
instance : StorageEngine MVCCEngine where
  applyBatch e ops _ := (none, e.applyBatch ops)
  sync e := (none, e)
  get := MVCCEngine.get
  currentSequence e := UInt64.ofNat e.seqCounter
  rawIter e start fin := (e.newIterator start fin e.seqCounter, none)

/-! ## Snapshot reads -/

namespace MvccSnapshot

def get (s : MvccSnapshot) (e : MVCCEngine) (key : Key) : Option Bytes :=
  match (e.shards (shardFor key))[key]? with
  | none => none
  | some entries =>
      match findVersion entries s.seq with
      | none => none
      | some idx =>
          match entries[idx]? with
          | none => none
          | some entry => if entry.deleted then none else some entry.value

theorem get_of_shards {e e' : MVCCEngine} (h : e'.shards = e.shards) (s : MvccSnapshot)
    (k : Key) : s.get e' k = s.get e k := by
  rw [get, get, h]

/-- `GetVersion` does not look at the tombstone mark. -/
def getVersion (s : MvccSnapshot) (e : MVCCEngine) (key : Key) : EpochRecord :=
  match (e.shards (shardFor (versionKey key)))[versionKey key]? with
  | none => .zero
  | some entries =>
      match findVersion entries s.seq with
      | none => .zero
      | some idx =>
          match entries[idx]? with
          | none => .zero
          | some entry => decodeEpochRecord entry.value

/-- The version a read of `k` ends at, as the code finds it. -/
def found (s : MvccSnapshot) (e : MVCCEngine) (k : Key) : Option MvccEntry :=
  match (e.shards (shardFor k))[k]? with
  | none => none
  | some entries => (findVersion entries s.seq).bind (entries[·]?)

/-- The version a read of `k` should end at. -/
def shown (s : MvccSnapshot) (e : MVCCEngine) (k : Key) : Option MvccEntry :=
  newest MvccEntry.seq s.seq (e.versions (shardFor k) k)

theorem get_eq_found (s : MvccSnapshot) (e : MVCCEngine) (k : Key) :
    s.get e k = (s.found e k).bind MvccEntry.live := by
  rw [get, found]
  cases (e.shards (shardFor k))[k]? with
  | none => rfl
  | some entries =>
      simp only
      cases findVersion entries s.seq with
      | none => rfl
      | some idx =>
          simp only [Option.bind_some]
          cases entries[idx]? <;> rfl

theorem getVersion_eq_found (s : MvccSnapshot) (e : MVCCEngine) (k : Key) :
    s.getVersion e k =
      ((s.found e (versionKey k)).map fun v => decodeEpochRecord v.value).getD .zero := by
  rw [getVersion, found]
  cases (e.shards (shardFor (versionKey k)))[versionKey k]? with
  | none => rfl
  | some entries =>
      simp only
      cases findVersion entries s.seq with
      | none => rfl
      | some idx =>
          simp only [Option.bind_some]
          cases entries[idx]? <;> rfl

theorem found_eq_shown {s : MvccSnapshot} {e : MVCCEngine} {k : Key}
    (h : Sorted MvccEntry.seq (e.versions (shardFor k) k)) : s.found e k = s.shown e k := by
  rw [found, shown]
  rw [MVCCEngine.versions] at h ⊢
  cases hk : (e.shards (shardFor k))[k]? with
  | none => rfl
  | some entries =>
      rw [hk] at h
      exact h.bisect_newest s.seq

theorem get_eq_shown {s : MvccSnapshot} {e : MVCCEngine} {k : Key}
    (h : Sorted MvccEntry.seq (e.versions (shardFor k) k)) :
    s.get e k = (s.shown e k).bind MvccEntry.live := by
  rw [get_eq_found, found_eq_shown h]

end MvccSnapshot

/-! ## What each step does to the versions -/

namespace MVCCEngine

theorem versions_newMVCCEngine (sharded : Bool) (i : ShardId) (k : Key) :
    (newMVCCEngine sharded).versions i k = [] := by
  simp [versions, newMVCCEngine]

theorem versions_writeSection (e : MVCCEngine) (c : Nat) (i : ShardId) (ops : List BatchOp)
    (j : ShardId) (k : Key) :
    (e.writeSection c i ops).versions j k =
      if j = i then grow c (e.versions j k) (opsOn k ops) else e.versions j k := by
  show ((Function.update e.shards i _ j)[k]?).getD [] = _
  by_cases hj : j = i
  · subst hj
    rw [if_pos rfl, Function.update_self, getElem?_writeOps]
    rfl
  · rw [if_neg hj, Function.update_of_ne hj]
    rfl

theorem publish_shards (e : MVCCEngine) (c : Nat) : (e.publish c).shards = e.shards := by
  rw [publish]
  split <;> rfl

theorem publish_seqCounter (e : MVCCEngine) (c : Nat) :
    (e.publish c).seqCounter = e.seqCounter := by
  rw [publish]
  split <;> rfl

theorem publish_lastCommitted (e : MVCCEngine) (c : Nat) :
    (e.publish c).lastCommitted = max e.lastCommitted c := by
  rw [publish]
  split
  · omega
  · show c = _
    omega

theorem versions_publish (e : MVCCEngine) (c : Nat) (i : ShardId) (k : Key) :
    (e.publish c).versions i k = e.versions i k := by
  rw [versions, publish_shards]
  rfl

theorem foldl_writeSection (c : Nat) (ops : List BatchOp) (is : List ShardId) :
    ∀ e : MVCCEngine,
      is.foldl (fun e i => e.writeSection c i (ShardedEngine.byShard ops i)) e =
        { e with shards := is.foldl (fun g i =>
            Function.update g i (writeOps c (g i) (ShardedEngine.byShard ops i))) e.shards } := by
  induction is with
  | nil => exact fun _ => rfl
  | cons i is ih => exact fun e => ih _

theorem shards_applyBatch (e : MVCCEngine) {ops : List BatchOp} (hops : ops ≠ []) (i : ShardId) :
    (e.applyBatch ops).shards i = if i ∈ ShardedEngine.touched ops then
      writeOps (e.nextSeq ops.length) (e.shards i) (ShardedEngine.byShard ops i)
    else e.shards i := by
  rw [applyBatch, if_neg hops]
  simp only
  rw [publish_shards, foldl_writeSection]
  exact foldl_update
    (fun i s => writeOps (e.nextSeq ops.length) s (ShardedEngine.byShard ops i)) _ _
    (ShardedEngine.nodup_touched ops) i

theorem versions_applyBatch (e : MVCCEngine) {ops : List BatchOp} (hops : ops ≠ []) (i : ShardId)
    (k : Key) :
    (e.applyBatch ops).versions i k =
      grow (e.nextSeq ops.length) (e.versions i k) (opsOn k (ShardedEngine.byShard ops i)) := by
  rw [versions, shards_applyBatch e hops]
  split
  · exact getElem?_writeOps _ _ _ _
  · rename_i hi
    rw [ShardedEngine.byShard_of_not_mem hi]
    rfl

theorem applyBatch_seqCounter (e : MVCCEngine) (ops : List BatchOp) :
    (e.applyBatch ops).seqCounter = e.nextSeq ops.length := by
  rw [applyBatch]
  split
  · rename_i hops
    rw [hops]
    rfl
  · simp only
    rw [publish_seqCounter, foldl_writeSection]
    rfl

theorem applyBatch_lastCommitted (e : MVCCEngine) {ops : List BatchOp} (hops : ops ≠ []) :
    (e.applyBatch ops).lastCommitted = max e.lastCommitted (e.nextSeq ops.length) := by
  rw [applyBatch, if_neg hops]
  simp only
  rw [publish_lastCommitted, foldl_writeSection]
  rfl

theorem applyBatch_snapshots (e : MVCCEngine) (ops : List BatchOp) :
    (e.applyBatch ops).snapshotCount = e.snapshotCount ∧
      (e.applyBatch ops).oldestSnapshot = e.oldestSnapshot := by
  rw [applyBatch]
  split
  · exact ⟨rfl, rfl⟩
  · simp only
    rw [publish, foldl_writeSection]
    split <;> exact ⟨rfl, rfl⟩

theorem versions_applyShardDirect (e : MVCCEngine) (i : ShardId) (ws : List BatchOp) (j : ShardId)
    (k : Key) :
    (e.applyShardDirect i ws).2.versions j k =
      if j = i then grow (e.nextSeq ws.length) (e.versions j k) (opsOn k ws)
      else e.versions j k := by
  rw [applyShardDirect]
  simp only
  rw [versions_publish, versions_writeSection]
  rfl

theorem versions_compact (e : MVCCEngine) (i : ShardId) (k : Key) :
    e.compact.2.versions i k = (compactEntries e.safeSeq (e.versions i k)).getD [] := by
  rw [versions, versions, compact]
  simp only [Std.ExtTreeMap.getElem?_filterMap']
  cases (e.shards i)[k]? with
  | none => simp [compactEntries]
  | some entries => rfl

/-! ## Uninterrupted runs

While no call is under way, the versions of a key are sorted, and every one of them is
published. -/

structure Tidy (e : MVCCEngine) : Prop where
  sorted : ∀ i k, Sorted MvccEntry.seq (e.versions i k)
  bound : ∀ i k, ∀ v ∈ e.versions i k, 0 < v.seq ∧ v.seq ≤ e.lastCommitted
  settled : e.lastCommitted = e.seqCounter

theorem tidy_new (sharded : Bool) : Tidy (newMVCCEngine sharded) := by
  refine ⟨fun i k => ?_, fun i k v hv => ?_, rfl⟩
  · rw [versions_newMVCCEngine]
    exact List.Pairwise.nil
  · rw [versions_newMVCCEngine] at hv
    exact absurd hv List.not_mem_nil

/-- An engine is tidy if every key has grown at one sequence, above all it had, that is then
reserved and published. -/
theorem tidy_of_grow {e e' : MVCCEngine} {c : Nat}
    (hsorted : ∀ i k, Sorted MvccEntry.seq (e.versions i k))
    (hbound : ∀ i k, ∀ v ∈ e.versions i k, 0 < v.seq ∧ v.seq ≤ c)
    (hgrow : ∀ i k, ∃ ops, e'.versions i k = grow c (e.versions i k) ops ∧ (ops ≠ [] → 0 < c))
    (hlast : e'.lastCommitted = c) (hseq : e'.seqCounter = c) : Tidy e' := by
  refine ⟨fun i k => ?_, fun i k v hv => ?_, hlast.trans hseq.symm⟩
  · obtain ⟨ops, hops, -⟩ := hgrow i k
    rw [hops]
    exact sorted_grow (hsorted i k) (fun v hv => (hbound i k v hv).2) ops
  · obtain ⟨ops, hops, hpos⟩ := hgrow i k
    rw [hops] at hv
    rw [hlast]
    rcases mem_grow hv with hold | ⟨hnew, hne⟩
    · exact hbound i k v hold
    · rw [hnew]
      exact ⟨hpos hne, le_refl c⟩

theorem Tidy.commit {e e' : MVCCEngine} (h : Tidy e) {c : Nat} (hc : e.lastCommitted ≤ c)
    (hgrow : ∀ i k, ∃ ops, e'.versions i k = grow c (e.versions i k) ops ∧ (ops ≠ [] → 0 < c))
    (hlast : e'.lastCommitted = c) (hseq : e'.seqCounter = c) : Tidy e' :=
  tidy_of_grow h.sorted (fun i k v hv => ⟨(h.bound i k v hv).1, (h.bound i k v hv).2.trans hc⟩)
    hgrow hlast hseq

theorem Tidy.applyBatch {e : MVCCEngine} (h : Tidy e) (ops : List BatchOp) :
    Tidy (e.applyBatch ops) := by
  by_cases hops : ops = []
  · rwa [MVCCEngine.applyBatch, if_pos hops]
  · have hlen : 0 < ops.length := List.length_pos_iff.mpr hops
    have hc : e.nextSeq ops.length = e.lastCommitted + ops.length := by rw [h.settled]; rfl
    refine h.commit (by omega)
      (fun i k => ⟨_, versions_applyBatch e hops i k, fun _ => by omega⟩) ?_
      (applyBatch_seqCounter e ops)
    rw [applyBatch_lastCommitted e hops]
    omega

theorem Tidy.applyShardDirect {e : MVCCEngine} (h : Tidy e) (i : ShardId) (ws : List BatchOp) :
    Tidy (e.applyShardDirect i ws).2 := by
  have hc : e.nextSeq ws.length = e.lastCommitted + ws.length := by rw [h.settled]; rfl
  refine h.commit (c := e.nextSeq ws.length) (by omega) (fun j k => ?_) ?_ (publish_seqCounter _ _)
  · rw [versions_applyShardDirect]
    by_cases hj : j = i
    · refine ⟨opsOn k ws, if_pos hj, fun hne => ?_⟩
      have : ws ≠ [] := by
        rintro rfl
        exact hne rfl
      have := List.length_pos_iff.mpr this
      omega
    · exact ⟨[], if_neg hj, fun hne => absurd rfl hne⟩
  · refine (publish_lastCommitted _ _).trans ?_
    show max e.lastCommitted _ = _
    omega

theorem exists_drop_compactEntries (safe : Nat) (entries : List MvccEntry) :
    ∃ n, (compactEntries safe entries).getD [] = entries.drop n := by
  rw [compactEntries]
  split
  · exact ⟨entries.length, (List.drop_length).symm⟩
  · split
    · exact ⟨0, rfl⟩
    · exact ⟨_, rfl⟩

theorem Tidy.compact {e : MVCCEngine} (h : Tidy e) : Tidy e.compact.2 := by
  refine ⟨fun i k => ?_, fun i k v hv => ?_, h.settled⟩
  · obtain ⟨n, hn⟩ := exists_drop_compactEntries e.safeSeq (e.versions i k)
    rw [versions_compact, hn]
    exact List.Pairwise.sublist (List.drop_sublist _ _) (h.sorted i k)
  · obtain ⟨n, hn⟩ := exists_drop_compactEntries e.safeSeq (e.versions i k)
    rw [versions_compact, hn] at hv
    exact h.bound i k v (List.mem_of_mem_drop hv)

theorem Tidy.getSnapshot {e : MVCCEngine} (h : Tidy e) : Tidy e.getSnapshot.2 :=
  ⟨h.sorted, h.bound, h.settled⟩

theorem Tidy.closeSnapshot {e : MVCCEngine} (h : Tidy e) : Tidy e.closeSnapshot :=
  ⟨h.sorted, h.bound, h.settled⟩

/-! ## Reads through a new snapshot -/

/-- `Get` of a snapshot taken now. -/
def snapshotGet (e : MVCCEngine) (k : Key) : Option Bytes :=
  let (snap, e) := e.getSnapshot
  snap.get e k

/-- `GetVersion` of a snapshot taken now. -/
def snapshotGetVersion (e : MVCCEngine) (k : Key) : EpochRecord :=
  let (snap, e) := e.getSnapshot
  snap.getVersion e k

theorem Tidy.found_latest {e : MVCCEngine} (h : Tidy e) (k : Key) :
    e.getSnapshot.1.found e.getSnapshot.2 k = (e.versions (shardFor k) k).getLast? := by
  rw [MvccSnapshot.found_eq_shown (h.getSnapshot.sorted _ k)]
  exact VersionList.newest_of_all fun v hv => (h.bound _ k v hv).2

theorem Tidy.snapshotGet {e : MVCCEngine} (h : Tidy e) (k : Key) :
    e.snapshotGet k = latest (e.versions (shardFor k) k) := by
  show e.getSnapshot.1.get e.getSnapshot.2 k = _
  rw [MvccSnapshot.get_eq_found, h.found_latest]
  rfl

theorem Tidy.snapshotGetVersion {e : MVCCEngine} (h : Tidy e) (k : Key) :
    e.snapshotGetVersion k =
      (((e.versions (shardFor (versionKey k)) (versionKey k)).getLast?).map fun v =>
        decodeEpochRecord v.value).getD .zero := by
  show e.getSnapshot.1.getVersion e.getSnapshot.2 k = _
  rw [MvccSnapshot.getVersion_eq_found, h.found_latest]

theorem Tidy.snapshotGetVersion_of_latest {e : MVCCEngine} (h : Tidy e) {k : Key} {b : Bytes}
    (hb : latest (e.versions (shardFor (versionKey k)) (versionKey k)) = some b) :
    e.snapshotGetVersion k = decodeEpochRecord b := by
  rw [h.snapshotGetVersion]
  rw [latest] at hb
  obtain ⟨v, hv, hlive⟩ := Option.bind_eq_some_iff.mp hb
  rw [hv]
  show decodeEpochRecord v.value = _
  rw [MvccEntry.live] at hlive
  split at hlive
  · cases hlive
  · rw [Option.some.inj hlive]

end MVCCEngine

end Dpx
