/-
# `Dpx.Engine.MvccCheckpoint` — checkpoint and restore of the MVCC engine

`CreateCheckpoint` and `Open` of `engine/memory/mvcc.go`.

A checkpoint takes of every key the last version that is no tombstone.  `Get` looks at the
last version alone.  They differ on a key that is deleted while an older value of it is still
stored: the checkpoint holds the deleted value.  What decides is the fate of the key
(`KeyFate`), read off the calls:

    absent    nothing but tombstones stored
    live      the last version is a value
    buried    the last version is a tombstone, and a value is stored below it

A set or a merge makes a key live, a delete buries a live key, and `Compact`, while no
snapshot is open, drops a buried key for good.  `checkpoint_key_iff`: the checkpoint agrees
with `Get` on a key exactly if the key is not buried.

`Open` appends the loaded values under the applied index of the dump and sets `seqCounter` to
it, but not `lastCommitted`, from which snapshots take their number.  So a snapshot of a
loaded engine is numbered zero and sees nothing, until a batch is committed
(`loaded_snapshot_iff`).
-/
import Dpx.Engine.Dump
import Dpx.Engine.MvccRefines

namespace Dpx

open VersionList (Sorted)
open Memory

/-- `Sequence` of a snapshot. -/
def MvccSnapshot.sequence (s : MvccSnapshot) : UInt64 := UInt64.ofNat s.seq

/-! ## The fate of a key -/

inductive KeyFate where
  | absent
  | live
  | buried
  deriving DecidableEq, Repr

namespace KeyFate

def mutate : KeyFate → BatchOp → KeyFate
  | _, .set _ _ => .live
  | _, .merge _ _ => .live
  | .live, .delete _ => .buried
  | fate, .delete _ => fate

def compact : KeyFate → KeyFate
  | .buried => .absent
  | fate => fate

end KeyFate

/-- The version `CreateCheckpoint` takes: the last that is no tombstone. -/
def liveVersion (entries : List MvccEntry) : Option MvccEntry :=
  entries.reverse.find? fun v => !v.deleted

/-- The fate of a key with these versions. -/
def fateOf (entries : List MvccEntry) : KeyFate :=
  if (latest entries).isSome then .live
  else if (liveVersion entries).isSome then .buried
  else .absent

theorem liveVersion_concat (entries : List MvccEntry) (v : MvccEntry) :
    liveVersion (entries ++ [v]) = if v.deleted then liveVersion entries else some v := by
  rw [liveVersion, List.reverse_append, List.reverse_singleton, List.singleton_append,
    List.find?_cons]
  cases v.deleted <;> rfl

theorem fateOf_concat_live (entries : List MvccEntry) {v : MvccEntry} (h : v.deleted = false) :
    fateOf (entries ++ [v]) = .live := by
  simp [fateOf, latest_concat, MvccEntry.live, h]

theorem liveVersion_of_latest {entries : List MvccEntry} {b : Bytes}
    (h : latest entries = some b) : (liveVersion entries).map (·.value) = some b := by
  rcases List.eq_nil_or_concat entries with rfl | ⟨init, v, rfl⟩
  · cases h
  · rw [List.concat_eq_append] at h ⊢
    rw [latest_concat, MvccEntry.live] at h
    rw [liveVersion_concat]
    split at h
    · cases h
    · rename_i hdel
      rw [if_neg hdel]
      exact h

theorem getCurrentValue_of_latest {entries : List MvccEntry} {b : Bytes}
    (h : latest entries = some b) : getCurrentValue entries = b := by
  show ((liveVersion entries).map (·.value)).getD [] = b
  rw [liveVersion_of_latest h]
  rfl

theorem fateOf_concat_deleted (entries : List MvccEntry) {v : MvccEntry} (h : v.deleted = true)
    (k : Key) : fateOf (entries ++ [v]) = (fateOf entries).mutate (.delete k) := by
  rw [fateOf, fateOf, latest_concat, liveVersion_concat, MvccEntry.live, if_pos h, if_pos h]
  cases hlatest : latest entries with
  | none => cases liveVersion entries <;> rfl
  | some b =>
      have hlive := liveVersion_of_latest hlatest
      cases hv : liveVersion entries with
      | none =>
          rw [hv] at hlive
          cases hlive
      | some v => rfl

theorem fateOf_grow (c : Nat) (ops : List BatchOp) : ∀ entries,
    fateOf (grow c entries ops) = ops.foldl KeyFate.mutate (fateOf entries) := by
  induction ops with
  | nil => exact fun _ => rfl
  | cons op ops ih =>
      intro entries
      show fateOf (grow c (entries ++ [entryOf c entries op]) ops) = _
      rw [ih, List.foldl_cons]
      congr 1
      cases op with
      | set k v => exact fateOf_concat_live entries rfl
      | merge k v => exact fateOf_concat_live entries rfl
      | delete k => exact fateOf_concat_deleted entries (v := ⟨c, [], true⟩) rfl k

theorem latest_drop {entries : List MvccEntry} {n : Nat} (h : n < entries.length) :
    latest (entries.drop n) = latest entries := by
  rw [latest, latest, List.getLast?_drop, if_neg (by omega)]

/-- While no snapshot is open, a key whose last version is a tombstone goes. -/
theorem compactEntries_of_dead {entries : List MvccEntry} (h : latest entries = none) :
    (MVCCEngine.compactEntries 0 entries).getD [] = [] := by
  rcases List.eq_nil_or_concat entries with rfl | ⟨init, v, rfl⟩
  · rfl
  · rw [List.concat_eq_append] at h ⊢
    rw [latest_concat, MvccEntry.live] at h
    split at h
    · rename_i hdel
      rw [MVCCEngine.compactEntries, if_pos ⟨rfl, by simp [hdel]⟩]
      rfl
    · cases h

theorem latest_compactEntries (entries : List MvccEntry) :
    latest ((MVCCEngine.compactEntries 0 entries).getD []) = latest entries := by
  cases hlatest : latest entries with
  | none =>
      rw [compactEntries_of_dead hlatest]
      rfl
  | some b =>
      have hlast : entries.getLast?.any (fun v => v.deleted) = false := by
        obtain ⟨v, hv, hlive⟩ := Option.bind_eq_some_iff.mp hlatest
        rw [MvccEntry.live] at hlive
        split at hlive
        · cases hlive
        · rename_i hdel
          rw [hv, Option.any_some, Bool.eq_false_iff]
          exact hdel
      rw [MVCCEngine.compactEntries, if_neg (by simp [hlast])]
      split
      · exact hlatest
      · refine (latest_drop ?_).trans hlatest
        show entries.length - 2 < entries.length
        omega

theorem fateOf_compactEntries (entries : List MvccEntry) :
    fateOf ((MVCCEngine.compactEntries 0 entries).getD []) = (fateOf entries).compact := by
  cases hlatest : latest entries with
  | none =>
      rw [compactEntries_of_dead hlatest, fateOf, fateOf, hlatest]
      cases liveVersion entries <;> rfl
  | some b =>
      rw [fateOf, fateOf, latest_compactEntries, hlatest]
      rfl

/-- **Which keys a checkpoint gets right.** -/
theorem liveVersion_eq_latest_iff (entries : List MvccEntry) :
    (liveVersion entries).map (·.value) = latest entries ↔ fateOf entries ≠ .buried := by
  rw [fateOf]
  cases hlatest : latest entries with
  | some b => simp [liveVersion_of_latest hlatest]
  | none => cases liveVersion entries <;> simp

/-! ## The checkpoint -/

/-- One turn of the loop over a shard's keys: the map and the largest sequence so far. -/
def checkpointKey (acc : GoMap Bytes × Nat) (kv : Key × List MvccEntry) : GoMap Bytes × Nat :=
  match liveVersion kv.2 with
  | none => acc
  | some v => (acc.1.insert kv.1 v.value, if acc.2 < v.seq then v.seq else acc.2)

theorem getElem?_checkpointKey (acc : GoMap Bytes × Nat) (kv : Key × List MvccEntry) (k : Key) :
    (checkpointKey acc kv).1[k]? =
      if kv.1 = k then ((liveVersion kv.2).map (·.value)).or acc.1[k]? else acc.1[k]? := by
  rw [checkpointKey]
  cases liveVersion kv.2 with
  | none => simp
  | some v => simp [Std.ExtTreeMap.getElem?_insert]

theorem getElem?_checkpoint (o : RangeOrder Key (List MvccEntry)) (m : MvccShard) (k : Key)
    (acc : GoMap Bytes × Nat) :
    ((o.entries m).foldl checkpointKey acc).1[k]? =
      ((liveVersion ((m[k]?).getD [])).map (·.value)).or acc.1[k]? := by
  have hloop := o.look_foldl_entries (fun acc : GoMap Bytes × Nat => acc.1[k]?)
    (fun entries v => ((liveVersion entries).map (·.value)).or v)
    (fun acc kv hne => (getElem?_checkpointKey acc kv k).trans (if_neg hne))
    (fun acc entries => (getElem?_checkpointKey acc (k, entries) k).trans (if_pos rfl)) m acc
  refine hloop.trans ?_
  cases m[k]? <;> rfl

namespace MVCCEngine

/-- What `CreateCheckpoint` passes to `encodeDump`. -/
def checkpointData (e : MVCCEngine) (o : RangeOrder Key (List MvccEntry)) : GoMap Bytes × Nat :=
  (List.finRange numShards).foldl (fun acc i => (o.entries (e.shards i)).foldl checkpointKey acc)
    (∅, 0)

/-- `CreateCheckpoint`: the bytes of the dump file. -/
def createCheckpoint (e : MVCCEngine) (o : RangeOrder Key (List MvccEntry))
    (o' : RangeOrder Key Bytes) : Bytes :=
  encodeDump o' (e.checkpointData o).1 (UInt64.ofNat (e.checkpointData o).2)

/-- Versions are stored in the shard their key hashes to. -/
def Homed (e : MVCCEngine) : Prop := ∀ i k, i ≠ shardFor k → e.versions i k = []

theorem homed_new (sharded : Bool) : Homed (newMVCCEngine sharded) :=
  fun i k _ => versions_newMVCCEngine sharded i k

theorem Homed.applyBatch {e : MVCCEngine} (h : e.Homed) (ops : List BatchOp) :
    (e.applyBatch ops).Homed := by
  intro i k hi
  by_cases hops : ops = []
  · rw [MVCCEngine.applyBatch, if_pos hops]
    exact h i k hi
  · have hnone : opsOn k (ShardedEngine.byShard ops i) = [] := by
      refine List.filter_eq_nil_iff.mpr fun op hop hkey => hi ?_
      have hshard : shardFor op.key = i := by simpa using (List.mem_filter.mp hop).2
      rw [← hshard, of_decide_eq_true hkey]
    rw [versions_applyBatch e hops, hnone, h i k hi]
    rfl

theorem Homed.compact {e : MVCCEngine} (h : e.Homed) : e.compact.2.Homed := by
  intro i k hi
  rw [versions_compact, h i k hi]
  simp [compactEntries]

theorem Homed.getElem?_checkpointData {e : MVCCEngine} (h : e.Homed)
    (o : RangeOrder Key (List MvccEntry)) (k : Key) :
    (e.checkpointData o).1[k]? = (liveVersion (e.versions (shardFor k) k)).map (·.value) := by
  have hstep : ∀ (acc : GoMap Bytes × Nat) i,
      ((o.entries (e.shards i)).foldl checkpointKey acc).1[k]? =
        ((liveVersion (e.versions i k)).map (·.value)).or acc.1[k]? :=
    fun acc i => getElem?_checkpoint o (e.shards i) k acc
  have hother : ∀ i, i ≠ shardFor k → (liveVersion (e.versions i k)).map (·.value) = none := by
    intro i hi
    rw [h i k hi]
    rfl
  rw [checkpointData,
    foldl_or_single (r := fun acc : GoMap Bytes × Nat => acc.1[k]?) hstep hother,
    if_pos (List.mem_finRange _), Std.ExtTreeMap.getElem?_empty, Option.or_none]

/-! ## Serial runs -/

inductive SerialCall where
  | applyBatch (ops : List BatchOp)
  | compact

def call (e : MVCCEngine) : SerialCall → MVCCEngine
  | .applyBatch ops => e.applyBatch ops
  | .compact => e.compact.2

/-- A new engine after some calls. -/
def after (sharded : Bool) (calls : List SerialCall) : MVCCEngine :=
  calls.foldl call (newMVCCEngine sharded)

/-- The fate of a key after some calls. -/
def fate (k : Key) (calls : List SerialCall) : KeyFate :=
  calls.foldl (fun fate c =>
    match c with
    | .applyBatch ops => (opsOn k ops).foldl KeyFate.mutate fate
    | .compact => fate.compact) .absent

/-- No snapshot is open, the keys are at home, and their fates are as the calls say. -/
structure Fated (fates : Key → KeyFate) (e : MVCCEngine) : Prop where
  unread : e.snapshotCount = 0
  homed : e.Homed
  fate : ∀ k, fateOf (e.versions (shardFor k) k) = fates k

theorem fated_after (sharded : Bool) (calls : List SerialCall) :
    Fated (fun k => fate k calls) (after sharded calls) := by
  induction calls using List.reverseRecOn with
  | nil =>
      refine ⟨rfl, homed_new sharded, fun k => ?_⟩
      show fateOf ((newMVCCEngine sharded).versions (shardFor k) k) = .absent
      rw [versions_newMVCCEngine]
      rfl
  | append_singleton calls c ih =>
      rw [after, List.foldl_append]
      simp only [fate, List.foldl_append, List.foldl_cons, List.foldl_nil]
      cases c with
      | applyBatch ops =>
          refine ⟨(applyBatch_snapshots _ ops).1.trans ih.unread, ih.homed.applyBatch ops,
            fun k => ?_⟩
          show fateOf (((after sharded calls).applyBatch ops).versions (shardFor k) k) =
            (opsOn k ops).foldl KeyFate.mutate (fate k calls)
          rw [versions_home_applyBatch, fateOf_grow, ih.fate]
      | compact =>
          refine ⟨ih.unread, ih.homed.compact, fun k => ?_⟩
          have hsafe : (after sharded calls).safeSeq = 0 := by
            rw [safeSeq, ih.unread]
            rfl
          show fateOf ((after sharded calls).compact.2.versions (shardFor k) k) =
            (fate k calls).compact
          rw [versions_compact, hsafe, fateOf_compactEntries, ih.fate]

/-- **What a checkpoint holds.**  After every serial run of batches and compactions, on every
key: the map of the checkpoint agrees with `Get` if and only if the key is not buried. -/
theorem checkpoint_key_iff (sharded : Bool) (calls : List SerialCall)
    (o : RangeOrder Key (List MvccEntry)) (k : Key) :
    ((after sharded calls).checkpointData o).1[k]? = (after sharded calls).get k ↔
      fate k calls ≠ .buried := by
  have h := fated_after sharded calls
  rw [h.homed.getElem?_checkpointData, get_eq_latest, liveVersion_eq_latest_iff, h.fate]

/-- A key is set and deleted; the checkpoint holds its value. -/
theorem deleted_value_checkpointed :
    let e := after false [.applyBatch [.set [0x6b] [1]], .applyBatch [.delete [0x6b]]]
    e.get [0x6b] = none ∧ (e.checkpointData .ascending).1[([0x6b] : Key)]? = some [1] := by
  decide +kernel

/-! ## Loading a dump -/

/-- One turn of the loop in `Open`: a version under the applied index of the dump, in the
shard of its key. -/
def loadItem (applied : Nat) (e : MVCCEngine) (kv : Key × Bytes) : MVCCEngine :=
  e.writeSection applied (shardFor kv.1) [.set kv.1 kv.2]

/-- `Open`: `lastCommitted` is left as it is. -/
def «open» (e : MVCCEngine) (o : RangeOrder Key Bytes) (file : FileRead) :
    Option LoadError × MVCCEngine :=
  match loadDump file with
  | .error err => (some err, e)
  | .ok none => (none, e)
  | .ok (some (data, applied)) =>
      (none, (o.entries data).foldl (loadItem applied.toNat) { e with seqCounter := applied.toNat })

theorem foldl_applyBatchWrapping (batches : List (List BatchOp)) : ∀ e : MVCCEngine,
    e.seqCounter + batches.flatten.length < 2 ^ 64 →
      batches.foldl applyBatchWrapping e = batches.foldl applyBatch e := by
  induction batches with
  | nil =>
      intro e _
      -- not by `rfl`: that would compare the two bodies
      simp only [List.foldl_nil]
  | cons ops batches ih =>
      intro e h
      rw [List.flatten_cons, List.length_append] at h
      rw [List.foldl_cons, List.foldl_cons, applyBatchWrapping_eq (by omega)]
      refine ih _ ?_
      rw [applyBatch_seqCounter, nextSeq]
      omega

/-- What is stored is numbered with the counter, and nothing is published. -/
structure Unpublished (e : MVCCEngine) : Prop where
  filed : ∀ i k, ∀ v ∈ e.versions i k, v.seq = e.seqCounter
  unpublished : e.lastCommitted = 0

theorem Unpublished.loadItem {e : MVCCEngine} (h : Unpublished e) (kv : Key × Bytes) :
    Unpublished (e.loadItem e.seqCounter kv) := by
  refine ⟨fun i k v hv => ?_, h.unpublished⟩
  rw [MVCCEngine.loadItem, versions_writeSection] at hv
  split at hv
  · rcases mem_grow hv with hold | ⟨hnew, -⟩
    · exact h.filed i k v hold
    · exact hnew
  · exact h.filed i k v hv

theorem Unpublished.loadItems (kvs : List (Key × Bytes)) : ∀ {e : MVCCEngine}, Unpublished e →
    Unpublished (kvs.foldl (MVCCEngine.loadItem e.seqCounter) e) ∧
      (kvs.foldl (MVCCEngine.loadItem e.seqCounter) e).seqCounter = e.seqCounter := by
  induction kvs with
  | nil => exact fun h => ⟨h, rfl⟩
  | cons kv kvs ih => exact fun h => ih (h.loadItem kv)

/-- The first commit behind a load publishes everything. -/
theorem Unpublished.applyBatch {e : MVCCEngine} (h : Unpublished e) (hpos : 0 < e.seqCounter)
    {ops : List BatchOp} (hops : ops ≠ []) : Tidy (e.applyBatch ops) := by
  have hseq : e.nextSeq ops.length = e.seqCounter + ops.length := rfl
  refine tidy_of_grow (c := e.nextSeq ops.length) (fun i k => ?_) (fun i k v hv => ?_)
    (fun i k => ⟨_, versions_applyBatch e hops i k, fun _ => by omega⟩) ?_
    (applyBatch_seqCounter e ops)
  · refine List.pairwise_iff_forall_sublist.mpr fun {a b} hab => ?_
    have ha := h.filed i k a (hab.subset (by simp))
    have hb := h.filed i k b (hab.subset (by simp))
    rw [ha, hb]
  · rw [h.filed i k v hv]
    omega
  · rw [applyBatch_lastCommitted e hops, h.unpublished, Nat.zero_max]

theorem Tidy.applyBatches (batches : List (List BatchOp)) :
    ∀ {e : MVCCEngine}, Tidy e → Tidy (batches.foldl MVCCEngine.applyBatch e) := by
  induction batches with
  | nil => exact fun h => h
  | cons ops batches ih => exact fun h => ih (h.applyBatch ops)

theorem Unpublished.applyBatches {e : MVCCEngine} (h : Unpublished e) (hpos : 0 < e.seqCounter)
    {batches : List (List BatchOp)} (hsome : ∃ ops ∈ batches, ops ≠ []) :
    Tidy (batches.foldl MVCCEngine.applyBatch e) := by
  induction batches with
  | nil =>
      obtain ⟨ops, hmem, -⟩ := hsome
      exact absurd hmem List.not_mem_nil
  | cons ops batches ih =>
      rw [List.foldl_cons]
      by_cases hops : ops = []
      · rw [MVCCEngine.applyBatch, if_pos hops]
        refine ih ?_
        obtain ⟨ops', hmem, hne⟩ := hsome
        refine ⟨ops', List.mem_of_ne_of_mem (fun heq => hne (heq.trans hops)) hmem, hne⟩
      · exact Tidy.applyBatches batches (h.applyBatch hpos hops)

theorem foldl_applyBatch_of_empty {batches : List (List BatchOp)} (h : ∀ ops ∈ batches, ops = [])
    (e : MVCCEngine) : batches.foldl MVCCEngine.applyBatch e = e := by
  induction batches with
  | nil => rfl
  | cons ops batches ih =>
      obtain ⟨hops, hrest⟩ := List.forall_mem_cons.mp h
      rw [List.foldl_cons, applyBatch, if_pos hops, ih hrest]

theorem unpublished_open {b : Bytes} {data : GoMap Bytes} {applied : UInt64}
    (hdec : decodeDump b = .ok (data, applied)) (sharded : Bool) (o : RangeOrder Key Bytes) :
    ((newMVCCEngine sharded).open o (.contents b)).1 = none ∧
      Unpublished ((newMVCCEngine sharded).open o (.contents b)).2 ∧
      ((newMVCCEngine sharded).open o (.contents b)).2.seqCounter = applied.toNat := by
  have hnew : Unpublished { newMVCCEngine sharded with seqCounter := applied.toNat } := by
    refine ⟨fun i k v hv => ?_, rfl⟩
    have hnil : v ∈ (newMVCCEngine sharded).versions i k := hv
    rw [versions_newMVCCEngine] at hnil
    exact absurd hnil List.not_mem_nil
  rw [MVCCEngine.open, loadDump, hdec]
  exact ⟨rfl, hnew.loadItems (o.entries data)⟩

theorem Unpublished.sequence {e : MVCCEngine} (h : Unpublished e) :
    e.getSnapshot.1.sequence = 0 := by
  show UInt64.ofNat e.lastCommitted = 0
  rw [h.unpublished]
  rfl

theorem Tidy.upToDate {e : MVCCEngine} (h : Tidy e) :
    (∀ k, e.snapshotGet k = e.get k) ∧
      e.getSnapshot.1.sequence = StorageEngine.currentSequence e := by
  constructor
  · intro k
    rw [h.snapshotGet, get_eq_latest]
  · exact congrArg UInt64.ofNat h.settled

/-- **Snapshots of a loaded engine.**  A dump with an applied index is loaded into a new
engine, and any batches follow, few enough not to wrap the counter.  A snapshot taken then
agrees with `Get` on every key and is numbered as the engine if and only if one of the
batches had a mutation. -/
theorem loaded_snapshot_iff (sharded : Bool) (o : RangeOrder Key Bytes) {b : Bytes}
    {data : GoMap Bytes} {applied : UInt64} (hdec : decodeDump b = .ok (data, applied))
    (hpos : 0 < applied) (batches : List (List BatchOp))
    (hwrap : applied.toNat + batches.flatten.length < 2 ^ 64) :
    let opened := (newMVCCEngine sharded).open o (.contents b)
    let e := batches.foldl applyBatchWrapping opened.2
    opened.1 = none ∧
      (((∀ k, e.snapshotGet k = e.get k) ∧
          e.getSnapshot.1.sequence = StorageEngine.currentSequence e) ↔
        ∃ ops ∈ batches, ops ≠ []) := by
  intro opened e
  obtain ⟨hok, hload, hseq⟩ := unpublished_open hdec sharded o
  have hrun : e = batches.foldl MVCCEngine.applyBatch opened.2 :=
    foldl_applyBatchWrapping batches _ (hseq.symm ▸ hwrap)
  refine ⟨hok, ?_⟩
  constructor
  · rintro ⟨-, hsequence⟩
    by_contra hnone
    have hempty : ∀ ops ∈ batches, ops = [] := by
      intro ops hops
      by_contra hne
      exact hnone ⟨ops, hops, hne⟩
    rw [hrun, foldl_applyBatch_of_empty hempty, hload.sequence] at hsequence
    have hzero : 0 = applied :=
      (hsequence.trans (congrArg UInt64.ofNat hseq)).trans UInt64.ofNat_toNat
    rw [← hzero] at hpos
    exact absurd hpos (by decide)
  · intro hsome
    rw [hrun]
    have hposNat : 0 < opened.2.seqCounter := hseq.symm ▸ UInt64.lt_iff_toNat_lt.mp hpos
    exact (hload.applyBatches hposNat hsome).upToDate

/-- The dump of one key under index 7. -/
def smallDump : Bytes := encodeDump .ascending ((∅ : GoMap Bytes).insert [0x6b] [1]) 7

/-- After one batch the loaded key is seen. -/
theorem loaded_key_seen :
    let opened := (newMVCCEngine false).open .ascending (.contents smallDump)
    let e := [[BatchOp.set [0x61] [2]]].foldl applyBatchWrapping opened.2
    e.snapshotGet [0x6b] = e.get [0x6b] := by
  have hdec : decodeDump smallDump = .ok ((∅ : GoMap Bytes).insert [0x6b] [1], 7) := by
    decide +kernel
  exact ((loaded_snapshot_iff false .ascending hdec (by decide) [[.set [0x61] [2]]]
    (by decide)).2.mpr ⟨_, List.mem_cons_self, by simp⟩).1 [0x6b]

/-- Before it, the engine has the key and a snapshot has not; the snapshot is numbered 0, the
engine 7. -/
theorem loaded_key_unseen :
    let e := ((newMVCCEngine false).open .ascending (.contents smallDump)).2
    e.get [0x6b] = some [1] ∧ e.snapshotGet [0x6b] = none ∧ e.getSnapshot.1.sequence = 0 ∧
      StorageEngine.currentSequence e = 7 := by
  decide +kernel

end MVCCEngine

end Dpx
