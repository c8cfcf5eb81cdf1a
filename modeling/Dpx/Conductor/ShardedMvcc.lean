/-
# `Dpx.Conductor.ShardedMvcc` — the sharded proposer on the multi-version engine

On a sharded `MVCCEngine`, `applyInline` skips `ApplyBatch` and hands all its mutations
to `ApplyShardDirect` with its own shard number: the user keys, their version records and
the applied index all land in the shard of the FIRST written key.  Reads look a key up
under its own hash.

So a write is readable only if its key hashes to the routing shard, and its epoch only if
the version key does too; and a version key never hashes to the shard of its key, so the
epoch of the first written key is never found (`Sound.first_version_unread`).
`committed_readable_iff` is exact: what p wrote is readable
where the shards agree, and elsewhere only if the state before the call happened to answer
the same already.

The version records of one call share a nine-byte buffer, and the applied index is its
first eight bytes: the engine keeps references, so what it stores is what the buffer holds
when the loop is done (`epochBuf`).  Every written key gets the record of the call's last
write (`storedRecord_applied`), its own only where the two say the same (`own_records_iff`).
-/
import Dpx.Lib.Runs
import Dpx.Engine.Mvcc
import Dpx.Conductor.Sharded

namespace Dpx

/-! ## The mutations of one call -/

/-- The loop's writes to the shared buffer. -/
def fillEpochBuf (index : UInt64) (buf : Bytes) : List WriteEntry → Bytes
  | [] => buf
  | w :: ws => fillEpochBuf index (encodeEpochRecord (w.epochRecord index)) ws

/-- What the shared buffer holds when the engine gets it: the applied index is encoded
over the first eight bytes. -/
def epochBuf (index : UInt64) (ws : List WriteEntry) : Bytes :=
  encodeUint64 index ++ (fillEpochBuf index (List.replicate 9 0) ws).drop 8

def directOps (buf : Bytes) (w : WriteEntry) : List BatchOp :=
  w.dataOp.toList ++ [.set (versionKey w.key) buf]

/-- The list `applyInline` hands to `ApplyShardDirect`. -/
def directWrites (index : UInt64) (ws : List WriteEntry) : List BatchOp :=
  ws.flatMap (directOps (epochBuf index ws)) ++ [.set appliedKey ((epochBuf index ws).take 8)]

theorem fillEpochBuf_concat (index : UInt64) (ws : List WriteEntry) (w : WriteEntry) :
    ∀ buf, fillEpochBuf index buf (ws ++ [w]) = encodeEpochRecord (w.epochRecord index) := by
  induction ws with
  | nil => exact fun _ => rfl
  | cons v ws ih => exact fun _ => ih _

theorem epochBuf_eq (index : UInt64) {ws : List WriteEntry} {w : WriteEntry}
    (hw : ws.getLast? = some w) : epochBuf index ws = encodeEpochRecord (w.epochRecord index) := by
  have hfill := fillEpochBuf_concat index ws.dropLast w (List.replicate 9 0)
  rw [List.dropLast_append_getLast? w hw] at hfill
  rw [epochBuf, hfill, encodeEpochRecord, List.drop_left' (LittleEndian.length_putUint64 _)]
  rfl

/-- The data mutations of `k`, in order. -/
def dataOpsOn (k : Key) (ws : List WriteEntry) : List BatchOp := opsOn k (ws.filterMap (·.dataOp))

theorem opsOn_directWrites_user {k : Key} (hk : isReserved k = false) (index : UInt64)
    (ws : List WriteEntry) : opsOn k (directWrites index ws) = dataOpsOn k ws := by
  have hver : ∀ w : WriteEntry, ∀ buf, opsOn k (directOps buf w) = opsOn k w.dataOp.toList := by
    intro w buf
    rw [directOps, opsOn, List.filter_append]
    have hne : versionKey w.key ≠ k := fun heq => ne_versionKey_of_user hk w.key heq.symm
    show _ ++ List.filter _ [BatchOp.set (versionKey w.key) buf] = _
    simp [BatchOp.key, hne, opsOn]
  have hloop : ∀ (buf : Bytes) (ws : List WriteEntry),
      opsOn k (ws.flatMap (directOps buf)) = dataOpsOn k ws := by
    intro buf ws
    induction ws with
    | nil => rfl
    | cons w ws ih =>
        have hsplit : opsOn k ((w :: ws).flatMap (directOps buf)) =
            opsOn k (directOps buf w) ++ opsOn k (ws.flatMap (directOps buf)) := by
          rw [List.flatMap_cons]
          exact List.filter_append ..
        rw [hsplit, ih, hver, dataOpsOn, dataOpsOn, List.filterMap_cons]
        cases w.dataOp with
        | none => rfl
        | some op => exact (List.filter_append ..).symm
  have happ : appliedKey ≠ k := fun heq => ne_appliedKey_of_user hk heq.symm
  rw [directWrites, opsOn, List.filter_append]
  show opsOn k _ ++ _ = _
  rw [hloop]
  simp [BatchOp.key, happ]

theorem opsOn_directWrites_version {ws : List WriteEntry}
    (huser : ∀ w ∈ ws, isReserved w.key = false) (index : UInt64) (k : Key) :
    ∀ op ∈ opsOn (versionKey k) (directWrites index ws),
      op = .set (versionKey k) (epochBuf index ws) := by
  intro op hop
  obtain ⟨hmem, hkey⟩ := List.mem_filter.mp hop
  have hkey' : op.key = versionKey k := of_decide_eq_true hkey
  rcases List.mem_append.mp hmem with hmem | hmem
  · obtain ⟨w, hw, hin⟩ := List.mem_flatMap.mp hmem
    rcases List.mem_append.mp hin with hdata | hver
    · rw [dataOp_key (Option.mem_toList.mp hdata)] at hkey'
      exact absurd hkey' (ne_versionKey_of_user (huser w hw) k)
    · rw [List.mem_singleton.mp hver] at hkey' ⊢
      have hk : versionKey w.key = versionKey k := hkey'
      rw [hk]
  · rw [List.mem_singleton.mp hmem] at hkey'
    exact absurd hkey'.symm (versionKey_ne_appliedKey k)

theorem opsOn_directWrites_version_ne_nil {ws : List WriteEntry} {w : WriteEntry} (hw : w ∈ ws)
    (index : UInt64) : opsOn (versionKey w.key) (directWrites index ws) ≠ [] := by
  refine List.ne_nil_of_mem (a := .set (versionKey w.key) (epochBuf index ws)) ?_
  refine List.mem_filter.mpr ⟨List.mem_append_left _ (List.mem_flatMap.mpr ⟨w, hw, ?_⟩),
    decide_eq_true rfl⟩
  exact List.mem_append_right _ (List.mem_singleton_self _)

theorem latest_directWrites {ws : List WriteEntry} (huser : ∀ w ∈ ws, isReserved w.key = false)
    (e : MVCCEngine) {i j : ShardId} (hj : j = i) (index : UInt64) {w last : WriteEntry}
    (hw : w ∈ ws) (hlast : ws.getLast? = some last) :
    latest ((e.applyShardDirect i (directWrites index ws)).2.versions j (versionKey w.key)) =
      some (encodeEpochRecord (last.epochRecord index)) := by
  rw [MVCCEngine.versions_applyShardDirect, if_pos hj, latest_grow, ← epochBuf_eq index hlast]
  exact lastValue_of_sets (opsOn_directWrites_version_ne_nil hw index)
    (opsOn_directWrites_version huser index w.key) _ _

/-! ## The proposer -/

namespace ShardedDirectProposer

/-- `applyInline` on the multi-version engine: the fast path if the engine is sharded. -/
def applyInlineMVCC (s : ShardedDirectProposer MVCCEngine) (p : Proposal) :
    ApplyResult × ShardedDirectProposer MVCCEngine :=
  if s.engine.sharded then
    let i := route p
    let sp := s.shards i
    if sp.conflicts p then (.conflicted, s.setShard i sp.skip)
    else
      let sp := sp.accept p
      let (commitSeq, eng) := s.engine.applyShardDirect i (directWrites sp.index p.writes)
      (.ok, { s.setShard i { sp with applied := UInt64.ofNat commitSeq } with engine := eng })
  else s.applyInline p

inductive ProposerEvent where
  | propose (p : Proposal)
  | getSnapshot
  | closeSnapshot
  | compact

/-- One step of the proposer or of those who share its engine. -/
def step (s : ShardedDirectProposer MVCCEngine) : ProposerEvent → ShardedDirectProposer MVCCEngine
  | .propose p => (s.applyInlineMVCC p).2
  | .getSnapshot => { s with engine := s.engine.getSnapshot.2 }
  | .closeSnapshot => { s with engine := s.engine.closeSnapshot }
  | .compact => { s with engine := s.engine.compact.2 }

/-- A sharded engine between calls. -/
structure Sound (s : ShardedDirectProposer MVCCEngine) : Prop where
  sharded : s.engine.sharded = true
  tidy : s.engine.Tidy

theorem applyInlineMVCC_cases {s : ShardedDirectProposer MVCCEngine} (h : s.engine.sharded = true)
    (p : Proposal) :
    ((s.applyInlineMVCC p).1 = .conflicted ∧ (s.applyInlineMVCC p).2.engine = s.engine) ∨
    ((s.applyInlineMVCC p).1 = .ok ∧ (s.applyInlineMVCC p).2.engine =
      (s.engine.applyShardDirect (route p)
        (directWrites ((s.shards (route p)).index + 1) p.writes)).2) := by
  rw [applyInlineMVCC, if_pos h]
  simp only
  split
  · exact Or.inl ⟨rfl, rfl⟩
  · exact Or.inr ⟨rfl, rfl⟩

theorem applyShardDirect_sharded (e : MVCCEngine) (i : ShardId) (ws : List BatchOp) :
    (e.applyShardDirect i ws).2.sharded = e.sharded := by
  show (MVCCEngine.publish _ _).sharded = _
  rw [MVCCEngine.publish]
  split <;> rfl

theorem Sound.applyInlineMVCC {s : ShardedDirectProposer MVCCEngine} (h : Sound s) (p : Proposal) :
    Sound (s.applyInlineMVCC p).2 := by
  rcases applyInlineMVCC_cases h.sharded p with ⟨-, heng⟩ | ⟨-, heng⟩
  · exact ⟨heng ▸ h.sharded, heng ▸ h.tidy⟩
  · refine ⟨?_, heng ▸ h.tidy.applyShardDirect _ _⟩
    rw [heng, applyShardDirect_sharded]
    exact h.sharded

theorem Sound.step {s : ShardedDirectProposer MVCCEngine} (h : Sound s) (ev : ProposerEvent) :
    Sound (s.step ev) := by
  cases ev with
  | propose p => exact h.applyInlineMVCC p
  | getSnapshot => exact ⟨h.sharded, h.tidy.getSnapshot⟩
  | closeSnapshot => exact ⟨h.sharded, h.tidy.closeSnapshot⟩
  | compact => exact ⟨h.sharded, h.tidy.compact⟩

theorem newIterator_new (sharded : Bool) (start fin : Bytes) (seq : Nat) :
    (MVCCEngine.newMVCCEngine sharded).newIterator start fin seq = [] := by
  have hflat : ∀ f : Key × List MvccEntry → Option (Bytes × Bytes),
      ((List.finRange numShards).flatMap fun i =>
        ((MVCCEngine.newMVCCEngine sharded).shards i).toList.filterMap f) = [] :=
    fun f => List.flatMap_eq_nil_iff.mpr fun i _ => rfl
  rw [MVCCEngine.newIterator, hflat, List.mergeSort_nil]

theorem newShardedDirectProposer_newMVCC (syncPolicy : SyncPolicy) :
    newShardedDirectProposer (MVCCEngine.newMVCCEngine true) syncPolicy =
      .ok ⟨.newMVCCEngine true, syncPolicy, fun _ => ⟨∅, 0, 0⟩⟩ := by
  have hscan : StorageEngine.rawIter
      (DpxFSM.new (MVCCEngine.newMVCCEngine true) syncPolicy).engine rawIterStart rawIterEnd =
        ([], none) :=
    congrArg (fun l => (l, none)) (newIterator_new true rawIterStart rawIterEnd _)
  rw [newShardedDirectProposer, DpxFSM.open, hscan]
  rfl

theorem sound_of_reachable {s₀ s : ShardedDirectProposer MVCCEngine} {syncPolicy : SyncPolicy}
    (hopen : newShardedDirectProposer (MVCCEngine.newMVCCEngine true) syncPolicy = .ok s₀)
    {events : List ProposerEvent} (hs : s ∈ Runs.states step s₀ events) : Sound s := by
  rw [newShardedDirectProposer_newMVCC] at hopen
  cases hopen
  have hstep : ∀ s ev, Sound s → Sound (s.step ev) := fun _ ev h => h.step ev
  exact Runs.always hstep ⟨rfl, MVCCEngine.tidy_new true⟩ s hs

/-! ## What is readable after a commit -/

/-- What the writes of `p` to `k` produce, in the shard `p` is routed to. -/
def produced (s : ShardedDirectProposer MVCCEngine) (p : Proposal) (k : Key) : Option Bytes :=
  let entries := s.engine.versions (route p) k
  lastValue (getCurrentValue entries) (latest entries) (dataOpsOn k p.writes)

/-- A new snapshot shows the write of `k` and the epoch `index`. -/
def Readable (e : MVCCEngine) (k : Key) (v : Option Bytes) (index : UInt64) : Prop :=
  e.snapshotGet k = v ∧ (e.snapshotGetVersion k).epoch = index

instance (e : MVCCEngine) (k : Key) (v : Option Bytes) (index : UInt64) :
    Decidable (Readable e k v index) :=
  inferInstanceAs (Decidable (_ ∧ _))

theorem Sound.snapshotGet_applied {s : ShardedDirectProposer MVCCEngine} (h : Sound s)
    {p : Proposal} (hok : (s.applyInlineMVCC p).1 = .ok) {k : Key} (hk : isReserved k = false) :
    (s.applyInlineMVCC p).2.engine.snapshotGet k =
      if shardFor k = route p then s.produced p k else s.engine.snapshotGet k := by
  rcases applyInlineMVCC_cases h.sharded p with ⟨hres, -⟩ | ⟨-, heng⟩
  · rw [hres] at hok
    cases hok
  · rw [(h.applyInlineMVCC p).tidy.snapshotGet, h.tidy.snapshotGet, heng,
      MVCCEngine.versions_applyShardDirect]
    split
    · rename_i hroute
      rw [latest_grow, opsOn_directWrites_user hk, hroute]
      rfl
    · rfl

theorem Sound.snapshotGetVersion_applied {s : ShardedDirectProposer MVCCEngine} (h : Sound s)
    {p : Proposal} (hp : p.WellFormed) (hok : (s.applyInlineMVCC p).1 = .ok) {w : WriteEntry}
    (hw : w ∈ p.writes) :
    ((s.applyInlineMVCC p).2.engine.snapshotGetVersion w.key).epoch =
      if shardFor (versionKey w.key) = route p then (s.shards (route p)).index + 1
      else (s.engine.snapshotGetVersion w.key).epoch := by
  rcases applyInlineMVCC_cases h.sharded p with ⟨hres, -⟩ | ⟨-, heng⟩
  · rw [hres] at hok
    cases hok
  · have htidy := (h.applyInlineMVCC p).tidy
    rw [heng] at htidy ⊢
    split
    · rename_i hroute
      have hlast := List.getLast?_eq_some_getLast (List.ne_nil_of_mem hw)
      have hrecord := latest_directWrites hp.user s.engine hroute
        ((s.shards (route p)).index + 1) hw hlast
      rw [htidy.snapshotGetVersion_of_latest hrecord, decodeEpochRecord_encode]
      rfl
    · rename_i hroute
      rw [htidy.snapshotGetVersion, h.tidy.snapshotGetVersion,
        MVCCEngine.versions_applyShardDirect, if_neg hroute]

/-- The epoch of the first written key is never found: its version record went to the
key's own shard, where no version key of the key is looked up. -/
theorem Sound.first_version_unread {s : ShardedDirectProposer MVCCEngine} (h : Sound s)
    {p : Proposal} (hp : p.WellFormed) (hok : (s.applyInlineMVCC p).1 = .ok) {w : WriteEntry}
    {ws : List WriteEntry} (hw : p.writes = w :: ws) :
    ((s.applyInlineMVCC p).2.engine.snapshotGetVersion w.key).epoch =
      (s.engine.snapshotGetVersion w.key).epoch := by
  have hroute : route p = shardFor w.key := by
    rw [route, hw]
    exact keyShard_eq_shardFor w.key
  have hmem : w ∈ p.writes := by
    rw [hw]
    exact List.mem_cons_self
  rw [h.snapshotGetVersion_applied hp hok hmem, hroute,
    if_neg (shardFor_versionKey_ne w.key)]

/-- **Committed writes on the multi-version engine.**  After a call that passes, a new
snapshot shows what each written key's writes produced together with the call's index, if
and only if, for each of them, the key hashes to the routing shard or already answered so,
and the version key hashes to the routing shard or already answered so. -/
theorem committed_readable_iff {s₀ s : ShardedDirectProposer MVCCEngine} {syncPolicy : SyncPolicy}
    (hopen : newShardedDirectProposer (MVCCEngine.newMVCCEngine true) syncPolicy = .ok s₀)
    (events : List ProposerEvent) (hs : s ∈ Runs.states step s₀ events) {p : Proposal}
    (hp : p.WellFormed) (hok : (s.applyInlineMVCC p).1 = .ok) :
    (∀ w ∈ p.writes, Readable (s.applyInlineMVCC p).2.engine w.key (s.produced p w.key)
        ((s.shards (route p)).index + 1)) ↔
      ∀ w ∈ p.writes,
        (shardFor w.key = route p ∨ s.engine.snapshotGet w.key = s.produced p w.key) ∧
        (shardFor (versionKey w.key) = route p ∨
          (s.engine.snapshotGetVersion w.key).epoch = (s.shards (route p)).index + 1) := by
  have hsound := sound_of_reachable hopen hs
  refine forall₂_congr fun w hw => and_congr ?_ ?_
  · rw [hsound.snapshotGet_applied hok (hp.user w hw)]
    split
    · rename_i hroute
      exact ⟨fun _ => Or.inl hroute, fun _ => rfl⟩
    · rename_i hroute
      exact ⟨Or.inr, fun hor => hor.resolve_left hroute⟩
  · rw [hsound.snapshotGetVersion_applied hp hok hw]
    split
    · rename_i hroute
      exact ⟨fun _ => Or.inl hroute, fun _ => rfl⟩
    · rename_i hroute
      exact ⟨Or.inr, fun hor => hor.resolve_left hroute⟩

/-- The proposer on a new sharded engine. -/
def freshMVCC : ShardedDirectProposer MVCCEngine :=
  ⟨.newMVCCEngine true, .syncBatch, fun _ => ⟨∅, 0, 0⟩⟩

/-- Writes `4`, which hashes to the shard of the version key of `a`, then `a`. -/
def strayWrite : Proposal := ⟨[], [⟨.set, [0x34], [1]⟩, ⟨.set, [0x61], [1]⟩], 0, 0⟩

/-- A first write of `a` that finds an earlier stray record with its own index. -/
theorem stray_record_matches :
    Readable ((freshMVCC.step (.propose strayWrite)).applyInlineMVCC (keyWrite 0x61)).2.engine
      [0x61] ((freshMVCC.step (.propose strayWrite)).produced (keyWrite 0x61) [0x61])
      (((freshMVCC.step (.propose strayWrite)).shards (route (keyWrite 0x61))).index + 1) := by
  have hreach : freshMVCC.step (.propose strayWrite) ∈
      Runs.states step freshMVCC [.propose strayWrite] :=
    List.mem_cons_of_mem _ List.mem_cons_self
  have hok : ((freshMVCC.step (.propose strayWrite)).applyInlineMVCC (keyWrite 0x61)).1 = .ok := by
    decide +kernel
  have hall := (committed_readable_iff (newShardedDirectProposer_newMVCC .syncBatch)
    [.propose strayWrite] hreach (p := keyWrite 0x61) (by decide) hok).mpr (by decide +kernel)
  exact hall ⟨.set, [0x61], [1]⟩ List.mem_cons_self

/-- On a new engine a write of `a` and `b` commits; `b` is not there, and `a` has no
epoch. -/
theorem committed_unreadable :
    newShardedDirectProposer (MVCCEngine.newMVCCEngine true) .syncBatch = .ok freshMVCC ∧
    pairWrite.WellFormed ∧ (freshMVCC.applyInlineMVCC pairWrite).1 = .ok ∧
    (freshMVCC.applyInlineMVCC pairWrite).2.engine.snapshotGet [0x62] ≠
      freshMVCC.produced pairWrite [0x62] ∧
    ((freshMVCC.applyInlineMVCC pairWrite).2.engine.snapshotGetVersion [0x61]).epoch ≠
      (freshMVCC.shards (route pairWrite)).index + 1 := by
  refine ⟨newShardedDirectProposer_newMVCC .syncBatch, by decide, ?_, ?_, ?_⟩
  · decide +kernel
  · decide +kernel
  · decide +kernel

/-! ## The records a call leaves -/

/-- The version record of `k` that shard `i` holds. -/
def storedRecord (e : MVCCEngine) (i : ShardId) (k : Key) : Option EpochRecord :=
  (latest (e.versions i (versionKey k))).map decodeEpochRecord

theorem storedRecord_applied {s : ShardedDirectProposer MVCCEngine}
    (hsharded : s.engine.sharded = true) {p : Proposal}
    (huser : ∀ w ∈ p.writes, isReserved w.key = false) (hok : (s.applyInlineMVCC p).1 = .ok)
    {w last : WriteEntry} (hw : w ∈ p.writes) (hlast : p.writes.getLast? = some last) :
    storedRecord (s.applyInlineMVCC p).2.engine (route p) w.key =
      some (last.epochRecord ((s.shards (route p)).index + 1)) := by
  rcases applyInlineMVCC_cases hsharded p with ⟨hres, -⟩ | ⟨-, heng⟩
  · rw [hres] at hok
    cases hok
  · rw [storedRecord, heng, latest_directWrites huser _ rfl _ hw hlast, Option.map_some,
      decodeEpochRecord_encode]

/-- **Version records on the fast path.**  After a call that passes, the record stored for
each written key is that of the key's own last write if and only if the last write of each
is a credit exactly when the last write of the proposal is. -/
theorem own_records_iff {s : ShardedDirectProposer MVCCEngine}
    (hsharded : s.engine.sharded = true) {p : Proposal}
    (huser : ∀ w ∈ p.writes, isReserved w.key = false)
    (hok : (s.applyInlineMVCC p).1 = .ok) :
    (∀ w ∈ p.writes, storedRecord (s.applyInlineMVCC p).2.engine (route p) w.key =
        recordAfter ((s.shards (route p)).index + 1) p.writes w.key) ↔
      ∀ w ∈ p.writes, (lastWrite p.writes w.key).map WriteEntry.isCredit =
        p.writes.getLast?.map WriteEntry.isCredit := by
  refine forall₂_congr fun w hw => ?_
  have hlast := List.getLast?_eq_some_getLast (List.ne_nil_of_mem hw)
  rw [storedRecord_applied hsharded huser hok hw hlast, hlast, recordAfter]
  cases lastWrite p.writes w.key <;> simp [WriteEntry.epochRecord, eq_comm]

/-- A write of `a` and of `b`, by the operations given. -/
def twoWrites (a b : WriteOp) : Proposal :=
  ⟨[], [⟨a, [0x61], encodeInt64 1⟩, ⟨b, [0x62], encodeInt64 1⟩], 0, 0⟩

/-- Two credits leave two records of credits. -/
theorem credits_keep_records :
    storedRecord (freshMVCC.applyInlineMVCC (twoWrites .credit .credit)).2.engine
        (route (twoWrites .credit .credit)) [0x61] = some ⟨1, true⟩ := by
  have hiff := own_records_iff (s := freshMVCC) (p := twoWrites .credit .credit) rfl (by decide)
    (by decide +kernel)
  exact hiff.mpr (by decide) ⟨.credit, [0x61], encodeInt64 1⟩ List.mem_cons_self

/-- `a` is set and `b` credited: the record of `a` says that it was credited. -/
theorem set_recorded_as_credit :
    freshMVCC.engine.sharded = true ∧ (twoWrites .set .credit).WellFormed ∧
      (freshMVCC.applyInlineMVCC (twoWrites .set .credit)).1 = .ok ∧
      storedRecord (freshMVCC.applyInlineMVCC (twoWrites .set .credit)).2.engine
        (route (twoWrites .set .credit)) [0x61] = some ⟨1, true⟩ ∧
      recordAfter 1 (twoWrites .set .credit).writes [0x61] = some ⟨1, false⟩ := by
  refine ⟨rfl, by decide, ?_, ?_, by decide⟩
  · decide +kernel
  · decide +kernel

end ShardedDirectProposer

end Dpx
