/-
# `Dpx.Engine.Equivalence` — the plain and the sharded engine answer alike

Both engines of `engine/memory/memory.go` take the same batches.  The plain one folds a
batch over one tree.  The sharded one files every mutation under the shard its key hashes
to, folds each part over that shard's tree, keeps an applied index per shard, and sorts
the concatenation of 128 scans.

`Matches` is the simulation: every key lives in its own shard and has the plain engine's
value there, and the applied index is kept by one shard alone, the one `__dpx:applied`
hashes to, while all others stay at zero.  A batch preserves it (`Matches.applyBatch`).
From it the whole interface agrees: the maximum over the shards is the one index that
moved, and the sorted concatenation is the scan of the same lookups (`Scan.Lists.merge`).

`sort.Slice` is not stable; no key is in two shards, so there is nothing to be stable
about, and the model's `mergeSort` is as good.
-/
import Dpx.Engine.Memory

namespace Dpx

/-! ## The applied index -/

namespace State

theorem applied_applyOp_of_ne (s : State) {op : BatchOp} (h : op.key ≠ appliedKey) :
    (s.applyOp op).applied = s.applied := by
  cases op with
  | set k v => simp_all [applyOp, BatchOp.key]
  | delete k => rfl
  | merge k v => rfl

theorem applied_applyOp_congr {s t : State} (h : s.applied = t.applied) (op : BatchOp) :
    (s.applyOp op).applied = (t.applyOp op).applied := by
  cases op with
  | set k v => simp [applyOp, h]
  | delete k => exact h
  | merge k v => exact h

theorem applied_applyOps_of_ne {ops : List BatchOp} (h : ∀ op ∈ ops, op.key ≠ appliedKey) :
    ∀ s : State, (s.applyOps ops).applied = s.applied := by
  induction ops with
  | nil => intro s; rfl
  | cons op ops ih =>
      intro s
      simp only [List.forall_mem_cons] at h
      exact (ih h.2 (s.applyOp op)).trans (s.applied_applyOp_of_ne h.1)

end State

theorem applied_applyOps_byShard (ops : List BatchOp) :
    ∀ {s t : State}, s.applied = t.applied →
      (s.applyOps (ShardedEngine.byShard ops (shardFor appliedKey))).applied =
        (t.applyOps ops).applied := by
  induction ops with
  | nil => intro s t h; exact h
  | cons op ops ih =>
      intro s t h
      by_cases hop : shardFor op.key = shardFor appliedKey
      · simp only [ShardedEngine.byShard, List.filter_cons, hop, decide_true, if_true]
        exact ih (State.applied_applyOp_congr h op)
      · simp only [ShardedEngine.byShard, List.filter_cons, hop, decide_false, Bool.false_eq_true,
          if_false]
        refine ih (h.trans (t.applied_applyOp_of_ne ?_).symm)
        intro hkey
        exact hop (by rw [hkey])

theorem foldl_max_single {I : Type} {a : I → UInt64} {h : I} (hzero : ∀ i, i ≠ h → a i = 0) :
    ∀ (is : List I) (m : UInt64), m = 0 ∨ m = a h → h ∈ is ∨ m = a h →
      is.foldl (fun m i => if m < a i then a i else m) m = a h := by
  intro is
  induction is with
  | nil =>
      intro m _ hmem
      rcases hmem with hmem | hm
      · exact absurd hmem List.not_mem_nil
      · exact hm
  | cons i is ih =>
      intro m hm hmem
      rw [List.foldl_cons]
      by_cases hi : i = h
      · subst hi
        have hstep : (if m < a i then a i else m) = a i := by
          rcases hm with rfl | rfl
          · split
            · rfl
            · rename_i hlt
              exact (UInt64.le_zero_iff.mp (UInt64.not_lt.mp hlt)).symm
          · simp
        rw [hstep]
        exact ih (a i) (Or.inr rfl) (Or.inr rfl)
      · have hstep : (if m < a i then a i else m) = m := by simp [hzero i hi]
        rw [hstep]
        refine ih m hm ?_
        rcases hmem with hmem | hm'
        · exact Or.inl (List.mem_of_ne_of_mem (fun e => hi e.symm) hmem)
        · exact Or.inr hm'

/-! ## Keys at home -/

namespace ShardedEngine

/-- Every key is stored in the shard it hashes to. -/
def Homed (e : ShardedEngine) : Prop :=
  ∀ i k v, (e.shards i).get k = some v → shardFor k = i

theorem homed_new : Homed new := by
  intro i k v h
  simp [new] at h

theorem Homed.get_iff {e : ShardedEngine} (h : e.Homed) (i : ShardId) (k : Key) (v : Bytes) :
    (e.shards i).get k = some v ↔ e.get k = some v ∧ shardFor k = i := by
  constructor
  · intro hget
    have hi := h i k v hget
    subst hi
    exact ⟨hget, rfl⟩
  · rintro ⟨hget, rfl⟩
    exact hget

theorem Homed.applyBatch {e : ShardedEngine} (h : e.Homed) (ops : List BatchOp) :
    (e.applyBatch ops).Homed := by
  intro i k v hget
  by_contra hne
  have hother : ∀ op ∈ byShard ops i, op.key ≠ k := by
    intro op hop hkey
    refine hne ?_
    rw [← hkey]
    simpa using (List.mem_filter.mp hop).2
  rw [applyBatch_shards, State.get_applyOps, BatchOp.effect_of_forall_ne hother] at hget
  exact hne (h i k v hget)

theorem Homed.lists_rawIter {e : ShardedEngine} (h : e.Homed) (start fin : Bytes) :
    Scan.Lists (fun k v => e.get k = some v ∧ inRange start fin k = true)
      (e.rawIter start fin) := by
  refine Scan.Lists.merge shardFor (List.nodup_finRange _) (fun i _ => ?_)
    fun k => List.mem_finRange _
  refine ((e.shards i).lists_rawIter start fin).congr fun k v => ?_
  rw [h.get_iff]
  tauto

theorem Homed.lists_newIter {e : ShardedEngine} (h : e.Homed) (start fin : Bytes) :
    Scan.Lists (fun k v => e.get k = some v ∧ (inRange start fin k && !isReserved k) = true)
      (e.newIter start fin) := by
  refine Scan.Lists.merge shardFor (List.nodup_finRange _) (fun i _ => ?_)
    fun k => List.mem_finRange _
  refine ((e.shards i).lists_newIter start fin).congr fun k v => ?_
  rw [h.get_iff]
  tauto

end ShardedEngine

/-! ## The simulation -/

structure Matches (e : ShardedEngine) (s : State) : Prop where
  homed : e.Homed
  get : ∀ k, e.get k = s.get k
  applied : (e.shards (shardFor appliedKey)).applied = s.applied
  unapplied : ∀ i, i ≠ shardFor appliedKey → (e.shards i).applied = 0

theorem matches_new : Matches ShardedEngine.new State.empty where
  homed := ShardedEngine.homed_new
  get := fun _ => rfl
  applied := rfl
  unapplied := fun _ _ => rfl

namespace Matches

variable {e : ShardedEngine} {s : State}

theorem applyBatch (h : Matches e s) (ops : List BatchOp) :
    Matches (e.applyBatch ops) (s.applyOps ops) where
  homed := h.homed.applyBatch ops
  get := by
    intro k
    rw [ShardedEngine.get_applyBatch, State.get_applyOps, h.get]
  applied := by
    rw [ShardedEngine.applyBatch_shards]
    exact applied_applyOps_byShard ops h.applied
  unapplied := by
    intro i hi
    rw [ShardedEngine.applyBatch_shards, State.applied_applyOps_of_ne, h.unapplied i hi]
    intro op hop hkey
    have hshard : shardFor op.key = i := by simpa using (List.mem_filter.mp hop).2
    exact hi (by rw [← hshard, hkey])

theorem applyBatches (h : Matches e s) (wo : WriteOptions) (batches : List (List BatchOp)) :
    Matches (Dpx.applyBatches e wo batches) (Dpx.applyBatches s wo batches) := by
  induction batches generalizing e s with
  | nil => exact h
  | cons ops batches ih => exact ih (h.applyBatch ops)

theorem getVersion (h : Matches e s) (k : Key) : e.getVersion k = s.getVersion k := by
  rw [ShardedEngine.getVersion_eq, State.getVersion_eq, h.get]

theorem sequence (h : Matches e s) : e.sequence = s.sequence := by
  have hmax := foldl_max_single h.unapplied (List.finRange numShards) 0 (Or.inl rfl)
    (Or.inl (List.mem_finRange _))
  exact hmax.trans h.applied

theorem rawIter (h : Matches e s) (start fin : Bytes) :
    e.rawIter start fin = s.rawIter start fin := by
  refine (h.homed.lists_rawIter start fin).unique ?_
  refine (s.lists_rawIter start fin).congr fun k v => ?_
  rw [h.get]

theorem newIter (h : Matches e s) (start fin : Bytes) :
    e.newIter start fin = s.newIter start fin := by
  refine (h.homed.lists_newIter start fin).unique ?_
  refine (s.lists_newIter start fin).congr fun k v => ?_
  rw [h.get]

end Matches

/-- **The engines are equivalent.**  After every serial sequence of batches, whatever
their keys, the engine and a snapshot taken now answer alike on both sides. -/
theorem engines_agree (wo : WriteOptions) (batches : List (List BatchOp)) :
    let e := applyBatches ShardedEngine.new wo batches
    let s := applyBatches State.empty wo batches
    (∀ k, StorageEngine.get e k = StorageEngine.get s k) ∧
    StorageEngine.currentSequence e = StorageEngine.currentSequence s ∧
    (∀ start fin, StorageEngine.rawIter e start fin = StorageEngine.rawIter s start fin) ∧
    -- a snapshot is the states it loaded
    (∀ k, e.get k = s.get k) ∧ (∀ k, e.getVersion k = s.getVersion k) ∧
    e.sequence = s.sequence ∧ ∀ start fin, e.newIter start fin = s.newIter start fin := by
  have h := matches_new.applyBatches wo batches
  refine ⟨h.get, h.sequence, fun start fin => ?_, h.get, h.getVersion, h.sequence, h.newIter⟩
  exact congrArg (fun l => (l, none)) (h.rawIter start fin)

end Dpx
