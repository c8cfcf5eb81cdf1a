/-
# `Dpx.Engine.MvccCoherent` — reads of the multi-version engine agree

Point reads bisect the versions of a key, scans search them from the end, and `Get` of the
engine takes the last one.  All three rest on the order of the versions, and a scan in
addition on every key being in one shard.

A session on a new engine keeps both: a batch files a key under its own hash, at a sequence
above all that is stored, and `Compact` drops versions from the front, or the whole key.
`reads_coherent` collects what follows at every point of a session.

The sequence counter has 64 bits, and a session here makes fewer than `2^64` mutations.
-/
import Dpx.Engine.MvccCompact
import Dpx.Range

namespace Dpx

open VersionList (Sorted)

/-! ## Where keys are stored -/

theorem mem_writeOps {c : Nat} {k : Key} {ops : List BatchOp} :
    ∀ {s : MvccShard}, k ∈ writeOps c s ops → k ∈ s ∨ ∃ op ∈ ops, op.key = k := by
  induction ops with
  | nil => exact fun h => Or.inl h
  | cons op ops ih =>
      intro s h
      rcases ih h with hin | ⟨o, ho, hkey⟩
      · rw [writeOp, Std.ExtTreeMap.mem_insert] at hin
        rcases hin with hop | hin
        · exact Or.inr ⟨op, List.mem_cons_self, Std.LawfulEqOrd.compare_eq_iff_eq.mp hop⟩
        · exact Or.inl hin
      · exact Or.inr ⟨o, List.mem_cons_of_mem _ ho, hkey⟩

namespace MVCCEngine

/-- Every key is stored in the shard it hashes to. -/
def Filed (e : MVCCEngine) : Prop := ∀ i k, k ∈ e.shards i → i = shardFor k

theorem filed_new (sharded : Bool) : Filed (newMVCCEngine sharded) :=
  fun _ _ h => absurd h Std.ExtTreeMap.not_mem_empty

theorem Filed.homed {e : MVCCEngine} (h : Filed e) : e.Homed := by
  intro i k hi
  have hnot : k ∉ e.shards i := fun hin => hi (h i k hin)
  rw [versions, Std.ExtTreeMap.getElem?_eq_none hnot]
  rfl

theorem Filed.applyBatch {e : MVCCEngine} (h : Filed e) (ops : List BatchOp) :
    Filed (e.applyBatch ops) := by
  by_cases hops : ops = []
  · rwa [MVCCEngine.applyBatch, if_pos hops]
  · intro i k hk
    rw [shards_applyBatch e hops] at hk
    split at hk
    · rcases mem_writeOps hk with hold | ⟨op, hop, rfl⟩
      · exact h i k hold
      · have hshard : shardFor op.key = i := by simpa using (List.mem_filter.mp hop).2
        exact hshard.symm
    · exact h i k hk

theorem Filed.compact {e : MVCCEngine} (h : Filed e) : Filed e.compact.2 := by
  intro i k hk
  refine h i k ?_
  exact Std.ExtTreeMap.mem_of_mem_filterMap hk

end MVCCEngine

/-! ## Sessions -/

namespace Session

/-- What reads rest on, and what they then have in common. -/
structure Coherent (w : Session) : Prop where
  filed : ∀ i k, k ∈ w.engine.shards i → i = shardFor k
  sorted : ∀ i k, Sorted MvccEntry.seq (w.engine.versions i k)
  bound : ∀ i k, ∀ v ∈ w.engine.versions i k, v.seq ≤ w.engine.lastCommitted
  settled : w.engine.lastCommitted = w.engine.seqCounter
  current : ∀ k, w.engine.snapshotGet k = w.engine.get k
  scans : ∀ o ∈ w.snapshots, ∀ start fin, Scan.Lists
    (fun k v => o.snap.get w.engine k = some v ∧ (inRange start fin k && !isReserved k) = true)
    (w.engine.newIterator start fin o.snap.seq)

theorem filed_step {w : Session} (h : w.engine.Filed) (call : SessionCall) :
    (w.step call).engine.Filed := by
  cases call with
  | applyBatch ops => exact h.applyBatch ops
  | getSnapshot => exact h
  | close n =>
      rw [step]
      split <;> exact h
  | compact => exact h.compact

theorem Kept.coherent {w : Session} (h : Kept w) (hfiled : w.engine.Filed) : Coherent w where
  filed := hfiled
  sorted := h.tidy.sorted
  bound := fun i k v hv => (h.tidy.bound i k v hv).2
  settled := h.tidy.settled
  current := h.tidy.upToDate.1
  scans := fun o _ => MvccView.lists_newIterator ⟨o.snap, w.engine, hfiled.homed, h.tidy.sorted⟩

/-- **Reads are coherent.**  At every point of a session of fewer than `2^64` mutations on a
new engine: every key is in the shard it hashes to; its versions are sorted, and the last
published sequence, which is the counter, bounds them; a snapshot taken now agrees with `Get`
of the engine; and a scan of an open snapshot lists in ascending order the user keys of its
range that the snapshot's `Get` finds, with the same values. -/
theorem reads_coherent (sharded : Bool) {calls : List SessionCall}
    (hfew : (calls.map SessionCall.mutations).sum < 2 ^ 64) :
    ∀ w ∈ Runs.states stepWrapping (new sharded) calls, Coherent w := by
  rw [states_stepWrapping sharded hfew]
  intro w hw
  have hkept : Kept w := Runs.always (fun _ call h => h.step call) (kept_new sharded) w hw
  have hstep : ∀ w call, w.engine.Filed → (step w call).engine.Filed :=
    fun _ call h => filed_step h call
  exact hkept.coherent (Runs.always hstep (MVCCEngine.filed_new sharded) w hw)

/-- Coherent is not stable: the session in which a snapshot loses a version. -/
theorem overwritten_coherent :
    (overwritten.map SessionCall.mutations).sum < 2 ^ 64 ∧
      Coherent (overwritten.foldl stepWrapping (new false)) := by
  have hfew : (overwritten.map SessionCall.mutations).sum < 2 ^ 64 := by decide
  exact ⟨hfew, reads_coherent false hfew _ (Runs.foldl_mem_states _ _)⟩

end Session

end Dpx
