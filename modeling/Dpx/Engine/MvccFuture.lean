/-
# `Dpx.Engine.MvccFuture` — what a compaction changes later

While no snapshot is open, `Compact` changes the answer of no `Get`: of a live key the last
version stays, and a key whose last version is a tombstone goes.  But with that key goes the
value under the tombstone, and a merge builds on the last value that is no tombstone.  So a
later merge comes out differently.

A run with compactions is compared with the same run without them.  `Remains` cuts the
mutations of a key at the last compaction that dropped the key: what was `taken` is still
there in the run without compactions, and what was `kept` is there in both.  The two runs
differ on a key exactly where what was kept has no set, ends in a merge, and what was taken
had come to something (`compaction_unseen_iff`).
-/
import Dpx.Engine.MvccCheckpoint

namespace Dpx

open scoped Word
open BatchOp (carried)

/-! ## The mutations of a key across compactions -/

def BatchOp.isDelete : BatchOp → Bool
  | .delete _ => true
  | .set _ _ | .merge _ _ => false

structure Remains where
  taken : List BatchOp
  kept : List BatchOp

namespace Remains

/-- A compaction drops the key if the last mutation is a delete. -/
def call (k : Key) (r : Remains) : MVCCEngine.SerialCall → Remains
  | .applyBatch ops => { r with kept := r.kept ++ opsOn k ops }
  | .compact => if r.kept.getLast?.any BatchOp.isDelete then ⟨r.taken ++ r.kept, []⟩ else r

/-- What is left of `k` after some calls. -/
def of (k : Key) (calls : List MVCCEngine.SerialCall) : Remains := calls.foldl (call k) ⟨[], []⟩

/-- If what was kept ends in a merge and has no set, what was taken came to zero. -/
def Settled (r : Remains) : Prop :=
  r.kept.getLast?.any BatchOp.isMerge = true → (∀ op ∈ r.kept, op.isSet = false) →
    carried r.taken = 0

theorem of_concat (k : Key) (calls : List MVCCEngine.SerialCall) (c : MVCCEngine.SerialCall) :
    of k (calls ++ [c]) = (of k calls).call k c := by
  rw [of, List.foldl_append]
  rfl

end Remains

/-! ## What a list of mutations leaves, by its last one -/

section Last

variable (ops : List BatchOp) (k : Key)

theorem lastValue_concat_set (v : Bytes) : lastValue [] none (ops ++ [.set k v]) = some v := by
  rw [lastValue_append]
  rfl

theorem lastValue_concat_delete : lastValue [] none (ops ++ [.delete k]) = none := by
  rw [lastValue_append]
  rfl

theorem lastValue_concat_merge (v : Bytes) : lastValue [] none (ops ++ [.merge k v]) =
    some (encodeInt64 (carried ops + decodeInt64 v)) := by
  have hcur : decodeInt64 (ops.foldl lastLive []) = carried ops := decodeInt64_foldl_lastLive ops []
  rw [lastValue_append, ← hcur]
  rfl

end Last

theorem exists_concat_of_any {ops : List BatchOp} {p : BatchOp → Bool}
    (h : ops.getLast?.any p = true) : ∃ front op, ops = front ++ [op] ∧ p op = true := by
  obtain ⟨op, hop, hp⟩ := (Option.any_eq_true _ _).mp h
  exact ⟨ops.dropLast, op, (List.dropLast_append_getLast? op hop).symm, hp⟩

namespace Remains

theorem taken_deleted (k : Key) (calls : List MVCCEngine.SerialCall) :
    lastValue [] none (of k calls).taken = none := by
  induction calls using List.reverseRecOn with
  | nil => rfl
  | append_singleton calls c ih =>
      rw [of_concat]
      cases c with
      | applyBatch ops => exact ih
      | compact =>
          rw [call]
          split
          · rename_i hdel
            obtain ⟨front, op, hkept, hop⟩ := exists_concat_of_any hdel
            cases op with
            | set | merge => cases hop
            | delete j =>
                show lastValue [] none ((of k calls).taken ++ (of k calls).kept) = none
                rw [hkept, ← List.append_assoc]
                exact lastValue_concat_delete _ j
          · exact ih

/-- **One key.**  The mutations read alike with and without what was taken exactly if they
are settled. -/
theorem reads_alike_iff {r : Remains} (h : lastValue [] none r.taken = none) :
    lastValue [] none r.kept = lastValue [] none (r.taken ++ r.kept) ↔ r.Settled := by
  obtain ⟨taken, kept⟩ := r
  change lastValue [] none taken = none at h
  rw [Settled]
  rcases List.eq_nil_or_concat kept with rfl | ⟨front, op, rfl⟩
  · simp [h, lastValue]
  · rw [List.concat_eq_append]
    have hsplit : taken ++ (front ++ [op]) = taken ++ front ++ [op] :=
      (List.append_assoc taken front [op]).symm
    simp only [hsplit, List.getLast?_concat, Option.any_some]
    cases op with
    | set j v =>
        rw [lastValue_concat_set, lastValue_concat_set]
        exact iff_of_true rfl fun hmerge => Bool.noConfusion hmerge
    | delete j =>
        rw [lastValue_concat_delete, lastValue_concat_delete]
        exact iff_of_true rfl fun hmerge => Bool.noConfusion hmerge
    | merge j v =>
        -- both add to the balance before them, which the last set fixes, if there is one
        have hbal : carried front = carried (taken ++ front) ↔
            carried taken = 0 ∨ ∃ op ∈ front, op.isSet = true := by
          rw [carried, carried, List.foldl_append, eq_comm]
          exact BatchOp.foldl_carry_eq_iff front
        rw [lastValue_concat_merge, lastValue_concat_merge, Option.some_inj, encodeInt64_inj,
          add_left_inj, hbal]
        constructor
        · rintro (hzero | ⟨op, hop, hset⟩) - hnone
          · exact hzero
          · rw [hnone op (List.mem_append_left _ hop)] at hset
            cases hset
        · intro hsettled
          by_cases hset : ∃ op ∈ front, op.isSet = true
          · exact Or.inr hset
          · refine Or.inl (hsettled rfl (List.forall_mem_append.mpr
              ⟨fun op hop => ?_, List.forall_mem_singleton.mpr rfl⟩))
            rw [Bool.eq_false_iff]
            exact fun h => hset ⟨op, hop, h⟩

end Remains

/-! ## The engine -/

/-- What the versions of a key tell of its mutations. -/
structure ReadsAs (ops : List BatchOp) (entries : List MvccEntry) : Prop where
  current : getCurrentValue entries = ops.foldl lastLive []
  newest : latest entries = lastValue [] none ops

theorem readsAs_nil : ReadsAs [] [] := ⟨rfl, rfl⟩

theorem ReadsAs.grow {ops : List BatchOp} {entries : List MvccEntry} (h : ReadsAs ops entries)
    (c : Nat) (new : List BatchOp) : ReadsAs (ops ++ new) (Dpx.grow c entries new) := by
  constructor
  · rw [getCurrentValue_grow, h.current, List.foldl_append]
  · rw [latest_grow, h.current, h.newest, lastValue_append]

theorem ReadsAs.compact {r : Remains} {entries : List MvccEntry} (k : Key)
    (h : ReadsAs r.kept entries) :
    ReadsAs (r.call k .compact).kept ((MVCCEngine.compactEntries 0 entries).getD []) := by
  cases hlatest : latest entries with
  | none =>
      -- the key goes; what was kept ends in a delete or is empty
      rw [compactEntries_of_dead hlatest, Remains.call]
      rw [h.newest] at hlatest
      split
      · exact readsAs_nil
      · rename_i hdel
        rcases List.eq_nil_or_concat r.kept with hnil | ⟨front, op, hkept⟩
        · rw [hnil]
          exact readsAs_nil
        · rw [List.concat_eq_append] at hkept
          rw [hkept] at hlatest hdel
          cases op with
          | set j v =>
              rw [lastValue_concat_set] at hlatest
              cases hlatest
          | merge j v =>
              rw [lastValue_concat_merge] at hlatest
              cases hlatest
          | delete j => exact absurd (by simp [BatchOp.isDelete]) hdel
  | some b =>
      -- the last version stays, and its value with it
      have hkept : (r.call k .compact).kept = r.kept := by
        rw [Remains.call, if_neg]
        intro hdel
        obtain ⟨front, op, hop, hd⟩ := exists_concat_of_any hdel
        rw [h.newest, hop] at hlatest
        cases op with
        | set | merge => cases hd
        | delete j =>
            rw [lastValue_concat_delete] at hlatest
            cases hlatest
      have hsame := latest_compactEntries entries
      rw [hkept]
      constructor
      · rw [← h.current, getCurrentValue_of_latest hlatest,
          getCurrentValue_of_latest (hsame.trans hlatest)]
      · rw [hsame, h.newest]

namespace MVCCEngine

def SerialCall.isBatch : SerialCall → Bool
  | .applyBatch _ => true
  | .compact => false

theorem readsAs_after (sharded : Bool) (calls : List SerialCall) (k : Key) :
    ReadsAs (Remains.of k calls).kept ((after sharded calls).versions (shardFor k) k) := by
  induction calls using List.reverseRecOn with
  | nil =>
      show ReadsAs [] ((newMVCCEngine sharded).versions (shardFor k) k)
      rw [versions_newMVCCEngine]
      exact readsAs_nil
  | append_singleton calls c ih =>
      have hcall : after sharded (calls ++ [c]) = (after sharded calls).call c := by
        rw [after, List.foldl_append]
        rfl
      rw [hcall, Remains.of_concat]
      cases c with
      | applyBatch ops =>
          show ReadsAs _ (((after sharded calls).applyBatch ops).versions (shardFor k) k)
          rw [versions_home_applyBatch]
          exact ih.grow _ _
      | compact =>
          have hsafe : (after sharded calls).safeSeq = 0 := by
            rw [safeSeq, (fated_after sharded calls).unread]
            rfl
          show ReadsAs _ ((after sharded calls).compact.2.versions (shardFor k) k)
          rw [versions_compact, hsafe]
          exact ih.compact k

theorem remains_batches (k : Key) (calls : List SerialCall) :
    Remains.of k (calls.filter SerialCall.isBatch) =
      ⟨[], (Remains.of k calls).taken ++ (Remains.of k calls).kept⟩ := by
  induction calls using List.reverseRecOn with
  | nil => rfl
  | append_singleton calls c ih =>
      rw [List.filter_append, Remains.of_concat]
      cases c with
      | applyBatch ops =>
          show Remains.of k (_ ++ [_]) = _
          rw [Remains.of_concat, ih, Remains.call, Remains.call, List.append_assoc]
      | compact =>
          show Remains.of k (_ ++ []) = _
          rw [List.append_nil, ih, Remains.call]
          split
          · rw [List.append_nil]
          · rfl

/-- **Compaction and the future.**  In a serial run of batches on a new engine on which no
snapshot is open, compactions put in anywhere change the answer of no later `Get` if and only
if at every point what they took of each key is settled. -/
theorem compaction_unseen_iff (sharded : Bool) (calls : List SerialCall) :
    (∀ n k, (after sharded (calls.take n)).get k =
        (after sharded ((calls.take n).filter SerialCall.isBatch)).get k) ↔
      ∀ n k, (Remains.of k (calls.take n)).Settled := by
  refine forall₂_congr fun n k => ?_
  rw [get_eq_latest, get_eq_latest, (readsAs_after sharded _ k).newest,
    (readsAs_after sharded _ k).newest, remains_batches]
  exact Remains.reads_alike_iff (Remains.taken_deleted k _)

/-- A balance of 5 is deleted and the engine compacted; then 3 is merged in. -/
def compactedThenMerged : List SerialCall :=
  [.applyBatch [.set [0x6b] (encodeInt64 5)], .applyBatch [.delete [0x6b]], .compact,
    .applyBatch [.merge [0x6b] (encodeInt64 3)]]

/-- The last `Get` answers 3; without the compaction it answers 8. -/
theorem compaction_seen_later :
    (after false compactedThenMerged).get [0x6b] = some (encodeInt64 3) ∧
      (after false (compactedThenMerged.filter SerialCall.isBatch)).get [0x6b] =
        some (encodeInt64 8) := by
  decide +kernel

end MVCCEngine

end Dpx
