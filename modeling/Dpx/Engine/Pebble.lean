/-
# `Dpx.Engine.Pebble` — merges of the Pebble engine, and of the others

`engine/pebble/pebble.go` hands the mutations of a batch to Pebble as they are.  Pebble does
not read before it merges: it keeps the records of a key and combines operands with the
engine's `Int64Merger` when it compacts or reads, in an order and a grouping of its own.
What it may do is the protocol of `Dpx.Lib.MergeChain`; a `Run` interleaves writes with
compactions.

The merger adds modulo `2^64`, reads an operand of fewer than eight bytes as zero, and
finishes with eight bytes.  Addition commutes and a finished value is read back as its sum, so
no grouping shows (`Run.reads`).  The memory engine folds, Oshodi reads and writes back, and
Badger does so inside a transaction: all four arrive at the same value of every key
(`engines_merge_alike`).
-/
import Dpx.Lib.MergeChain
import Dpx.Lib.Word
import Dpx.Engine.Memory
import Dpx.Engine.Badger
import Dpx.Engine.Oshodi

namespace Dpx

namespace Pebble

open MergeChain
open scoped Word

/-! ## The merger -/

/-- The state of `int64Merger`. -/
structure Int64Merger where
  sum : Int64
  deriving DecidableEq, Repr

/-- `Int64Merger.Merge`: a short value starts at zero. -/
def Int64Merger.merge (value : Bytes) : Int64Merger :=
  if 8 ≤ value.length then ⟨(LittleEndian.uint64 value).toInt64⟩ else ⟨0⟩

/-- A short value adds nothing. -/
def Int64Merger.mergeNewer (m : Int64Merger) (value : Bytes) : Int64Merger :=
  if 8 ≤ value.length then ⟨m.sum + (LittleEndian.uint64 value).toInt64⟩ else m

def Int64Merger.mergeOlder (m : Int64Merger) (value : Bytes) : Int64Merger := m.mergeNewer value

def Int64Merger.finish (m : Int64Merger) : Bytes := LittleEndian.putUint64 m.sum.toUInt64

def int64Merger : Merger Bytes Int64Merger :=
  ⟨Int64Merger.merge, Int64Merger.mergeNewer, Int64Merger.mergeOlder, Int64Merger.finish⟩

theorem Int64Merger.sum_merge (value : Bytes) : (merge value).sum = decodeInt64 value := by
  rw [merge, decodeInt64]
  split
  · rw [if_neg (by omega)]
  · rw [if_pos (by omega)]

theorem Int64Merger.sum_mergeNewer (m : Int64Merger) (value : Bytes) :
    (m.mergeNewer value).sum = m.sum + decodeInt64 value := by
  rw [mergeNewer, decodeInt64]
  split
  · rw [if_neg (by omega)]
  · rw [if_pos (by omega), Int64.add_zero]

theorem sums_int64Merger : Sums int64Merger decodeInt64 encodeInt64 Int64Merger.sum where
  start := Int64Merger.sum_merge
  newer := Int64Merger.sum_mergeNewer
  older := Int64Merger.sum_mergeNewer
  finish _ := rfl
  weight_encode := decodeInt64_encodeInt64

/-! ## The store -/

/-- The records of every key, newest first. -/
abbrev Store := Key → List (Rec Bytes)

/-- `Set`, `Delete` and `Merge` of a Pebble batch. -/
def recOf : BatchOp → Rec Bytes
  | .set _ v => .put v
  | .delete _ => .del
  | .merge _ v => .merge v

def Store.write (s : Store) (op : BatchOp) : Store :=
  Function.update s op.key (recOf op :: s op.key)

/-- `Run s ops t`: from `s` the mutations `ops` lead to `t`, with compactions anywhere. -/
inductive Run (s : Store) : List BatchOp → Store → Prop where
  | start : Run s [] s
  | write {ops : List BatchOp} {t : Store} (op : BatchOp) :
      Run s ops t → Run s (ops ++ [op]) (t.write op)
  | compact {ops : List BatchOp} {t : Store} {k : Key} {rs : List (Rec Bytes)} :
      Run s ops t → Compacts int64Merger (t k) rs → Run s ops (Function.update t k rs)

/-- What the records of a key amount to. -/
def Store.value (s : Store) (k : Key) : Option Bytes :=
  MergeChain.value decodeInt64 encodeInt64 (s k)

theorem value_write (s : Store) (op : BatchOp) (k : Key) :
    (s.write op).value k = if op.key = k then op.act (s.value k) else s.value k := by
  rw [Store.value, Store.write]
  by_cases h : op.key = k
  · subst h
    rw [if_pos rfl, Function.update_self]
    cases op with
    | set j v => rfl
    | delete j => rfl
    | merge j v =>
        have hweight : weightOf decodeInt64 (s.value j) = decodeInt64 ((s.value j).getD []) := by
          rw [weightOf]
          cases s.value j <;> rfl
        show some (encodeInt64 (weightOf decodeInt64 (s.value j) + decodeInt64 v)) = _
        rw [hweight]
        rfl
  · rw [if_neg h, Function.update_of_ne (Ne.symm h)]
    rfl

theorem Run.value_eq {s t : Store} {ops : List BatchOp} (h : Run s ops t) (k : Key) :
    t.value k = BatchOp.effect k (s.value k) ops := by
  induction h with
  | start => rfl
  | write op _ ih =>
      rw [value_write, BatchOp.effect_append, BatchOp.effect_cons, BatchOp.effect_nil, ih]
  | @compact ops t j rs _ hcompact ih =>
      by_cases hk : k = j
      · subst hk
        rw [Store.value, Function.update_self, hcompact.value_eq sums_int64Merger]
        exact ih
      · rw [Store.value, Function.update_of_ne hk]
        exact ih

theorem Run.reads {s t : Store} {ops : List BatchOp} (h : Run s ops t) (k : Key)
    {r : Option Bytes} (hr : Reads int64Merger (t k) r) :
    r = BatchOp.effect k (s.value k) ops :=
  (hr.value_eq sums_int64Merger).trans (h.value_eq k)

end Pebble

/-! ## Four engines -/

open MergeChain (Reads) in
/-- **Merges.**  From the same map, the same mutations lead the memory engine, Oshodi, Badger
and Pebble to the same value of every key: Oshodi in every run in which the call returns
without error, Badger in whatever order a transaction commits, Pebble in every run and for
every read.  And there are such runs and reads. -/
theorem engines_merge_alike (m : GoMap Bytes) (ops : List BatchOp) (k : Key) :
    let final := ((⟨m, 0⟩ : State).applyOps ops).get k
    (∀ (seq : UInt64) (sync : Bool),
      (∃ evs, (∀ err, .flush (some err) ∉ evs) ∧
        ((Oshodi.applyBatch ⟨m, seq⟩ ops).run sync evs).pc = .returned none) ∧
      ∀ evs, (∀ err, .flush (some err) ∉ evs) →
        ((Oshodi.applyBatch ⟨m, seq⟩ ops).run sync evs).pc = .returned none →
        ((Oshodi.applyBatch ⟨m, seq⟩ ops).run sync evs).engine.bucket[k]? = final) ∧
    (∀ (dir : Badger.Directory) (o : RangeOrder Key (Option Bytes)),
      (Badger.Engine.applyBatch ⟨dir, some m⟩ o ops).get k = final) ∧
    ∀ s t : Pebble.Store, (∀ j, s.value j = m[j]?) → Pebble.Run s ops t →
      (∃ r, Reads Pebble.int64Merger (t k) r) ∧
      ∀ r, Reads Pebble.int64Merger (t k) r → r = final := by
  intro final
  have hfinal : final = BatchOp.effect k m[k]? ops := State.get_applyOps ⟨m, 0⟩ ops k
  refine ⟨fun seq sync => ⟨Oshodi.run_to_end sync ⟨m, seq⟩ ops, ?_⟩, ?_, ?_⟩
  · intro evs hevs hreturned
    rw [Oshodi.bucket_of_returned sync ⟨m, seq⟩ hevs hreturned, Oshodi.getElem?_applyOps, hfinal]
  · intro dir o
    rw [Badger.Engine.get_applyBatch _ (fun h => by cases h), hfinal]
    rfl
  · intro s t hs hrun
    refine ⟨MergeChain.exists_reads _ _, fun r hr => ?_⟩
    rw [hrun.reads k hr, hs, hfinal]

/-- A set of five and a merge of three, compacted into one record. -/
theorem compacted_merge :
    let ops : List BatchOp := [.set [0x6b] (encodeInt64 5), .merge [0x6b] (encodeInt64 3)]
    ∃ t : Pebble.Store, Pebble.Run (fun _ => []) ops t ∧ t [0x6b] = [.put (encodeInt64 8)] ∧
      some (encodeInt64 8) = ((⟨∅, 0⟩ : State).applyOps ops).get [0x6b] := by
  intro ops
  have hwrites : Pebble.Run (fun _ => []) ops
      ((Pebble.Store.write (fun _ => []) (.set [0x6b] (encodeInt64 5))).write
        (.merge [0x6b] (encodeInt64 3))) :=
    .write _ (.write _ .start)
  have hplan : (MergeChain.Plan.older (.start (encodeInt64 3)) (encodeInt64 5)).operands =
      [encodeInt64 3] ++ [encodeInt64 5] := rfl
  have hcompact : MergeChain.Compacts Pebble.int64Merger
      [.merge (encodeInt64 3), .put (encodeInt64 5)] [.put (encodeInt64 8)] :=
    .ontoPut [] hplan (List.cons_ne_nil _ _) []
  have hrun := hwrites.compact (k := [0x6b]) hcompact
  refine ⟨_, hrun, Function.update_self _ _ _, ?_⟩
  refine ((engines_merge_alike ∅ ops [0x6b]).2.2 _ _ (fun _ => ?_) hrun).2 _ ?_
  · simp [Pebble.Store.value, MergeChain.value]
  · rw [Function.update_self]
    exact .put _ _

end Dpx
