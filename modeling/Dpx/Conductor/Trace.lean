/-
# `Dpx.Conductor.Trace` — what clients saw, and how it explains a state

A trace lists proposals in apply order, each with the index it was given and the
answer it got.  It explains the state: `keyEpoch` and the stored version record of a
key are both the record of its LAST committed write, the value of a user key is the
fold of its committed writes, and indices count the trace.

`Numbered` is the part about an index counter and its `keyEpoch` map, `Coherent` adds
the engine.  Both start from an arbitrary `Base`, so that one batch, or one proposer
among many on an engine, can be explained as well as a whole run.  An entry that is
turned away (`skip`) and one that passes (`accept`) preserve them; the proposers are
built from these two steps.
-/
import Dpx.Lib.LastWriter
import Dpx.Conductor.Writes

namespace Dpx

/-! ## Traces -/

/-- A proposal with the index it was given and its answer. -/
structure Answered where
  index : UInt64
  proposal : Proposal
  result : ApplyResult
  deriving DecidableEq

namespace Answered

def committed (a : Answered) : Bool := a.result = .ok

/-- It committed a write of `k`. -/
def wrote (a : Answered) (k : Key) : Bool := a.committed && a.proposal.writesKey k

/-- The record it left for `k`. -/
def record (a : Answered) (k : Key) : Option EpochRecord :=
  if a.committed then recordAfter a.index a.proposal.writes k else none

theorem record_isSome (a : Answered) (k : Key) : (a.record k).isSome = a.wrote k := by
  rw [record, wrote]
  cases a.committed with
  | false => rfl
  | true => exact recordAfter_isSome a.index a.proposal k

theorem record_epoch {a : Answered} {k : Key} {r : EpochRecord} (h : a.record k = some r) :
    r.epoch = a.index := by
  rw [record] at h
  split at h
  · exact recordAfter_epoch h
  · cases h

end Answered

/-- The proposals of a batch with their answers, numbered on from `index`. -/
def answers : UInt64 → List Proposal → List ApplyResult → List Answered
  | index, p :: ps, r :: rs => ⟨index + 1, p, r⟩ :: answers (index + 1) ps rs
  | _, _, _ => []

theorem length_answers (ps : List Proposal) :
    ∀ (i : UInt64) (rs : List ApplyResult), (answers i ps rs).length ≤ ps.length := by
  induction ps with
  | nil => exact fun _ _ => Nat.le_refl _
  | cons p ps ih =>
      intro i rs
      cases rs with
      | nil => exact Nat.zero_le _
      | cons r rs => exact Nat.succ_le_succ (ih _ _)

/-- The records committed for `k`, oldest first. -/
def records (tr : List Answered) (k : Key) : List EpochRecord := tr.filterMap fun a => a.record k

/-- What a trace starts from: a number, records and stored values. -/
structure Base where
  index : Nat
  keyEpoch : Key → Option EpochRecord
  get : Key → Option Bytes

def Base.empty : Base := ⟨0, fun _ => none, fun _ => none⟩

/-- The last record; the zero record if there is none. -/
def lastRecord (b : Base) (tr : List Answered) (k : Key) : EpochRecord :=
  ((records tr k).getLast?.or (b.keyEpoch k)).getD .zero

/-- The value the committed writes leave for `k`. -/
def valueOf (b : Base) (tr : List Answered) (k : Key) : Option Bytes :=
  tr.foldl (fun v a => if a.committed then valueAfter a.proposal.writes k v else v) (b.get k)

theorem records_append (xs ys : List Answered) (k : Key) :
    records (xs ++ ys) k = records xs k ++ records ys k :=
  List.filterMap_append

theorem getLast?_records_concat (tr : List Answered) (a : Answered) (k : Key) :
    (records (tr ++ [a]) k).getLast? = (a.record k).or (records tr k).getLast? := by
  rw [records_append, List.getLast?_append]
  congr 1
  rw [records, List.filterMap_cons, List.filterMap_nil]
  cases a.record k <;> rfl

theorem records_ne_nil_iff {tr : List Answered} {k : Key} :
    records tr k ≠ [] ↔ ∃ a ∈ tr, a.wrote k = true := by
  rw [ne_eq, records, List.filterMap_eq_nil_iff]
  push Not
  refine exists_congr fun a => and_congr_right fun _ => ?_
  rw [← a.record_isSome, Option.isSome_iff_ne_none]

/-- The number on a record. -/
def EpochRecord.num (r : EpochRecord) : Nat := r.epoch.toNat

theorem lastRecord_empty (tr : List Answered) (k : Key) :
    lastRecord .empty tr k = (records tr k).getLast?.getD .zero := by
  rw [lastRecord]
  cases (records tr k).getLast? <;> rfl

theorem lastRecord_num (tr : List Answered) (k : Key) :
    (lastRecord .empty tr k).num = LastWriter.top EpochRecord.num (records tr k) := by
  rw [lastRecord_empty, LastWriter.top]
  cases (records tr k).getLast? <;> rfl

/-! ## The trace explains the state -/

/-- From `b`, the trace `tr` leads to an index counter and a `keyEpoch` map. -/
structure Numbered (b : Base) (index : UInt64) (keyEpoch : GoMap EpochRecord)
    (tr : List Answered) : Prop where
  index_eq : index.toNat = b.index + tr.length
  sorted : tr.Pairwise fun a a' => a.index.toNat < a'.index.toNat
  bounds : ∀ a ∈ tr, b.index < a.index.toNat ∧ a.index.toNat ≤ b.index + tr.length
  keyEpoch_eq : ∀ k, keyEpoch[k]? = (records tr k).getLast?.or (b.keyEpoch k)

/-- It leads to the engine, too. -/
structure Coherent (b : Base) (index : UInt64) (keyEpoch : GoMap EpochRecord)
    (get : Key → Option Bytes) (tr : List Answered) : Prop extends
    Numbered b index keyEpoch tr where
  version_eq : ∀ k, get (versionKey k) =
    ((records tr k).getLast?.map encodeEpochRecord).or (b.get (versionKey k))
  value_eq : ∀ k, isReserved k = false → get k = valueOf b tr k

/-- A plain read of the epoch at `old` is stale after `old ++ since` if and only if
`since` committed a write of the key. -/
theorem stale_plain_iff {old since : List Answered} {re : ReadEntry}
    (hasc : LastWriter.Ascending EpochRecord.num (records (old ++ since) re.key))
    (hplain : re.isDebit = false) (hepoch : re.epoch = (lastRecord .empty old re.key).epoch) :
    stale (lastRecord .empty (old ++ since) re.key) re = true ↔
      ∃ b ∈ since, b.wrote re.key = true := by
  rw [← records_ne_nil_iff]
  rw [records_append] at hasc
  rw [← hasc.top_lt_iff, ← records_append, ← lastRecord_num, ← lastRecord_num]
  simp [stale, hplain, hepoch, EpochRecord.num, UInt64.lt_iff_toNat_lt]

namespace Numbered

variable {b : Base} {index : UInt64} {keyEpoch : GoMap EpochRecord} {tr : List Answered}

theorem ascending (h : Numbered b index keyEpoch tr) (k : Key) :
    LastWriter.Ascending EpochRecord.num (records tr k) where
  sorted := by
    refine List.Pairwise.filterMap _ (fun a b hab r hr s hs => ?_) h.sorted
    show r.epoch.toNat < s.epoch.toNat
    rw [Answered.record_epoch hr, Answered.record_epoch hs]
    exact hab
  pos := by
    intro r hr
    obtain ⟨a, ha, har⟩ := List.mem_filterMap.mp hr
    show 0 < r.epoch.toNat
    rw [Answered.record_epoch har]
    exact Nat.lt_of_le_of_lt (Nat.zero_le _) (h.bounds a ha).1

theorem epochOf_eq (h : Numbered b index keyEpoch tr) (k : Key) :
    epochOf keyEpoch k = lastRecord b tr k := by
  rw [epochOf, h.keyEpoch_eq, lastRecord]

theorem next (h : Numbered b index keyEpoch tr) (hlt : b.index + tr.length + 1 < 2 ^ 64)
    {keyEpoch' : GoMap EpochRecord} (p : Proposal) (r : ApplyResult)
    (hke : ∀ k, keyEpoch'[k]? =
      ((⟨index + 1, p, r⟩ : Answered).record k).or keyEpoch[k]?) :
    Numbered b (index + 1) keyEpoch' (tr ++ [⟨index + 1, p, r⟩]) := by
  have hsucc : (index + 1).toNat = b.index + tr.length + 1 := by
    rw [UInt64.toNat_add, h.index_eq]
    exact Nat.mod_eq_of_lt hlt
  refine ⟨?_, ?_, fun a ha => ?_, fun k => ?_⟩
  · rw [hsucc, List.length_append]
    rfl
  · refine List.pairwise_append.mpr ⟨h.sorted, List.pairwise_singleton _ _, ?_⟩
    intro a ha a' ha'
    rw [List.mem_singleton.mp ha', hsucc]
    exact Nat.lt_succ_of_le (h.bounds a ha).2
  · rw [List.length_append, List.length_singleton]
    rcases List.mem_append.mp ha with hold | hnew
    · exact ⟨(h.bounds a hold).1, Nat.le_succ_of_le (h.bounds a hold).2⟩
    · rw [List.mem_singleton.mp hnew]
      show b.index < (index + 1).toNat ∧ (index + 1).toNat ≤ _
      rw [hsucc]
      omega
  · rw [hke, getLast?_records_concat, h.keyEpoch_eq, Option.or_assoc]

theorem skip (h : Numbered b index keyEpoch tr) (hlt : b.index + tr.length + 1 < 2 ^ 64)
    (p : Proposal) : Numbered b (index + 1) keyEpoch (tr ++ [⟨index + 1, p, .conflicted⟩]) :=
  h.next hlt p .conflicted fun _ => rfl

theorem accept (h : Numbered b index keyEpoch tr) (hlt : b.index + tr.length + 1 < 2 ^ 64)
    (p : Proposal) :
    Numbered b (index + 1) (epochs (index + 1) p.writes keyEpoch)
      (tr ++ [⟨index + 1, p, .ok⟩]) :=
  h.next hlt p .ok fun k => getElem?_epochs (index + 1) p.writes keyEpoch k

end Numbered

theorem effect_commit_version {p : Proposal} (hp : p.WellFormed) (index : UInt64) (k : Key)
    (v₀ : Option Bytes) {v : Option Bytes} {r : Option EpochRecord}
    (hv : v = (r.map encodeEpochRecord).or v₀) :
    BatchOp.effect (versionKey k) v
        (p.writes.flatMap (WriteEntry.ops index) ++ [appliedOp index]) =
      ((((⟨index, p, .ok⟩ : Answered).record k).or r).map encodeEpochRecord).or v₀ := by
  rw [effect_commit_record hp, hv]
  show _ = (Option.map encodeEpochRecord ((recordAfter index p.writes k).or _)).or _
  cases recordAfter index p.writes k <;> rfl

namespace Coherent

variable {b : Base} {index : UInt64} {keyEpoch : GoMap EpochRecord} {get : Key → Option Bytes}
  {tr : List Answered}

theorem skip (h : Coherent b index keyEpoch get tr) (hlt : b.index + tr.length + 1 < 2 ^ 64)
    (p : Proposal) :
    Coherent b (index + 1) keyEpoch get (tr ++ [⟨index + 1, p, .conflicted⟩]) := by
  refine ⟨h.toNumbered.skip hlt p, fun k => ?_, fun k hk => ?_⟩
  · rw [getLast?_records_concat]
    exact h.version_eq k
  · rw [valueOf, List.foldl_append]
    exact h.value_eq k hk

theorem accept (h : Coherent b index keyEpoch get tr) (hlt : b.index + tr.length + 1 < 2 ^ 64)
    {p : Proposal} (hp : p.WellFormed) :
    Coherent b (index + 1) (epochs (index + 1) p.writes keyEpoch)
      (fun k => BatchOp.effect k (get k)
        (p.writes.flatMap (WriteEntry.ops (index + 1)) ++ [appliedOp (index + 1)]))
      (tr ++ [⟨index + 1, p, .ok⟩]) := by
  refine ⟨h.toNumbered.accept hlt p, fun k => ?_, fun k hk => ?_⟩
  · rw [getLast?_records_concat]
    exact effect_commit_version hp (index + 1) k _ (h.version_eq k)
  · rw [effect_commit_user hk, h.value_eq k hk, valueOf, valueOf, List.foldl_append]
    rfl

end Coherent

end Dpx
