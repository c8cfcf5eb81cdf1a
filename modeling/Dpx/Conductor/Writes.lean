/-
# `Dpx.Conductor.Writes` — what the writes of one proposal do

Four pieces of code turn `proposal.Writes` into engine mutations: `applyProposal`,
`applyProposalToBatch`, the stack branch of `applyBatchDirect` and `applyInline`.
They file the same mutations in the same order and set the same `keyEpoch`
records.  This module says once what that amounts to, key by key:

  * a user key: its value becomes `valueAfter`, the writes naming it folded in
    order (`effect_ops_user`);
  * a version record: the record of the LAST write naming the key, if there is
    one (`effect_ops_version`), and `keyEpoch` likewise (`getElem?_epochs`);
  * everything else is left alone, but for the applied index that ends the batch of a
    committed proposal (`effect_commit_user`, `effect_commit_record`).

`valueAfter_eq_merged` splits the fold at the last set or delete.

Only the last write of a key leaves a trace in the records.  `valueAfter` on the
other hand sees them all.
-/
import Mathlib.Data.List.TakeWhile
import Dpx.Conductor.Fsm

namespace Dpx

/-! ## The mutations -/

/-- The mutations one write files: its own, if the switch has a case for the
operation, then the version record. -/
def WriteEntry.ops (index : UInt64) (w : WriteEntry) : List BatchOp :=
  w.dataOp.toList ++ [w.versionOp index]

/-- `keyEpoch` after the writes. -/
def epochs (index : UInt64) (ws : List WriteEntry) (m : GoMap EpochRecord) : GoMap EpochRecord :=
  ws.foldl (fun m w => m.insert w.key (w.epochRecord index)) m

theorem dataOp_of_known {w : WriteEntry} (h : w.op.known = true) : ∃ op, w.dataOp = some op := by
  obtain ⟨op, key, value⟩ := w
  cases op with
  | set => exact ⟨_, rfl⟩
  | delete => exact ⟨_, rfl⟩
  | credit => exact ⟨_, rfl⟩
  | debit => exact ⟨_, rfl⟩
  | other b hb => exact Bool.noConfusion h

theorem dataOp_of_unknown {w : WriteEntry} (h : w.op.known = false) : w.dataOp = none := by
  obtain ⟨op, key, value⟩ := w
  cases op with
  | other b hb => rfl
  | set | delete | credit | debit => exact Bool.noConfusion h

theorem dataOp_key {w : WriteEntry} {op : BatchOp} (h : w.dataOp = some op) : op.key = w.key := by
  obtain ⟨wop, key, value⟩ := w
  cases wop <;> cases h <;> rfl

theorem writeLoop_known (index : UInt64) (ws : List WriteEntry)
    (h : ∀ w ∈ ws, w.op.known = true) :
    ∀ s : WritePass, writeLoop index ws s =
      (⟨s.batch ++ ws.flatMap (WriteEntry.ops index), epochs index ws s.shadow,
        epochs index ws s.keyEpoch⟩, none) := by
  induction ws with
  | nil =>
      intro s
      rw [List.flatMap_nil, List.append_nil]
      rfl
  | cons w ws ih =>
      intro s
      obtain ⟨op, hop⟩ := dataOp_of_known (h w List.mem_cons_self)
      rw [writeLoop, hop]
      show writeLoop index ws _ = _
      rw [ih fun v hv => h v (List.mem_cons_of_mem _ hv)]
      simp [WriteEntry.ops, hop, epochs]

theorem writeLoop_unknown (index : UInt64) (ws : List WriteEntry)
    (h : ∃ w ∈ ws, w.op.known = false) :
    ∀ s : WritePass, ∃ e, (writeLoop index ws s).2 = some e := by
  induction ws with
  | nil =>
      obtain ⟨w, hw, -⟩ := h
      exact absurd hw List.not_mem_nil
  | cons w ws ih =>
      intro s
      cases hk : w.op.known with
      | false => exact ⟨_, by rw [writeLoop, dataOp_of_unknown hk]⟩
      | true =>
          obtain ⟨op, hop⟩ := dataOp_of_known hk
          obtain ⟨v, hv, hvk⟩ := h
          rcases List.mem_cons.mp hv with rfl | hmem
          · rw [hk] at hvk
            exact Bool.noConfusion hvk
          · rw [writeLoop, hop]
            exact ih ⟨v, hmem, hvk⟩ _

/-! ## The last write of a key -/

def lastWrite (ws : List WriteEntry) (k : Key) : Option WriteEntry :=
  (ws.filter fun w => w.key = k).getLast?

/-- The record the writes leave for `k`. -/
def recordAfter (index : UInt64) (ws : List WriteEntry) (k : Key) : Option EpochRecord :=
  (lastWrite ws k).map fun w => w.epochRecord index

theorem lastWrite_cons (w : WriteEntry) (ws : List WriteEntry) (k : Key) :
    lastWrite (w :: ws) k = (lastWrite ws k).or (if w.key = k then some w else none) := by
  rw [lastWrite, List.filter_cons]
  by_cases h : w.key = k
  · rw [if_pos (by simpa using h), if_pos h, List.getLast?_cons, lastWrite]
    cases (ws.filter fun w => w.key = k).getLast? <;> rfl
  · rw [if_neg (by simpa using h), if_neg h, Option.or_none, lastWrite]

theorem lastWrite_append (ws vs : List WriteEntry) (k : Key) :
    lastWrite (ws ++ vs) k = (lastWrite vs k).or (lastWrite ws k) := by
  rw [lastWrite, List.filter_append, List.getLast?_append]
  rfl

theorem lastWrite_mem {ws : List WriteEntry} {k : Key} {w : WriteEntry}
    (h : lastWrite ws k = some w) : w ∈ ws ∧ w.key = k := by
  have hmem := List.mem_filter.mp (List.mem_of_getLast? h)
  exact ⟨hmem.1, by simpa using hmem.2⟩

theorem lastWrite_eq_none_iff {ws : List WriteEntry} {k : Key} :
    lastWrite ws k = none ↔ ∀ w ∈ ws, w.key ≠ k := by
  rw [lastWrite, List.getLast?_eq_none_iff, List.filter_eq_nil_iff]
  simp

theorem recordAfter_cons (index : UInt64) (w : WriteEntry) (ws : List WriteEntry) (k : Key) :
    recordAfter index (w :: ws) k =
      (recordAfter index ws k).or (if w.key = k then some (w.epochRecord index) else none) := by
  rw [recordAfter, recordAfter, lastWrite_cons]
  cases lastWrite ws k with
  | some v => rfl
  | none =>
      rw [Option.none_or, Option.map_none, Option.none_or]
      split <;> rfl

theorem recordAfter_epoch {index : UInt64} {ws : List WriteEntry} {k : Key} {r : EpochRecord}
    (h : recordAfter index ws k = some r) : r.epoch = index := by
  obtain ⟨w, -, rfl⟩ := Option.map_eq_some_iff.mp h
  rfl

theorem recordAfter_isSome (index : UInt64) (p : Proposal) (k : Key) :
    (recordAfter index p.writes k).isSome = p.writesKey k := by
  rw [recordAfter, Option.isSome_map, Proposal.writesKey]
  cases h : lastWrite p.writes k with
  | none =>
      have hnone := lastWrite_eq_none_iff.mp h
      exact (List.any_eq_false.mpr fun w hw => by simpa using hnone w hw).symm
  | some w =>
      obtain ⟨hmem, hkey⟩ := lastWrite_mem h
      exact (List.any_eq_true.mpr ⟨w, hmem, by simpa using hkey⟩).symm

theorem getElem?_epochs (index : UInt64) (ws : List WriteEntry) (m : GoMap EpochRecord) (k : Key) :
    (epochs index ws m)[k]? = (recordAfter index ws k).or m[k]? := by
  induction ws generalizing m with
  | nil => rfl
  | cons w ws ih =>
      rw [epochs, List.foldl_cons]
      show (epochs index ws _)[k]? = _
      rw [ih, recordAfter_cons, Option.or_assoc, Std.ExtTreeMap.getElem?_insert]
      congr 1
      by_cases h : w.key = k
      · rw [if_pos h, if_pos (by simpa using h)]
        rfl
      · rw [if_neg h, if_neg (by simpa using h)]
        rfl

/-! ## The value of a user key -/

/-- What one write makes of the value of its own key; an unknown operation, nothing. -/
def WriteEntry.act (w : WriteEntry) (old : Option Bytes) : Option Bytes :=
  match w.op with
  | .set => some w.value
  | .delete => none
  | .credit | .debit => some (mergeInt64 (old.getD []) w.value)
  | .other _ _ => old

/-- The writes naming `k`, folded in order over the value of `k`. -/
def valueAfter (ws : List WriteEntry) (k : Key) (v : Option Bytes) : Option Bytes :=
  (ws.filter fun w => w.key = k).foldl (fun v w => w.act v) v

theorem valueAfter_cons (w : WriteEntry) (ws : List WriteEntry) (k : Key) (v : Option Bytes) :
    valueAfter (w :: ws) k v = valueAfter ws k (if w.key = k then w.act v else v) := by
  rw [valueAfter, List.filter_cons]
  by_cases h : w.key = k
  · rw [if_pos (by simpa using h), if_pos h, List.foldl_cons, valueAfter]
  · rw [if_neg (by simpa using h), if_neg h, valueAfter]

theorem valueAfter_of_forall_ne {ws : List WriteEntry} {k : Key} (h : ∀ w ∈ ws, w.key ≠ k)
    (v : Option Bytes) : valueAfter ws k v = v := by
  have hnil : (ws.filter fun w => w.key = k) = [] := by
    rw [List.filter_eq_nil_iff]
    intro w hw
    simpa using h w hw
  rw [valueAfter, hnil, List.foldl_nil]

theorem effect_dataOp (w : WriteEntry) (k : Key) (v : Option Bytes) :
    BatchOp.effect k v w.dataOp.toList = if w.key = k then w.act v else v := by
  obtain ⟨op, key, value⟩ := w
  cases op with
  | set | delete | credit | debit => rfl
  | other b hb =>
      show v = _
      split <;> rfl

theorem effect_ops_user {k : Key} (hk : isReserved k = false) (index : UInt64)
    (ws : List WriteEntry) (v : Option Bytes) :
    BatchOp.effect k v (ws.flatMap (WriteEntry.ops index)) = valueAfter ws k v := by
  induction ws generalizing v with
  | nil => rfl
  | cons w ws ih =>
      have hver : (w.versionOp index).key ≠ k := (ne_versionKey_of_user hk w.key).symm
      rw [List.flatMap_cons, BatchOp.effect_append, WriteEntry.ops, BatchOp.effect_append,
        effect_dataOp, BatchOp.effect_cons, if_neg hver, BatchOp.effect_nil, ih, valueAfter_cons]

/-! ## Sets, deletes and merges of one key

A set or delete forgets the value it finds; credits and debits add up.  So the writes
of a key amount to the last set or delete and the amounts merged after it. -/

namespace WriteEntry

/-- Credits and debits: what `Merge` is called for. -/
def isMerge (w : WriteEntry) : Bool := w.op = .credit || w.op = .debit

theorem known_of_isMerge {w : WriteEntry} (h : w.isMerge = true) : w.op.known = true := by
  obtain ⟨op, key, value⟩ := w
  cases op with
  | set | delete | credit | debit => rfl
  | other b hb => exact Bool.noConfusion h

end WriteEntry

/-- The writes naming `k`, newest first. -/
def newestFirst (ws : List WriteEntry) (k : Key) : List WriteEntry :=
  (ws.filter fun w => w.key = k).reverse

/-- The last set or delete of `k`. -/
def lastPlain (ws : List WriteEntry) (k : Key) : Option WriteEntry :=
  ((newestFirst ws k).dropWhile WriteEntry.isMerge).head?

/-- The amounts credited and debited after it. -/
def laterDeltas (ws : List WriteEntry) (k : Key) : List Int64 :=
  ((newestFirst ws k).takeWhile WriteEntry.isMerge).map fun w => decodeInt64 w.value

/-- What a set or delete leaves; without one, the value found. -/
def plainValue : Option WriteEntry → Option Bytes → Option Bytes
  | some w, _ => w.act none
  | none, v => v

/-- A value after a run of merges. -/
def merged (v : Option Bytes) : List Int64 → Option Bytes
  | [] => v
  | d :: ds => some (encodeInt64 (decodeInt64 (v.getD []) + (d :: ds).sum))

theorem merged_cons (v : Option Bytes) (ds : List Int64) (d : Int64) :
    merged v (d :: ds) = some (encodeInt64 (decodeInt64 ((merged v ds).getD []) + d)) := by
  cases ds with
  | nil => simp [merged]
  | cons e es =>
      rw [merged, merged, Option.getD_some, decodeInt64_encodeInt64, List.sum_cons, Int64.add_assoc,
        Int64.add_comm d]

theorem foldr_act_eq_merged (l : List WriteEntry) (hl : ∀ w ∈ l, w.op.known = true)
    (v : Option Bytes) :
    l.foldr (fun w v => w.act v) v =
      merged (plainValue (l.dropWhile WriteEntry.isMerge).head? v)
        ((l.takeWhile WriteEntry.isMerge).map fun w => decodeInt64 w.value) := by
  induction l with
  | nil => rfl
  | cons w l ih =>
      have hw := hl w List.mem_cons_self
      specialize ih fun u hu => hl u (List.mem_cons_of_mem _ hu)
      rw [List.foldr_cons]
      obtain ⟨op, key, value⟩ := w
      cases op with
      | set | delete => rfl
      | credit | debit =>
          show some (mergeInt64 _ value) =
            merged (plainValue (l.dropWhile WriteEntry.isMerge).head? v) (decodeInt64 value :: _)
          rw [merged_cons, ← ih]
          rfl
      | other b hb => exact Bool.noConfusion hw

theorem valueAfter_eq_merged {ws : List WriteEntry} (hws : ∀ w ∈ ws, w.op.known = true)
    (k : Key) (v : Option Bytes) :
    valueAfter ws k v = merged (plainValue (lastPlain ws k) v) (laterDeltas ws k) := by
  rw [valueAfter, ← List.foldr_reverse]
  refine foldr_act_eq_merged _ (fun w hw => ?_) v
  exact hws w (List.mem_filter.mp (List.mem_reverse.mp hw)).1

theorem valueAfter_of_merges {ws : List WriteEntry} {k : Key}
    (h : ∀ w ∈ newestFirst ws k, w.isMerge = true) (v : Option Bytes) :
    valueAfter ws k v = merged v ((newestFirst ws k).map fun w => decodeInt64 w.value) := by
  have hfold : valueAfter ws k v = (newestFirst ws k).foldr (fun w v => w.act v) v := by
    rw [valueAfter, ← List.foldr_reverse]
    rfl
  rw [hfold, foldr_act_eq_merged _ fun w hw => WriteEntry.known_of_isMerge (h w hw),
    List.dropWhile_eq_nil_iff.mpr h, List.takeWhile_eq_self_iff.mpr h]
  rfl

theorem decodeInt64_merged (v : Option Bytes) (ds : List Int64) :
    decodeInt64 ((merged v ds).getD []) = decodeInt64 (v.getD []) + ds.sum := by
  cases ds with
  | nil => exact (Int64.add_zero _).symm
  | cons d ds => exact decodeInt64_encodeInt64 _

/-! ## The version record of a key -/

theorem effect_ops_version (index : UInt64) {ws : List WriteEntry}
    (hws : ∀ w ∈ ws, isReserved w.key = false) (k : Key) (v : Option Bytes) :
    BatchOp.effect (versionKey k) v (ws.flatMap (WriteEntry.ops index)) =
      ((recordAfter index ws k).map encodeEpochRecord).or v := by
  induction ws generalizing v with
  | nil => rfl
  | cons w ws ih =>
      have huser : w.key ≠ versionKey k := ne_versionKey_of_user (hws w List.mem_cons_self) k
      rw [List.flatMap_cons, BatchOp.effect_append, WriteEntry.ops, BatchOp.effect_append,
        effect_dataOp, if_neg huser, BatchOp.effect_cons, BatchOp.effect_nil,
        ih fun u hu => hws u (List.mem_cons_of_mem _ hu), recordAfter_cons]
      cases recordAfter index ws k with
      | some r => rfl
      | none =>
          by_cases h : w.key = k
          · subst h
            rw [if_pos rfl, if_pos (show (w.versionOp index).key = versionKey w.key from rfl)]
            rfl
          · have hne : (w.versionOp index).key ≠ versionKey k := fun e => h (versionKey_inj.mp e)
            rw [if_neg h, if_neg hne]
            rfl

theorem effect_appliedOp_of_ne {k : Key} (hk : k ≠ appliedKey) (index : UInt64)
    (v : Option Bytes) : BatchOp.effect k v [appliedOp index] = v := by
  rw [BatchOp.effect_cons, if_neg (fun h : (appliedOp index).key = k => hk h.symm)]
  rfl

/-- The batch of an entry: its writes with their version records, then the applied
index. -/
def entryBatch (index : UInt64) (p : Proposal) : List BatchOp :=
  p.writes.flatMap (WriteEntry.ops index) ++ [appliedOp index]

theorem effect_commit_user {k : Key} (hk : isReserved k = false) (index : UInt64)
    (ws : List WriteEntry) (v : Option Bytes) :
    BatchOp.effect k v (ws.flatMap (WriteEntry.ops index) ++ [appliedOp index]) =
      valueAfter ws k v := by
  rw [BatchOp.effect_append, effect_ops_user hk,
    effect_appliedOp_of_ne (ne_appliedKey_of_user hk)]

theorem effect_commit_record {p : Proposal} (hp : p.WellFormed) (index : UInt64) (k : Key)
    (v : Option Bytes) :
    BatchOp.effect (versionKey k) v
        (p.writes.flatMap (WriteEntry.ops index) ++ [appliedOp index]) =
      ((recordAfter index p.writes k).map encodeEpochRecord).or v := by
  rw [BatchOp.effect_append, effect_ops_version index hp.user,
    effect_appliedOp_of_ne (versionKey_ne_appliedKey k)]

end Dpx
