/-
# `Dpx.Conductor.Fsm` — the replicated state machine

`conductor/fsm.go`.  The machine owns an engine and the in-memory map `keyEpoch`
from user keys to the record of their last write.  A committed log entry carries
a proposal; its verdict compares every read entry with `keyEpoch`, and, inside
one `ApplyBatch` call, with a per-call `shadow` of the keys written so far.

The write loop stops at the first unknown operation, with `keyEpoch` and `shadow`
already carrying the records of the writes before it: `writeLoop` returns the
partial pass beside the error, and callers decide what to keep.

Hybrid-logical-clock observation, metrics, telemetry and watcher notification do
not feed back into any answer and are left out.
-/
import Dpx.Shared.Proposal

namespace Dpx

/-! ## Logs -/

inductive LogType where
  | command
  | other (t : UInt8)
  deriving DecidableEq, Repr

structure Log where
  index : UInt64
  type : LogType
  data : Bytes
  deriving DecidableEq, Repr

/-! ## Conflict detection -/

abbrev Shadow := GoMap EpochRecord

/-- `c.Epoch > re.Epoch` without the credit-under-debit pardon. -/
def stale (c : EpochRecord) (re : ReadEntry) : Bool :=
  c.epoch > re.epoch && !(c.isCredit && re.isDebit)

/-- The key was written earlier in this call, without the pardon. -/
def shadowed (shadow : Shadow) (re : ReadEntry) : Bool :=
  match shadow[re.key]? with
  | some s => !(s.isCredit && re.isDebit)
  | none => false

/-- The first read entry that fails either test decides. -/
def detectConflict (keyEpoch : GoMap EpochRecord) (p : Proposal) (shadow : Shadow) : Bool :=
  p.readSet.any fun re => stale (epochOf keyEpoch re.key) re || shadowed shadow re

/-! ## The write loop -/

/-- The engine mutation of a write; an unknown operation has none. -/
def WriteEntry.dataOp (w : WriteEntry) : Option BatchOp :=
  match w.op with
  | .set => some (.set w.key w.value)
  | .delete => some (.delete w.key)
  | .credit | .debit => some (.merge w.key w.value)
  | .other _ _ => none

/-- The record a write at `index` leaves for its key. -/
def WriteEntry.epochRecord (w : WriteEntry) (index : UInt64) : EpochRecord :=
  ⟨index, w.isCredit⟩

def WriteEntry.versionOp (w : WriteEntry) (index : UInt64) : BatchOp :=
  .set (versionKey w.key) (encodeEpochRecord (w.epochRecord index))

/-- What the loop over `proposal.Writes` accumulates. -/
structure WritePass where
  batch : List BatchOp
  shadow : Shadow
  keyEpoch : GoMap EpochRecord

/-- The loop of `applyProposal` and `applyProposalToBatch`. -/
def writeLoop (index : UInt64) : List WriteEntry → WritePass → WritePass × Option ApplyError
  | [], s => (s, none)
  | w :: ws, s =>
      match w.dataOp with
      | none => (s, some (.unknownWriteOp w.op.toByte index))
      | some op =>
          writeLoop index ws
            { batch := s.batch ++ [op, w.versionOp index]
              shadow := s.shadow.insert w.key (w.epochRecord index)
              keyEpoch := s.keyEpoch.insert w.key (w.epochRecord index) }

def appliedOp (index : UInt64) : BatchOp := .set appliedKey (encodeUint64 index)

/-! ## The machine -/

structure DpxFSM (σ : Type) where
  applied : UInt64
  engine : σ
  keyEpoch : GoMap EpochRecord
  syncPolicy : SyncPolicy

namespace DpxFSM

variable {σ : Type}

/-- `newFSM`. -/
def new (engine : σ) (syncPolicy : SyncPolicy) : DpxFSM σ := ⟨0, engine, ∅, syncPolicy⟩

variable [StorageEngine σ]

/-- The engine commit of `applyProposal`: apply, store the index, maybe sync. -/
def commit (f : DpxFSM σ) (index : UInt64) (batch : List BatchOp) :
    Option ApplyError × DpxFSM σ :=
  match StorageEngine.applyBatch f.engine batch ⟨f.syncPolicy = .syncFull⟩ with
  | (some e, eng) => (some (.engine e), { f with engine := eng })
  | (none, eng) =>
      let f := { f with engine := eng, applied := index }
      if f.syncPolicy = .syncBatch then
        match StorageEngine.sync eng with
        | (some e, eng) => (some (.walSync index e), { f with engine := eng })
        | (none, eng) => (none, { f with engine := eng })
      else (none, f)

def applyProposal (f : DpxFSM σ) (index : UInt64) (p : Proposal) (shadow : Shadow) :
    Option ApplyError × DpxFSM σ × Shadow :=
  match writeLoop index p.writes ⟨[], shadow, f.keyEpoch⟩ with
  | (s, some e) => (some e, { f with keyEpoch := s.keyEpoch }, s.shadow)
  | (s, none) =>
      let (err, f) := { f with keyEpoch := s.keyEpoch }.commit index (s.batch ++ [appliedOp index])
      (err, f, s.shadow)

/-- One turn of the loop in `applyBatch`. -/
def applyLog (f : DpxFSM σ) (shadow : Shadow) (log : Log) :
    ApplyResult × DpxFSM σ × Shadow :=
  if log.type ≠ .command then (.ok, f, shadow)
  else
    match Proposal.unmarshal log.data with
    | .error e => (.failed (.corruptEntry log.index e), f, shadow)
    | .ok p =>
        if detectConflict f.keyEpoch p shadow then (.conflicted, f, shadow)
        else
          match f.applyProposal log.index p shadow with
          | (some e, f, shadow) => (.failed e, f, shadow)
          | (none, f, shadow) => (.ok, f, shadow)

/-- The proposal an entry puts to the vote, if it carries one. -/
def proposalOf (log : Log) : Option Proposal :=
  if log.type ≠ .command then none
  else
    match Proposal.unmarshal log.data with
    | .error _ => none
    | .ok p => some p

theorem applyLog_of_none {f : DpxFSM σ} {log : Log} (h : proposalOf log = none) (a b : Shadow) :
    (f.applyLog a log).1 = (f.applyLog b log).1 ∧ (f.applyLog a log).1.conflict = false ∧
      (f.applyLog a log).2 = (f, a) := by
  unfold proposalOf at h
  unfold applyLog
  split at h
  · rename_i ht
    rw [if_pos ht, if_pos ht]
    exact ⟨rfl, rfl, rfl⟩
  · rename_i ht
    rw [if_neg ht, if_neg ht]
    cases hu : Proposal.unmarshal log.data with
    | error e => exact ⟨rfl, rfl, rfl⟩
    | ok p => rw [hu] at h; cases h

theorem applyLog_of_some {f : DpxFSM σ} {log : Log} {p : Proposal} (h : proposalOf log = some p)
    (a : Shadow) :
    f.applyLog a log =
      if detectConflict f.keyEpoch p a then (.conflicted, f, a)
      else
        match f.applyProposal log.index p a with
        | (some e, f, shadow) => (.failed e, f, shadow)
        | (none, f, shadow) => (.ok, f, shadow) := by
  unfold proposalOf at h
  unfold applyLog
  split at h
  · cases h
  · rename_i ht
    rw [if_neg ht]
    cases hu : Proposal.unmarshal log.data with
    | error e => rw [hu] at h; cases h
    | ok q => rw [hu] at h; cases h; rfl

theorem applyLog_snd_of_pass {f : DpxFSM σ} {log : Log} {p : Proposal} {a : Shadow}
    (h : proposalOf log = some p) (hd : detectConflict f.keyEpoch p a = false) :
    (f.applyLog a log).2 = (f.applyProposal log.index p a).2 := by
  rw [applyLog_of_some h, hd, if_neg Bool.false_ne_true]
  split
  · rename_i heq
    rw [heq]
  · rename_i heq
    rw [heq]

def applyLogs : List Log → DpxFSM σ → Shadow → List ApplyResult × DpxFSM σ × Shadow
  | [], f, shadow => ([], f, shadow)
  | log :: logs, f, shadow =>
      let (r, f, shadow) := f.applyLog shadow log
      let (rs, f, shadow) := applyLogs logs f shadow
      (r :: rs, f, shadow)

/-- `ApplyBatch`: the shadow starts empty and is dropped at the end. -/
def applyBatch (f : DpxFSM σ) (logs : List Log) : List ApplyResult × DpxFSM σ :=
  let (rs, f, _) := applyLogs logs f ∅
  (rs, f)

/-- Delivering a log in consecutive `ApplyBatch` calls. -/
def applyCut : List (List Log) → DpxFSM σ → List ApplyResult × DpxFSM σ
  | [], f => ([], f)
  | call :: calls, f =>
      let (rs, f) := f.applyBatch call
      let (rs', f) := applyCut calls f
      (rs ++ rs', f)

/-- `Apply`: one entry in a call of its own. -/
def apply (f : DpxFSM σ) (log : Log) : ApplyResult × DpxFSM σ :=
  let (r, f, _) := f.applyLog ∅ log
  (r, f)

/-- Delivering entries one per `Apply` call. -/
def redeliver (f : DpxFSM σ) (logs : List Log) : DpxFSM σ :=
  logs.foldl (fun f log => (f.apply log).2) f

end DpxFSM

/-! ## Opening on an engine -/

inductive OpenError where
  | corruptedVersionRecord (key : Key) (len : Nat)
  | scan (e : EngineError)
  deriving DecidableEq, Repr

def rawIterStart : Bytes := verPrefix

def rawIterEnd : Bytes := verPrefix ++ List.replicate 16 0xFF

/-- The scan loop of `open`. -/
def rebuild : List (Bytes × Bytes) → GoMap EpochRecord → Except OpenError (GoMap EpochRecord)
  | [], m => .ok m
  | (k, v) :: rest, m =>
      if k.length ≤ verPrefix.length then rebuild rest m
      else
        match decodeEpochRecord? v with
        | none => .error (.corruptedVersionRecord (k.drop verPrefix.length) v.length)
        | some er => rebuild rest (m.insert (k.drop verPrefix.length) er)

/-- `dpxFSM.open`: rebuild `keyEpoch`, restore the applied index. -/
def DpxFSM.open {σ : Type} [StorageEngine σ] (f : DpxFSM σ) : Except OpenError (DpxFSM σ) :=
  match StorageEngine.rawIter f.engine rawIterStart rawIterEnd with
  | (pairs, err) =>
      match rebuild pairs ∅ with
      | .error e => .error e
      | .ok m =>
          match err with
          | some e => .error (.scan e)
          | none =>
              .ok { f with keyEpoch := m, applied := StorageEngine.currentSequence f.engine }

theorem DpxFSM.open_engine {σ : Type} [StorageEngine σ] {f f' : DpxFSM σ}
    (h : f.open = .ok f') : f'.engine = f.engine := by
  unfold DpxFSM.open at h
  simp only at h
  split at h
  · cases h
  · split at h
    · cases h
    · cases h
      rfl

end Dpx
