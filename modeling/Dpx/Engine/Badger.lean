/-
# `Dpx.Engine.Badger` — batches and Raft snapshots of the Badger engine

`engine/badger/badger.go` with the steps of `dpxFSM.Snapshot` and `dpxFSM.Restore` that
concern the engine.  `ApplyBatch` is one transaction (`Txn`): it sees its own writes, and
all of them reach the database when it commits.

Badger is a persistent map over files of its own: a directory is what those files hold, and
its other files (`Directory`).  `badger.Open` reads its own files and no others, and starts
an empty database if there are none.  Archiving and unpacking a directory keep its files.

`CreateCheckpoint` writes one file, `dump`, in a format of this repository; `Restore` puts
that file, alone, into the data directory; and `Open` calls `badger.Open`.  Nobody reads the
dump: `decodeDump` has no caller but a test.  So a restored engine is empty, whatever was
checkpointed (`restored_iff_empty`).
-/
import Dpx.Engine.Dump

namespace Dpx

namespace Badger

/-- A directory: what Badger's own files hold, `none` if there are none, and other files. -/
structure Directory where
  database : Option (GoMap Bytes)
  files : List (String × Bytes)

namespace Directory

def empty : Directory := ⟨none, []⟩

/-- `os.ReadFile`. -/
def readFile (d : Directory) (name : String) : Option Bytes :=
  (d.files.find? fun f => f.1 = name).map (·.2)

/-- `untarDir`: the files of the archive go into the directory. -/
def untarDir (archive d : Directory) : Directory :=
  ⟨archive.database.or d.database, archive.files ++ d.files⟩

end Directory

/-! ## Transactions -/

/-- A read-write transaction: the database it began with, and its own writes; `none` is a
deletion. -/
structure Txn where
  base : GoMap Bytes
  pending : GoMap (Option Bytes)

namespace Txn

/-- A transaction sees its own writes. -/
def get (t : Txn) (k : Key) : Option Bytes := (t.pending[k]?).getD t.base[k]?

def set (t : Txn) (k : Key) (v : Bytes) : Txn := { t with pending := t.pending.insert k (some v) }

def delete (t : Txn) (k : Key) : Txn := { t with pending := t.pending.insert k none }

/-- One turn of the loop in `ApplyBatch`; a missing key counts as zero. -/
def applyOp (t : Txn) : BatchOp → Txn
  | .set k v => t.set k v
  | .delete k => t.delete k
  | .merge k v =>
      let cur := ((t.get k).map decodeInt64).getD 0
      let delta := decodeInt64 v
      t.set k (encodeInt64 (cur + delta))

/-- A pending write reaches the database. -/
def commitKey (m : GoMap Bytes) (kv : Key × Option Bytes) : GoMap Bytes :=
  match kv.2 with
  | some v => m.insert kv.1 v
  | none => m.erase kv.1

/-- `Commit`: in some order. -/
def commit (t : Txn) (o : RangeOrder Key (Option Bytes)) : GoMap Bytes :=
  (o.entries t.pending).foldl commitKey t.base

theorem getElem?_commitKey (m : GoMap Bytes) (kv : Key × Option Bytes) (k : Key) :
    (commitKey m kv)[k]? = if kv.1 = k then kv.2 else m[k]? := by
  obtain ⟨j, v⟩ := kv
  by_cases h : j = k
  · subst h
    cases v <;> simp [commitKey]
  · cases v with
    | none => simp [commitKey, Std.ExtTreeMap.getElem?_erase, h]
    | some v => simp [commitKey, Std.ExtTreeMap.getElem?_insert, h]

theorem getElem?_commit (t : Txn) (o : RangeOrder Key (Option Bytes)) (k : Key) :
    (t.commit o)[k]? = t.get k := by
  have hloop := o.look_foldl_entries (fun m : GoMap Bytes => m[k]?) (fun v _ => v)
    (fun m kv hne => (getElem?_commitKey m kv k).trans (if_neg hne))
    (fun m v => (getElem?_commitKey m (k, v) k).trans (if_pos rfl)) t.pending t.base
  refine hloop.trans ?_
  rw [get]
  cases t.pending[k]? <;> rfl

theorem get_applyOp (t : Txn) (op : BatchOp) (k : Key) :
    (t.applyOp op).get k = if op.key = k then op.act (t.get k) else t.get k := by
  by_cases h : op.key = k
  · subst h
    rw [if_pos rfl]
    cases op with
    | set j v => simp [applyOp, set, get, BatchOp.key, BatchOp.act]
    | delete j => simp [applyOp, delete, get, BatchOp.key, BatchOp.act]
    | merge j v =>
        have hcur : ((t.get j).map decodeInt64).getD 0 = decodeInt64 ((t.get j).getD []) := by
          cases t.get j <;> rfl
        simp only [applyOp, hcur, BatchOp.key, BatchOp.act, mergeInt64]
        simp [set, get]
  · rw [if_neg h]
    cases op with
    | set j v =>
        have hj : j ≠ k := h
        simp [applyOp, set, get, Std.ExtTreeMap.getElem?_insert, hj]
    | delete j =>
        have hj : j ≠ k := h
        simp [applyOp, delete, get, Std.ExtTreeMap.getElem?_insert, hj]
    | merge j v =>
        have hj : j ≠ k := h
        simp [applyOp, set, get, Std.ExtTreeMap.getElem?_insert, hj]

theorem get_foldl_applyOp (ops : List BatchOp) (k : Key) :
    ∀ t : Txn, (ops.foldl applyOp t).get k = BatchOp.effect k (t.get k) ops := by
  induction ops with
  | nil => exact fun _ => rfl
  | cons op ops ih =>
      intro t
      rw [List.foldl_cons, ih, get_applyOp, BatchOp.effect_cons]

end Txn

/-! ## The engine -/

/-- The engine: its data directory, and the open database. -/
structure Engine where
  dir : Directory
  db : Option (GoMap Bytes)

namespace Engine

/-- `Open`, with `badger.Open`. -/
def «open» (e : Engine) : Engine :=
  let contents := e.dir.database.getD ∅
  ⟨{ e.dir with database := some contents }, some contents⟩

/-- `Close`: what was committed is in the files. -/
def close (e : Engine) : Engine := ⟨{ e.dir with database := e.db.or e.dir.database }, none⟩

def get (e : Engine) (key : Key) : Option Bytes := e.db.bind (·[key]?)

/-- `RawIter`: `Seek` to the start, and stop at the end if there is one. -/
def rawIter (e : Engine) (start fin : Bytes) : List (Bytes × Bytes) :=
  (((e.db.getD ∅).toList.dropWhile fun it => less it.1 start).takeWhile fun it =>
    fin = [] || less it.1 fin)

/-- `ApplyBatch`, every operation of the transaction succeeding.  The loop over the batch
that follows the first one does nothing. -/
def applyBatch (e : Engine) (o : RangeOrder Key (Option Bytes)) (ops : List BatchOp) : Engine :=
  { e with db := e.db.map fun m => (ops.foldl Txn.applyOp ⟨m, ∅⟩).commit o }

/-- `CreateCheckpoint`: the new directory. -/
def createCheckpoint (e : Engine) (o : RangeOrder Key Bytes) : Directory :=
  let data := (∅ : GoMap Bytes).insertMany (e.db.getD ∅).toList
  ⟨none, [("dump", encodeDump o data)]⟩

/-- The engine's part of `Restore`: close, remove the data directory, unpack, open. -/
def restore (e : Engine) (archive : Directory) : Engine :=
  let closed := e.close
  let removed := { closed with dir := .empty }
  let unpacked := { removed with dir := archive.untarDir removed.dir }
  unpacked.open

theorem get_applyBatch (e : Engine) (hopen : e.db ≠ none) (o : RangeOrder Key (Option Bytes))
    (ops : List BatchOp) (k : Key) :
    (e.applyBatch o ops).get k = BatchOp.effect k (e.get k) ops := by
  obtain ⟨dir, db⟩ := e
  cases db with
  | none => exact absurd rfl hopen
  | some m =>
      show ((ops.foldl Txn.applyOp ⟨m, ∅⟩).commit o)[k]? = BatchOp.effect k m[k]? ops
      rw [Txn.getElem?_commit, Txn.get_foldl_applyOp, Txn.get, Std.ExtTreeMap.getElem?_empty]
      rfl

/-- A restored engine has nothing. -/
theorem db_restore_createCheckpoint (e target : Engine) (o : RangeOrder Key Bytes) :
    (target.restore (e.createCheckpoint o)).db = some ∅ := rfl

/-- **A Raft snapshot of the Badger engine.**  Whatever the source holds and whatever engine
is restored: the restored engine's reads are the source's if and only if the source is empty.
The dump is there, and whatever fits could be read from it. -/
theorem restored_iff_empty (d : Directory) (m : GoMap Bytes) (target : Engine)
    (o : RangeOrder Key Bytes) :
    let source : Engine := ⟨d, some m⟩
    let restored := target.restore (source.createCheckpoint o)
    (((∀ k, restored.get k = source.get k) ∧
        ∀ start fin, restored.rawIter start fin = source.rawIter start fin) ↔ m = ∅) ∧
    ∃ b, restored.dir.readFile "dump" = some b ∧ (decodeDump b = .ok m ↔ Dump.Fits m) := by
  intro source restored
  have hdb : restored.db = some ∅ := db_restore_createCheckpoint source target o
  refine ⟨?_, encodeDump o ((∅ : GoMap Bytes).insertMany m.toList), rfl, ?_⟩
  · constructor
    · rintro ⟨hget, -⟩
      refine Std.ExtTreeMap.ext_getElem? fun k => ?_
      have hk := hget k
      rw [get, hdb] at hk
      exact hk.symm
    · rintro rfl
      have hsame : restored.db = source.db := hdb
      refine ⟨fun k => ?_, fun start fin => ?_⟩
      · rw [get, get, hsame]
      · rw [rawIter, rawIter, hsame]
  · rw [show (∅ : GoMap Bytes).insertMany m.toList = m from
      RangeOrder.ascending.insertMany_entries_empty m]
    exact decodeDump_encodeDump_iff o m

/-- One key is checkpointed and restored: it is gone. -/
theorem restored_key_missing :
    let source : Engine := ⟨.empty, some ((∅ : GoMap Bytes).insert [0x6b] [1])⟩
    let restored := (Engine.open ⟨.empty, none⟩).restore (source.createCheckpoint .ascending)
    source.get [0x6b] = some [1] ∧ restored.get [0x6b] = none ∧
      source.rawIter [] [] = [([0x6b], [1])] ∧ restored.rawIter [] [] = [] := by
  decide +kernel

end Engine

end Badger

end Dpx
