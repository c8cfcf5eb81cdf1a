/-
# `Dpx.Conductor.Snapshot` — taking a snapshot of the machine, and restoring one

`Snapshot` and `Restore` of `dpxFSM`, `Persist` and `Release` of the snapshot it hands to Raft
(`conductor/fsm.go`), over the plain memory engine and the files of its host.

A snapshot is a checkpoint in a directory of its own inside the data directory, and travels as
an archive of that directory.  `Restore` removes the data directory, unpacks the archive there,
opens the engine on it and rebuilds `keyEpoch` from the version records.

`snapshot_transfer_iff`: the machine that restores is the machine the snapshot was taken of,
exactly if the contents fit the dump format and no key is recorded that the scan of `open` does
not reach.  Nothing depends on the machine that restores or on what its host had in the data
directory.
-/
import Dpx.Engine.Checkpoint
import Dpx.Conductor.Tar
import Dpx.Conductor.Rebuild

namespace Dpx

open Files Memory Dump

/-! ## Names -/

/-- `dump` -/
def dumpName : Bytes := [0x64, 0x75, 0x6d, 0x70]

/-- `snap-` and the time in nanoseconds, in decimal. -/
def snapName (nanos : Nat) : Bytes :=
  [0x73, 0x6e, 0x61, 0x70, 0x2d] ++ (Nat.toDigits 10 nanos).map fun c => c.toNat.toUInt8

theorem isName_dumpName : IsName dumpName := by decide

theorem isName_snapName (nanos : Nat) : IsName (snapName nanos) := by
  have hdigits : ∀ b ∈ (Nat.toDigits 10 nanos).map fun c => c.toNat.toUInt8,
      b ≠ slash ∧ b ≠ 0 := by
    intro b hb
    obtain ⟨c, hc, rfl⟩ := List.mem_map.mp hb
    have hdigit := Nat.isDigit_of_mem_toDigits (by decide) (by decide) hc
    have hrange : 48 ≤ c.toNat ∧ c.toNat ≤ 57 := by
      simpa [Char.isDigit, UInt32.le_iff_toNat_le] using hdigit
    have hval : c.toNat.toUInt8.toNat = c.toNat := by
      rw [Nat.toUInt8, UInt8.toNat_ofNat', Nat.mod_eq_of_lt (by omega)]
    constructor
    · intro heq
      rw [heq] at hval
      have : slash.toNat = 47 := rfl
      omega
    · intro heq
      rw [heq] at hval
      have : (0 : UInt8).toNat = 0 := rfl
      omega
  refine ⟨by simp [snapName], by simp [snapName, dot], by simp [snapName, dotDot], ?_, ?_⟩
  · intro hmem
    rcases List.mem_append.mp hmem with h | h
    · exact absurd h (by decide)
    · exact (hdigits _ h).1 rfl
  · intro hmem
    rcases List.mem_append.mp hmem with h | h
    · exact absurd h (by decide)
    · exact (hdigits _ h).2 rfl

theorem snapName_ne_dumpName (nanos : Nat) : snapName nanos ≠ dumpName := by
  simp [snapName, dumpName]

/-! ## The calls -/

/-- A machine and the files of its host. -/
structure Host where
  files : FileSystem
  dataDir : Path
  fsm : DpxFSM State

/-- The map that the loop of `open` leaves, also if it stops at a corrupted record. -/
def rebuildLeft : List (Bytes × Bytes) → GoMap EpochRecord → GoMap EpochRecord
  | [], m => m
  | (k, v) :: rest, m =>
      if k.length ≤ verPrefix.length then rebuildLeft rest m
      else
        match decodeEpochRecord? v with
        | none => m
        | some er => rebuildLeft rest (m.insert (k.drop verPrefix.length) er)

inductive RestoreError where
  /-- `dpx/raft: Restore untar: %w` -/
  | untar (e : UntarError)
  /-- `dpx/raft: Restore open engine: %w` -/
  | openEngine (e : LoadError)
  | «open» (e : OpenError)

/-- What `os.ReadFile` answers. -/
def readFile (fs : FileSystem) (p : Path) : FileRead :=
  match fs.readFile p with
  | .ok b => .contents b
  | .error .notExist => .notExist
  | .error _ => .failed "is a directory"

namespace Host

/-- `CreateCheckpoint` of the memory engine. -/
def createCheckpoint (h : Host) (o : RangeOrder Key Bytes) (dir : Path) :
    Option FileError × Host :=
  match h.files.mkdirAll dir with
  | .error e => (some e, h)
  | .ok files =>
      match files.writeFile (dir ++ [dumpName]) (h.fsm.engine.createCheckpoint o) with
      | .error e => (some e, { h with files := files })
      | .ok files => (none, { h with files := files })

/-- `Snapshot`; an error is wrapped as `dpx/raft: checkpoint: %w`. -/
def snapshot (h : Host) (o : RangeOrder Key Bytes) (nanos : Nat) : Except FileError Path × Host :=
  let dir := h.dataDir ++ [snapName nanos]
  match h.createCheckpoint o dir with
  | (some e, h) => (.error e, h)
  | (none, h) => (.ok dir, h)

/-- `Persist`: what the sink gets; an error cancels it. -/
def persist (h : Host) (dir : Path) : Except FileError (List (TarHeader × Bytes)) :=
  tarDir h.files dir

/-- `Release`. -/
def release (h : Host) (dir : Path) : Host := { h with files := h.files.removeAll dir }

/-- The end of `Restore`: the engine is opened on the unpacked files, then the machine. -/
def reopen (h : Host) (o : RangeOrder Key Bytes) (files : FileSystem) :
    Option RestoreError × Host :=
  match h.fsm.engine.open o (readFile files (h.dataDir ++ [dumpName])) with
  | (some e, engine) =>
      (some (.openEngine e), { h with files := files, fsm := { h.fsm with engine := engine } })
  | (none, engine) =>
      let fsm := { h.fsm with engine := engine }
      match fsm.open with
      | .ok fsm => (none, { h with files := files, fsm := fsm })
      | .error e =>
          let left := rebuildLeft (engine.rawIter rawIterStart rawIterEnd) ∅
          (some (.open e), { h with files := files, fsm := { fsm with keyEpoch := left } })

/-- `Restore`; closing the memory engine does nothing. -/
def restore (h : Host) (o : RangeOrder Key Bytes) (rc : TarReader) : Option RestoreError × Host :=
  match untarDir rc h.dataDir (h.files.removeAll h.dataDir) with
  | (some e, files) => (some (.untar e), { h with files := files })
  | (none, files) => h.reopen o files

/-! ## What a snapshot holds -/

/-- The data directory is there. -/
structure Ready (h : Host) : Prop where
  below : h.dataDir ≠ []
  dir : h.files.node h.dataDir = some .dir

end Host

/-- In `dir` there is the dump `b` and nothing else. -/
def HoldsDump (fs : FileSystem) (dir : Path) (b : Bytes) : Prop :=
  ∀ p, fs.node (dir ++ p) =
    if p = [] then some .dir else if p = [dumpName] then some (.file b) else none

theorem HoldsDump.dir {fs : FileSystem} {dir : Path} {b : Bytes} (h : HoldsDump fs dir b) :
    fs.node dir = some .dir := by
  have := h []
  rwa [List.append_nil, if_pos rfl] at this

theorem HoldsDump.readFile {fs : FileSystem} {dir : Path} {b : Bytes} (h : HoldsDump fs dir b) :
    readFile fs (dir ++ [dumpName]) = .contents b := by
  rw [Dpx.readFile, FileSystem.readFile, h, if_neg (by simp), if_pos rfl]

theorem HoldsDump.untarDir {fs host : FileSystem} {src dst : Path} {b : Bytes}
    (h : HoldsDump fs src b) {entries : List (TarHeader × Bytes)}
    (htar : tarDir fs src = .ok entries) (hroom : ∃ host₁, host.mkdirAll dst = .ok host₁)
    (hempty : ∀ p, p ≠ [] → host.node (dst ++ p) = none) :
    ∃ host', untarDir (.ofEntries entries) dst host = (none, host') ∧ HoldsDump host' dst b := by
  obtain ⟨host', huntar, hcopied⟩ := exists_untarDir h.dir htar hroom hempty
  refine ⟨host', huntar, fun p => ?_⟩
  rw [hcopied.node, h p]
  by_cases hnil : p = []
  · simp [hnil]
  · by_cases hdump : p = [dumpName]
    · rw [if_pos]
      refine Or.inr ⟨([dumpName], b), FileSystem.mem_files.mpr ?_, hdump ▸ List.prefix_rfl⟩
      rw [h, if_neg (by simp), if_pos rfl]
    · simp [hnil, hdump]

namespace Host

variable {h g : Host}

theorem exists_snapshot (hready : h.Ready) (o : RangeOrder Key Bytes) {nanos : Nat}
    (hnew : h.files.node (h.dataDir ++ [snapName nanos]) = none) :
    ∃ files, h.snapshot o nanos = (.ok (h.dataDir ++ [snapName nanos]), { h with files := files }) ∧
      HoldsDump files (h.dataDir ++ [snapName nanos]) (h.fsm.engine.createCheckpoint o) ∧
      ∀ p, ¬ h.dataDir ++ [snapName nanos] <+: p → files.node p = h.files.node p := by
  have hnames : ∀ c ∈ h.dataDir ++ [snapName nanos], IsName c := by
    intro c hc
    rcases List.mem_append.mp hc with hc | hc
    · exact FileSystem.isName_of_node hready.dir c hc
    · rw [List.mem_singleton.mp hc]
      exact isName_snapName nanos
  have hfree : ∀ q b, q <+: h.dataDir ++ [snapName nanos] → h.files.node q ≠ some (.file b) := by
    intro q b hq
    rcases List.prefix_concat_iff.mp hq with rfl | hq
    · simp [hnew]
    · simp [FileSystem.node_dir_above hready.dir hq]
  obtain ⟨files₁, hmk⟩ := FileSystem.exists_mkdirAll hnames hfree
  have hnode₁ := FileSystem.mkdirAll_ok hmk
  have hfile : files₁.node (h.dataDir ++ [snapName nanos] ++ [dumpName]) ≠ some .dir := by
    rw [hnode₁, if_neg (not_append_above (List.cons_ne_nil _ _) _),
      FileSystem.node_append_eq_none hnew]
    simp
  obtain ⟨files₂, hwrite⟩ := FileSystem.exists_writeFile (h.fsm.engine.createCheckpoint o)
    isName_dumpName (by rw [hnode₁, if_pos List.prefix_rfl]) hfile
  have hnode₂ := (FileSystem.writeFile_ok hwrite).2
  refine ⟨files₂, ?_, fun p => ?_, fun p hp => ?_⟩
  · simp only [snapshot, createCheckpoint, hmk, hwrite]
  · rw [hnode₂, hnode₁]
    by_cases hnil : p = []
    · simp [hnil]
    · rw [if_neg (not_append_above hnil _), FileSystem.node_append_eq_none hnew, if_neg hnil]
      simp only [List.append_cancel_left_eq]
  · have hne : p ≠ h.dataDir ++ [snapName nanos] ++ [dumpName] := by
      rintro rfl
      exact hp (List.prefix_append _ _)
    rw [hnode₂, if_neg hne, hnode₁]
    split
    · rename_i hle
      rcases List.prefix_concat_iff.mp hle with rfl | hle
      · exact absurd List.prefix_rfl hp
      · exact (FileSystem.node_dir_above hready.dir hle).symm
    · rfl

theorem restore_of_dump (hready : g.Ready) {fs : FileSystem} {src : Path} {b : Bytes}
    (hdump : HoldsDump fs src b) {entries : List (TarHeader × Bytes)}
    (htar : tarDir fs src = .ok entries) (o : RangeOrder Key Bytes) :
    ∃ files, g.restore o (.ofEntries entries) = g.reopen o files ∧
      HoldsDump files g.dataDir b := by
  obtain ⟨files, huntar, hholds⟩ : ∃ files, untarDir (.ofEntries entries) g.dataDir
      (g.files.removeAll g.dataDir) = (none, files) ∧ HoldsDump files g.dataDir b := by
    refine hdump.untarDir htar (FileSystem.exists_mkdirAll ?_ ?_) ?_
    · exact FileSystem.isName_of_node hready.dir
    · intro q b hq
      rw [FileSystem.node_removeAll, FileSystem.node_dir_above hready.dir hq]
      split <;> simp
    · intro p _
      have hne : g.dataDir ++ p ≠ [] := List.append_ne_nil_of_left_ne_nil hready.below p
      rw [FileSystem.node_removeAll, if_neg]
      rintro (hnil | hout)
      · exact hne hnil
      · exact hout (List.prefix_append _ _)
  refine ⟨files, ?_, hholds⟩
  rw [restore, huntar]

end Host

/-! ## From one machine to another -/

theorem State.open_createCheckpoint {s : State} (h : Fits s.tree) (t : State)
    (o₁ o₂ : RangeOrder Key Bytes) :
    t.open o₂ (.contents (s.createCheckpoint o₁)) = (none, s) := by
  rw [State.createCheckpoint_eq, State.open, loadDump_encodeDump h]
  simp only [o₂.insertMany_entries_empty]

theorem DpxFSM.open_syncPolicy {f f' : DpxFSM State} (h : f.open = .ok f') :
    f'.syncPolicy = f.syncPolicy := by
  unfold DpxFSM.open at h
  simp only at h
  split at h
  · cases h
  · split at h
    · cases h
    · cases h
      rfl

theorem DpxFSM.open_of_engine {f g : DpxFSM State} (hengine : g.engine = f.engine)
    (h : DpxFSM.Mirrored f) :
    ∃ m, g.open = .ok ⟨f.engine.applied, f.engine, m, g.syncPolicy⟩ ∧
      ∀ k : Key, m[k]? = if Unscanned k then none else f.keyEpoch[k]? := by
  obtain ⟨⟨applied, engine, m, syncPolicy⟩, hopen, happlied, hkeyEpoch⟩ :=
    open_of_mirrored h g.syncPolicy
  have hsame : g.open = (DpxFSM.new f.engine g.syncPolicy).open := by
    rw [← hengine]
    rfl
  obtain rfl : applied = f.engine.applied := happlied
  obtain rfl : engine = f.engine := DpxFSM.open_engine hopen
  obtain rfl : syncPolicy = g.syncPolicy := DpxFSM.open_syncPolicy hopen
  exact ⟨m, hsame.trans hopen, hkeyEpoch⟩

namespace Host

variable {g : Host} {f : DpxFSM State}

/-- Opened on the checkpoint of `f`, if it fits, a machine has the engine of `f` and what the
scan finds of its records. -/
theorem reopen_of_fits (hmirrored : DpxFSM.Mirrored f) (hfits : Fits f.engine.tree)
    {files : FileSystem} {o₁ : RangeOrder Key Bytes}
    (hdump : HoldsDump files g.dataDir (f.engine.createCheckpoint o₁))
    (o₂ : RangeOrder Key Bytes) :
    ∃ m, g.reopen o₂ files =
        (none, ⟨files, g.dataDir, ⟨f.engine.applied, f.engine, m, g.fsm.syncPolicy⟩⟩) ∧
      ∀ k : Key, m[k]? = if Unscanned k then none else f.keyEpoch[k]? := by
  obtain ⟨m, hopen, hkeyEpoch⟩ :=
    DpxFSM.open_of_engine (f := f) (g := { g.fsm with engine := f.engine }) rfl hmirrored
  refine ⟨m, ?_, hkeyEpoch⟩
  rw [reopen, hdump.readFile, State.open_createCheckpoint hfits]
  simp only [hopen]

theorem fits_of_reopen {files : FileSystem} {o₁ o₂ : RangeOrder Key Bytes}
    (hdump : HoldsDump files g.dataDir (f.engine.createCheckpoint o₁))
    (hok : (g.reopen o₂ files).1 = none) (hengine : (g.reopen o₂ files).2.fsm.engine = f.engine) :
    Fits f.engine.tree := by
  rw [reopen, hdump.readFile] at hok hengine
  refine (State.restore_iff f.engine g.fsm.engine o₁ o₂).mp ?_
  match hload : g.fsm.engine.open o₂ (.contents (f.engine.createCheckpoint o₁)) with
  | (some e, engine) =>
      rw [hload] at hok
      cases hok
  | (none, engine) =>
      rw [hload] at hok hengine
      refine ⟨rfl, ?_⟩
      simp only at hok hengine
      split at hok
      · rename_i fsm hopen
        simp only [hopen] at hengine
        rw [← hengine, DpxFSM.open_engine hopen]
      · cases hok

/-- **Transfer.**  A snapshot of a machine, taken into a new directory, persisted, and restored
on any other host: it succeeds and the machine there is the machine here, exactly if the
contents fit the dump format and no key is recorded that is not scanned. -/
theorem snapshot_transfer_iff (syncPolicy : SyncPolicy) (calls : List (List Log))
    (hlogs : ∀ log ∈ calls.flatten, DpxFSM.WellFormedLog log) {h g : Host}
    (hfsm : h.fsm = (DpxFSM.applyCut calls (DpxFSM.new State.empty syncPolicy)).2)
    (hready : h.Ready) (hg : g.Ready) {nanos : Nat}
    (hnew : h.files.node (h.dataDir ++ [snapName nanos]) = none)
    (o₁ o₂ : RangeOrder Key Bytes) :
    ∃ dir h' entries, h.snapshot o₁ nanos = (.ok dir, h') ∧ h'.persist dir = .ok entries ∧
      let out := g.restore o₂ (.ofEntries entries)
      ((out.1 = none ∧ out.2.fsm = { h.fsm with syncPolicy := g.fsm.syncPolicy }) ↔
        Fits h.fsm.engine.tree ∧ ∀ k, Unscanned k → h.fsm.keyEpoch[k]? = none) := by
  have hmirrored : DpxFSM.Mirrored h.fsm := hfsm ▸ (DpxFSM.mirrored_new syncPolicy).applyCut hlogs
  have happlied : h.fsm.engine.applied = h.fsm.applied := by
    rw [hfsm]
    exact DpxFSM.applied_applyCut rfl hlogs
  obtain ⟨files, hsnap, hdump, -⟩ := exists_snapshot hready o₁ hnew
  obtain ⟨entries, htar⟩ : ∃ entries,
      tarDir files (h.dataDir ++ [snapName nanos]) = .ok entries := by
    rw [tarDir, hdump.dir]
    exact ⟨_, rfl⟩
  refine ⟨_, _, entries, hsnap, htar, ?_⟩
  obtain ⟨files', hrestore, hdump'⟩ := restore_of_dump hg hdump htar o₂
  rw [hrestore]
  constructor
  · rintro ⟨hok, hout⟩
    have hengine : (g.reopen o₂ files').2.fsm.engine = h.fsm.engine := by rw [hout]
    have hfits := fits_of_reopen hdump' hok hengine
    obtain ⟨m, hreopen, hkeyEpoch⟩ := reopen_of_fits (g := g) hmirrored hfits hdump' o₂
    rw [hreopen] at hout
    have hm : m = h.fsm.keyEpoch := congrArg DpxFSM.keyEpoch hout
    refine ⟨hfits, fun k hk => ?_⟩
    rw [← hm, hkeyEpoch, if_pos hk]
  · rintro ⟨hfits, hscanned⟩
    obtain ⟨m, hreopen, hkeyEpoch⟩ := reopen_of_fits (g := g) hmirrored hfits hdump' o₂
    obtain rfl : m = h.fsm.keyEpoch := by
      refine Std.ExtTreeMap.ext_getElem? fun k => ?_
      rw [hkeyEpoch]
      split
      · rename_i hk
        exact (hscanned k hk).symm
      · rfl
    rw [hreopen, happlied]
    exact ⟨rfl, rfl⟩

/-- The directory `/d`, empty. -/
def oneDir : FileSystem :=
  match FileSystem.empty.mkdirAll [[0x64]] with
  | .ok files => files
  | .error _ => .empty

theorem oneDir_dir : oneDir.node [[0x64]] = some .dir := by decide +kernel

def inDir (fsm : DpxFSM State) : Host := ⟨oneDir, [[0x64]], fsm⟩

theorem ready_inDir (fsm : DpxFSM State) : (inDir fsm).Ready :=
  ⟨List.cons_ne_nil _ _, oneDir_dir⟩

/-- The machine that has applied one entry, which sets `k`. -/
def oneEntry : DpxFSM State :=
  (DpxFSM.applyCut [[DpxFSM.setEntry]] (DpxFSM.new State.empty .syncBatch)).2

theorem fits_of_toList {m : GoMap Bytes} (hcount : m.size < 2 ^ 64)
    (hsizes : ∀ kv ∈ m.toList, kv.1.length < 2 ^ 16 ∧ kv.2.length < 2 ^ 32) : Fits m := by
  refine ⟨hcount, fun k v hk => ?_, fun k v hk => ?_⟩
  · exact (hsizes (k, v) (Std.ExtTreeMap.mem_toList_iff_getElem?_eq_some.mpr hk)).1
  · exact (hsizes (k, v) (Std.ExtTreeMap.mem_toList_iff_getElem?_eq_some.mpr hk)).2

/-- It is restored on a host whose machine has applied nothing. -/
theorem one_entry_transferred :
    ∃ dir h' entries, (inDir oneEntry).snapshot .ascending 7 = (.ok dir, h') ∧
      h'.persist dir = .ok entries ∧
      let out := (inDir (DpxFSM.new State.empty .syncBatch)).restore .ascending (.ofEntries entries)
      out.1 = none ∧ out.2.fsm = oneEntry := by
  obtain ⟨dir, h', entries, hsnap, hpersist, hiff⟩ :=
    snapshot_transfer_iff .syncBatch [[DpxFSM.setEntry]] DpxFSM.wellFormedLog_setEntry
      (h := inDir oneEntry) (g := inDir (DpxFSM.new State.empty .syncBatch)) rfl
      (ready_inDir _) (ready_inDir _)
      (show (inDir oneEntry).files.node ([[0x64]] ++ [snapName 7]) = none by decide +kernel)
      .ascending .ascending
  refine ⟨dir, h', entries, hsnap, hpersist, hiff.mpr ⟨?_, ?_⟩⟩
  · exact fits_of_toList (by decide +kernel) (by decide +kernel)
  · have hkeys : (inDir oneEntry).fsm.keyEpoch.toList.map Prod.fst = [[0x6b]] := by decide +kernel
    intro k hk
    rw [Option.eq_none_iff_forall_ne_some]
    intro er her
    have hmem := List.mem_map_of_mem (f := Prod.fst)
      (Std.ExtTreeMap.mem_toList_iff_getElem?_eq_some.mpr her)
    obtain rfl : k = [0x6b] := List.mem_singleton.mp (hkeys ▸ hmem)
    exact absurd hk (by decide)

end Host

end Dpx
