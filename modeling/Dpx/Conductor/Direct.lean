/-
# `Dpx.Conductor.Direct` — the single-node proposer

`conductor/direct.go`, the state and the arithmetic; the channels around it are in
`Dpx.Conductor.Pipeline`.  `applyBatchDirect` numbers the entries of a batch, judges
them one after the other, collects the mutations of those that pass into ONE engine
batch, and commits it at the end.

It has two bodies.  Up to 64 entries the per-batch shadow is an array of 64 slots
searched from the front, with the inner `break` leaving the outer loop running; above
that it is the map of `dpxFSM.detectConflict`.  The bodies also differ on an unknown
operation: the stack body skips its data and still files a version record, the map
body stops there and leaves the mutations before it in the batch.

`judge` is what the two have in common, for any shadow (`ShadowOps`):
`stackEntry_eq_judge` holds for every proposal, `mapEntry_eq_judge` for known
operations.  Everything proved later about verdicts is proved about `judge`.
-/
import Dpx.Conductor.Writes

namespace Dpx

/-! ## The stack shadow -/

structure ShadowEntry where
  key : Key
  epoch : EpochRecord
  deriving DecidableEq, Repr

def maxStackShadow : Nat := 64

/-- The inner loop: the first slot with the key decides. -/
def stackShadowed : List ShadowEntry → ReadEntry → Bool
  | [], _ => false
  | s :: stack, re =>
      if s.key = re.key then !(s.epoch.isCredit && re.isDebit) else stackShadowed stack re

/-- The loop over the read set.  A stale entry ends it; a shadow hit does not. -/
def stackConflict (keyEpoch : GoMap EpochRecord) (stack : List ShadowEntry) :
    List ReadEntry → Bool → Bool
  | [], conflict => conflict
  | re :: rest, conflict =>
      if stale (epochOf keyEpoch re.key) re then true
      else stackConflict keyEpoch stack rest (conflict || stackShadowed stack re)

/-- A full array takes no more slots. -/
def pushShadow (stack : List ShadowEntry) (s : ShadowEntry) : List ShadowEntry :=
  if stack.length < maxStackShadow then stack ++ [s] else stack

/-! ## The two bodies -/

/-- What the loop over the entries carries. -/
structure BatchPass (τ : Type) where
  index : UInt64
  keyEpoch : GoMap EpochRecord
  shadow : τ
  engBatch : List BatchOp
  hasWrite : Bool

def stackWrite (idx : UInt64) (s : BatchPass (List ShadowEntry)) (w : WriteEntry) :
    BatchPass (List ShadowEntry) :=
  { s with
    engBatch := s.engBatch ++ w.ops idx
    shadow := pushShadow s.shadow ⟨w.key, w.epochRecord idx⟩
    keyEpoch := s.keyEpoch.insert w.key (w.epochRecord idx) }

/-- One entry, stack body. -/
def stackEntry (s : BatchPass (List ShadowEntry)) (p : Proposal) :
    ApplyResult × BatchPass (List ShadowEntry) :=
  let idx := s.index + 1
  let s := { s with index := idx }
  if stackConflict s.keyEpoch s.shadow p.readSet false then (.conflicted, s)
  else
    let s := p.writes.foldl (stackWrite idx) s
    (.ok, { s with engBatch := s.engBatch ++ [appliedOp idx], hasWrite := true })

/-- One entry, map body: `detectConflict`, then `applyProposalToBatch`. -/
def mapEntry (s : BatchPass Shadow) (p : Proposal) : ApplyResult × BatchPass Shadow :=
  let idx := s.index + 1
  let s := { s with index := idx }
  if detectConflict s.keyEpoch p s.shadow then (.conflicted, s)
  else
    match writeLoop idx p.writes ⟨s.engBatch, s.shadow, s.keyEpoch⟩ with
    | (w, some e) =>
        (.failed e, { s with engBatch := w.batch, shadow := w.shadow, keyEpoch := w.keyEpoch })
    | (w, none) =>
        (.ok, { s with
          engBatch := w.batch ++ [appliedOp idx]
          shadow := w.shadow
          keyEpoch := w.keyEpoch
          hasWrite := true })

/-- The loop over the entries of a batch. -/
def entryLoop {τ : Type} (entry : BatchPass τ → Proposal → ApplyResult × BatchPass τ) :
    List Proposal → BatchPass τ → List ApplyResult × BatchPass τ
  | [], s => ([], s)
  | p :: ps, s =>
      ((entry s p).1 :: (entryLoop entry ps (entry s p).2).1, (entryLoop entry ps (entry s p).2).2)

/-! ## The proposer -/

structure DirectProposer (σ : Type) where
  fsm : DpxFSM σ
  index : UInt64

namespace DirectProposer

variable {σ : Type} [StorageEngine σ]

/-- `newDirectProposer`: the applied index `open` returns is dropped, and the index
counter of the new proposer starts at zero. -/
def newDirectProposer (eng : σ) (syncPolicy : SyncPolicy) :
    Except OpenError (DirectProposer σ) :=
  match (DpxFSM.new eng syncPolicy).open with
  | .error e => .error e
  | .ok f => .ok ⟨f, 0⟩

/-- The pass a batch starts with. -/
def startPass {τ : Type} (d : DirectProposer σ) (empty : τ) : BatchPass τ :=
  ⟨d.index, d.fsm.keyEpoch, empty, [], false⟩

/-- The engine commit.  An engine error replaces the answers of the entries that
had passed; the error of a batch sync is dropped. -/
def commitPass {τ : Type} (d : DirectProposer σ) (results : List ApplyResult) (s : BatchPass τ) :
    List ApplyResult × DirectProposer σ :=
  let f := { d.fsm with keyEpoch := s.keyEpoch }
  if s.hasWrite then
    match StorageEngine.applyBatch f.engine s.engBatch ⟨f.syncPolicy = .syncFull⟩ with
    | (some e, eng) =>
        (results.map fun r => if r.err = none ∧ r.conflict = false then .failed (.engine e) else r,
          ⟨{ f with engine := eng }, s.index⟩)
    | (none, eng) =>
        let eng := if f.syncPolicy = .syncBatch then (StorageEngine.sync eng).2 else eng
        (results, ⟨{ f with engine := eng, applied := s.index }, s.index⟩)
  else (results, ⟨f, s.index⟩)

def applyBatchDirect (d : DirectProposer σ) (entries : List Proposal) :
    List ApplyResult × DirectProposer σ :=
  if entries.length ≤ maxStackShadow then
    let (results, s) := entryLoop stackEntry entries (d.startPass [])
    d.commitPass results s
  else
    let (results, s) := entryLoop mapEntry entries (d.startPass ∅)
    d.commitPass results s

end DirectProposer

/-! ## What the two bodies have in common -/

/-- A per-batch shadow: what it answers for a read entry, and how it takes a write.
It never invents a key: an answer `true` is about a key that was noted. -/
structure ShadowOps (τ : Type) where
  empty : τ
  hit : τ → ReadEntry → Bool
  note : UInt64 → τ → WriteEntry → τ
  Noted : τ → Key → Prop
  not_noted_empty : ∀ k, ¬ Noted empty k
  noted_of_hit : ∀ {t re}, hit t re = true → Noted t re.key
  noted_note : ∀ {i t w k}, Noted (note i t w) k → Noted t k ∨ w.key = k

theorem exists_of_stackShadowed {stack : List ShadowEntry} {re : ReadEntry}
    (h : stackShadowed stack re = true) : ∃ s ∈ stack, s.key = re.key := by
  induction stack with
  | nil => exact Bool.noConfusion h
  | cons s stack ih =>
      rw [stackShadowed] at h
      split at h
      · rename_i hkey
        exact ⟨s, List.mem_cons_self, hkey⟩
      · obtain ⟨t, ht, hkey⟩ := ih h
        exact ⟨t, List.mem_cons_of_mem _ ht, hkey⟩

def stackOps : ShadowOps (List ShadowEntry) where
  empty := []
  hit := stackShadowed
  note i stack w := pushShadow stack ⟨w.key, w.epochRecord i⟩
  Noted stack k := ∃ s ∈ stack, s.key = k
  not_noted_empty := by
    rintro k ⟨s, hs, -⟩
    exact absurd hs List.not_mem_nil
  noted_of_hit := exists_of_stackShadowed
  noted_note := by
    rintro i stack w k ⟨s, hs, hkey⟩
    rw [pushShadow] at hs
    split at hs
    · rcases List.mem_append.mp hs with hold | hnew
      · exact Or.inl ⟨s, hold, hkey⟩
      · rw [List.mem_singleton.mp hnew] at hkey
        exact Or.inr hkey
    · exact Or.inl ⟨s, hs, hkey⟩

def mapOps : ShadowOps Shadow where
  empty := ∅
  hit := shadowed
  note i shadow w := shadow.insert w.key (w.epochRecord i)
  Noted shadow k := ∃ r : EpochRecord, shadow[k]? = some r
  not_noted_empty := by
    rintro k ⟨r, hr⟩
    rw [Std.ExtTreeMap.getElem?_empty] at hr
    cases hr
  noted_of_hit := by
    intro shadow re h
    rw [shadowed] at h
    cases hs : shadow[re.key]? with
    | none => rw [hs] at h; exact Bool.noConfusion h
    | some r => exact ⟨r, rfl⟩
  noted_note := by
    rintro i shadow w k ⟨r, hr⟩
    rw [Std.ExtTreeMap.getElem?_insert] at hr
    split at hr
    · rename_i hkey
      exact Or.inr (Std.LawfulEqOrd.compare_eq_iff_eq.mp hkey)
    · exact Or.inl ⟨r, hr⟩

section Judge
variable {τ : Type} (S : ShadowOps τ)

/-- The verdict on one entry. -/
def conflicts (s : BatchPass τ) (p : Proposal) : Bool :=
  p.readSet.any fun re => stale (epochOf s.keyEpoch re.key) re || S.hit s.shadow re

/-- What an entry that passes adds. -/
def BatchPass.accept (s : BatchPass τ) (p : Proposal) : BatchPass τ :=
  let idx := s.index + 1
  { index := idx
    keyEpoch := epochs idx p.writes s.keyEpoch
    shadow := p.writes.foldl (S.note idx) s.shadow
    engBatch := s.engBatch ++ (p.writes.flatMap (WriteEntry.ops idx) ++ [appliedOp idx])
    hasWrite := true }

/-- One entry, over any shadow. -/
def judge (s : BatchPass τ) (p : Proposal) : ApplyResult × BatchPass τ :=
  if conflicts S s p then (.conflicted, { s with index := s.index + 1 }) else (.ok, s.accept S p)

end Judge

theorem stackConflict_eq_any (ke : GoMap EpochRecord) (stack : List ShadowEntry)
    (res : List ReadEntry) :
    ∀ c, stackConflict ke stack res c =
      (c || res.any fun re => stale (epochOf ke re.key) re || stackShadowed stack re) := by
  induction res with
  | nil => intro c; simp [stackConflict]
  | cons re res ih =>
      intro c
      rw [stackConflict]
      split
      · rename_i hst
        simp [hst]
      · rename_i hst
        rw [ih, List.any_cons, Bool.eq_false_iff.mpr hst, Bool.false_or, Bool.or_assoc]

theorem foldl_stackWrite (idx : UInt64) (ws : List WriteEntry) :
    ∀ s : BatchPass (List ShadowEntry), ws.foldl (stackWrite idx) s =
      { s with
        engBatch := s.engBatch ++ ws.flatMap (WriteEntry.ops idx)
        shadow := ws.foldl (stackOps.note idx) s.shadow
        keyEpoch := epochs idx ws s.keyEpoch } := by
  induction ws with
  | nil =>
      intro s
      rw [List.flatMap_nil, List.append_nil]
      rfl
  | cons w ws ih =>
      intro s
      rw [List.foldl_cons, ih, List.flatMap_cons, ← List.append_assoc]
      rfl

theorem stackEntry_eq_judge (s : BatchPass (List ShadowEntry)) (p : Proposal) :
    stackEntry s p = judge stackOps s p := by
  have hverdict : stackConflict s.keyEpoch s.shadow p.readSet false = conflicts stackOps s p := by
    rw [stackConflict_eq_any, Bool.false_or]
    rfl
  rw [stackEntry, judge]
  simp only [hverdict, foldl_stackWrite, BatchPass.accept, List.append_assoc]

theorem mapEntry_eq_judge (s : BatchPass Shadow) {p : Proposal}
    (hp : ∀ w ∈ p.writes, w.op.known = true) : mapEntry s p = judge mapOps s p := by
  have hfold : ∀ idx, epochs idx p.writes s.shadow = p.writes.foldl (mapOps.note idx) s.shadow :=
    fun _ => rfl
  rw [mapEntry, judge]
  simp only [writeLoop_known _ _ hp, hfold, BatchPass.accept, List.append_assoc]
  rfl

theorem entryLoop_congr {τ : Type} {f g : BatchPass τ → Proposal → ApplyResult × BatchPass τ}
    {ps : List Proposal} (h : ∀ p ∈ ps, ∀ s, f s p = g s p) :
    ∀ s, entryLoop f ps s = entryLoop g ps s := by
  induction ps with
  | nil => exact fun _ => rfl
  | cons p ps ih =>
      intro s
      rw [entryLoop, entryLoop, h p List.mem_cons_self,
        ih fun q hq => h q (List.mem_cons_of_mem _ hq)]

theorem entryLoop_append {τ : Type} (entry : BatchPass τ → Proposal → ApplyResult × BatchPass τ)
    (xs ys : List Proposal) : ∀ s, entryLoop entry (xs ++ ys) s =
      ((entryLoop entry xs s).1 ++ (entryLoop entry ys (entryLoop entry xs s).2).1,
        (entryLoop entry ys (entryLoop entry xs s).2).2) := by
  induction xs with
  | nil => exact fun _ => rfl
  | cons p xs ih =>
      intro s
      simp only [List.cons_append, entryLoop, ih]

theorem length_entryLoop {τ : Type} (entry : BatchPass τ → Proposal → ApplyResult × BatchPass τ)
    (ps : List Proposal) : ∀ s, (entryLoop entry ps s).1.length = ps.length := by
  induction ps with
  | nil => exact fun _ => rfl
  | cons p ps ih => exact fun s => congrArg (· + 1) (ih _)

theorem DirectProposer.length_applyBatchDirect {σ : Type} [StorageEngine σ] (d : DirectProposer σ)
    (ps : List Proposal) : (d.applyBatchDirect ps).1.length = ps.length := by
  have hcommit : ∀ {τ : Type} (results : List ApplyResult) (s : BatchPass τ),
      (d.commitPass results s).1.length = results.length := by
    intro τ results s
    rw [commitPass]
    split
    · split
      · exact List.length_map _
      · rfl
    · rfl
  rw [applyBatchDirect]
  split
  · exact (hcommit _ _).trans (length_entryLoop _ _ _)
  · exact (hcommit _ _).trans (length_entryLoop _ _ _)

theorem entryLoop_judge_idle {τ : Type} (S : ShadowOps τ) (ps : List Proposal) :
    ∀ s : BatchPass τ, (s.hasWrite = false → s.engBatch = []) →
      (entryLoop (judge S) ps s).2.hasWrite = false →
      (entryLoop (judge S) ps s).2.engBatch = [] := by
  induction ps with
  | nil => exact fun s h => h
  | cons p ps ih =>
      intro s h
      rw [entryLoop]
      refine ih _ ?_
      rw [judge]
      split
      · exact h
      · exact fun hw => Bool.noConfusion hw

namespace DirectProposer

variable {σ : Type} [StorageEngine σ] [LawfulEngine σ]

theorem commitPass_spec {τ : Type} (d : DirectProposer σ) (results : List ApplyResult)
    (s : BatchPass τ) (hidle : s.hasWrite = false → s.engBatch = []) :
    (d.commitPass results s).1 = results ∧ (d.commitPass results s).2.index = s.index ∧
      (d.commitPass results s).2.fsm.keyEpoch = s.keyEpoch ∧
      ∀ k, StorageEngine.get (d.commitPass results s).2.fsm.engine k =
        BatchOp.effect k (StorageEngine.get d.fsm.engine k) s.engBatch := by
  rw [commitPass]
  cases hw : s.hasWrite with
  | false =>
      rw [if_neg Bool.false_ne_true]
      refine ⟨rfl, rfl, rfl, fun k => ?_⟩
      rw [hidle hw]
      rfl
  | true =>
      rw [if_pos rfl]
      have hok := LawfulEngine.applyBatch_ok d.fsm.engine s.engBatch
        ⟨d.fsm.syncPolicy = .syncFull⟩
      have hget := LawfulEngine.get_applyBatch d.fsm.engine s.engBatch
        ⟨d.fsm.syncPolicy = .syncFull⟩
      revert hok hget
      simp only
      generalize StorageEngine.applyBatch d.fsm.engine s.engBatch
        ⟨d.fsm.syncPolicy = .syncFull⟩ = out
      obtain ⟨err, eng⟩ := out
      intro hok hget
      cases hok
      refine ⟨rfl, rfl, rfl, fun k => ?_⟩
      rw [← hget k]
      simp only [LawfulEngine.sync_ok]
      split <;> rfl

/-- **One batch.**  Over some shadow, the answers are those of the loop of verdicts
and the engine takes the collected batch. -/
theorem applyBatchDirect_spec (d : DirectProposer σ) {ps : List Proposal}
    (hps : ∀ p ∈ ps, p.WellFormed) :
    ∃ (τ : Type) (S : ShadowOps τ),
      (d.applyBatchDirect ps).1 = (entryLoop (judge S) ps (d.startPass S.empty)).1 ∧
      (d.applyBatchDirect ps).2.index = (entryLoop (judge S) ps (d.startPass S.empty)).2.index ∧
      (d.applyBatchDirect ps).2.fsm.keyEpoch =
        (entryLoop (judge S) ps (d.startPass S.empty)).2.keyEpoch ∧
      ∀ k, StorageEngine.get (d.applyBatchDirect ps).2.fsm.engine k =
        BatchOp.effect k (StorageEngine.get d.fsm.engine k)
          (entryLoop (judge S) ps (d.startPass S.empty)).2.engBatch := by
  rw [applyBatchDirect]
  split
  · refine ⟨_, stackOps, ?_⟩
    have hloop : entryLoop stackEntry ps (d.startPass []) = _ :=
      entryLoop_congr (fun p _ s => stackEntry_eq_judge s p) (d.startPass [])
    rw [hloop]
    exact d.commitPass_spec _ _ (entryLoop_judge_idle stackOps ps (d.startPass []) fun _ => rfl)
  · refine ⟨_, mapOps, ?_⟩
    have hloop : entryLoop mapEntry ps (d.startPass ∅) = _ :=
      entryLoop_congr (fun p hp s => mapEntry_eq_judge s (hps p hp).known) (d.startPass ∅)
    rw [hloop]
    exact d.commitPass_spec _ _ (entryLoop_judge_idle mapOps ps (d.startPass ∅) fun _ => rfl)

end DirectProposer

end Dpx
