/-
# `Dpx.Conductor.Durable` — an acknowledged write and its Sync

Under `SyncBatch` the engine is asked to `Sync` after each batch.  `dpxFSM.applyProposal`
passes the error of `Sync` on; `applyBatchDirect` and `applyInline` drop it, and the answers
stand.  So what is acknowledged is synced exactly if no `Sync` fails
(`acknowledged_synced_iff`).

The engine is arbitrary: `ApplyBatch` and `Sync` fail as they please.  To speak about its
calls it is wrapped in a journal (`Recorded`) that the proposers do not see.
-/
import Dpx.Conductor.Failed
import Dpx.Conductor.History
import Dpx.Conductor.Sharded

namespace Dpx

/-! ## The journal -/

/-- A call of the engine that has returned. -/
inductive EngineCall where
  | applyBatch (ops : List BatchOp) (err : Option EngineError)
  | sync (err : Option EngineError)
  deriving DecidableEq, Repr

/-- An engine and the calls it has had, in order. -/
structure Recorded (σ : Type) where
  engine : σ
  calls : List EngineCall

instance {σ : Type} [StorageEngine σ] : StorageEngine (Recorded σ) where
  applyBatch r ops wo :=
    let (err, engine) := StorageEngine.applyBatch r.engine ops wo
    (err, ⟨engine, r.calls ++ [.applyBatch ops err]⟩)
  sync r :=
    let (err, engine) := StorageEngine.sync r.engine
    (err, ⟨engine, r.calls ++ [.sync err]⟩)
  get r := StorageEngine.get r.engine
  currentSequence r := StorageEngine.currentSequence r.engine
  rawIter r := StorageEngine.rawIter r.engine

section Recording
variable {σ : Type} [StorageEngine σ] (r : Recorded σ)

theorem applyBatch_recorded (ops : List BatchOp) (wo : WriteOptions) :
    StorageEngine.applyBatch r ops wo = ((StorageEngine.applyBatch r.engine ops wo).1,
      ⟨(StorageEngine.applyBatch r.engine ops wo).2,
        r.calls ++ [.applyBatch ops (StorageEngine.applyBatch r.engine ops wo).1]⟩) :=
  rfl

theorem sync_recorded :
    StorageEngine.sync r = ((StorageEngine.sync r.engine).1,
      ⟨(StorageEngine.sync r.engine).2, r.calls ++ [.sync (StorageEngine.sync r.engine).1]⟩) :=
  rfl

end Recording

/-- Behind a batch that holds the mutations `part` and was applied, there is a `Sync`
without error. -/
def Synced (part : List BatchOp) (calls : List EngineCall) : Prop :=
  ∃ before batch after, calls = before ++ .applyBatch batch none :: after ∧ part <:+: batch ∧
    .sync none ∈ after

theorem synced_pair_iff {part batch : List BatchOp} {err : Option EngineError} :
    Synced part [.applyBatch batch none, .sync err] ↔ part <:+: batch ∧ err = none := by
  constructor
  · rintro ⟨before, ops, after, hsplit, hpart, hafter⟩
    cases before with
    | nil =>
        obtain ⟨hhead, rfl⟩ := List.cons.inj hsplit
        cases hhead
        cases List.mem_singleton.mp hafter
        exact ⟨hpart, rfl⟩
    | cons c before =>
        -- the batch is the first of the two calls
        obtain ⟨-, hrest⟩ := List.cons.inj hsplit
        cases before with
        | nil => cases (List.cons.inj hrest).1
        | cons c before => exact absurd (List.cons.inj hrest).2.symm (by simp)
  · rintro ⟨hpart, rfl⟩
    exact ⟨[], batch, [.sync none], rfl, hpart, List.mem_singleton.mpr rfl⟩

/-- Every `Sync` returned without error. -/
def SyncsOk (calls : List EngineCall) : Prop := ∀ err, .sync err ∈ calls → err = none

theorem syncsOk_pair_iff {batch : List BatchOp} {err : Option EngineError} :
    SyncsOk [.applyBatch batch none, .sync err] ↔ err = none := by
  simp [SyncsOk]

/-! ## The loop over a batch -/

/-- What an entry of either body can do to the batch. -/
structure Collects {τ : Type} (entry : BatchPass τ → Proposal → ApplyResult × BatchPass τ) :
    Prop where
  index : ∀ s p, (entry s p).2.index = s.index + 1
  grows : ∀ s p, s.engBatch <+: (entry s p).2.engBatch
  accepted : ∀ s p, (entry s p).1 = .ok → (entry s p).2.hasWrite = true ∧
    (entry s p).2.engBatch = s.engBatch ++ entryBatch (s.index + 1) p
  refused : ∀ s p, (entry s p).1 ≠ .ok → (entry s p).2.hasWrite = s.hasWrite

theorem collects_judge {τ : Type} (S : ShadowOps τ) : Collects (judge S) where
  index s p := by
    rw [judge]
    split <;> rfl
  grows s p := by
    rw [judge]
    split
    · exact List.prefix_refl _
    · exact List.prefix_append _ _
  accepted s p h := by
    rw [judge] at h ⊢
    cases hc : conflicts S s p with
    | true =>
        rw [hc] at h
        exact absurd h ApplyResult.ok_ne_conflicted.symm
    | false => exact ⟨rfl, rfl⟩
  refused s p h := by
    rw [judge] at h ⊢
    cases hc : conflicts S s p with
    | true => rfl
    | false =>
        rw [hc] at h
        exact absurd rfl h

theorem collects_stackEntry : Collects stackEntry := by
  have heq : stackEntry = judge stackOps := by
    funext s p
    exact stackEntry_eq_judge s p
  rw [heq]
  exact collects_judge stackOps

theorem mapEntry_unknown {p : Proposal} (hp : ∃ w ∈ p.writes, w.op.known = false)
    (s : BatchPass Shadow) :
    (mapEntry s p).1 ≠ .ok ∧ (mapEntry s p).2.index = s.index + 1 ∧
      s.engBatch <+: (mapEntry s p).2.engBatch ∧ (mapEntry s p).2.hasWrite = s.hasWrite := by
  rw [mapEntry]
  split
  · exact ⟨ApplyResult.ok_ne_conflicted.symm, rfl, List.prefix_refl _, rfl⟩
  · obtain ⟨e, he⟩ := writeLoop_unknown (s.index + 1) p.writes hp
      ⟨s.engBatch, s.shadow, s.keyEpoch⟩
    have hloop := writeLoop_knownPart (s.index + 1) p.writes ⟨s.engBatch, s.shadow, s.keyEpoch⟩
    revert he hloop
    generalize writeLoop (s.index + 1) p.writes ⟨s.engBatch, s.shadow, s.keyEpoch⟩ = out
    obtain ⟨pass, err⟩ := out
    rintro rfl rfl
    refine ⟨?_, rfl, List.prefix_append _ _, rfl⟩
    intro h
    cases h

theorem collects_mapEntry : Collects mapEntry := by
  have hjudge := collects_judge mapOps
  have hcases : ∀ p : Proposal, (∀ s, mapEntry s p = judge mapOps s p) ∨
      ∃ w ∈ p.writes, w.op.known = false := by
    intro p
    by_cases hp : ∀ w ∈ p.writes, w.op.known = true
    · exact Or.inl fun s => mapEntry_eq_judge s hp
    · push Not at hp
      simpa using Or.inr hp
  constructor
  · intro s p
    rcases hcases p with heq | hp
    · rw [heq, hjudge.index]
    · exact (mapEntry_unknown hp s).2.1
  · intro s p
    rcases hcases p with heq | hp
    · rw [heq]
      exact hjudge.grows s p
    · exact (mapEntry_unknown hp s).2.2.1
  · intro s p hok
    rcases hcases p with heq | hp
    · rw [heq] at hok ⊢
      exact hjudge.accepted s p hok
    · exact absurd hok (mapEntry_unknown hp s).1
  · intro s p hok
    rcases hcases p with heq | hp
    · rw [heq] at hok ⊢
      exact hjudge.refused s p hok
    · exact (mapEntry_unknown hp s).2.2.2

namespace Collects

variable {τ : Type} {entry : BatchPass τ → Proposal → ApplyResult × BatchPass τ}

theorem engBatch_prefix (h : Collects entry) (ps : List Proposal) :
    ∀ s, s.engBatch <+: (entryLoop entry ps s).2.engBatch := by
  induction ps with
  | nil => exact fun s => List.prefix_refl _
  | cons p ps ih => exact fun s => (h.grows s p).trans (ih _)

theorem hasWrite_mono (h : Collects entry) (ps : List Proposal) :
    ∀ s, s.hasWrite = true → (entryLoop entry ps s).2.hasWrite = true := by
  induction ps with
  | nil => exact fun s hs => hs
  | cons p ps ih =>
      intro s hs
      refine ih _ ?_
      by_cases hok : (entry s p).1 = .ok
      · exact (h.accepted s p hok).1
      · rw [h.refused s p hok, hs]

theorem part_infix (h : Collects entry) (ps : List Proposal) :
    ∀ (s : BatchPass τ) (i : Nat) (p : Proposal), ps[i]? = some p →
      (entryLoop entry ps s).1[i]? = some .ok →
      (entryLoop entry ps s).2.hasWrite = true ∧
        entryBatch (s.index + UInt64.ofNat (i + 1)) p <:+: (entryLoop entry ps s).2.engBatch := by
  induction ps with
  | nil =>
      intro s i p hp
      cases hp
  | cons q ps ih =>
      intro s i p hp hok
      cases i with
      | zero =>
          cases hp
          obtain ⟨hw, hbatch⟩ := h.accepted s q (Option.some.inj hok)
          refine ⟨h.hasWrite_mono ps _ hw, ?_⟩
          obtain ⟨rest, hrest⟩ := h.engBatch_prefix ps (entry s q).2
          refine ⟨s.engBatch, rest, ?_⟩
          rw [entryLoop, ← hrest, hbatch]
          rfl
      | succ i =>
          have hindex : (entry s q).2.index + UInt64.ofNat (i + 1) =
              s.index + UInt64.ofNat (i + 1 + 1) := by
            rw [h.index, UInt64.add_assoc, UInt64.ofNat_add (i + 1) 1, UInt64.add_comm 1]
            rfl
          rw [← hindex]
          exact ih (entry s q).2 i p hp hok

theorem ok_of_hasWrite (h : Collects entry) (ps : List Proposal) :
    ∀ s, (entryLoop entry ps s).2.hasWrite = true →
      s.hasWrite = true ∨ .ok ∈ (entryLoop entry ps s).1 := by
  induction ps with
  | nil => exact fun s hs => Or.inl hs
  | cons p ps ih =>
      intro s hs
      by_cases hok : (entry s p).1 = .ok
      · exact Or.inr (List.mem_cons.mpr (Or.inl hok.symm))
      · rcases ih (entry s p).2 hs with hw | hmem
        · exact Or.inl ((h.refused s p hok).symm.trans hw)
        · exact Or.inr (List.mem_cons_of_mem _ hmem)

end Collects

/-! ## The commit -/

namespace DirectProposer

variable {σ : Type} [StorageEngine σ]

/-- The calls of the engine during one call of `applyBatchDirect`. -/
def callsOf (d : DirectProposer (Recorded σ)) (batch : List Proposal) : List EngineCall :=
  (d.applyBatchDirect batch).2.fsm.engine.calls.drop d.fsm.engine.calls.length

/-- Every proposal of the batch that is answered with the zero result has been synced. -/
def AcknowledgedSynced (d : DirectProposer (Recorded σ)) (batch : List Proposal) : Prop :=
  ∀ (i : Nat) (p : Proposal), batch[i]? = some p →
    (d.applyBatchDirect batch).1[i]? = some ApplyResult.ok →
    Synced (entryBatch (d.index + UInt64.ofNat (i + 1)) p) (d.callsOf batch)

theorem commitPass_calls {τ : Type} (d : DirectProposer (Recorded σ))
    (hsync : d.fsm.syncPolicy = .syncBatch) (results : List ApplyResult) (s : BatchPass τ) :
    ∃ calls, (d.commitPass results s).2.fsm.engine.calls = d.fsm.engine.calls ++ calls ∧
      ((s.hasWrite = false ∧ calls = [] ∧ (d.commitPass results s).1 = results) ∨
        (∃ e, calls = [.applyBatch s.engBatch (some e)] ∧
          ApplyResult.ok ∉ (d.commitPass results s).1) ∨
        (∃ err, s.hasWrite = true ∧ calls = [.applyBatch s.engBatch none, .sync err] ∧
          (d.commitPass results s).1 = results)) := by
  rw [commitPass]
  cases hw : s.hasWrite with
  | false => exact ⟨[], (List.append_nil _).symm, Or.inl ⟨rfl, rfl, rfl⟩⟩
  | true =>
      simp only [if_true, applyBatch_recorded]
      generalize StorageEngine.applyBatch d.fsm.engine.engine s.engBatch
        ⟨d.fsm.syncPolicy = .syncFull⟩ = out
      obtain ⟨err, eng⟩ := out
      cases err with
      | some e =>
          refine ⟨_, rfl, Or.inr (Or.inl ⟨e, rfl, ?_⟩)⟩
          simp only [List.mem_map, not_exists, not_and]
          intro r _ hr
          split at hr
          · cases hr
          · rename_i hne
            rw [hr] at hne
            exact hne ⟨rfl, rfl⟩
      | none =>
          simp only [hsync, if_true, sync_recorded]
          exact ⟨_, List.append_assoc _ _ _, Or.inr (Or.inr ⟨_, trivial, rfl, trivial⟩)⟩

theorem synced_of_commitPass {τ : Type} (d : DirectProposer (Recorded σ))
    (hsync : d.fsm.syncPolicy = .syncBatch)
    {entry : BatchPass τ → Proposal → ApplyResult × BatchPass τ} (h : Collects entry) (empty : τ)
    {batch : List Proposal}
    (hbody : d.applyBatchDirect batch =
      d.commitPass (entryLoop entry batch (d.startPass empty)).1
        (entryLoop entry batch (d.startPass empty)).2) :
    d.AcknowledgedSynced batch ↔ SyncsOk (d.callsOf batch) := by
  obtain ⟨calls, hcalls, hcases⟩ := d.commitPass_calls hsync
    (entryLoop entry batch (d.startPass empty)).1 (entryLoop entry batch (d.startPass empty)).2
  rw [← hbody] at hcalls hcases
  have hown : d.callsOf batch = calls := by
    rw [callsOf, hcalls, List.drop_left]
  have hpart : ∀ (i : Nat) (p : Proposal), batch[i]? = some p →
      (entryLoop entry batch (d.startPass empty)).1[i]? = some ApplyResult.ok → _ :=
    h.part_infix batch (d.startPass empty)
  rw [AcknowledgedSynced, hown]
  rcases hcases with ⟨hidle, rfl, hresults⟩ | ⟨e, rfl, hnone⟩ | ⟨err, hw, rfl, hresults⟩
  · -- nothing to commit, nothing acknowledged
    refine iff_of_true (fun i p hp hok => ?_) fun err hmem => absurd hmem List.not_mem_nil
    rw [hresults] at hok
    rw [(hpart i p hp hok).1] at hidle
    exact Bool.noConfusion hidle
  · -- the engine turned the batch down, and so are all answers
    refine iff_of_true (fun i p hp hok => ?_) fun err hmem => ?_
    · exact absurd (List.mem_of_getElem? hok) hnone
    · simp at hmem
  · constructor
    · intro hack
      rcases h.ok_of_hasWrite batch (d.startPass empty) hw with hfalse | hmem
      · exact Bool.noConfusion hfalse
      obtain ⟨i, hi⟩ := List.getElem?_of_mem hmem
      have hlen : i < batch.length := by
        have hlt := (List.getElem?_eq_some_iff.mp hi).1
        rwa [length_entryLoop] at hlt
      rw [← hresults] at hi
      have hsynced := hack i batch[i] (List.getElem?_eq_getElem hlen) hi
      exact syncsOk_pair_iff.mpr (synced_pair_iff.mp hsynced).2
    · intro hok i p hp hanswer
      rw [hresults] at hanswer
      exact synced_pair_iff.mpr ⟨(hpart i p hp hanswer).2, syncsOk_pair_iff.mp hok⟩

theorem acknowledgedSynced_iff (d : DirectProposer (Recorded σ))
    (hsync : d.fsm.syncPolicy = .syncBatch) (batch : List Proposal) :
    d.AcknowledgedSynced batch ↔ SyncsOk (d.callsOf batch) := by
  by_cases hsmall : batch.length ≤ maxStackShadow
  · refine d.synced_of_commitPass hsync collects_stackEntry [] ?_
    rw [applyBatchDirect, if_pos hsmall]
  · refine d.synced_of_commitPass hsync collects_mapEntry ∅ ?_
    rw [applyBatchDirect, if_neg hsmall]

theorem syncPolicy_commitPass {τ : Type} (d : DirectProposer σ) (results : List ApplyResult)
    (s : BatchPass τ) : (d.commitPass results s).2.fsm.syncPolicy = d.fsm.syncPolicy := by
  rw [commitPass]
  split
  · simp only
    split <;> rfl
  · rfl

theorem syncPolicy_run (batches : List (List Proposal)) :
    ∀ d : DirectProposer σ, (d.run batches).fsm.syncPolicy = d.fsm.syncPolicy := by
  induction batches with
  | nil => exact fun _ => rfl
  | cons batch batches ih =>
      intro d
      rw [run, ih, applyBatchDirect]
      split <;> exact d.syncPolicy_commitPass _ _

end DirectProposer

namespace ShardedDirectProposer

variable {σ : Type} [StorageEngine σ]

/-- The calls of the engine during one call of `applyInline`. -/
def callsOf (s : ShardedDirectProposer (Recorded σ)) (p : Proposal) : List EngineCall :=
  (s.applyInline p).2.engine.calls.drop s.engine.calls.length

/-- If the call is answered with the zero result, its proposal has been synced. -/
def AcknowledgedSynced (s : ShardedDirectProposer (Recorded σ)) (p : Proposal) : Prop :=
  (s.applyInline p).1 = .ok →
    Synced (entryBatch ((s.shards (route p)).index + 1) p) (s.callsOf p)

theorem acknowledgedSynced_iff (s : ShardedDirectProposer (Recorded σ))
    (hsync : s.syncPolicy = .syncBatch) (p : Proposal) :
    s.AcknowledgedSynced p ↔ SyncsOk (s.callsOf p) := by
  rw [AcknowledgedSynced, callsOf, applyInline]
  cases (s.shards (route p)).conflicts p with
  | true =>
      refine iff_of_true (fun h => absurd h ApplyResult.ok_ne_conflicted.symm) ?_
      simp [SyncsOk, setShard]
  | false =>
      simp only [Bool.false_eq_true, if_false, applyBatch_recorded, ShardProposer.accept]
      generalize StorageEngine.applyBatch s.engine.engine _ _ = out
      obtain ⟨err, eng⟩ := out
      cases err with
      | some e =>
          refine iff_of_true (fun h => ?_) ?_
          · cases h
          · simp [SyncsOk]
      | none =>
          simp only [hsync, if_true, sync_recorded, List.append_assoc, List.drop_left,
            forall_const]
          show Synced _ [.applyBatch _ none, .sync _] ↔ SyncsOk [.applyBatch _ none, .sync _]
          rw [synced_pair_iff, syncsOk_pair_iff]
          exact and_iff_right (List.infix_refl _)

theorem syncPolicy_applyInline (s : ShardedDirectProposer σ) (p : Proposal) :
    (s.applyInline p).2.syncPolicy = s.syncPolicy := by
  rw [applyInline]
  split
  · rfl
  · simp only
    split <;> rfl

theorem syncPolicy_run (ps : List Proposal) :
    ∀ s : ShardedDirectProposer σ, (s.run ps).syncPolicy = s.syncPolicy := by
  induction ps with
  | nil => exact fun _ => rfl
  | cons p ps ih =>
      intro s
      show ((s.applyInline p).2.run ps).syncPolicy = _
      rw [ih, syncPolicy_applyInline]

end ShardedDirectProposer

/-! ## Runs -/

/-- **Acknowledged and synced.**  In a run under `SyncBatch`, every proposal answered with
the zero result has been synced by then if and only if no `Sync` of the run returned an
error; whether the batches go through `applyBatchDirect` or the proposals through
`applyInline`. -/
theorem acknowledged_synced_iff {σ : Type} [StorageEngine σ] :
    (∀ (d : DirectProposer (Recorded σ)) (batches : List (List Proposal)),
      d.fsm.syncPolicy = .syncBatch →
      ((∀ pre batch post, batches = pre ++ batch :: post →
          (d.run pre).AcknowledgedSynced batch) ↔
        ∀ pre batch post, batches = pre ++ batch :: post →
          SyncsOk ((d.run pre).callsOf batch))) ∧
    ∀ (s : ShardedDirectProposer (Recorded σ)) (ps : List Proposal),
      s.syncPolicy = .syncBatch →
      ((∀ pre p post, ps = pre ++ p :: post → (s.run pre).AcknowledgedSynced p) ↔
        ∀ pre p post, ps = pre ++ p :: post → SyncsOk ((s.run pre).callsOf p)) := by
  constructor
  · intro d batches hsync
    refine forall_congr' fun pre => forall_congr' fun batch => forall_congr' fun post =>
      forall_congr' fun _ => ?_
    exact (d.run pre).acknowledgedSynced_iff ((d.syncPolicy_run pre).trans hsync) batch
  · intro s ps hsync
    refine forall_congr' fun pre => forall_congr' fun p => forall_congr' fun post =>
      forall_congr' fun _ => ?_
    exact (s.run pre).acknowledgedSynced_iff ((s.syncPolicy_run pre).trans hsync) p

/-- A memory engine on a disk: what the next calls of `Sync` return is given. -/
structure ScriptedSync where
  state : State
  outcomes : List (Option EngineError)

instance : StorageEngine ScriptedSync where
  applyBatch e ops wo :=
    let (err, state) := StorageEngine.applyBatch e.state ops wo
    (err, { e with state := state })
  sync e := (e.outcomes.head?.join, { e with outcomes := e.outcomes.tail })
  get e := e.state.get
  currentSequence e := e.state.applied
  rawIter e start fin := (e.state.rawIter start fin, none)

/-- A proposer on a fresh engine. -/
def onDisk (outcomes : List (Option EngineError)) : DirectProposer (Recorded ScriptedSync) :=
  ⟨DpxFSM.new ⟨⟨State.empty, outcomes⟩, []⟩ .syncBatch, 0⟩

/-- The write of a key, in a batch of its own. -/
def oneWrite : List Proposal := [⟨[], [⟨.set, [0x6b], [1]⟩], 0, 0⟩]

theorem callsOf_oneWrite :
    (onDisk []).callsOf oneWrite =
      [.applyBatch [.set [0x6b] [1], .set (versionKey [0x6b]) (encodeEpochRecord ⟨1, false⟩),
        appliedOp 1] none, .sync none] := by
  decide +kernel

/-- The `Sync` works. -/
theorem oneWrite_synced : (onDisk []).AcknowledgedSynced oneWrite := by
  refine ((acknowledged_synced_iff.1 (onDisk []) [oneWrite] rfl).mpr ?_) [] oneWrite [] rfl
  intro pre batch post hsplit
  cases pre with
  | nil =>
      cases hsplit
      rw [DirectProposer.run, callsOf_oneWrite]
      exact syncsOk_pair_iff.mpr rfl
  | cons c pre => simp at hsplit

/-- The `Sync` fails; it is the only one, and the write is acknowledged. -/
theorem acknowledged_unsynced :
    let d := onDisk [some ⟨"disk full"⟩]
    (d.applyBatchDirect oneWrite).1 = [.ok] ∧ ¬ d.AcknowledgedSynced oneWrite := by
  intro d
  have hcalls : d.callsOf oneWrite =
      [.applyBatch [.set [0x6b] [1], .set (versionKey [0x6b]) (encodeEpochRecord ⟨1, false⟩),
        appliedOp 1] none, .sync (some ⟨"disk full"⟩)] := by
    decide +kernel
  have hok : (d.applyBatchDirect oneWrite).1 = [.ok] := by decide +kernel
  refine ⟨hok, fun hack => ?_⟩
  have hsynced := hack 0 _ rfl (by rw [hok]; rfl)
  rw [hcalls, synced_pair_iff] at hsynced
  cases hsynced.2

end Dpx
