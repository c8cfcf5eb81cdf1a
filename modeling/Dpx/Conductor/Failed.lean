/-
# `Dpx.Conductor.Failed` — what a failed proposal leaves behind

A proposal is answered with an error if its bytes do not decode, or if its write loop meets
an operation it does not know.  The loop finds that out on its way: the writes in front of
the unknown one have been filed by then.

  * `dpxFSM.applyProposal` builds an engine batch of its own and drops it on the error; but
    the records are in `keyEpoch` and in the shadow of the call already.  Later entries that
    read those keys are judged against writes that never happened.
  * `applyProposalToBatch`, the body of `applyBatchDirect` above 64 entries, adds to the
    engine batch that all entries of the call share: if any other entry passes, the
    mutations are committed with it.
  * The body of `applyBatchDirect` up to 64 entries never answers with an error.

So a failed proposal leaves no trace exactly if no known operation stands in front of the
unknown one (`failed_without_trace`).  "No trace" is, for the machine, that the run without
the entry gives the same machine and the same answers to all other entries.  A direct entry
also draws a number; there it is that the rest of the batch goes on as if nothing but the
number had been drawn.

An entry answered Conflict leaves none in the machine, however many there are in a call
(`conflicted_without_trace`).

The engine is arbitrary here, but for its `ApplyBatch` and `Sync`, which succeed.
-/
import Dpx.Conductor.Agreement
import Dpx.Conductor.Direct

namespace Dpx

/-! ## The write loop up to its error -/

/-- The writes in front of the first unknown operation. -/
def knownPart (ws : List WriteEntry) : List WriteEntry := ws.takeWhile fun w => w.op.known

theorem knownPart_cons_known {w : WriteEntry} (h : w.op.known = true) (ws : List WriteEntry) :
    knownPart (w :: ws) = w :: knownPart ws := by
  simp only [knownPart, List.takeWhile_cons, h, if_true]

theorem knownPart_cons_unknown {w : WriteEntry} (h : w.op.known = false)
    (ws : List WriteEntry) : knownPart (w :: ws) = [] := by
  simp [knownPart, h]

theorem writeLoop_knownPart (index : UInt64) (ws : List WriteEntry) :
    ∀ s : WritePass, (writeLoop index ws s).1 =
      ⟨s.batch ++ (knownPart ws).flatMap (WriteEntry.ops index),
        epochs index (knownPart ws) s.shadow, epochs index (knownPart ws) s.keyEpoch⟩ := by
  induction ws with
  | nil =>
      intro s
      rw [knownPart, List.takeWhile_nil, List.flatMap_nil, List.append_nil]
      rfl
  | cons w ws ih =>
      intro s
      rw [writeLoop]
      cases hk : w.op.known with
      | false =>
          rw [dataOp_of_unknown hk, knownPart_cons_unknown hk, List.flatMap_nil,
            List.append_nil]
          rfl
      | true =>
          obtain ⟨op, hop⟩ := dataOp_of_known hk
          rw [hop, knownPart_cons_known hk]
          show (writeLoop index ws _).1 = _
          rw [ih]
          simp [WriteEntry.ops, hop, epochs]

theorem epochs_eq_self_iff {index : UInt64} {ws : List WriteEntry} {m : GoMap EpochRecord}
    (hnew : ∀ (k : Key) (r : EpochRecord), m[k]? = some r → r.epoch ≠ index) :
    epochs index ws m = m ↔ ws = [] := by
  constructor
  · intro h
    by_contra hne
    obtain ⟨w, hw⟩ := List.exists_mem_of_ne_nil _ hne
    have hget := getElem?_epochs index ws m w.key
    rw [h] at hget
    cases hr : recordAfter index ws w.key with
    | none =>
        have hlast : lastWrite ws w.key = none := Option.map_eq_none_iff.mp hr
        exact lastWrite_eq_none_iff.mp hlast w hw rfl
    | some r =>
        rw [hr] at hget
        exact hnew w.key r hget (recordAfter_epoch hr)
  · rintro rfl
    rfl

/-! ## The machine -/

namespace DpxFSM

variable {σ : Type} [StorageEngine σ]

/-- The entry does not decode, or has no known operation in front of its unknown one. -/
def FailsClean (log : Log) : Prop := ∀ p, proposalOf log = some p → knownPart p.writes = []

section Engine
variable (hbatch : ∀ (e : σ) ops wo, (StorageEngine.applyBatch e ops wo).1 = none)
  (hsync : ∀ e : σ, (StorageEngine.sync e).1 = none)
include hbatch hsync

theorem commit_err (f : DpxFSM σ) (index : UInt64) (batch : List BatchOp) :
    (f.commit index batch).1 = none := by
  have hok := hbatch f.engine batch ⟨f.syncPolicy = .syncFull⟩
  rw [commit]
  generalize StorageEngine.applyBatch f.engine batch ⟨f.syncPolicy = .syncFull⟩ = out at hok ⊢
  obtain ⟨err, eng⟩ := out
  cases hok
  simp only
  split
  · have hdone := hsync eng
    generalize StorageEngine.sync eng = out at hdone ⊢
    obtain ⟨err, eng⟩ := out
    cases hdone
    rfl
  · rfl

/-- **A failed entry.**  The engine stays; the records of the known part are filed. -/
theorem applyLog_failed {f : DpxFSM σ} {shadow : Shadow} {log : Log}
    (h : (f.applyLog shadow log).1.err ≠ none) :
    (proposalOf log = none ∧ (f.applyLog shadow log).2 = (f, shadow)) ∨
    ∃ p, proposalOf log = some p ∧ (f.applyLog shadow log).2 =
      ({ f with keyEpoch := epochs log.index (knownPart p.writes) f.keyEpoch },
        epochs log.index (knownPart p.writes) shadow) := by
  cases hp : proposalOf log with
  | none => exact Or.inl ⟨rfl, (applyLog_of_none hp shadow shadow).2.2⟩
  | some p =>
      refine Or.inr ⟨p, rfl, ?_⟩
      rw [applyLog_of_some hp] at h ⊢
      cases hd : detectConflict f.keyEpoch p shadow with
      | true =>
          rw [hd] at h
          exact absurd rfl h
      | false =>
          rw [hd, if_neg Bool.false_ne_true, applyProposal] at h
          rw [if_neg Bool.false_ne_true, applyProposal]
          have hpass := writeLoop_knownPart log.index p.writes ⟨[], shadow, f.keyEpoch⟩
          generalize writeLoop log.index p.writes ⟨[], shadow, f.keyEpoch⟩ = pass at h hpass ⊢
          obtain ⟨s, err⟩ := pass
          obtain rfl : s = _ := hpass
          cases err with
          | some e => rfl
          | none =>
              simp only [commit_err hbatch hsync] at h
              exact absurd rfl h

theorem applyLog_failsClean {f : DpxFSM σ} {shadow : Shadow} {log : Log}
    (h : (f.applyLog shadow log).1.err ≠ none) (hclean : FailsClean log) :
    (f.applyLog shadow log).2 = (f, shadow) := by
  rcases applyLog_failed hbatch hsync h with ⟨-, hsame⟩ | ⟨p, hp, hafter⟩
  · exact hsame
  · rw [hafter, hclean p hp]
    rfl

/-- Under a new index, `keyEpoch` stays exactly if the entry fails clean. -/
theorem keyEpoch_failed_iff {f : DpxFSM σ} {shadow : Shadow} {log : Log}
    (h : (f.applyLog shadow log).1.err ≠ none)
    (hnew : ∀ (k : Key) (r : EpochRecord), f.keyEpoch[k]? = some r → r.epoch ≠ log.index) :
    (f.applyLog shadow log).2.1.keyEpoch = f.keyEpoch ↔ FailsClean log := by
  constructor
  · intro hsame p hp
    rcases applyLog_failed hbatch hsync h with ⟨hnone, -⟩ | ⟨q, hq, hafter⟩
    · rw [hnone] at hp
      cases hp
    · rw [hq] at hp
      cases hp
      rw [hafter] at hsame
      exact (epochs_eq_self_iff hnew).mp hsame
  · intro hclean
    rw [applyLog_failsClean hbatch hsync h hclean]

end Engine

/-- The machine and the shadow an entry meets, behind the calls `pre` and the first entries
`a` of its own call. -/
def met (pre : List (List Log)) (a : List Log) (f : DpxFSM σ) : DpxFSM σ × Shadow :=
  (applyLogs a (applyCut pre f).2 ∅).2

theorem met_eq (pre : List (List Log)) (a : List Log) (f : DpxFSM σ) :
    met pre a f = chunked.met pre a f := by
  rw [met, Chunked.Machine.met, applyLogs_eq_chunk, applyCut_eq_cut]
  rfl

/-- The run without the entry gives the same machine and the same other answers. -/
def NoTrace (pre : List (List Log)) (a : List Log) (log : Log) (b : List Log)
    (post : List (List Log)) (f : DpxFSM σ) : Prop :=
  ∃ before after, before.length = pre.flatten.length + a.length ∧
    applyCut (pre ++ (a ++ log :: b) :: post) f =
      (before ++ ((met pre a f).1.applyLog (met pre a f).2 log).1 :: after,
        (applyCut (pre ++ (a ++ b) :: post) f).2) ∧
    (applyCut (pre ++ (a ++ b) :: post) f).1 = before ++ after

theorem noTrace_of_same {pre : List (List Log)} {a : List Log} {log : Log} {b : List Log}
    {post : List (List Log)} {f : DpxFSM σ}
    (h : ((met pre a f).1.applyLog (met pre a f).2 log).2 = met pre a f) :
    NoTrace pre a log b post f := by
  rw [NoTrace]
  rw [met_eq] at h ⊢
  simp only [applyCut_eq_cut]
  exact chunked.cut_without h

/-! ## A conflict -/

theorem applyLog_conflicted {f : DpxFSM σ} {shadow : Shadow} {log : Log}
    (h : (f.applyLog shadow log).1.conflict = true) :
    (f.applyLog shadow log).2 = (f, shadow) := by
  cases hp : proposalOf log with
  | none => exact (applyLog_of_none hp shadow shadow).2.2
  | some p =>
      rw [applyLog_conflict hp] at h
      rw [applyLog_of_some hp, if_pos h]

/-- **Conflicts leave no trace.**  Applying, in one call, the entries of a call that were
not answered Conflict gives them the answers they had, and the same machine. -/
theorem conflicted_without_trace (f : DpxFSM σ) (logs : List Log) :
    let kept := (logs.zip (f.applyBatch logs).1).filter fun x => !x.2.conflict
    (f.applyBatch logs).1.length = logs.length ∧
      f.applyBatch (kept.map Prod.fst) = (kept.map Prod.snd, (f.applyBatch logs).2) := by
  simp only [applyBatch, applyLogs_eq_chunk]
  refine ⟨chunked.length_chunk logs f ∅, ?_⟩
  have hkept := Chunked.Machine.chunk_filter (m := chunked (σ := σ)) ApplyResult.conflict
    (fun _ _ _ h => applyLog_conflicted h) logs f ∅
  simp only at hkept
  rw [hkept]

end DpxFSM

/-! ## The direct proposer -/

theorem stackEntry_err (s : BatchPass (List ShadowEntry)) (p : Proposal) :
    (stackEntry s p).1.err = none := by
  rw [stackEntry]
  simp only
  split <;> rfl

/-- **A failed entry of a batch.**  It draws a number, and the mutations and records of the
known part stay. -/
theorem mapEntry_failed {s : BatchPass Shadow} {p : Proposal}
    (h : (mapEntry s p).1.err ≠ none) :
    (mapEntry s p).2 = { s with
      index := s.index + 1
      engBatch := s.engBatch ++ (knownPart p.writes).flatMap (WriteEntry.ops (s.index + 1))
      shadow := epochs (s.index + 1) (knownPart p.writes) s.shadow
      keyEpoch := epochs (s.index + 1) (knownPart p.writes) s.keyEpoch } := by
  rw [mapEntry] at h ⊢
  simp only at h ⊢
  split at h
  · exact absurd rfl h
  · rename_i hpass
    rw [if_neg hpass]
    have hloop := writeLoop_knownPart (s.index + 1) p.writes ⟨s.engBatch, s.shadow, s.keyEpoch⟩
    generalize writeLoop (s.index + 1) p.writes ⟨s.engBatch, s.shadow, s.keyEpoch⟩ = pass
      at h hloop ⊢
    obtain ⟨w, err⟩ := pass
    obtain rfl : w = _ := hloop
    cases err with
    | some e => rfl
    | none => exact absurd rfl h

namespace DirectProposer

variable {σ : Type} [StorageEngine σ]

/-- The pass an entry of the map body meets. -/
def met (d : DirectProposer σ) (xs : List Proposal) : BatchPass Shadow :=
  (entryLoop mapEntry xs (d.startPass ∅)).2

/-- The rest of the batch is judged, and the batch committed, as if nothing but the number
of the entry had been drawn. -/
def NoTrace (d : DirectProposer σ) (xs : List Proposal) (p : Proposal) (ys : List Proposal) :
    Prop :=
  let rest := entryLoop mapEntry ys { d.met xs with index := (d.met xs).index + 1 }
  d.applyBatchDirect (xs ++ p :: ys) =
    d.commitPass ((entryLoop mapEntry xs (d.startPass ∅)).1 ++
      (mapEntry (d.met xs) p).1 :: rest.1) rest.2

theorem commitPass_err {τ : Type} (hbatch : ∀ (e : σ) ops wo,
      (StorageEngine.applyBatch e ops wo).1 = none) (d : DirectProposer σ)
    (results : List ApplyResult) (s : BatchPass τ) : (d.commitPass results s).1 = results := by
  rw [commitPass]
  simp only
  split
  · have hok := hbatch d.fsm.engine s.engBatch ⟨d.fsm.syncPolicy = .syncFull⟩
    generalize StorageEngine.applyBatch d.fsm.engine s.engBatch ⟨d.fsm.syncPolicy = .syncFull⟩ =
      out at hok ⊢
    obtain ⟨err, eng⟩ := out
    cases hok
    rfl
  · rfl

theorem applyBatchDirect_failed (hbatch : ∀ (e : σ) ops wo,
      (StorageEngine.applyBatch e ops wo).1 = none) {d : DirectProposer σ} {xs ys : List Proposal}
    {p : Proposal} {r : ApplyResult}
    (hr : (d.applyBatchDirect (xs ++ p :: ys)).1[xs.length]? = some r) (herr : r.err ≠ none) :
    ¬ (xs ++ p :: ys).length ≤ maxStackShadow ∧ (mapEntry (d.met xs) p).1 = r := by
  have hat : ∀ {τ : Type} (entry : BatchPass τ → Proposal → ApplyResult × BatchPass τ) (s),
      (entryLoop entry (xs ++ p :: ys) s).1[xs.length]? =
        some (entry (entryLoop entry xs s).2 p).1 := by
    intro τ entry s
    rw [entryLoop_append, List.getElem?_append_right (length_entryLoop entry xs s).le,
      length_entryLoop, Nat.sub_self]
    rfl
  rw [applyBatchDirect] at hr
  split at hr
  · simp only [commitPass_err hbatch, hat, Option.some.injEq] at hr
    rw [← hr] at herr
    exact absurd (stackEntry_err _ _) herr
  · rename_i hlen
    simp only [commitPass_err hbatch, hat, Option.some.injEq] at hr
    exact ⟨hlen, hr⟩

theorem noTrace_of_same {d : DirectProposer σ} {xs ys : List Proposal} {p : Proposal}
    (hlen : ¬ (xs ++ p :: ys).length ≤ maxStackShadow)
    (h : (mapEntry (d.met xs) p).2 = { d.met xs with index := (d.met xs).index + 1 }) :
    d.NoTrace xs p ys := by
  rw [NoTrace, applyBatchDirect, if_neg hlen]
  simp only [entryLoop_append, entryLoop]
  show d.commitPass (_ ++ _ :: (entryLoop mapEntry ys (mapEntry (d.met xs) p).2).1)
    (entryLoop mapEntry ys (mapEntry (d.met xs) p).2).2 = _
  rw [h]
  rfl

end DirectProposer

/-! ## Both paths -/

/-- **Failed proposals.**  Whatever the state, the log and its cut, and whatever the batch:
an entry answered with an error leaves no trace if it does not decode or has no known
operation in front of its unknown one.  If it has, and its number is not yet in `keyEpoch`,
then `keyEpoch` is another one after it. -/
theorem failed_without_trace {σ : Type} [StorageEngine σ]
    (hbatch : ∀ (e : σ) ops wo, (StorageEngine.applyBatch e ops wo).1 = none)
    (hsync : ∀ e : σ, (StorageEngine.sync e).1 = none) :
    (∀ (f : DpxFSM σ) (pre : List (List Log)) (a : List Log) (log : Log) (b : List Log)
      (post : List (List Log)),
      ((DpxFSM.met pre a f).1.applyLog (DpxFSM.met pre a f).2 log).1.err ≠ none →
      (DpxFSM.FailsClean log → DpxFSM.NoTrace pre a log b post f) ∧
      ((∀ (k : Key) (r : EpochRecord), (DpxFSM.met pre a f).1.keyEpoch[k]? = some r →
          r.epoch ≠ log.index) →
        (((DpxFSM.met pre a f).1.applyLog (DpxFSM.met pre a f).2 log).2.1.keyEpoch =
          (DpxFSM.met pre a f).1.keyEpoch ↔ DpxFSM.FailsClean log))) ∧
    ∀ (d : DirectProposer σ) (xs : List Proposal) (p : Proposal) (ys : List Proposal)
      (r : ApplyResult),
      (d.applyBatchDirect (xs ++ p :: ys)).1[xs.length]? = some r → r.err ≠ none →
      (knownPart p.writes = [] → d.NoTrace xs p ys) ∧
      ((∀ (k : Key) (r : EpochRecord), (d.met xs).keyEpoch[k]? = some r →
          r.epoch ≠ (d.met xs).index + 1) →
        ((mapEntry (d.met xs) p).2.keyEpoch = (d.met xs).keyEpoch ↔ knownPart p.writes = [])) := by
  constructor
  · intro f pre a log b post herr
    refine ⟨fun hclean => DpxFSM.noTrace_of_same ?_, fun hnew => ?_⟩
    · exact DpxFSM.applyLog_failsClean hbatch hsync herr hclean
    · exact DpxFSM.keyEpoch_failed_iff hbatch hsync herr hnew
  · intro d xs p ys r hr herr
    obtain ⟨hlen, hans⟩ := DirectProposer.applyBatchDirect_failed hbatch hr herr
    rw [← hans] at herr
    have hafter := mapEntry_failed herr
    refine ⟨fun hclean => DirectProposer.noTrace_of_same hlen ?_, fun hnew => ?_⟩
    · rw [hafter, hclean, List.flatMap_nil, List.append_nil]
      rfl
    · rw [hafter]
      exact epochs_eq_self_iff hnew

/-- A proposal whose first write is known and whose second is not. -/
def halfKnown : Proposal := ⟨[], [⟨.set, [0x6b], [1]⟩, ⟨.other 9 (by decide), [0x6b], []⟩], 0, 0⟩

/-- A proposal that starts with an unknown operation. -/
def allUnknown : Proposal := ⟨[], [⟨.other 9 (by decide), [0x6b], []⟩, ⟨.set, [0x6b], [1]⟩], 0, 0⟩

/-- A read of the key as it was before anything was written. -/
def readsNew : Proposal := ⟨[⟨[0x6b], 0, false⟩], [], 0, 0⟩

/-- An entry that starts with an unknown operation can be left out of its call. -/
theorem unknown_first_left_out :
    DpxFSM.NoTrace [] [] ⟨1, .command, allUnknown.marshal⟩ [⟨2, .command, readsNew.marshal⟩] []
      (DpxFSM.new State.empty .syncBatch) :=
  ((failed_without_trace (σ := State) (fun _ _ _ => rfl) (fun _ => rfl)).1
      (DpxFSM.new State.empty .syncBatch) [] [] ⟨1, .command, allUnknown.marshal⟩
      [⟨2, .command, readsNew.marshal⟩] [] (by decide +kernel)).1 fun p hp => by
    have hdec : DpxFSM.proposalOf ⟨1, .command, allUnknown.marshal⟩ = some allUnknown := by
      decide +kernel
    rw [hdec] at hp
    cases hp
    rfl

/-- The failed entry has its record in `keyEpoch`, with nothing in the engine, and the next
entry conflicts with it.  As the first of 65 direct entries its value is committed. -/
theorem failed_entry_recorded :
    let call : List Log :=
      [⟨1, .command, halfKnown.marshal⟩, ⟨2, .command, readsNew.marshal⟩]
    let out := (DpxFSM.new State.empty .syncBatch).applyBatch call
    let batch := halfKnown :: List.replicate 64 ⟨[], [], 0, 0⟩
    let direct := DirectProposer.applyBatchDirect ⟨DpxFSM.new State.empty .syncBatch, 0⟩ batch
    (out.1.map (fun r => (r.err.isSome, r.conflict)) = [(true, false), (false, true)] ∧
      out.2.keyEpoch[([0x6b] : Key)]? = some ⟨1, false⟩ ∧
      StorageEngine.get out.2.engine [0x6b] = none) ∧
    (direct.1.head?.map (fun r => r.err.isSome) = some true ∧
      StorageEngine.get direct.2.fsm.engine [0x6b] = some [1]) := by
  decide +kernel

end Dpx
