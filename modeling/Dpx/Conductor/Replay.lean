/-
# `Dpx.Conductor.Replay` — redelivering a log after a restart

After a restart without a Raft snapshot, HashiCorp Raft hands the machine its log
again from the first entry.  `DpxFSM.open` restores the applied index from the
engine, but no line of `Apply` or `applyBatch` reads it: an entry at or below it
goes through the verdict and the write loop like a new one.

What saves an entry the second time is its read set alone.  An entry whose read
epochs are behind the rebuilt `keyEpoch` is a conflict and writes nothing; a blind
entry, one without read entries, always runs again.  For a set that is harmless if
the value is still there; a blind credit is paid out twice (`credit_paid_twice`).

`Settles` says, operation by operation, when running the writes of one key once
more gives back the value they find, and `replay_idempotent_iff` that replay is
idempotent exactly when every redelivered entry is rejected or settles every user
key.
-/
import Dpx.Engine.Memory
import Dpx.Conductor.Writes

namespace Dpx

/-! ## Running the writes of one key again -/

/-- The writes leave the value `v` of `k` as it is.  A set or delete forgets `v`, so
what it and the merges after it amount to must be `v`; merges alone keep exactly the
eight-byte balances, and only with amounts that sum to zero. -/
def Settles (ws : List WriteEntry) (k : Key) (v : Option Bytes) : Prop :=
  match lastPlain ws k with
  | some w => merged (w.act none) (laterDeltas ws k) = v
  | none => laterDeltas ws k = [] ∨
      ∃ b, v = some b ∧ b.length = 8 ∧ (laterDeltas ws k).sum = 0

/-- Merges alone keep an eight-byte balance under a zero sum, and nothing else. -/
theorem merged_eq_self_iff (v : Option Bytes) (ds : List Int64) :
    merged v ds = v ↔ ds = [] ∨ ∃ b, v = some b ∧ b.length = 8 ∧ ds.sum = 0 := by
  cases ds with
  | nil => simp [merged]
  | cons d ds =>
      rw [merged]
      constructor
      · intro h
        refine Or.inr ⟨_, h.symm, length_encodeInt64 _, ?_⟩
        -- decode both sides: the balance is its own sum with the amounts
        have hdec := congrArg (fun x => decodeInt64 (x.getD [])) h
        simp only [Option.getD_some, decodeInt64_encodeInt64] at hdec
        have hzero := congrArg (fun x => x - decodeInt64 (v.getD [])) hdec
        simpa [Int64.add_comm, Int64.add_sub_cancel] using hzero
      · rintro (h | ⟨b, rfl, hlen, hsum⟩)
        · exact absurd h (List.cons_ne_nil _ _)
        · rw [hsum, Option.getD_some, Int64.add_zero, encodeInt64_decodeInt64 hlen]

theorem valueAfter_eq_self_iff {ws : List WriteEntry} (hws : ∀ w ∈ ws, w.op.known = true)
    (k : Key) (v : Option Bytes) : valueAfter ws k v = v ↔ Settles ws k v := by
  rw [valueAfter_eq_merged hws, Settles]
  cases lastPlain ws k with
  | some w => exact Iff.rfl
  | none => exact merged_eq_self_iff v _

/-! ## One redelivered entry -/

namespace DpxFSM

variable {σ : Type} [StorageEngine σ]

/-- The entry is rejected, or it settles every user key. -/
def Harmless (f : DpxFSM σ) (log : Log) : Prop :=
  ∀ p, proposalOf log = some p →
    detectConflict f.keyEpoch p ∅ = true ∨ (∃ w ∈ p.writes, w.op.known = false) ∨
    ∀ k, isReserved k = false → Settles p.writes k (StorageEngine.get f.engine k)

section Lawful
variable [LawfulEngine σ]

theorem get_commit (f : DpxFSM σ) (index : UInt64) (batch : List BatchOp) (k : Key) :
    StorageEngine.get (f.commit index batch).2.engine k =
      BatchOp.effect k (StorageEngine.get f.engine k) batch := by
  have hok := LawfulEngine.applyBatch_ok f.engine batch ⟨f.syncPolicy = .syncFull⟩
  have hget := LawfulEngine.get_applyBatch f.engine batch ⟨f.syncPolicy = .syncFull⟩ k
  unfold commit
  revert hok hget
  generalize StorageEngine.applyBatch f.engine batch ⟨f.syncPolicy = .syncFull⟩ = out
  obtain ⟨err, eng⟩ := out
  intro hok hget
  cases hok
  simp only [LawfulEngine.sync_ok]
  split
  · exact hget
  · exact hget

theorem get_applyProposal_user (f : DpxFSM σ) (index : UInt64) (p : Proposal) (shadow : Shadow)
    {k : Key} (hk : isReserved k = false) :
    StorageEngine.get (f.applyProposal index p shadow).2.1.engine k =
      if ∀ w ∈ p.writes, w.op.known = true then
        valueAfter p.writes k (StorageEngine.get f.engine k)
      else StorageEngine.get f.engine k := by
  by_cases hknown : ∀ w ∈ p.writes, w.op.known = true
  · rw [applyProposal, writeLoop_known index p.writes hknown, if_pos hknown]
    show StorageEngine.get (commit _ _ _).2.engine k = _
    rw [get_commit, List.nil_append, effect_commit_user hk]
  · obtain ⟨e, he⟩ := writeLoop_unknown index p.writes (by simpa using hknown)
      ⟨[], shadow, f.keyEpoch⟩
    rw [applyProposal, if_neg hknown]
    revert he
    generalize writeLoop index p.writes ⟨[], shadow, f.keyEpoch⟩ = pass
    obtain ⟨s, err⟩ := pass
    intro he
    cases he
    rfl

/-- A redelivered entry keeps the user keys if and only if it is harmless. -/
theorem get_apply_eq_iff (f : DpxFSM σ) (log : Log) :
    (∀ k, isReserved k = false →
      StorageEngine.get (f.apply log).2.engine k = StorageEngine.get f.engine k) ↔
      Harmless f log := by
  show (∀ k, isReserved k = false → StorageEngine.get (f.applyLog ∅ log).2.1.engine k = _) ↔ _
  rw [Harmless]
  cases hp : proposalOf log with
  | none =>
      rw [(applyLog_of_none (f := f) hp ∅ ∅).2.2]
      exact ⟨fun _ p h => (nomatch h), fun _ k _ => rfl⟩
  | some p =>
      simp only [Option.some.injEq, forall_eq']
      cases hd : detectConflict f.keyEpoch p ∅ with
      | true =>
          rw [applyLog_of_some hp, hd]
          exact ⟨fun _ => Or.inl rfl, fun _ k _ => rfl⟩
      | false =>
          rw [applyLog_snd_of_pass hp hd]
          by_cases hknown : ∀ w ∈ p.writes, w.op.known = true
          · constructor
            · intro h
              refine Or.inr (Or.inr fun k hk => (valueAfter_eq_self_iff hknown k _).mp ?_)
              have hsame := h k hk
              rwa [get_applyProposal_user f log.index p ∅ hk, if_pos hknown] at hsame
            · rintro (hc | ⟨w, hw, hbad⟩ | hset) k hk
              · exact Bool.noConfusion hc
              · rw [hknown w hw] at hbad
                exact Bool.noConfusion hbad
              · rw [get_applyProposal_user f log.index p ∅ hk, if_pos hknown]
                exact (valueAfter_eq_self_iff hknown k _).mpr (hset k hk)
          · refine ⟨fun _ => Or.inr (Or.inl (by simpa using hknown)), fun _ k hk => ?_⟩
            rw [get_applyProposal_user f log.index p ∅ hk, if_neg hknown]

/-! ## The whole replay -/

/-- A run keeps the user keys at every point if and only if every step is harmless. -/
theorem redeliver_eq_iff (logs : List Log) :
    ∀ f : DpxFSM σ,
      (∀ m k, isReserved k = false →
        StorageEngine.get (redeliver f (logs.take m)).engine k = StorageEngine.get f.engine k) ↔
      ∀ m log, logs[m]? = some log → Harmless (redeliver f (logs.take m)) log := by
  intro f
  have hstep : ∀ m log, logs[m]? = some log →
      redeliver f (logs.take (m + 1)) = ((redeliver f (logs.take m)).apply log).2 := by
    intro m log hlog
    rw [List.take_add_one, hlog, redeliver, List.foldl_append]
    rfl
  constructor
  · intro h m log hlog
    rw [← get_apply_eq_iff, ← hstep m log hlog]
    intro k hk
    rw [h (m + 1) k hk, h m k hk]
  · intro h m
    induction m with
    | zero => exact fun k _ => rfl
    | succ m ih =>
        intro k hk
        cases hlog : logs[m]? with
        | none =>
            rw [List.take_add_one, hlog]
            simpa using ih k hk
        | some log =>
            rw [hstep m log hlog, (get_apply_eq_iff _ log).mpr (h m log hlog) k hk]
            exact ih k hk

end Lawful

/-- The log was delivered in some calls, the machine is opened anew on the engine
it left, and prefixes are delivered again. -/
def ReplayIdempotent (f : DpxFSM σ) (calls : List (List Log)) : Prop :=
  ∀ f' : DpxFSM σ, (new (applyCut calls f).2.engine f.syncPolicy).open = .ok f' →
    ∀ m k, isReserved k = false →
      StorageEngine.get (redeliver f' (calls.flatten.take m)).engine k =
        StorageEngine.get (applyCut calls f).2.engine k

/-- **Replay, exactly.**  Replay is idempotent if and only if every redelivered
entry is harmless in the state it meets. -/
theorem replay_idempotent_iff [LawfulEngine σ] (f : DpxFSM σ) (calls : List (List Log)) :
    ReplayIdempotent f calls ↔
      ∀ f' : DpxFSM σ, (new (applyCut calls f).2.engine f.syncPolicy).open = .ok f' →
        ∀ m log, calls.flatten[m]? = some log →
          Harmless (redeliver f' (calls.flatten.take m)) log := by
  refine forall_congr' fun f' => forall_congr' fun hopen => ?_
  have heng := open_engine hopen
  rw [← redeliver_eq_iff, heng]
  exact Iff.rfl

/-- A blind set. -/
def blindSetEntry : Log :=
  ⟨1, .command, Proposal.marshal ⟨[], [⟨.set, [0x6b], [1]⟩], 0, 0⟩⟩

/-- A blind set whose value is still there settles its key. -/
theorem blind_set_replays :
    ReplayIdempotent (DpxFSM.new State.empty .syncBatch) [[blindSetEntry]] := by
  refine (replay_idempotent_iff _ _).mpr fun f' hopen m log hlog p hp => Or.inr (Or.inr ?_)
  have hprop : proposalOf blindSetEntry = some ⟨[], [⟨.set, [0x6b], [1]⟩], 0, 0⟩ := by
    decide +kernel
  cases m with
  | succ m => cases hlog
  | zero =>
      cases hlog
      rw [hprop] at hp
      cases hp
      intro k _
      have heng : StorageEngine.get f'.engine k =
          (applyCut [[blindSetEntry]] (DpxFSM.new State.empty .syncBatch)).2.engine.get k := by
        rw [open_engine hopen]
        rfl
      show Settles _ k (StorageEngine.get f'.engine k)
      rw [heng]
      by_cases hk : k = [0x6b]
      · subst hk
        show merged (some [1]) [] = _
        decide +kernel
      · rw [← valueAfter_eq_self_iff (by decide)]
        exact valueAfter_of_forall_ne (by simpa using Ne.symm hk) _

/-- A blind credit. -/
def creditEntry : Log :=
  ⟨1, .command, Proposal.marshal ⟨[], [⟨.credit, [0x6b], encodeInt64 5⟩], 0, 0⟩⟩

/-- The account holds 5 after the first delivery and 10 after the second. -/
theorem credit_paid_twice :
    ¬ ReplayIdempotent (DpxFSM.new State.empty .syncBatch) [[creditEntry]] := by
  intro h
  let eng := (applyCut [[creditEntry]] (DpxFSM.new State.empty .syncBatch)).2.engine
  have hrun : (new eng .syncBatch).open.toOption.map
      (fun f' => decide ((redeliver f' [creditEntry]).engine.get [0x6b] = eng.get [0x6b])) =
      some false := by
    decide +kernel
  obtain ⟨f', hopen, hne⟩ := Option.map_eq_some_iff.mp hrun
  refine of_decide_eq_false hne (h f' ?_ 1 [0x6b] (by decide))
  cases ho : (new eng .syncBatch).open with
  | error e => rw [ho] at hopen; cases hopen
  | ok g => rw [ho] at hopen; cases hopen; exact ho

end DpxFSM

end Dpx
