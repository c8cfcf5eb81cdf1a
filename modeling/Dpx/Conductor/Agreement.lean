/-
# `Dpx.Conductor.Agreement` — when replicas that batch differently agree

HashiCorp Raft hands every replica the same log but groups it as it pleases: a
leader, a lagging follower and a restarting node see different `ApplyBatch`
calls.  The verdict of an entry consults `keyEpoch`, which is the same however
the log was cut, and the per-call `shadow`, which is not.

A shadow record is also in `keyEpoch`, so the shadow can only add a conflict for
a read entry that is NOT stale, that is, whose epoch reaches the write it names.
A client that read entry `i`'s result and proposed entry `j` in reply produces
exactly such an epoch.  On a replica that applied `i` and `j` in separate calls
`j` commits; on one that got them in one call `j` is a conflict
(`batching_splits_replicas`).

`Unshadowed` is the exact condition on a state and a list of logs: along the
list, an entry that passes the `keyEpoch` test names no key written earlier in
the list, unless that write was a credit and the entry is a debit.
`cuts_agree_iff_unshadowed` is the equivalence, over an arbitrary engine.  It can be read off a
log without running it: entries whose read epochs are all below their indices, as those of clients
that do not wait for one another are, are unshadowed from any state (`cutsAgree_of_epochs_below`).
-/
import Dpx.Lib.Chunked
import Dpx.Engine.Memory
import Dpx.Conductor.Fsm

namespace Dpx

/-! ## Shadows, ordered -/

/-- Every record of `a` is a record of `b`. -/
def Shadow.Sub (a b : Shadow) : Prop :=
  ∀ (k : Key) (r : EpochRecord), a[k]? = some r → b[k]? = some r

theorem Shadow.empty_sub (a : Shadow) : Shadow.Sub ∅ a := by
  intro k r h
  rw [Std.ExtTreeMap.getElem?_empty] at h
  cases h

theorem Shadow.Sub.insert {a b : Shadow} (h : Shadow.Sub a b) (k : Key) (r : EpochRecord) :
    Shadow.Sub (Std.ExtTreeMap.insert a k r) (Std.ExtTreeMap.insert b k r) := by
  intro j s hj
  rw [Std.ExtTreeMap.getElem?_insert] at hj ⊢
  split
  · rename_i hk
    rwa [if_pos hk] at hj
  · rename_i hk
    rw [if_neg hk] at hj
    exact h j s hj

theorem shadowed_empty (re : ReadEntry) : shadowed ∅ re = false := by
  simp [shadowed]

theorem Shadow.Sub.shadowed {a b : Shadow} (h : Shadow.Sub a b) {re : ReadEntry}
    (hre : shadowed a re = true) : Dpx.shadowed b re = true := by
  rw [Dpx.shadowed] at hre ⊢
  cases hk : a[re.key]? with
  | none => rw [hk] at hre; exact Bool.noConfusion hre
  | some s => rw [hk] at hre; rw [h re.key s hk]; exact hre

theorem detectConflict_empty (ke : GoMap EpochRecord) (p : Proposal) :
    detectConflict ke p ∅ = p.readSet.any fun re => stale (epochOf ke re.key) re := by
  simp [detectConflict, shadowed_empty]

theorem Shadow.Sub.detectConflict {a b : Shadow} (h : Shadow.Sub a b) {ke : GoMap EpochRecord}
    {p : Proposal} (hp : detectConflict ke p a = true) : Dpx.detectConflict ke p b = true := by
  rw [Dpx.detectConflict, List.any_eq_true] at hp ⊢
  obtain ⟨re, hmem, hre⟩ := hp
  refine ⟨re, hmem, ?_⟩
  rcases Bool.or_eq_true_iff.mp hre with hst | hsh
  · exact Bool.or_eq_true_iff.mpr (Or.inl hst)
  · exact Bool.or_eq_true_iff.mpr (Or.inr (h.shadowed hsh))

/-! ## The write loop sees the shadow only to extend it -/

theorem writeLoop_frame (index : UInt64) (ws : List WriteEntry) :
    ∀ (batch : List BatchOp) (a b : Shadow) (ke : GoMap EpochRecord),
      (writeLoop index ws ⟨batch, a, ke⟩).2 = (writeLoop index ws ⟨batch, b, ke⟩).2 ∧
      (writeLoop index ws ⟨batch, a, ke⟩).1.batch = (writeLoop index ws ⟨batch, b, ke⟩).1.batch ∧
      (writeLoop index ws ⟨batch, a, ke⟩).1.keyEpoch =
        (writeLoop index ws ⟨batch, b, ke⟩).1.keyEpoch ∧
      (Shadow.Sub a b → Shadow.Sub (writeLoop index ws ⟨batch, a, ke⟩).1.shadow
        (writeLoop index ws ⟨batch, b, ke⟩).1.shadow) := by
  induction ws with
  | nil => exact fun _ _ _ _ => ⟨rfl, rfl, rfl, fun h => h⟩
  | cons w ws ih =>
      intro batch a b ke
      cases hop : w.dataOp with
      | none =>
          simp only [writeLoop, hop]
          exact ⟨trivial, trivial, trivial, fun h => h⟩
      | some op =>
          simp only [writeLoop, hop]
          obtain ⟨h₁, h₂, h₃, h₄⟩ := ih (batch ++ [op, w.versionOp index])
            (Std.ExtTreeMap.insert a w.key (w.epochRecord index))
            (Std.ExtTreeMap.insert b w.key (w.epochRecord index))
            (ke.insert w.key (w.epochRecord index))
          exact ⟨h₁, h₂, h₃, fun h => h₄ (h.insert _ _)⟩

namespace DpxFSM

variable {σ : Type} [StorageEngine σ]

theorem applyProposal_frame (f : DpxFSM σ) (index : UInt64) (p : Proposal) (a b : Shadow) :
    (f.applyProposal index p a).1 = (f.applyProposal index p b).1 ∧
    (f.applyProposal index p a).2.1 = (f.applyProposal index p b).2.1 ∧
    (Shadow.Sub a b → Shadow.Sub (f.applyProposal index p a).2.2
      (f.applyProposal index p b).2.2) := by
  obtain ⟨h₁, h₂, h₃, h₄⟩ := writeLoop_frame index p.writes [] a b f.keyEpoch
  unfold applyProposal
  revert h₁ h₂ h₃ h₄
  generalize writeLoop index p.writes ⟨[], a, f.keyEpoch⟩ = pa
  generalize writeLoop index p.writes ⟨[], b, f.keyEpoch⟩ = pb
  obtain ⟨⟨ba, sa, ka⟩, ea⟩ := pa
  obtain ⟨⟨bb, sb, kb⟩, eb⟩ := pb
  rintro h₁ h₂ h₃ h₄
  simp only at h₁ h₂ h₃ h₄
  subst h₁ h₂ h₃
  cases ea with
  | none => exact ⟨rfl, rfl, h₄⟩
  | some e => exact ⟨rfl, rfl, h₄⟩

/-! ## One entry -/

theorem applyLog_conflict {f : DpxFSM σ} {log : Log} {p : Proposal}
    (h : proposalOf log = some p) (a : Shadow) :
    (f.applyLog a log).1.conflict = detectConflict f.keyEpoch p a := by
  rw [applyLog_of_some h]
  cases hd : detectConflict f.keyEpoch p a with
  | true => rfl
  | false =>
      rw [if_neg Bool.false_ne_true]
      split <;> rfl

theorem applyLog_frame {f : DpxFSM σ} {log : Log} {a b : Shadow}
    (hv : ∀ p, proposalOf log = some p →
      detectConflict f.keyEpoch p a = detectConflict f.keyEpoch p b) :
    (f.applyLog a log).1 = (f.applyLog b log).1 ∧
    (f.applyLog a log).2.1 = (f.applyLog b log).2.1 ∧
    (Shadow.Sub a b → Shadow.Sub (f.applyLog a log).2.2 (f.applyLog b log).2.2) := by
  cases hp : proposalOf log with
  | none =>
      obtain ⟨h₁, -, ha⟩ := applyLog_of_none (f := f) hp a b
      obtain ⟨-, -, hb⟩ := applyLog_of_none (f := f) hp b b
      rw [ha, hb]
      exact ⟨h₁, rfl, fun h => h⟩
  | some p =>
      rw [applyLog_of_some hp, applyLog_of_some hp, hv p hp]
      cases detectConflict f.keyEpoch p b with
      | true => exact ⟨rfl, rfl, fun h => h⟩
      | false =>
          rw [if_neg Bool.false_ne_true, if_neg Bool.false_ne_true]
          obtain ⟨h₁, h₂, h₃⟩ := f.applyProposal_frame log.index p a b
          revert h₁ h₂ h₃
          generalize f.applyProposal log.index p a = ra
          generalize f.applyProposal log.index p b = rb
          obtain ⟨ea, fa, sa⟩ := ra
          obtain ⟨eb, fb, sb⟩ := rb
          rintro h₁ h₂ h₃
          simp only at h₁ h₂ h₃
          subst h₁ h₂
          cases ea with
          | none => exact ⟨rfl, rfl, h₃⟩
          | some e => exact ⟨rfl, rfl, h₃⟩

/-! ## The machine as a chunked machine -/

/-- One entry per step, the shadow as scratch. -/
def chunked : Chunked.Machine (DpxFSM σ) Shadow Log ApplyResult where
  step f shadow log := f.applyLog shadow log
  fresh := ∅

theorem verdict_of_answer {f : DpxFSM σ} {log : Log} {a b : Shadow}
    (h : (f.applyLog a log).1 = (f.applyLog b log).1) (p : Proposal)
    (hp : proposalOf log = some p) :
    detectConflict f.keyEpoch p a = detectConflict f.keyEpoch p b := by
  rw [← applyLog_conflict hp a, ← applyLog_conflict hp b, h]

theorem chunked_lawful : (chunked (σ := σ)).Lawful Shadow.Sub where
  fresh_le := Shadow.empty_sub
  state_eq f a b log h := (applyLog_frame (verdict_of_answer h)).2.1
  between f a b log hle h := by
    refine (applyLog_frame fun p hp => ?_).1
    have hb : detectConflict f.keyEpoch p b = detectConflict f.keyEpoch p ∅ :=
      verdict_of_answer h p hp
    cases hd : detectConflict f.keyEpoch p a with
    | true => exact ((hle.detectConflict hd).symm.trans hb)
    | false =>
        -- the fresh verdict is below the verdict under `a`
        cases he : detectConflict f.keyEpoch p ∅ with
        | false => exact he.symm
        | true =>
            rw [(Shadow.empty_sub a).detectConflict he] at hd
            exact Bool.noConfusion hd
  mono f a b log hle h := (applyLog_frame (verdict_of_answer h)).2.2 hle

theorem applyLogs_eq_chunk (logs : List Log) :
    ∀ (f : DpxFSM σ) (shadow : Shadow), applyLogs logs f shadow = chunked.chunk logs f shadow := by
  induction logs with
  | nil => exact fun _ _ => rfl
  | cons log logs ih =>
      intro f shadow
      simp only [applyLogs, Chunked.Machine.chunk, ih]
      rfl

theorem applyCut_eq_cut (calls : List (List Log)) :
    ∀ f : DpxFSM σ, applyCut calls f = chunked.cut calls f := by
  induction calls with
  | nil => exact fun _ => rfl
  | cons call calls ih =>
      intro f
      simp only [applyCut, Chunked.Machine.cut, applyBatch, applyLogs_eq_chunk, ih]
      rfl

/-! ## Agreement -/

/-- Any two ways of cutting the log give the same answers, engine and `keyEpoch`. -/
def CutsAgree (f : DpxFSM σ) (logs : List Log) : Prop :=
  ∀ calls₁ calls₂ : List (List Log), calls₁.flatten = logs → calls₂.flatten = logs →
    (applyCut calls₁ f).1 = (applyCut calls₂ f).1 ∧
    (applyCut calls₁ f).2.engine = (applyCut calls₂ f).2.engine ∧
    (applyCut calls₁ f).2.keyEpoch = (applyCut calls₂ f).2.keyEpoch

/-- In state `f`, with `written` the records left by the earlier entries of the
list, the entry fails the `keyEpoch` test or names none of `written`, a debit
over a credit excepted. -/
def UnshadowedAt (f : DpxFSM σ) (written : Shadow) (log : Log) : Prop :=
  ∀ p, proposalOf log = some p →
    (∃ re ∈ p.readSet, stale (epochOf f.keyEpoch re.key) re = true) ∨
    ∀ re ∈ p.readSet, ∀ r, written[re.key]? = some r → r.isCredit = true ∧ re.isDebit = true

/-- `UnshadowedAt` before every entry of the list. -/
def Unshadowed : List Log → DpxFSM σ → Shadow → Prop
  | [], _, _ => True
  | log :: logs, f, written =>
      UnshadowedAt f written log ∧
        Unshadowed logs (f.applyLog written log).2.1 (f.applyLog written log).2.2

theorem shadowed_eq_false_iff {written : Shadow} {re : ReadEntry} :
    shadowed written re = false ↔
      ∀ r, written[re.key]? = some r → r.isCredit = true ∧ re.isDebit = true := by
  rw [shadowed]
  cases written[re.key]? with
  | none => simp
  | some s => simp

theorem detectConflict_eq_iff {ke : GoMap EpochRecord} {p : Proposal} {written : Shadow} :
    detectConflict ke p written = detectConflict ke p ∅ ↔
      (∃ re ∈ p.readSet, stale (epochOf ke re.key) re = true) ∨
      ∀ re ∈ p.readSet, shadowed written re = false := by
  rw [detectConflict_empty]
  cases hst : p.readSet.any fun re => stale (epochOf ke re.key) re with
  | true =>
      obtain ⟨re, hmem, hre⟩ := List.any_eq_true.mp hst
      refine ⟨fun _ => Or.inl ⟨re, hmem, hre⟩, fun _ => ?_⟩
      exact List.any_eq_true.mpr ⟨re, hmem, Bool.or_eq_true_iff.mpr (Or.inl hre)⟩
  | false =>
      rw [List.any_eq_false] at hst
      constructor
      · intro h
        refine Or.inr fun re hmem => ?_
        rw [detectConflict, List.any_eq_false] at h
        exact (Bool.or_eq_false_iff.mp (Bool.eq_false_iff.mpr (h re hmem))).2
      · rintro (⟨re, hmem, hre⟩ | h)
        · exact absurd hre (hst re hmem)
        · rw [detectConflict, List.any_eq_false]
          intro re hmem
          rw [h re hmem, Bool.or_false]
          exact hst re hmem

theorem unshadowedAt_iff {f : DpxFSM σ} {written : Shadow} {log : Log} :
    UnshadowedAt f written log ↔ (f.applyLog written log).1 = (f.applyLog ∅ log).1 := by
  constructor
  · intro h
    refine (applyLog_frame fun p hp => ?_).1
    rw [detectConflict_eq_iff]
    rcases h p hp with hst | hfree
    · exact Or.inl hst
    · exact Or.inr fun re hmem => shadowed_eq_false_iff.mpr (hfree re hmem)
  · intro h p hp
    rcases detectConflict_eq_iff.mp (verdict_of_answer h p hp) with hst | hfree
    · exact Or.inl hst
    · exact Or.inr fun re hmem => shadowed_eq_false_iff.mp (hfree re hmem)

theorem unshadowed_iff_silent (logs : List Log) :
    ∀ (f : DpxFSM σ) (written : Shadow),
      Unshadowed logs f written ↔ chunked.Silent logs f written := by
  induction logs with
  | nil => exact fun _ _ => Iff.rfl
  | cons log logs ih => exact fun f written => and_congr unshadowedAt_iff (ih _ _)

theorem cutsAgree_of_unshadowed {f : DpxFSM σ} {logs : List Log} (h : Unshadowed logs f ∅) :
    CutsAgree f logs := by
  intro calls₁ calls₂ h₁ h₂
  rw [unshadowed_iff_silent] at h
  have e₁ := chunked_lawful.cut_eq_of_silent calls₁ f (h₁ ▸ h)
  have e₂ := chunked_lawful.cut_eq_of_silent calls₂ f (h₂ ▸ h)
  rw [applyCut_eq_cut, applyCut_eq_cut, e₁, e₂, h₁, h₂]
  exact ⟨rfl, rfl, rfl⟩

/-- **Replica agreement, exactly.**  Over any engine, every two ways of cutting
the log agree if and only if no entry that passes the `keyEpoch` test names a key
written earlier in the list (a debit over a credit excepted). -/
theorem cuts_agree_iff_unshadowed (f : DpxFSM σ) (logs : List Log) :
    CutsAgree f logs ↔ Unshadowed logs f ∅ := by
  refine ⟨fun h => ?_, cutsAgree_of_unshadowed⟩
  -- the one call and the calls of one entry each are two of the cuts
  have hone : (logs.map fun l => [l]).flatten = logs := by
    rw [← List.flatMap_def, List.flatMap_singleton']
  have hres := (h [logs] (logs.map fun l => [l]) (by simp) hone).1
  rw [applyCut_eq_cut, applyCut_eq_cut, Chunked.Machine.cut, Chunked.Machine.cut,
    List.append_nil] at hres
  rw [unshadowed_iff_silent]
  exact chunked_lawful.silent_of_results logs f ∅ hres

/-! ## A log that replicas do not agree on -/

/-- Entry 1 sets a key. -/
def setEntry : Log :=
  ⟨1, .command, Proposal.marshal ⟨[], [⟨.set, [0x6b], [1]⟩], 0, 0⟩⟩

/-- Entry 2, proposed by a client that saw entry 1: it read the key at epoch 1. -/
def replyEntry : Log :=
  ⟨2, .command, Proposal.marshal ⟨[⟨[0x6b], 1, false⟩], [⟨.set, [0x6b], [2]⟩], 0, 0⟩⟩

/-- On a fresh machine the two entries commit in two calls and conflict in one. -/
theorem batching_splits_replicas :
    ¬ CutsAgree (DpxFSM.new State.empty .syncBatch) [setEntry, replyEntry] := by
  intro h
  have hres := (h [[setEntry], [replyEntry]] [[setEntry, replyEntry]] rfl rfl).1
  revert hres
  decide +kernel

/-! ## Logs that were all proposed before the first of them was applied -/

/-- Every shadow record stays a record of `keyEpoch`, and its epoch is an index
of the list. -/
def Written (logs : List Log) (f : DpxFSM σ) (written : Shadow) : Prop :=
  ∀ (k : Key) (r : EpochRecord), written[k]? = some r →
    f.keyEpoch[k]? = some r ∧ ∃ log ∈ logs, r.epoch = log.index

theorem writeLoop_records {P : EpochRecord → Prop} (index : UInt64) (hP : ∀ c, P ⟨index, c⟩)
    (ws : List WriteEntry) :
    ∀ s : WritePass,
      (∀ (k : Key) (r : EpochRecord), s.shadow[k]? = some r → s.keyEpoch[k]? = some r ∧ P r) →
      ∀ (k : Key) (r : EpochRecord), (writeLoop index ws s).1.shadow[k]? = some r →
        (writeLoop index ws s).1.keyEpoch[k]? = some r ∧ P r := by
  induction ws with
  | nil => exact fun _ h => h
  | cons w ws ih =>
      intro s h
      cases hop : w.dataOp with
      | none => simpa only [writeLoop, hop] using h
      | some op =>
          simp only [writeLoop, hop]
          refine ih _ fun k r hk => ?_
          rw [Std.ExtTreeMap.getElem?_insert] at hk ⊢
          split
          · rename_i hkey
            rw [if_pos hkey, Option.some.injEq] at hk
            exact ⟨congrArg some hk, hk ▸ hP w.isCredit⟩
          · rename_i hkey
            rw [if_neg hkey] at hk
            exact h k r hk

theorem commit_keyEpoch (f : DpxFSM σ) (index : UInt64) (batch : List BatchOp) :
    (f.commit index batch).2.keyEpoch = f.keyEpoch := by
  unfold commit
  split
  · rfl
  · simp only
    split
    · split <;> rfl
    · rfl

theorem applyProposal_pass (f : DpxFSM σ) (index : UInt64) (p : Proposal) (shadow : Shadow) :
    (f.applyProposal index p shadow).2.1.keyEpoch =
        (writeLoop index p.writes ⟨[], shadow, f.keyEpoch⟩).1.keyEpoch ∧
      (f.applyProposal index p shadow).2.2 =
        (writeLoop index p.writes ⟨[], shadow, f.keyEpoch⟩).1.shadow := by
  unfold applyProposal
  generalize writeLoop index p.writes ⟨[], shadow, f.keyEpoch⟩ = pass
  obtain ⟨s, err⟩ := pass
  cases err with
  | some e => exact ⟨rfl, rfl⟩
  | none => exact ⟨commit_keyEpoch _ _ _, rfl⟩

theorem Written.applyLog {logs : List Log} {f : DpxFSM σ} {written : Shadow} {log : Log}
    (h : Written logs f written) (hlog : log ∈ logs) :
    Written logs (f.applyLog written log).2.1 (f.applyLog written log).2.2 := by
  cases hp : proposalOf log with
  | none =>
      rw [(applyLog_of_none (f := f) hp written written).2.2]
      exact h
  | some p =>
      have hloop := writeLoop_records (P := fun r => ∃ l ∈ logs, r.epoch = l.index)
        log.index (fun _ => ⟨log, hlog, rfl⟩) p.writes ⟨[], written, f.keyEpoch⟩ h
      obtain ⟨hke, hsh⟩ := f.applyProposal_pass log.index p written
      rw [← hke, ← hsh] at hloop
      rw [applyLog_of_some hp]
      split
      · exact h
      · split
        · rename_i heq
          rw [heq] at hloop
          exact hloop
        · rename_i heq
          rw [heq] at hloop
          exact hloop

theorem unshadowed_of_epochs_below {logs : List Log}
    (hlt : ∀ a ∈ logs, ∀ b ∈ logs, ∀ p, proposalOf b = some p → ∀ re ∈ p.readSet,
      re.epoch < a.index) :
    ∀ (rest : List Log) (f : DpxFSM σ) (written : Shadow), rest ⊆ logs →
      Written logs f written → Unshadowed rest f written
  | [], _, _, _, _ => trivial
  | log :: rest, f, written, hsub, hw => by
      have hlog : log ∈ logs := hsub List.mem_cons_self
      refine ⟨fun p hp => ?_, ?_⟩
      · by_cases hst : ∃ re ∈ p.readSet, stale (epochOf f.keyEpoch re.key) re = true
        · exact Or.inl hst
        · refine Or.inr fun re hre r hr => ?_
          obtain ⟨hke, a, ha, hidx⟩ := hw re.key r hr
          have hlater : re.epoch < r.epoch := hidx ▸ hlt a ha log hlog p hp re hre
          have hfresh : ¬ stale (epochOf f.keyEpoch re.key) re = true :=
            fun h => hst ⟨re, hre, h⟩
          simpa [stale, epochOf, hke, hlater] using hfresh
      · exact unshadowed_of_epochs_below hlt rest _ _
          (fun l hl => hsub (List.mem_cons_of_mem _ hl)) (hw.applyLog hlog)

/-- If no read epoch of the list reaches an index of the list, replicas agree. -/
theorem cutsAgree_of_epochs_below (f : DpxFSM σ) {logs : List Log}
    (hlt : ∀ a ∈ logs, ∀ b ∈ logs, ∀ p, proposalOf b = some p → ∀ re ∈ p.readSet,
      re.epoch < a.index) : CutsAgree f logs := by
  refine cutsAgree_of_unshadowed (unshadowed_of_epochs_below hlt logs f ∅ (fun _ h => h) ?_)
  intro k r hk
  rw [Std.ExtTreeMap.getElem?_empty] at hk
  cases hk

end DpxFSM

end Dpx
