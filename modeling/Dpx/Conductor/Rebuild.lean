/-
# `Dpx.Conductor.Rebuild` — what a restart makes of the conflict state

`dpxFSM.open` rebuilds `keyEpoch` from the version records: it scans `[__dpx:ver:, __dpx:ver:`
followed by sixteen `0xFF` bytes`)` with `RawIter`, passes over keys no longer than the
prefix, and files the rest.

While the machine runs, the version record of a key is what `keyEpoch` holds for it
(`Mirrored`, kept by every entry on every engine that keeps what is set).  So a restart
gives back what the scan lists.  Two things keep a record out of it:

  * the scan itself.  The record of the empty key is as long as the prefix, and the record
    of a key that begins with sixteen `0xFF` is not below the bound (`Unscanned`).  On the
    plain memory engine nothing else is missing (`restart_rebuilds_iff`);
  * the engine.  `MVCCEngine.RawIter` is its `newIterator`, which passes over every
    `__dpx:` key: a restart on it starts from an empty map (`mvcc_restart_rebuilds_iff`).
-/
import Dpx.Lib.PrefixRange
import Dpx.Engine.MvccRefines
import Dpx.Conductor.Agreement
import Dpx.Conductor.Writes

namespace Dpx

/-! ## The scan -/

/-- The version record of the key is not scanned: it is passed over, or not below the
bound. -/
def Unscanned (k : Key) : Prop := k = [] ∨ List.replicate 16 0xFF <+: k

instance (k : Key) : Decidable (Unscanned k) := inferInstanceAs (Decidable (_ ∨ _))

theorem inRange_version_iff (k : Key) :
    inRange rawIterStart rawIterEnd k = true ↔
      ∃ u, k = versionKey u ∧ ¬ List.replicate 16 0xFF <+: u := by
  have htop : ∀ b : UInt8, b ≠ 0xFF → compare b 0xFF = .lt := by
    intro b hb
    have hlt : b < 0xFF := by
      rw [UInt8.lt_iff_toNat_lt]
      have hmax := b.toNat_lt
      have hne : b.toNat ≠ (0xFF : UInt8).toNat := fun h => hb (UInt8.toNat_inj.mp h)
      have hff : (0xFF : UInt8).toNat = 255 := rfl
      omega
    exact if_pos hlt
  have hfin : rawIterEnd ≠ [] := by decide
  rw [inRange, decide_eq_false hfin, Bool.false_or, Bool.and_eq_true, less, less]
  simp only [Bool.not_eq_true', beq_eq_false_iff_ne, beq_iff_eq]
  exact PrefixRange.mem_range_iff htop

theorem rebuild_of_records {g : Key → Option EpochRecord} {pairs : List (Bytes × Bytes)}
    (h : ∀ it ∈ pairs, ∃ u er, it = (versionKey u, encodeEpochRecord er) ∧ g u = some er) :
    ∀ m, ∃ m' : GoMap EpochRecord, rebuild pairs m = .ok m' ∧ ∀ u : Key,
      m'[u]? = if u ≠ [] ∧ versionKey u ∈ pairs.map Prod.fst then g u else m[u]? := by
  induction pairs with
  | nil =>
      intro m
      exact ⟨m, rfl, fun u => by simp⟩
  | cons it pairs ih =>
      intro m
      obtain ⟨⟨u₀, er, rfl, hg⟩, hrest⟩ := List.forall_mem_cons.mp h
      have hlen : (versionKey u₀).length ≤ verPrefix.length ↔ u₀ = [] := by
        rw [versionKey, List.length_append, ← List.length_eq_zero_iff]
        omega
      rw [rebuild]
      simp only [hlen, decodeEpochRecord?_encode, List.map_cons, List.mem_cons, versionKey_inj]
      split
      · rename_i hnil
        obtain ⟨m', hm', hget⟩ := ih hrest m
        refine ⟨m', hm', fun u => ?_⟩
        rw [hget, hnil]
        refine if_congr (and_congr_right fun hu => ?_) rfl rfl
        simp [hu]
      · rename_i hne
        have hdrop : (versionKey u₀).drop verPrefix.length = u₀ := List.drop_left
        rw [hdrop]
        obtain ⟨m', hm', hget⟩ := ih hrest (m.insert u₀ er)
        refine ⟨m', hm', fun u => ?_⟩
        rw [hget]
        by_cases hu : u = u₀
        · subst hu
          simp [hne, hg]
        · simp only [Std.ExtTreeMap.getElem?_insert, hu, false_or, Std.compare_eq_iff_eq,
            Ne.symm hu, if_false]

/-! ## One entry -/

/-- Engines that never fail, and on which a key that a batch only sets holds what was
set last. -/
class RecordKeeping (σ : Type) [StorageEngine σ] : Prop where
  applyBatch_ok : ∀ (e : σ) ops wo, (StorageEngine.applyBatch e ops wo).1 = none
  sync_ok : ∀ e : σ, StorageEngine.sync e = (none, e)
  get_applyBatch : ∀ (e : σ) ops wo k, (∀ op ∈ ops, op.key = k → ∃ v, op = .set k v) →
    StorageEngine.get (StorageEngine.applyBatch e ops wo).2 k =
      BatchOp.effect k (StorageEngine.get e k) ops

instance {σ : Type} [StorageEngine σ] [LawfulEngine σ] : RecordKeeping σ where
  applyBatch_ok := LawfulEngine.applyBatch_ok
  sync_ok := LawfulEngine.sync_ok
  get_applyBatch e ops wo k _ := LawfulEngine.get_applyBatch e ops wo k

namespace DpxFSM

variable {σ : Type} [StorageEngine σ]

/-- The machine after a proposal that passes. -/
def accept (f : DpxFSM σ) (index : UInt64) (p : Proposal) : DpxFSM σ :=
  { f with
    applied := index
    engine := (StorageEngine.applyBatch f.engine (entryBatch index p)
      ⟨f.syncPolicy = .syncFull⟩).2
    keyEpoch := epochs index p.writes f.keyEpoch }

variable [RecordKeeping σ]

theorem commit_ok (f : DpxFSM σ) (index : UInt64) (batch : List BatchOp) :
    f.commit index batch = (none, { f with
      applied := index
      engine := (StorageEngine.applyBatch f.engine batch ⟨f.syncPolicy = .syncFull⟩).2 }) := by
  have hok := RecordKeeping.applyBatch_ok f.engine batch ⟨f.syncPolicy = .syncFull⟩
  rw [commit]
  generalize StorageEngine.applyBatch f.engine batch ⟨f.syncPolicy = .syncFull⟩ = out at hok ⊢
  obtain ⟨err, eng⟩ := out
  cases hok
  simp only [RecordKeeping.sync_ok]
  split <;> rfl

theorem applyProposal_known (f : DpxFSM σ) (index : UInt64) {p : Proposal}
    (hp : ∀ w ∈ p.writes, w.op.known = true) (shadow : Shadow) :
    f.applyProposal index p shadow = (none, f.accept index p, epochs index p.writes shadow) := by
  rw [applyProposal, writeLoop_known index p.writes hp]
  simp only [commit_ok, List.nil_append]
  rfl

/-- **One entry.**  It carries no proposal, or its proposal is turned away, and nothing
changes; or the proposal passes. -/
theorem applyLog_cases (f : DpxFSM σ) (shadow : Shadow) {log : Log}
    (hlog : ∀ p, proposalOf log = some p → ∀ w ∈ p.writes, w.op.known = true) :
    ((∀ p, proposalOf log = some p → (f.applyLog shadow log).1 ≠ .ok ∧
        detectConflict f.keyEpoch p shadow = true) ∧
      (f.applyLog shadow log).2 = (f, shadow)) ∨
    ∃ p, proposalOf log = some p ∧ (f.applyLog shadow log).1 = .ok ∧
      (f.applyLog shadow log).2 = (f.accept log.index p, epochs log.index p.writes shadow) := by
  cases hp : proposalOf log with
  | none =>
      refine Or.inl ⟨fun p h => ?_, (applyLog_of_none hp shadow shadow).2.2⟩
      cases h
  | some p =>
      rw [applyLog_of_some hp]
      cases hd : detectConflict f.keyEpoch p shadow with
      | true =>
          refine Or.inl ⟨fun q hq => ⟨ApplyResult.ok_ne_conflicted.symm, ?_⟩, rfl⟩
          cases hq
          exact hd
      | false =>
          rw [applyProposal_known f log.index (hlog p hp)]
          exact Or.inr ⟨p, rfl, rfl, rfl⟩

/-! ## What the run keeps -/

/-- The version record of a key is what `keyEpoch` holds for it. -/
def Mirrored (f : DpxFSM σ) : Prop :=
  ∀ k : Key, StorageEngine.get f.engine (versionKey k) = (f.keyEpoch[k]?).map encodeEpochRecord

theorem entryBatch_version_sets (index : UInt64) {p : Proposal} (hp : p.WellFormed) (k : Key) :
    ∀ op ∈ entryBatch index p, op.key = versionKey k → ∃ v, op = .set (versionKey k) v := by
  intro op hop hkey
  rcases List.mem_append.mp hop with hwrite | happ
  · obtain ⟨w, hw, hin⟩ := List.mem_flatMap.mp hwrite
    rcases List.mem_append.mp hin with hdata | hver
    · rw [dataOp_key (Option.mem_toList.mp hdata)] at hkey
      exact absurd hkey (ne_versionKey_of_user (hp.user w hw) k)
    · rw [List.mem_singleton.mp hver] at hkey ⊢
      exact ⟨_, congrArg (BatchOp.set · _) hkey⟩
  · rw [List.mem_singleton.mp happ] at hkey
    exact absurd hkey.symm (versionKey_ne_appliedKey k)

theorem Mirrored.accept {f : DpxFSM σ} (h : Mirrored f) (index : UInt64) {p : Proposal}
    (hp : p.WellFormed) : Mirrored (f.accept index p) := by
  intro k
  show StorageEngine.get (StorageEngine.applyBatch _ _ _).2 _ = ((epochs _ _ _)[k]?).map _
  rw [RecordKeeping.get_applyBatch _ _ _ _ (entryBatch_version_sets index hp k),
    entryBatch, effect_commit_record hp, getElem?_epochs, h k]
  cases recordAfter index p.writes k <;> rfl

/-- Whatever proposal the entry carries is one a transaction can build. -/
def WellFormedLog (log : Log) : Prop := ∀ p, proposalOf log = some p → p.WellFormed

theorem Mirrored.applyLog {f : DpxFSM σ} (h : Mirrored f) (shadow : Shadow) {log : Log}
    (hlog : WellFormedLog log) : Mirrored (f.applyLog shadow log).2.1 := by
  rcases f.applyLog_cases shadow fun p hp => (hlog p hp).known with ⟨-, hsame⟩ | ⟨p, hp, -, hacc⟩
  · rw [hsame]
    exact h
  · rw [hacc]
    exact h.accept log.index (hlog p hp)

theorem Mirrored.applyCut {f : DpxFSM σ} (h : Mirrored f) {calls : List (List Log)}
    (hlogs : ∀ log ∈ calls.flatten, WellFormedLog log) : Mirrored (DpxFSM.applyCut calls f).2 := by
  have hstep : ∀ (f : DpxFSM σ) (shadow : Shadow) (log : Log), WellFormedLog log → Mirrored f →
      Mirrored (chunked.step f shadow log).2.1 := fun f shadow log hlog h => h.applyLog shadow hlog
  rw [applyCut_eq_cut]
  exact Chunked.Machine.cut_invariant hstep calls f hlogs h

omit [RecordKeeping σ] in
theorem getElem?_accept_ne_none_iff (f : DpxFSM σ) (index : UInt64) (p : Proposal) (k : Key) :
    (f.accept index p).keyEpoch[k]? ≠ none ↔
      f.keyEpoch[k]? ≠ none ∨ p.writesKey k = true := by
  show (epochs index p.writes f.keyEpoch)[k]? ≠ none ↔ _
  have hsome := recordAfter_isSome index p k
  rw [getElem?_epochs]
  cases hr : recordAfter index p.writes k with
  | none =>
      rw [hr] at hsome
      simp [← hsome]
  | some r =>
      rw [hr] at hsome
      simp [← hsome]

/-- The keys of `keyEpoch` are those that committed proposals wrote. -/
theorem keyEpoch_applyCut_ne_none_iff {f : DpxFSM σ} {calls : List (List Log)}
    (hlogs : ∀ log ∈ calls.flatten, WellFormedLog log) (k : Key) :
    (DpxFSM.applyCut calls f).2.keyEpoch[k]? ≠ none ↔
      f.keyEpoch[k]? ≠ none ∨ ∃ x ∈ calls.flatten.zip (DpxFSM.applyCut calls f).1,
        x.2 = .ok ∧ ∃ p, proposalOf x.1 = some p ∧ p.writesKey k = true := by
  rw [applyCut_eq_cut]
  refine Chunked.Machine.cut_collects (P := fun f : DpxFSM σ => f.keyEpoch[k]? ≠ none)
    (Q := fun log (r : ApplyResult) =>
      r = .ok ∧ ∃ p, proposalOf log = some p ∧ p.writesKey k = true)
    (J := fun _ _ => True) (fun _ => trivial) (fun _ _ _ _ _ => trivial) ?_ calls f hlogs
  intro f shadow log hlog _
  show (f.applyLog shadow log).2.1.keyEpoch[k]? ≠ none ↔ _ ∨ ((f.applyLog shadow log).1 = .ok ∧ _)
  rcases f.applyLog_cases shadow fun p hp => (hlog p hp).known with
    ⟨hturned, hsame⟩ | ⟨p, hp, hok, hacc⟩
  · rw [hsame]
    refine ⟨Or.inl, ?_⟩
    rintro (h | ⟨hok, p, hp, -⟩)
    · exact h
    · exact absurd hok (hturned p hp).1
  · rw [hacc, getElem?_accept_ne_none_iff]
    simp [hok, hp]

/-- Some key has a record. -/
def AnyRecord (f : DpxFSM σ) : Prop := ∃ k : Key, f.keyEpoch[k]? ≠ none

omit [StorageEngine σ] [RecordKeeping σ] in
theorem anyRecord_of_conflict {f : DpxFSM σ} {shadow : Shadow} {p : Proposal}
    (hsub : ∀ k : Key, shadow[k]? ≠ none → f.keyEpoch[k]? ≠ none)
    (h : detectConflict f.keyEpoch p shadow = true) : AnyRecord f := by
  obtain ⟨re, -, hre⟩ := List.any_eq_true.mp h
  refine ⟨re.key, ?_⟩
  intro hnone
  have hstale : stale (epochOf f.keyEpoch re.key) re = false := by
    rw [epochOf, hnone]
    simp [stale, EpochRecord.zero]
  have hshadow : shadow[re.key]? = none := by
    by_contra hne
    exact hsub re.key hne hnone
  rw [hstale, Bool.false_or, shadowed, hshadow] at hre
  exact Bool.noConfusion hre

/-- The map is empty until the first proposal with a write, and that one always passes. -/
theorem anyRecord_applyCut_iff {f : DpxFSM σ} (hf : ¬ AnyRecord f) {calls : List (List Log)}
    (hlogs : ∀ log ∈ calls.flatten, WellFormedLog log) :
    AnyRecord (DpxFSM.applyCut calls f).2 ↔
      ∃ log ∈ calls.flatten, ∃ p, proposalOf log = some p ∧ p.writes ≠ [] := by
  let Q : Log → ApplyResult → Prop := fun log _ => ∃ p, proposalOf log = some p ∧ p.writes ≠ []
  let J : DpxFSM σ → Shadow → Prop := fun f t => ∀ k : Key, t[k]? ≠ none → f.keyEpoch[k]? ≠ none
  have hfresh : ∀ f : DpxFSM σ, J f ∅ := fun f k h => absurd Std.ExtTreeMap.getElem?_empty h
  have hJ : ∀ (f : DpxFSM σ) (t : Shadow) (log : Log), WellFormedLog log → J f t →
      J (f.applyLog t log).2.1 (f.applyLog t log).2.2 := by
    intro f t log hlog h
    rcases f.applyLog_cases t fun p hp => (hlog p hp).known with ⟨-, hsame⟩ | ⟨p, hp, -, hacc⟩
    · rw [hsame]
      exact h
    · rw [hacc]
      intro k hk
      rw [getElem?_accept_ne_none_iff]
      have hrec := recordAfter_isSome log.index p k
      rw [getElem?_epochs] at hk
      cases hr : recordAfter log.index p.writes k with
      | none => rw [hr, Option.none_or] at hk; exact Or.inl (h k hk)
      | some r => rw [hr] at hrec; exact Or.inr hrec.symm
  have hstep : ∀ (f : DpxFSM σ) (t : Shadow) (log : Log), WellFormedLog log → J f t →
      (AnyRecord (f.applyLog t log).2.1 ↔ AnyRecord f ∨ Q log (f.applyLog t log).1) := by
    intro f t log hlog h
    rcases f.applyLog_cases t fun p hp => (hlog p hp).known with
      ⟨hturned, hsame⟩ | ⟨p, hp, -, hacc⟩
    · rw [hsame]
      refine ⟨Or.inl, ?_⟩
      rintro (hany | ⟨p, hp, -⟩)
      · exact hany
      · exact anyRecord_of_conflict h (hturned p hp).2
    · rw [hacc]
      have hwrites : (∃ k, p.writesKey k = true) ↔ p.writes ≠ [] := by
        simp only [Proposal.writesKey, List.any_eq_true, decide_eq_true_eq]
        constructor
        · rintro ⟨k, w, hw, -⟩
          exact List.ne_nil_of_mem hw
        · intro hne
          obtain ⟨w, hw⟩ := List.exists_mem_of_ne_nil _ hne
          exact ⟨w.key, w, hw, rfl⟩
      simp only [AnyRecord, getElem?_accept_ne_none_iff, exists_or, hwrites, Q, hp,
        Option.some.injEq, exists_eq_left']
  have hcollect := Chunked.Machine.cut_collects (m := chunked) hfresh hJ hstep calls f hlogs
  have hfst : (calls.flatten.zip (chunked.cut calls f).1).map Prod.fst = calls.flatten :=
    List.map_fst_zip (chunked.length_cut calls f).ge
  rw [applyCut_eq_cut, hcollect]
  constructor
  · rintro (hany | ⟨x, hx, hQ⟩)
    · exact absurd hany hf
    · exact ⟨x.1, hfst ▸ List.mem_map_of_mem hx, hQ⟩
  · rintro ⟨log, hlog, hQ⟩
    rw [← hfst] at hlog
    obtain ⟨x, hx, rfl⟩ := List.mem_map.mp hlog
    exact Or.inr ⟨x, hx, hQ⟩

/-! ## A restart on the plain memory engine -/

theorem open_of_mirrored {f : DpxFSM State} (h : Mirrored f) (syncPolicy : SyncPolicy) :
    ∃ f', (DpxFSM.new f.engine syncPolicy).open = .ok f' ∧ f'.applied = f.engine.applied ∧
      ∀ k : Key, f'.keyEpoch[k]? = if Unscanned k then none else f.keyEpoch[k]? := by
  let pairs := f.engine.rawIter rawIterStart rawIterEnd
  have hmem : ∀ k v, (k, v) ∈ pairs ↔
      f.engine.get k = some v ∧ inRange rawIterStart rawIterEnd k = true :=
    (f.engine.lists_rawIter rawIterStart rawIterEnd).mem_iff
  have hget : ∀ u : Key, f.engine.get (versionKey u) = (f.keyEpoch[u]?).map encodeEpochRecord := h
  have hrecords : ∀ it ∈ pairs, ∃ u er, it = (versionKey u, encodeEpochRecord er) ∧
      f.keyEpoch[u]? = some er := by
    rintro ⟨k, v⟩ hit
    obtain ⟨hv, hin⟩ := (hmem k v).mp hit
    obtain ⟨u, rfl, -⟩ := (inRange_version_iff k).mp hin
    rw [hget] at hv
    obtain ⟨er, her, rfl⟩ := Option.map_eq_some_iff.mp hv
    exact ⟨u, er, rfl, her⟩
  obtain ⟨m, hm, hrebuilt⟩ := rebuild_of_records (g := fun u => f.keyEpoch[u]?) hrecords ∅
  refine ⟨{ DpxFSM.new f.engine syncPolicy with keyEpoch := m, applied := f.engine.applied },
    ?_, rfl, fun k => ?_⟩
  · have hscan : StorageEngine.rawIter (DpxFSM.new f.engine syncPolicy).engine rawIterStart
        rawIterEnd = (pairs, none) := rfl
    simp only [DpxFSM.open, hscan, hm]
    rfl
  · show m[k]? = _
    rw [hrebuilt, Std.ExtTreeMap.getElem?_empty]
    cases hk : f.keyEpoch[k]? with
    | none => simp
    | some er =>
        -- the record is stored, so it is listed unless the key is beyond the bound
        have hin : inRange rawIterStart rawIterEnd (versionKey k) = true ↔
            ¬ List.replicate 16 0xFF <+: k := by
          rw [inRange_version_iff]
          constructor
          · rintro ⟨u, heq, hu⟩
            rwa [versionKey_inj.mp heq]
          · exact fun hu => ⟨k, rfl, hu⟩
        have hlisted : versionKey k ∈ pairs.map Prod.fst ↔ ¬ List.replicate 16 0xFF <+: k := by
          simp only [List.mem_map, Prod.exists, hmem, exists_and_right, exists_eq_right, hin]
          rw [hget, hk]
          simp
        rw [← ite_not (Unscanned k)]
        refine if_congr ?_ rfl rfl
        rw [hlisted, Unscanned, not_or]

theorem accept_applied (f : DpxFSM State) (index : UInt64) (p : Proposal) :
    (f.accept index p).engine.applied = index := by
  show (f.engine.applyOps (entryBatch index p)).applied = index
  rw [entryBatch, State.applyOps, List.foldl_append]
  simp [appliedOp, State.applyOp, encodeUint64]

theorem applied_applyCut {f : DpxFSM State} (h : f.engine.applied = f.applied)
    {calls : List (List Log)} (hlogs : ∀ log ∈ calls.flatten, WellFormedLog log) :
    (DpxFSM.applyCut calls f).2.engine.applied = (DpxFSM.applyCut calls f).2.applied := by
  have hstep : ∀ (f : DpxFSM State) (t : Shadow) (log : Log), WellFormedLog log →
      f.engine.applied = f.applied →
      (chunked.step f t log).2.1.engine.applied = (chunked.step f t log).2.1.applied := by
    intro f t log hlog h
    show (f.applyLog t log).2.1.engine.applied = (f.applyLog t log).2.1.applied
    rcases f.applyLog_cases t fun p hp => (hlog p hp).known with ⟨-, hsame⟩ | ⟨p, hp, -, hacc⟩
    · rw [hsame]
      exact h
    · rw [hacc]
      exact f.accept_applied log.index p
  rw [applyCut_eq_cut]
  exact Chunked.Machine.cut_invariant hstep calls f hlogs h

theorem mirrored_new (syncPolicy : SyncPolicy) :
    Mirrored (DpxFSM.new State.empty syncPolicy) := by
  intro k
  show State.empty.get _ = ((∅ : GoMap EpochRecord)[k]?).map _
  rw [State.get_empty, Std.ExtTreeMap.getElem?_empty]
  rfl

/-- **A restart on the plain memory engine.**  Whatever the log and however it was cut,
a new machine opens on the engine, with the same applied index.  Its `keyEpoch` is the old
one on every key if and only if no committed proposal wrote a key that is not scanned: the
empty key, or one that begins with sixteen `0xFF`. -/
theorem restart_rebuilds_iff (syncPolicy : SyncPolicy) (calls : List (List Log))
    (hlogs : ∀ log ∈ calls.flatten, WellFormedLog log) :
    let out := DpxFSM.applyCut calls (DpxFSM.new State.empty syncPolicy)
    ∃ f', (DpxFSM.new out.2.engine syncPolicy).open = .ok f' ∧ f'.applied = out.2.applied ∧
      ((∀ k : Key, f'.keyEpoch[k]? = out.2.keyEpoch[k]?) ↔
        ∀ x ∈ calls.flatten.zip out.1, x.2 = .ok → ∀ p, proposalOf x.1 = some p →
          ∀ w ∈ p.writes, ¬ Unscanned w.key) := by
  intro out
  have hmirrored : Mirrored out.2 := (mirrored_new syncPolicy).applyCut hlogs
  obtain ⟨f', hopen, happlied, hrebuilt⟩ := open_of_mirrored hmirrored syncPolicy
  refine ⟨f', hopen, happlied.trans (applied_applyCut rfl hlogs), ?_⟩
  have hkeys : ∀ k : Key, out.2.keyEpoch[k]? ≠ none ↔ ∃ x ∈ calls.flatten.zip out.1,
      x.2 = .ok ∧ ∃ p, proposalOf x.1 = some p ∧ p.writesKey k = true := by
    intro k
    refine (keyEpoch_applyCut_ne_none_iff hlogs k).trans (or_iff_right ?_)
    exact fun h => h Std.ExtTreeMap.getElem?_empty
  simp only [hrebuilt]
  constructor
  · intro h x hx hok p hp w hw hunscanned
    refine (hkeys w.key).mpr ⟨x, hx, hok, p, hp, List.any_eq_true.mpr ⟨w, hw, by simp⟩⟩ ?_
    rw [← h w.key, if_pos hunscanned]
  · intro h k
    split
    · rename_i hunscanned
      by_contra hne
      obtain ⟨x, hx, hok, p, hp, hwrites⟩ := (hkeys k).mp (Ne.symm hne)
      obtain ⟨w, hw, hkey⟩ := List.any_eq_true.mp hwrites
      refine h x hx hok p hp w hw ?_
      rwa [of_decide_eq_true hkey]
    · rfl

theorem wellFormedLog_of_eq {log : Log} {p : Proposal} (h : proposalOf log = some p)
    (hp : p.WellFormed) : WellFormedLog log := by
  intro q hq
  rw [h] at hq
  cases hq
  exact hp

theorem proposalOf_setEntry :
    proposalOf setEntry = some ⟨[], [⟨.set, [0x6b], [1]⟩], 0, 0⟩ := by
  decide +kernel

theorem wellFormedLog_setEntry : ∀ log ∈ [[setEntry]].flatten, WellFormedLog log := by
  intro log hlog
  obtain rfl : log = setEntry := by simpa using hlog
  exact wellFormedLog_of_eq proposalOf_setEntry (by decide)

/-- An ordinary key is back after a restart. -/
theorem plain_key_rebuilt :
    ∃ f', (DpxFSM.new (DpxFSM.applyCut [[setEntry]] (DpxFSM.new State.empty .syncBatch)).2.engine
        .syncBatch).open = .ok f' ∧
      ∀ k : Key, f'.keyEpoch[k]? =
        (DpxFSM.applyCut [[setEntry]] (DpxFSM.new State.empty .syncBatch)).2.keyEpoch[k]? := by
  obtain ⟨f', hopen, -, hiff⟩ :=
    restart_rebuilds_iff .syncBatch [[setEntry]] wellFormedLog_setEntry
  refine ⟨f', hopen, hiff.mpr ?_⟩
  intro x hx _ p hp w hw
  have hlog : x.1 = setEntry := by simpa using (List.of_mem_zip hx).1
  rw [hlog, proposalOf_setEntry] at hp
  cases hp
  obtain rfl : w = ⟨.set, [0x6b], [1]⟩ := List.mem_singleton.mp hw
  decide

/-- One proposal that writes two keys no scan reaches. -/
def edgeEntry : Log :=
  ⟨1, .command, Proposal.marshal
    ⟨[], [⟨.set, [], [1]⟩, ⟨.set, List.replicate 16 0xFF, [1]⟩], 0, 0⟩⟩

/-- The running machine has a record for both keys, the reopened one for neither. -/
theorem edge_keys_forgotten :
    let f := (DpxFSM.applyCut [[edgeEntry]] (DpxFSM.new State.empty .syncBatch)).2
    (f.keyEpoch[([] : Key)]? = some ⟨1, false⟩ ∧
      f.keyEpoch[List.replicate 16 (0xFF : UInt8)]? = some ⟨1, false⟩) ∧
    (DpxFSM.new f.engine .syncBatch).open.toOption.map (fun f' =>
      (f'.keyEpoch[([] : Key)]?, f'.keyEpoch[List.replicate 16 (0xFF : UInt8)]?)) =
        some (none, none) := by
  decide +kernel

end DpxFSM

/-! ## A restart on the multi-version engine -/

theorem lastValue_of_all_sets {ops : List BatchOp} (h : ∀ op ∈ ops, ∃ k v, op = .set k v) :
    ∀ cur out, lastValue cur out ops = ops.foldl (fun v op => op.act v) out := by
  induction ops with
  | nil => exact fun _ _ => rfl
  | cons op ops ih =>
      intro cur out
      obtain ⟨⟨k, v, rfl⟩, hrest⟩ := List.forall_mem_cons.mp h
      exact ih hrest v (some v)

namespace MVCCEngine

instance : RecordKeeping MVCCEngine where
  applyBatch_ok _ _ _ := rfl
  sync_ok _ := rfl
  get_applyBatch e ops wo k h := by
    show (e.applyBatch ops).get k = BatchOp.effect k (e.get k) ops
    have hsets : ∀ op ∈ opsOn k ops, ∃ k v, op = .set k v := by
      intro op hop
      obtain ⟨hmem, hkey⟩ := List.mem_filter.mp hop
      exact ⟨k, h op hmem (of_decide_eq_true hkey)⟩
    rw [get_eq_latest, get_eq_latest, versions_home_applyBatch, latest_grow,
      lastValue_of_all_sets hsets, BatchOp.effect_eq_foldl]

/-- `RawIter` finds nothing in the range of the version keys, whatever is stored. -/
theorem rawIter_versions (e : MVCCEngine) :
    StorageEngine.rawIter e rawIterStart rawIterEnd = ([], none) := by
  show (e.newIterator rawIterStart rawIterEnd e.seqCounter, none) = _
  rw [newIterator, List.flatMap_eq_nil_iff.mpr ?_, List.mergeSort_nil]
  intro i _
  refine List.filterMap_eq_nil_iff.mpr ?_
  rintro ⟨k, entries⟩ -
  simp only
  split
  · rfl
  · split
    · rfl
    · rename_i hlo hhi
      have hin : inRange rawIterStart rawIterEnd k = true := by
        simp only [inRange, Bool.and_eq_true, Bool.not_eq_true', Bool.or_eq_true,
          decide_eq_true_eq]
        refine ⟨Bool.eq_false_iff.mpr hlo, Or.inr ?_⟩
        by_contra hfin
        exact hhi ⟨by decide, by simpa using hfin⟩
      obtain ⟨u, rfl, -⟩ := (inRange_version_iff k).mp hin
      rw [if_pos (isReserved_versionKey u)]

end MVCCEngine

namespace DpxFSM

theorem open_mvcc (e : MVCCEngine) (syncPolicy : SyncPolicy) :
    (DpxFSM.new e syncPolicy).open =
      .ok { DpxFSM.new e syncPolicy with applied := StorageEngine.currentSequence e } := by
  have hscan : StorageEngine.rawIter (DpxFSM.new e syncPolicy).engine rawIterStart rawIterEnd =
      ([], none) := e.rawIter_versions
  rw [DpxFSM.open, hscan]
  rfl

/-- A non-empty key of printable ASCII. -/
def Printable (k : Key) : Prop := k ≠ [] ∧ ∀ b ∈ k, 0x20 ≤ b ∧ b ≤ 0x7E

theorem Printable.scanned {k : Key} (h : Printable k) : ¬ Unscanned k := by
  rintro (hnil | ⟨rest, hff⟩)
  · exact h.1 hnil
  · have hmem : (0xFF : UInt8) ∈ k := by
      rw [← hff]
      exact List.mem_append_left _ (by decide)
    exact absurd (h.2 _ hmem).2 (by decide)

theorem mirrored_newMVCC (sharded : Bool) (syncPolicy : SyncPolicy) :
    Mirrored (DpxFSM.new (MVCCEngine.newMVCCEngine sharded) syncPolicy) := by
  intro k
  show (MVCCEngine.newMVCCEngine sharded).get _ = ((∅ : GoMap EpochRecord)[k]?).map _
  rw [MVCCEngine.get_eq_latest, MVCCEngine.versions_newMVCCEngine, Std.ExtTreeMap.getElem?_empty]
  rfl

theorem keyEpoch_empty_iff (f : DpxFSM MVCCEngine) :
    (∀ k : Key, (∅ : GoMap EpochRecord)[k]? = f.keyEpoch[k]?) ↔ ¬ AnyRecord f := by
  constructor
  · rintro h ⟨k, hk⟩
    exact hk ((h k).symm.trans Std.ExtTreeMap.getElem?_empty)
  · intro h k
    refine Std.ExtTreeMap.getElem?_empty.trans ?_
    by_contra hk
    exact h ⟨k, Ne.symm hk⟩

theorem Mirrored.rawIter_complete_iff {f : DpxFSM MVCCEngine} (h : Mirrored f)
    (hscanned : ∀ k : Key, f.keyEpoch[k]? ≠ none → ¬ Unscanned k) :
    (∀ k v, StorageEngine.get f.engine k = some v → inRange rawIterStart rawIterEnd k = true →
      (k, v) ∈ (StorageEngine.rawIter f.engine rawIterStart rawIterEnd).1) ↔ ¬ AnyRecord f := by
  rw [f.engine.rawIter_versions]
  constructor
  · rintro hall ⟨k, hk⟩
    obtain ⟨er, her⟩ := Option.ne_none_iff_exists'.mp hk
    have hget := h k
    rw [her] at hget
    have hin := (inRange_version_iff (versionKey k)).mpr
      ⟨k, rfl, fun hff => hscanned k hk (Or.inr hff)⟩
    exact absurd (hall _ _ hget hin) List.not_mem_nil
  · intro hnone k v hget hin
    obtain ⟨u, rfl, -⟩ := (inRange_version_iff k).mp hin
    rw [h u] at hget
    obtain ⟨er, her, -⟩ := Option.map_eq_some_iff.mp hget
    exact absurd ⟨u, by rw [her]; exact Option.some_ne_none er⟩ hnone

/-- **A restart on the multi-version engine.**  The machine opens, with an empty map.
That is the running one's map, and what `RawIter` lists of the version keys is what is
stored, if and only if no entry of the log carries a proposal with a write. -/
theorem mvcc_restart_rebuilds_iff (sharded : Bool) (syncPolicy : SyncPolicy)
    (calls : List (List Log)) (hlogs : ∀ log ∈ calls.flatten, WellFormedLog log)
    (hkeys : ∀ log ∈ calls.flatten, ∀ p, proposalOf log = some p →
      ∀ w ∈ p.writes, Printable w.key) :
    let f := (DpxFSM.applyCut calls (DpxFSM.new (MVCCEngine.newMVCCEngine sharded) syncPolicy)).2
    (∃ f', (DpxFSM.new f.engine syncPolicy).open = .ok f' ∧
      ((∀ k : Key, f'.keyEpoch[k]? = f.keyEpoch[k]?) ↔
        ∀ log ∈ calls.flatten, ∀ p, proposalOf log = some p → p.writes = [])) ∧
    ((∀ k v, StorageEngine.get f.engine k = some v → inRange rawIterStart rawIterEnd k = true →
        (k, v) ∈ (StorageEngine.rawIter f.engine rawIterStart rawIterEnd).1) ↔
      ∀ log ∈ calls.flatten, ∀ p, proposalOf log = some p → p.writes = []) := by
  intro f
  have hnew : ∀ k : Key, (DpxFSM.new (MVCCEngine.newMVCCEngine sharded) syncPolicy).keyEpoch[k]? =
      none := fun k => Std.ExtTreeMap.getElem?_empty
  have hmirrored : Mirrored f := (mirrored_newMVCC sharded syncPolicy).applyCut hlogs
  have hany : AnyRecord f ↔ ∃ log ∈ calls.flatten, ∃ p, proposalOf log = some p ∧ p.writes ≠ [] :=
    anyRecord_applyCut_iff (fun ⟨k, hk⟩ => hk (hnew k)) hlogs
  have hscanned : ∀ k : Key, f.keyEpoch[k]? ≠ none → ¬ Unscanned k := by
    intro k hk
    rcases (keyEpoch_applyCut_ne_none_iff hlogs k).mp hk with hold | ⟨x, hx, -, p, hp, hwk⟩
    · exact absurd (hnew k) hold
    · obtain ⟨w, hw, hkey⟩ := List.any_eq_true.mp hwk
      rw [← of_decide_eq_true hkey]
      exact (hkeys x.1 (List.of_mem_zip hx).1 p hp w hw).scanned
  have hnone : ¬ AnyRecord f ↔ ∀ log ∈ calls.flatten, ∀ p, proposalOf log = some p →
      p.writes = [] := by
    rw [hany]
    simp only [not_exists, not_and, ne_eq, not_not]
  refine ⟨⟨_, open_mvcc f.engine syncPolicy, ?_⟩, ?_⟩
  · rw [← hnone]
    exact f.keyEpoch_empty_iff
  · rw [← hnone]
    exact hmirrored.rawIter_complete_iff hscanned

/-- A proposal that asks for nothing. -/
def noopEntry : Log := ⟨1, .command, Proposal.marshal ⟨[], [], 0, 0⟩⟩

/-- Without a write the empty map is right; one write of a printable key, and it is not. -/
theorem first_write_unlisted :
    (∃ f', (DpxFSM.new (DpxFSM.applyCut [[noopEntry]]
        (DpxFSM.new (MVCCEngine.newMVCCEngine false) .syncBatch)).2.engine .syncBatch).open =
          .ok f' ∧
      ∀ k : Key, f'.keyEpoch[k]? = (DpxFSM.applyCut [[noopEntry]]
        (DpxFSM.new (MVCCEngine.newMVCCEngine false) .syncBatch)).2.keyEpoch[k]?) ∧
    ¬ ∀ k v, StorageEngine.get (DpxFSM.applyCut [[setEntry]]
        (DpxFSM.new (MVCCEngine.newMVCCEngine false) .syncBatch)).2.engine k = some v →
      inRange rawIterStart rawIterEnd k = true →
      (k, v) ∈ (StorageEngine.rawIter (DpxFSM.applyCut [[setEntry]]
        (DpxFSM.new (MVCCEngine.newMVCCEngine false) .syncBatch)).2.engine rawIterStart
          rawIterEnd).1 := by
  have hnoop : proposalOf noopEntry = some ⟨[], [], 0, 0⟩ := by decide +kernel
  have hmem : ∀ log ∈ [[noopEntry]].flatten, log = noopEntry := by simp
  have hmem' : ∀ log ∈ [[setEntry]].flatten, log = setEntry := by simp
  constructor
  · obtain ⟨⟨f', hopen, hiff⟩, -⟩ := mvcc_restart_rebuilds_iff false .syncBatch [[noopEntry]]
      (fun log hlog => hmem log hlog ▸ wellFormedLog_of_eq hnoop (by decide))
      (fun log hlog p hp w hw => by
        rw [hmem log hlog, hnoop] at hp
        cases hp
        exact absurd hw List.not_mem_nil)
    refine ⟨f', hopen, hiff.mpr fun log hlog p hp => ?_⟩
    rw [hmem log hlog, hnoop] at hp
    cases hp
    rfl
  · obtain ⟨-, hiff⟩ := mvcc_restart_rebuilds_iff false .syncBatch [[setEntry]]
      wellFormedLog_setEntry
      (fun log hlog p hp w hw => by
        rw [hmem' log hlog, proposalOf_setEntry] at hp
        cases hp
        obtain rfl : w = ⟨.set, [0x6b], [1]⟩ := List.mem_singleton.mp hw
        exact ⟨by decide, List.forall_mem_singleton.mpr ⟨by decide, by decide⟩⟩)
    intro hlisted
    have hnone := hiff.mp hlisted setEntry List.mem_cons_self _ proposalOf_setEntry
    cases hnone

/-- The running machine has a record for the key that was set, the reopened one has not. -/
theorem mvcc_record_forgotten :
    let f := (DpxFSM.applyCut [[setEntry]]
      (DpxFSM.new (MVCCEngine.newMVCCEngine false) .syncBatch)).2
    f.keyEpoch[([0x6b] : Key)]? = some ⟨1, false⟩ ∧
      (DpxFSM.new f.engine .syncBatch).open.toOption.map (fun f' => f'.keyEpoch[([0x6b] : Key)]?) =
        some none := by
  decide +kernel

end DpxFSM

end Dpx
