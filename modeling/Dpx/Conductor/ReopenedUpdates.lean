/-
# `Dpx.Conductor.ReopenedUpdates` — read, compute, write back, after a reopen

A proposer that is opened on an engine with a past counts from zero again, and the version
records it finds carry higher numbers.  A transaction that reads a key takes the epoch from the
record; a commit of the key that comes in between is given a number of the new count; as long as
that is not above the epoch, nothing looks stale and the transaction commits over it.

`update_lost_iff`: in every state of every run, of a proposer opened on any engine, there is a
continuation in which an update whose `Get` succeeds loses the commit it did not see, if and only
if the key is there and the counter is behind the key's stored epoch.  On a new engine that is
never so (`counted_of_opened`); after a reopen it is so for every key that was ever written and is
still there, until it is written again or the counter has caught up.
-/
import Dpx.Conductor.Rebuild
import Dpx.Conductor.Reopen
import Dpx.Tx

namespace Dpx

/-! ## What a new proposer knows -/

theorem decodeEpochRecord_of_some {b : Bytes} {er : EpochRecord}
    (h : decodeEpochRecord? b = some er) : decodeEpochRecord b = er := by
  rw [decodeEpochRecord?] at h
  rw [decodeEpochRecord]
  split at h
  · cases h
  · rename_i hlen
    cases h
    rw [if_neg hlen, LittleEndian.uint64, LittleEndian.uint64, List.take_take, Nat.min_self]

theorem mem_of_rebuild {pairs : List (Bytes × Bytes)} :
    ∀ {m m' : GoMap EpochRecord}, rebuild pairs m = .ok m' → ∀ {u : Key} {er : EpochRecord},
      m'[u]? = some er → m[u]? = some er ∨
        ∃ it ∈ pairs, it.1.drop verPrefix.length = u ∧ decodeEpochRecord? it.2 = some er := by
  induction pairs with
  | nil =>
      intro m m' h u er hu
      cases h
      exact Or.inl hu
  | cons it pairs ih =>
      intro m m' h u er hu
      rw [rebuild] at h
      split at h
      · rcases ih h hu with hfiled | ⟨x, hx, hrest⟩
        · exact Or.inl hfiled
        · exact Or.inr ⟨x, List.mem_cons_of_mem _ hx, hrest⟩
      · split at h
        · cases h
        · rename_i er₀ her
          rcases ih h hu with hfiled | ⟨x, hx, hrest⟩
          · rw [Std.ExtTreeMap.getElem?_insert] at hfiled
            split at hfiled
            · rename_i heq
              cases hfiled
              exact Or.inr ⟨it, List.mem_cons_self,
                Std.LawfulEqOrd.compare_eq_iff_eq.mp heq, her⟩
            · exact Or.inl hfiled
          · exact Or.inr ⟨x, List.mem_cons_of_mem _ hx, hrest⟩

namespace DirectProposer

theorem keyEpoch_of_opened {s : State} {syncPolicy : SyncPolicy} {d : DirectProposer State}
    (hopen : newDirectProposer s syncPolicy = .ok d) {k : Key} {er : EpochRecord}
    (hk : d.fsm.keyEpoch[k]? = some er) : s.getVersion k = er := by
  rw [newDirectProposer] at hopen
  cases ho : (DpxFSM.new s syncPolicy).open with
  | error e => rw [ho] at hopen; cases hopen
  | ok f =>
      rw [ho] at hopen
      cases hopen
      rw [DpxFSM.open] at ho
      have hscan : StorageEngine.rawIter (DpxFSM.new s syncPolicy).engine rawIterStart rawIterEnd =
          (s.rawIter rawIterStart rawIterEnd, none) := rfl
      cases hm : rebuild (s.rawIter rawIterStart rawIterEnd) ∅ with
      | error e => simp only [hscan, hm] at ho; cases ho
      | ok m =>
          simp only [hscan, hm] at ho
          cases ho
          rcases mem_of_rebuild hm hk with hnone | ⟨it, hit, hdrop, hdec⟩
          · rw [Std.ExtTreeMap.getElem?_empty] at hnone
            cases hnone
          · obtain ⟨hget, hin⟩ := ((s.lists_rawIter _ _).mem_iff it.1 it.2).mp hit
            obtain ⟨u, hkey, -⟩ := (inRange_version_iff it.1).mp hin
            have hu : u = k := by
              rw [hkey] at hdrop
              exact List.drop_left.symm.trans hdrop
            rw [State.getVersion_eq, ← hu, ← hkey, hget]
            exact decodeEpochRecord_of_some hdec

/-- In every run `keyEpoch` has no higher number for a key than the engine. -/
theorem keyEpoch_le_stored {s : State} {syncPolicy : SyncPolicy} {d r : DirectProposer State}
    (hopen : newDirectProposer s syncPolicy = .ok d) {tr : List Answered}
    (hr : Explains d.base tr r) (k : Key) :
    (epochOf r.fsm.keyEpoch k).num ≤ (r.fsm.engine.getVersion k).num := by
  have hver : r.fsm.engine.get (versionKey k) = _ := hr.version_eq k
  rw [hr.epochOf_eq, lastRecord, State.getVersion_eq, hver]
  cases (records tr k).getLast? with
  | some er => simp
  | none =>
      cases hk : d.fsm.keyEpoch[k]? with
      | none =>
          have hbase : d.base.keyEpoch k = none := hk
          rw [hbase]
          exact Nat.zero_le _
      | some er =>
          have hbase : d.base.keyEpoch k = some er := hk
          have hstored : s.getVersion k = er := keyEpoch_of_opened hopen hk
          have hget : d.base.get (versionKey k) = s.get (versionKey k) := by
            show d.fsm.engine.get (versionKey k) = _
            rw [(newDirectProposer_ok hopen).1]
          rw [hbase, hget, Option.map_none, Option.none_or, Option.none_or,
            ← State.getVersion_eq, hstored]
          exact Nat.le_refl _

/-! ## An update -/

/-- The proposal of a callback that gets `k`, computes a value from what it finds and sets it, and
returns the error of either call. -/
def updateOf (snap : State) (k : Key) (compute : Bytes → Bytes) (wall : UInt64)
    (counter : UInt16) : Except TxError (Option Proposal) :=
  match (DpxTx.new snap).get k with
  | .error e => .error e
  | .ok (v, tx) =>
      match tx.set k (compute v) with
      | .error e => .error e
      | .ok tx => tx.propose wall counter

theorem readSetSlice_single (snap : State) (k : Key) (ws : List WriteEntry) :
    (⟨snap, (∅ : GoMap ReadEntry).insert k ⟨k, 0, false⟩, ws⟩ : DpxTx State).readSetSlice =
      [⟨k, (snap.getVersion k).epoch, false⟩] := by
  have hlist : ((∅ : GoMap ReadEntry).insert k ⟨k, 0, false⟩).toList = [(k, ⟨k, 0, false⟩)] := by
    have hlen : ((∅ : GoMap ReadEntry).insert k ⟨k, 0, false⟩).toList.length = 1 := by
      simp [Std.ExtTreeMap.length_toList, Std.ExtTreeMap.size_insert]
    obtain ⟨e, he⟩ := List.length_eq_one_iff.mp hlen
    have hmem : (k, (⟨k, 0, false⟩ : ReadEntry)) ∈
        ((∅ : GoMap ReadEntry).insert k ⟨k, 0, false⟩).toList := by
      simp [Std.ExtTreeMap.mem_toList_iff_getElem?_eq_some]
    rw [he, List.mem_singleton] at hmem
    rw [he, ← hmem]
  rw [DpxTx.readSetSlice, hlist]
  simp [DpxTx.hydrate, Snapshot.getVersion]

theorem updateOf_eq_ok_iff {snap : State} {k : Key} (hk : isReserved k = false)
    {compute : Bytes → Bytes} {wall : UInt64} {counter : UInt16} {p : Proposal} :
    updateOf snap k compute wall counter = .ok (some p) ↔ ∃ v, snap.get k = some v ∧
      p = ⟨[⟨k, (snap.getVersion k).epoch, false⟩], [⟨.set, k, compute v⟩], wall, counter⟩ := by
  have hsnap : Snapshot.get snap k = snap.get k := rfl
  cases hget : snap.get k with
  | none => simp [updateOf, DpxTx.get, DpxTx.new, hk, hsnap, hget]
  | some v =>
      simp [updateOf, DpxTx.get, DpxTx.new, DpxTx.set, DpxTx.propose, DpxTx.validate, hk, hsnap,
        hget, readSetSlice_single, eq_comm]

/-- There is a continuation in which an update of `k`, on what is there now, commits over a commit
of `k` that it has not seen. -/
def LosesUpdate (r : DirectProposer State) (k : Key) : Prop :=
  ∃ (compute : Bytes → Bytes) (wall : UInt64) (counter : UInt16) (p : Proposal)
    (batches : List (List Proposal)) (since post : List Answered) (index : UInt64),
    updateOf r.fsm.engine k compute wall counter = .ok (some p) ∧
    (∀ b ∈ batches, ∀ q ∈ b, q.WellFormed) ∧
    r.index.toNat + batches.flatten.length < 2 ^ 64 ∧
    r.trace batches = since ++ ⟨index, p, .ok⟩ :: post ∧
    ∃ w ∈ since, w.wrote k = true

section Runs

variable {r : DirectProposer State} {k : Key}

/-- The update has found the key, and a commit of the new count that is overlooked has a number up
to the epoch. -/
theorem LosesUpdate.behind (h : LosesUpdate r k) (hk : isReserved k = false) :
    (r.fsm.engine.get k).isSome ∧ r.index < (r.fsm.engine.getVersion k).epoch := by
  obtain ⟨compute, wall, counter, p, batches, since, post, index, hp, hwf, hlt, htrace, w, hw,
    hwrote⟩ := h
  obtain ⟨v, hget, rfl⟩ := (updateOf_eq_ok_iff hk).mp hp
  refine ⟨by rw [hget]; rfl, ?_⟩
  obtain ⟨hend, hverd⟩ := r.explains_base.run hwf hlt
  obtain ⟨start, -, hv⟩ := hverd since _ post htrace
  have hpass := hv.pass rfl _ (List.mem_singleton.mpr rfl)
  rw [List.nil_append] at hpass hend
  -- the last record among what the update has not seen
  have hne : records since k ≠ [] := records_ne_nil_iff.mpr ⟨w, hw, hwrote⟩
  cases hlast : (records since k).getLast? with
  | none => exact absurd (List.getLast?_eq_none_iff.mp hlast) hne
  | some er =>
      obtain ⟨a, ha, hrec⟩ := List.mem_filterMap.mp (List.mem_of_getLast? hlast)
      have hbounds := hend.bounds a (by rw [htrace]; exact List.mem_append_left _ ha)
      have hle : er.epoch ≤ (r.fsm.engine.getVersion k).epoch := by
        simpa [stale, lastRecord, hlast] using hpass
      rw [Answered.record_epoch hrec] at hle
      exact UInt64.lt_iff_toNat_lt.mpr
        (Nat.lt_of_lt_of_le hbounds.1 (UInt64.le_iff_toNat_le.mp hle))

theorem answered_update (r : DirectProposer State) {b : Base} {tr : List Answered}
    (hr : Explains b tr r) (hlt : b.index + tr.length + 1 < 2 ^ 64) {p : Proposal}
    (hp : p.WellFormed)
    (hpass : ∀ re ∈ p.readSet, stale (lastRecord b tr re.key) re = false) :
    r.answered [p] = [⟨r.index + 1, p, .ok⟩] := by
  have hlen : (r.applyBatchDirect [p]).1.length = 1 := r.length_applyBatchDirect [p]
  obtain ⟨res, hres⟩ := List.length_eq_one_iff.mp hlen
  have hshape : r.answered [p] = [⟨r.index + 1, p, res⟩] := by
    rw [answered, hres]
    rfl
  obtain ⟨-, hverd⟩ := hr.batch (List.forall_mem_singleton.mpr hp) hlt
  have hv := hverd [] _ [] hshape
  rw [List.append_nil] at hv
  rcases hv.answered with hok | hc
  · rw [hshape]
    exact congrArg (fun x => [(⟨r.index + 1, p, x⟩ : Answered)]) hok
  · obtain ⟨re, hre, hst | ⟨a, ha, -⟩⟩ := hv.turned hc
    · rw [hpass re hre] at hst
      cases hst
    · rw [List.drop_length] at ha
      exact absurd ha List.not_mem_nil

theorem losesUpdate_of_behind {b : Base} {tr : List Answered} (hr : Explains b tr r)
    (hwrap : b.index + tr.length + 2 < 2 ^ 64) (hk : isReserved k = false)
    {v : Bytes} (hget : r.fsm.engine.get k = some v)
    (hknown : (epochOf r.fsm.keyEpoch k).num ≤ (r.fsm.engine.getVersion k).num)
    (hbehind : r.index < (r.fsm.engine.getVersion k).epoch) : LosesUpdate r k := by
  let p : Proposal := ⟨[⟨k, (r.fsm.engine.getVersion k).epoch, false⟩], [⟨.set, k, []⟩], 0, 0⟩
  have hp : p.WellFormed := ⟨by simp [p, WriteOp.known], by simp [p, hk]⟩
  have hpass : ∀ {tr' : List Answered},
      (lastRecord b tr' k).num ≤ (r.fsm.engine.getVersion k).num →
      ∀ re ∈ p.readSet, stale (lastRecord b tr' re.key) re = false := by
    intro tr' hle re hre
    obtain rfl := List.mem_singleton.mp hre
    simpa [stale] using UInt64.le_iff_toNat_le.mpr hle
  have hwrote : (⟨r.index + 1, p, .ok⟩ : Answered).wrote k = true := by
    simp [Answered.wrote, Answered.committed, Proposal.writesKey, p]
  have hfirst : r.answered [p] = [⟨r.index + 1, p, .ok⟩] :=
    answered_update r hr (by omega) hp (hpass (hr.epochOf_eq k ▸ hknown))
  obtain ⟨hnext, -⟩ := hr.batch (List.forall_mem_singleton.mpr hp) (by
    rw [List.length_singleton]
    omega)
  rw [hfirst] at hnext
  have hsucc : (r.index + 1).toNat = r.index.toNat + 1 := by
    rw [UInt64.toNat_add, hr.index_eq]
    exact Nat.mod_eq_of_lt (by show _ + 1 < 2 ^ 64; omega)
  have hindex : (r.applyBatchDirect [p]).2.index = r.index + 1 := by
    refine UInt64.toNat_inj.mp ?_
    rw [hnext.index_eq, hsucc, hr.index_eq, List.length_append, List.length_singleton,
      Nat.add_assoc]
  have hsecond : (r.applyBatchDirect [p]).2.answered [p] = [⟨r.index + 1 + 1, p, .ok⟩] := by
    rw [← hindex]
    refine answered_update _ hnext ?_ hp (hpass ?_)
    · rw [List.length_append, List.length_singleton]
      omega
    · obtain ⟨er, her⟩ := Option.isSome_iff_exists.mp
        ((Answered.record_isSome ⟨r.index + 1, p, .ok⟩ k).trans hwrote)
      rw [lastRecord, getLast?_records_concat, her]
      show er.epoch.toNat ≤ (r.fsm.engine.getVersion k).epoch.toNat
      rw [Answered.record_epoch her, hsucc]
      exact UInt64.lt_iff_toNat_lt.mp hbehind
  refine ⟨fun _ => [], 0, 0, p, [[p], [p]], [⟨r.index + 1, p, .ok⟩], [], r.index + 1 + 1,
    (updateOf_eq_ok_iff hk).mpr ⟨v, hget, rfl⟩, by simp [hp], ?_, ?_, _, List.mem_singleton.mpr rfl,
    hwrote⟩
  · rw [hr.index_eq]
    simpa using hwrap
  · rw [trace, trace, trace, hfirst, hsecond]
    rfl

end Runs

/-- **Lost updates after a reopen.**  In every state of every run of a proposer opened on any
engine, an update of a user key that returns the error of its `Get` can lose a commit it has not
seen if and only if the key is there and the counter is behind the epoch stored for it. -/
theorem update_lost_iff {s : State} {syncPolicy : SyncPolicy} {d : DirectProposer State}
    (hopen : newDirectProposer s syncPolicy = .ok d) {before : List (List Proposal)}
    (hwf : ∀ b ∈ before, ∀ p ∈ b, p.WellFormed) (hwrap : before.flatten.length + 2 < 2 ^ 64)
    {k : Key} (hk : isReserved k = false) :
    LosesUpdate (d.run before) k ↔ ((d.run before).fsm.engine.get k).isSome ∧
      (d.run before).index < ((d.run before).fsm.engine.getVersion k).epoch := by
  have hzero : d.base.index = 0 := by
    show d.index.toNat = 0
    rw [(newDirectProposer_ok hopen).2]
    rfl
  have hlen := d.length_trace before
  obtain ⟨hr, -⟩ := d.explains_base.run hwf (by
    rw [hzero, List.length_nil]
    omega)
  rw [List.nil_append] at hr
  constructor
  · exact fun h => h.behind hk
  · rintro ⟨hsome, hbehind⟩
    obtain ⟨v, hget⟩ := Option.isSome_iff_exists.mp hsome
    exact losesUpdate_of_behind hr (by rw [hzero]; omega) hk hget
      (keyEpoch_le_stored hopen hr k) hbehind

/-- The proposer opened after two writes of `k`. -/
def secondLife : Except OpenError (DirectProposer State) :=
  newDirectProposer (opened.run [[overwrite], [overwrite]]).fsm.engine .syncBatch

/-- After the reopen an update of `k` can lose a commit; once `k` has been written again, none
can. -/
theorem update_lost_once :
    ∃ d, secondLife = .ok d ∧ LosesUpdate (d.run []) [0x6b] ∧
      ¬ LosesUpdate (d.run [[overwrite]]) [0x6b] := by
  have hrun : secondLife.toOption.map (fun d =>
      ((d.fsm.engine.get [0x6b]).isSome, d.index, (d.fsm.engine.getVersion [0x6b]).epoch,
        (d.run [[overwrite]]).index,
        ((d.run [[overwrite]]).fsm.engine.getVersion [0x6b]).epoch)) =
      some (true, 0, 2, 1, 1) := by
    decide +kernel
  cases hopen : secondLife with
  | error e => rw [hopen] at hrun; cases hrun
  | ok d =>
      rw [hopen] at hrun
      simp only [Except.toOption, Option.map_some, Option.some.injEq, Prod.mk.injEq] at hrun
      obtain ⟨hget, hzero, htwo, hone, hver⟩ := hrun
      refine ⟨d, rfl, ?_, fun h => ?_⟩
      · refine (update_lost_iff hopen (by simp) (by decide) (by decide)).mpr ⟨hget, ?_⟩
        show d.index < (d.fsm.engine.getVersion [0x6b]).epoch
        rw [hzero, htwo]
        decide
      · have hlt := ((update_lost_iff hopen (by decide) (by decide) (by decide)).mp h).2
        rw [hone, hver] at hlt
        exact absurd hlt (by decide)

end DirectProposer

end Dpx
