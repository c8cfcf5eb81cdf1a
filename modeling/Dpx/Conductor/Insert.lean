/-
# `Dpx.Conductor.Insert` — inserting a key that was seen absent

`Get` notes a read only after the snapshot has produced a value: on
`ErrKeyNotFound` it returns first, and the read set stays as it was.  A transaction
that inserts a key because it found none therefore carries no read entry for it, and
validation has nothing to compare: two of them, from one snapshot, both commit
(`both_insert`), and the second value buries the first.

The one call that notes an absent key is an `AtomicAdd` that does not credit it
(`recorded_iff`).  A callback that makes that call as well is judged on the key, with
the pardon of a debit read: it commits exactly when nothing, or last of all a credit,
was written to the key since its snapshot.  `inserts_guarded` states both halves of
what is left: when a committed attempt has seen the key stay absent, and that of two
attempts to insert it the later one fails.
-/
import Dpx.Conductor.Debit

namespace Dpx

/-! ## What the calls of a callback leave behind -/

namespace DpxTx

variable {σ : Type} [Snapshot σ]

theorem recorded_perform {tx : DpxTx σ} {k : Key} (hk : isReserved k = false)
    (habsent : Snapshot.get tx.snap k = none) (c : TxCall) :
    (tx.perform c).Recorded k ↔
      tx.Recorded k ∨ ∃ delta : Int64, ¬ 0 < delta ∧ c = .atomicAdd k delta := by
  cases c with
  | get j =>
      simp only [reduceCtorEq, and_false, exists_false, or_false]
      rw [perform, get]
      cases isReserved j with
      | true => rfl
      | false =>
          cases hget : Snapshot.get tx.snap j with
          | none => rfl
          | some v =>
              refine recorded_insert.trans (or_iff_left ?_)
              rintro rfl
              rw [habsent] at hget
              cases hget
  | set j v =>
      simp only [reduceCtorEq, and_false, exists_false, or_false]
      rw [perform, set]
      cases isReserved j <;> rfl
  | delete j =>
      simp only [reduceCtorEq, and_false, exists_false, or_false]
      rw [perform, delete]
      cases isReserved j <;> rfl
  | atomicAdd j delta =>
      simp only [TxCall.atomicAdd.injEq]
      rw [perform, atomicAdd]
      cases hj : isReserved j with
      | true =>
          refine (or_iff_left ?_).symm
          rintro ⟨_, _, rfl, _⟩
          rw [hj] at hk
          cases hk
      | false =>
          by_cases hpos : 0 < delta
          · simp only [Bool.false_eq_true, if_false, hpos, if_true]
            refine (or_iff_left ?_).symm
            rintro ⟨_, hneg, _, rfl⟩
            exact hneg hpos
          · simp only [Bool.false_eq_true, if_false, hpos]
            refine recorded_insert.trans (or_congr_right ?_)
            constructor
            · rintro rfl
              exact ⟨delta, hpos, rfl, rfl⟩
            · rintro ⟨_, _, rfl, _⟩
              rfl

/-- **What a callback that saw `k` absent has noted of it**: nothing, unless it made
an `AtomicAdd` that is no credit. -/
theorem recorded_iff {snap : σ} {k : Key} (hk : isReserved k = false)
    (habsent : Snapshot.get snap k = none) (calls : List TxCall) :
    (after snap calls).Recorded k ↔ ∃ delta : Int64, ¬ 0 < delta ∧ .atomicAdd k delta ∈ calls := by
  induction calls using List.reverseRecOn with
  | nil =>
      constructor
      · rintro ⟨re, hre⟩
        rw [after, List.foldl_nil, DpxTx.new, Std.ExtTreeMap.getElem?_empty] at hre
        cases hre
      · rintro ⟨_, _, hmem⟩
        cases hmem
  | append_singleton calls c ih =>
      rw [after_concat, recorded_perform hk (by rw [after_snap]; exact habsent), ih]
      simp only [List.mem_append, List.mem_singleton, and_or_left, exists_or, eq_comm]

theorem mem_writes_after (snap : σ) {k : Key} (hk : isReserved k = false) {v : Bytes}
    {calls : List TxCall} (h : .set k v ∈ calls) :
    ⟨.set, k, v⟩ ∈ (after snap calls).writes := by
  induction calls using List.reverseRecOn with
  | nil => cases h
  | append_singleton calls c ih =>
      rw [after_concat]
      rcases List.mem_append.mp h with hold | hlast
      · rcases (after snap calls).perform_cases c with hc | ⟨j, hc⟩ | ⟨w, -, -, -, -, hc⟩ |
          ⟨j, delta, -, -, -, hc⟩
        · rw [hc]
          exact ih hold
        · rw [hc]
          exact ih hold
        · rw [hc]
          exact List.mem_append_left _ (ih hold)
        · rw [hc]
          show _ ∈ if delta < 0 then _ else _
          split
          · exact List.mem_append_left _ (ih hold)
          · exact ih hold
      · rw [← List.mem_singleton.mp hlast, perform, set, hk]
        exact List.mem_append_right _ (List.mem_singleton.mpr rfl)

/-- Some `Get` of `k` among the calls returned `ErrKeyNotFound`. -/
def SawAbsent (snap : σ) (calls : List TxCall) (k : Key) : Prop :=
  ∃ earlier later, calls = earlier ++ .get k :: later ∧
    (after snap earlier).get k = .error .keyNotFound

theorem SawAbsent.absent {snap : σ} {calls : List TxCall} {k : Key}
    (h : SawAbsent snap calls k) : isReserved k = false ∧ Snapshot.get snap k = none := by
  obtain ⟨earlier, later, -, hget⟩ := h
  rw [get, after_snap] at hget
  split at hget
  · cases hget
  · rename_i hk
    split at hget
    · rename_i hnone
      exact ⟨Bool.eq_false_iff.mpr hk, hnone⟩
    · cases hget

end DpxTx

theorem writesTo_eq_nil_iff {tr : List Answered} {k : Key} :
    writesTo tr k = [] ↔ ∀ a ∈ tr, a.wrote k = false := by
  have hrec : writesTo tr k = [] ↔ records tr k = [] := by
    refine ⟨fun h => ?_, writesTo_eq_nil_of_records⟩
    have hlast := getLast?_records_isCredit tr k
    rw [h] at hlast
    exact List.getLast?_eq_none_iff.mp (Option.map_eq_none_iff.mp hlast)
  rw [hrec, ← not_iff_not, ← ne_eq, records_ne_nil_iff]
  simp only [not_forall, Bool.not_eq_false, exists_prop]

/-! ## Attempts -/

/-- One attempt of `RunInTx`: the run before its snapshot, what was answered since,
and the calls of the callback. -/
structure Attempt where
  before : List (List Proposal)
  since : List Answered
  calls : List TxCall

namespace Attempt

variable (t : Attempt) (d : DirectProposer State)

def snap : State := (d.run t.before).fsm.engine

/-- The attempt proposed what `a` answers, in the run of `batches`, after `pre`. -/
structure Proposed (batches : List (List Proposal)) (pre : List Answered) (a : Answered) :
    Prop where
  snapshot : ∃ after, batches = t.before ++ after
  answered : pre = d.trace t.before ++ t.since
  writes : a.proposal.writes = (DpxTx.after (t.snap d) t.calls).writes
  reads : a.proposal.readSet.Perm (DpxTx.after (t.snap d) t.calls).readSetSlice

/-- It inserts `k` because it found none, from a snapshot older than any write of `k`. -/
structure Inserts (k : Key) : Prop where
  saw : DpxTx.SawAbsent (t.snap d) t.calls k
  sets : ∃ v, .set k v ∈ t.calls
  early : ∀ b ∈ d.trace t.before, b.wrote k = false

/-- It also makes a call that notes the key though it is absent. -/
def Notes (k : Key) : Prop := ∃ delta : Int64, ¬ 0 < delta ∧ .atomicAdd k delta ∈ t.calls

/-- The last write of `k` since its snapshot, if any, was no credit. -/
def Uncredited (k : Key) : Prop := ∀ w, (writesTo t.since k).getLast? = some w → w.op ≠ .credit

variable {t d} {syncPolicy : SyncPolicy} {batches : List (List Proposal)}
  {pre post : List Answered} {a : Answered} {k : Key}

/-- Judged on the key, a committed attempt missed no write of it, unless a credit
came last. -/
theorem Proposed.unwritten_iff (h : t.Proposed d batches pre a)
    (hopen : DirectProposer.newDirectProposer State.empty syncPolicy = .ok d)
    (hwf : ∀ b ∈ batches, ∀ p ∈ b, p.WellFormed) (hwrap : batches.flatten.length < 2 ^ 64)
    (htrace : d.trace batches = pre ++ a :: post) (hc : a.committed = true)
    (hsaw : DpxTx.SawAbsent (t.snap d) t.calls k) (hnotes : t.Notes k) :
    (∀ b ∈ t.since, b.wrote k = false) ↔ t.Uncredited k := by
  rw [← writesTo_eq_nil_iff]
  constructor
  · intro hnil w hw
    rw [hnil] at hw
    cases hw
  · intro hlast
    obtain ⟨rest, rfl⟩ := h.snapshot
    rw [h.answered] at htrace
    obtain ⟨hsnap, hasc, start, -, hv⟩ := DirectProposer.judged_after hopen hwf hwrap htrace
    obtain ⟨hk, habsent⟩ := hsaw.absent
    have hsound := DpxTx.sound_after (t.snap d) t.calls
    obtain ⟨re, hre, rfl⟩ := (hsound.recorded_iff k).mp
      ((DpxTx.recorded_iff hk habsent t.calls).mpr hnotes)
    have hepoch := hsound.readSetSlice_epoch hre
    rw [DpxTx.after_snap] at hepoch
    have hepoch : re.epoch = (lastRecord .empty (d.trace t.before) re.key).epoch :=
      hepoch.trans (congrArg EpochRecord.epoch (hsnap.getVersion re.key))
    have hpass := hv.pass (of_decide_eq_true hc) re (h.reads.mem_iff.mpr hre)
    cases hw : (writesTo t.since re.key).getLast? with
    | none => exact List.getLast?_eq_none_iff.mp hw
    | some w => exact absurd (last_credit_of_pass (hasc re.key) hepoch hpass hw) (hlast w hw)

theorem Proposed.wrote (h : t.Proposed d batches pre a) (hins : t.Inserts d k)
    (hc : a.committed = true) : a.wrote k = true := by
  obtain ⟨v, hv⟩ := hins.sets
  have hmem := DpxTx.mem_writes_after (t.snap d) hins.saw.absent.1 hv
  rw [← h.writes] at hmem
  rw [Answered.wrote, hc, Bool.true_and]
  exact List.any_eq_true.mpr ⟨_, hmem, decide_eq_true rfl⟩

end Attempt

namespace DirectProposer

/-- **Inserting what was absent.**  In every run on the empty engine: a committed
attempt that saw `k` absent, and noted it, has missed no write of `k` exactly when no
credit of `k` came last; and of two attempts to insert `k`, both from before its first
write, the later one does not commit after the earlier if it has noted `k` and no
credit of `k` came last. -/
theorem inserts_guarded {d : DirectProposer State} {syncPolicy : SyncPolicy}
    (hopen : newDirectProposer State.empty syncPolicy = .ok d) (batches : List (List Proposal))
    (hwf : ∀ b ∈ batches, ∀ p ∈ b, p.WellFormed) (hwrap : batches.flatten.length < 2 ^ 64)
    (k : Key) :
    (∀ (t : Attempt) (pre : List Answered) (a : Answered) (post : List Answered),
      d.trace batches = pre ++ a :: post → t.Proposed d batches pre a → a.committed = true →
      DpxTx.SawAbsent (t.snap d) t.calls k → t.Notes k →
      ((∀ b ∈ t.since, b.wrote k = false) ↔ t.Uncredited k)) ∧
    ∀ (t t' : Attempt) (pre : List Answered) (a : Answered) (mid : List Answered) (a' : Answered)
      (post : List Answered), d.trace batches = pre ++ a :: mid ++ a' :: post →
      t.Proposed d batches pre a → t'.Proposed d batches (pre ++ a :: mid) a' →
      t.Inserts d k → t'.Inserts d k → t'.Notes k → t'.Uncredited k →
      ¬ (a.committed = true ∧ a'.committed = true) := by
  constructor
  · intro t pre a post htrace hprop hc hsaw hnotes
    exact hprop.unwritten_iff hopen hwf hwrap htrace hc hsaw hnotes
  · rintro t t' pre a mid a' post htrace hprop hprop' hins hins' hnotes hlast ⟨hc, hc'⟩
    have hwrote := hprop.wrote hins hc
    have hquiet := (hprop'.unwritten_iff hopen hwf hwrap htrace hc' hins'.saw hnotes).mpr hlast
    -- the earlier insert stands before the later snapshot, or after it
    have hmem : a ∈ d.trace t'.before ++ t'.since := by
      rw [← hprop'.answered]
      exact List.mem_append_right _ List.mem_cons_self
    rcases List.mem_append.mp hmem with hold | hsince
    · rw [hins'.early a hold] at hwrote
      cases hwrote
    · rw [hquiet a hsince] at hwrote
      cases hwrote

/-! ### Two inserts of one row -/

def row : Key := [0x6b]

/-- `Get`, then `Set`, with whatever is called in between. -/
def inserting (between : List TxCall) (v : UInt8) : List TxCall :=
  .get row :: between ++ [.set row [v]]

/-- What the two calls alone propose: no read at all. -/
def inserted (v : UInt8) : Proposal := ⟨[], [⟨.set, row, [v]⟩], 0, 0⟩

/-- What is proposed with an `AtomicAdd` of zero in between. -/
def insertedNoted (v : UInt8) : Proposal := ⟨[⟨row, 0, true⟩], [⟨.set, row, [v]⟩], 0, 0⟩

theorem inserting_inserts (since : List Answered) (between : List TxCall) (v : UInt8) :
    (⟨[], since, inserting between v⟩ : Attempt).Inserts opened row where
  saw := ⟨[], between ++ [.set row [v]], rfl, by rfl⟩
  sets := ⟨[v], List.mem_append_right _ (List.mem_singleton.mpr rfl)⟩
  early := fun _ hb => absurd hb List.not_mem_nil

/-- A write of another key, then two attempts that note the row. -/
def notedTwice : List (List Proposal) :=
  [[⟨[], [⟨.set, [0x6a], [7]⟩], 0, 0⟩], [insertedNoted 1], [insertedNoted 2]]

def elsewhere : Answered := ⟨1, ⟨[], [⟨.set, [0x6a], [7]⟩], 0, 0⟩, .ok⟩

/-- The first attempt has missed no write of the row, and the second does not commit. -/
theorem noted_insert_once :
    (∀ b ∈ [elsewhere], b.wrote row = false) ∧
      ¬ ((⟨2, insertedNoted 1, .ok⟩ : Answered).committed = true ∧
        (⟨3, insertedNoted 2, .conflicted⟩ : Answered).committed = true) := by
  let first : Attempt := ⟨[], [elsewhere], inserting [.atomicAdd row 0] 1⟩
  let second : Attempt := ⟨[], [elsewhere, ⟨2, insertedNoted 1, .ok⟩],
    inserting [.atomicAdd row 0] 2⟩
  have htrace : opened.trace notedTwice =
      [elsewhere, ⟨2, insertedNoted 1, .ok⟩, ⟨3, insertedNoted 2, .conflicted⟩] := by
    decide +kernel
  have hfirst : first.Proposed opened notedTwice [elsewhere] ⟨2, insertedNoted 1, .ok⟩ :=
    ⟨⟨_, rfl⟩, rfl, by decide +kernel, by decide +kernel⟩
  have hsecond : second.Proposed opened notedTwice [elsewhere, ⟨2, insertedNoted 1, .ok⟩]
      ⟨3, insertedNoted 2, .conflicted⟩ :=
    ⟨⟨_, rfl⟩, rfl, by decide +kernel, by decide +kernel⟩
  have hnotes : ∀ since v, (⟨[], since, inserting [.atomicAdd row 0] v⟩ : Attempt).Notes row :=
    fun _ _ => ⟨0, by decide, List.mem_cons_of_mem _ List.mem_cons_self⟩
  obtain ⟨hmissed, hone⟩ := inserts_guarded (newDirectProposer_empty .syncBatch) notedTwice
    (by decide) (by decide) row
  constructor
  · refine (hmissed first [elsewhere] _ _ htrace hfirst rfl (inserting_inserts _ _ _).saw
      (hnotes _ _)).mpr ?_
    intro w hw
    cases hw
  · refine hone first second [elsewhere] _ [] _ [] htrace hfirst hsecond
      (inserting_inserts _ _ _) (inserting_inserts _ _ _) (hnotes _ _) ?_
    intro w hw
    cases hw
    decide

/-- Two transactions find the row absent in the empty store and set it; neither has
anything to be validated, both commit, and the first value is gone. -/
theorem both_insert :
    opened.trace [[inserted 1], [inserted 2]] =
        [⟨1, inserted 1, .ok⟩, ⟨2, inserted 2, .ok⟩] ∧
      (⟨[], [], inserting [] 1⟩ : Attempt).Proposed opened [[inserted 1], [inserted 2]]
        [] ⟨1, inserted 1, .ok⟩ ∧
      (⟨[], [⟨1, inserted 1, .ok⟩], inserting [] 2⟩ : Attempt).Proposed opened
        [[inserted 1], [inserted 2]] [⟨1, inserted 1, .ok⟩] ⟨2, inserted 2, .ok⟩ ∧
      (⟨[], [], inserting [] 1⟩ : Attempt).Inserts opened row ∧
      (⟨[], [⟨1, inserted 1, .ok⟩], inserting [] 2⟩ : Attempt).Inserts opened row ∧
      (opened.run [[inserted 1], [inserted 2]]).fsm.engine.get row = some [2] := by
  refine ⟨by decide +kernel, ⟨⟨_, rfl⟩, rfl, ?_, ?_⟩, ⟨⟨_, rfl⟩, rfl, ?_, ?_⟩,
    inserting_inserts _ _ _, inserting_inserts _ _ _, by decide +kernel⟩
  all_goals decide +kernel

end DirectProposer

end Dpx
