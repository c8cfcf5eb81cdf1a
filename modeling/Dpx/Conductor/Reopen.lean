/-
# `Dpx.Conductor.Reopen` — a proposer on an engine that has a past

`newDirectProposer` rebuilds `keyEpoch` from the stored version records and drops the
applied index that `open` hands back, so the index counter of every new proposer
starts at zero.  The first commits after a reopen carry numbers that are already in
use: a record written at epoch 1 replaces one of epoch 2, and a reader that saw
epoch 2 finds nothing newer (`reopened_epoch_falls`).

`epochs_survive_iff` is the law with the condition it needs: whenever a proposal that commits is
numbered, the counter has reached every stored epoch (`Reached`).  A proposer opened on an engine
without version records always meets it (`Counted`); one that is reopened meets it again once it
has numbered enough proposals, and proposals that are turned away count.
-/
import Dpx.Conductor.History

namespace Dpx

namespace DirectProposer

/-- The engine holds no version record. -/
def NoVersions (s : State) : Prop := ∀ k, s.get (versionKey k) = none

/-- What becomes of an engine that first holds `s`: it is opened, takes batches, and is opened again
after a shutdown, which keeps it.  The list has every batch with the proposer that took it. -/
inductive Life (s : State) :
    List (DirectProposer State × List Proposal) → DirectProposer State → Prop where
  | opened {e : DirectProposer State} {syncPolicy : SyncPolicy}
      (hopen : newDirectProposer s syncPolicy = .ok e) : Life s [] e
  | batch {ms : List (DirectProposer State × List Proposal)} {e : DirectProposer State}
      {entries : List Proposal} (h : Life s ms e) (hwf : ∀ p ∈ entries, p.WellFormed)
      (hwrap : e.index.toNat + entries.length < 2 ^ 64) :
      Life s (ms ++ [(e, entries)]) (e.applyBatchDirect entries).2
  | reopened {ms : List (DirectProposer State × List Proposal)} {e e' : DirectProposer State}
      {syncPolicy : SyncPolicy} (h : Life s ms e)
      (hopen : newDirectProposer e.fsm.engine syncPolicy = .ok e') : Life s ms e'

/-- The counter has reached every stored epoch. -/
def Counted (d : DirectProposer State) : Prop :=
  ∀ k, (d.fsm.engine.getVersion k).epoch.toNat ≤ d.index.toNat

theorem newDirectProposer_ok {s : State} {syncPolicy : SyncPolicy} {d : DirectProposer State}
    (h : newDirectProposer s syncPolicy = .ok d) : d.fsm.engine = s ∧ d.index = 0 := by
  rw [newDirectProposer] at h
  cases ho : (DpxFSM.new s syncPolicy).open with
  | error e => rw [ho] at h; cases h
  | ok f =>
      rw [ho] at h
      cases h
      exact ⟨DpxFSM.open_engine ho, rfl⟩

theorem getVersion_of_noVersions {s : State} (h : NoVersions s) (k : Key) :
    s.getVersion k = .zero := by
  rw [State.getVersion_eq, h k]
  rfl

theorem counted_of_opened {s : State} {syncPolicy : SyncPolicy} {d : DirectProposer State}
    (hopen : newDirectProposer s syncPolicy = .ok d) (h : NoVersions s) : Counted d := by
  intro k
  rw [(newDirectProposer_ok hopen).1, getVersion_of_noVersions h]
  exact Nat.zero_le _

/-! ## One batch -/

section Batch
variable {d : DirectProposer State} {entries : List Proposal}
  (hwf : ∀ p ∈ entries, p.WellFormed) (hwrap : d.index.toNat + entries.length < 2 ^ 64)
include hwf hwrap

theorem getVersion_batch (k : Key) :
    (d.applyBatchDirect entries).2.fsm.engine.getVersion k =
      (records (d.answered entries) k).getLast?.getD (d.fsm.engine.getVersion k) := by
  obtain ⟨hexp, -⟩ := d.explains_base.batch hwf hwrap
  have hver : (d.applyBatchDirect entries).2.fsm.engine.get (versionKey k) = _ :=
    hexp.version_eq k
  rw [State.getVersion_eq, hver, List.nil_append]
  cases (records (d.answered entries) k).getLast? with
  | none => exact (State.getVersion_eq _ _).symm
  | some r => exact decodeEpochRecord_encode r

theorem records_bound {k : Key} {r : EpochRecord} (hr : r ∈ records (d.answered entries) k) :
    d.index.toNat < r.epoch.toNat ∧
      r.epoch.toNat ≤ (d.applyBatchDirect entries).2.index.toNat := by
  obtain ⟨hexp, -⟩ := d.explains_base.batch hwf hwrap
  obtain ⟨a, ha, har⟩ := List.mem_filterMap.mp hr
  rw [Answered.record_epoch har, hexp.index_eq, List.nil_append]
  exact hexp.bounds a ha

theorem index_batch_le : d.index.toNat ≤ (d.applyBatchDirect entries).2.index.toNat := by
  obtain ⟨hexp, -⟩ := d.explains_base.batch hwf hwrap
  rw [hexp.index_eq]
  exact Nat.le_add_right _ _

/-- On a counted proposer a batch only raises versions, and leaves it counted. -/
theorem Counted.batch (h : Counted d) :
    Counted (d.applyBatchDirect entries).2 ∧
      ∀ k, (d.fsm.engine.getVersion k).epoch.toNat ≤
        ((d.applyBatchDirect entries).2.fsm.engine.getVersion k).epoch.toNat := by
  have hboth : ∀ k, (d.fsm.engine.getVersion k).epoch.toNat ≤
        ((d.applyBatchDirect entries).2.fsm.engine.getVersion k).epoch.toNat ∧
      ((d.applyBatchDirect entries).2.fsm.engine.getVersion k).epoch.toNat ≤
        (d.applyBatchDirect entries).2.index.toNat := by
    intro k
    rw [getVersion_batch hwf hwrap]
    cases hlast : (records (d.answered entries) k).getLast? with
    | none => exact ⟨Nat.le_refl _, Nat.le_trans (h k) (index_batch_le hwf hwrap)⟩
    | some r =>
        obtain ⟨hlo, hhi⟩ := records_bound hwf hwrap (List.mem_of_getLast? hlast)
        exact ⟨Nat.le_trans (h k) (Nat.le_of_lt hlo), hhi⟩
  exact ⟨fun k => (hboth k).2, fun k => (hboth k).1⟩

theorem getVersion_batch_cases (k : Key) :
    (d.applyBatchDirect entries).2.fsm.engine.getVersion k = d.fsm.engine.getVersion k ∨
      ∃ a ∈ d.answered entries, a.committed = true ∧
        ((d.applyBatchDirect entries).2.fsm.engine.getVersion k).epoch = a.index := by
  rw [getVersion_batch hwf hwrap]
  cases hlast : (records (d.answered entries) k).getLast? with
  | none => exact Or.inl rfl
  | some r =>
      obtain ⟨a, ha, hrec⟩ := List.mem_filterMap.mp (List.mem_of_getLast? hlast)
      have hwrote : a.wrote k = true := by rw [← a.record_isSome, hrec]; rfl
      exact Or.inr ⟨a, ha, (Bool.and_eq_true_iff.mp hwrote).1, Answered.record_epoch hrec⟩

theorem keyEpoch_batch {a : Answered} (ha : a ∈ d.answered entries) {k : Key}
    (hwrote : a.wrote k = true) :
    ∃ a' ∈ d.answered entries, a'.committed = true ∧
      (epochOf (d.applyBatchDirect entries).2.fsm.keyEpoch k).epoch = a'.index := by
  obtain ⟨hexp, -⟩ := d.explains_base.batch hwf hwrap
  rw [hexp.epochOf_eq, lastRecord, List.nil_append]
  cases hlast : (records (d.answered entries) k).getLast? with
  | none =>
      have hnil := List.getLast?_eq_none_iff.mp hlast
      exact absurd hnil (records_ne_nil_iff.mpr ⟨a, ha, hwrote⟩)
  | some r =>
      obtain ⟨a', ha', hrec⟩ := List.mem_filterMap.mp (List.mem_of_getLast? hlast)
      have hwrote' : a'.wrote k = true := by rw [← a'.record_isSome, hrec]; rfl
      exact ⟨a', ha', (Bool.and_eq_true_iff.mp hwrote').1, Answered.record_epoch hrec⟩

end Batch

/-! ## A whole life -/

/-- When the batch numbers a proposal that commits, the counter has reached every stored epoch. -/
def Reached (m : DirectProposer State × List Proposal) : Prop :=
  ∀ pre a post, m.1.answered m.2 = pre ++ a :: post → a.committed = true →
    ∀ k, (m.1.fsm.engine.getVersion k).epoch.toNat ≤ m.1.index.toNat + pre.length

/-- The index of every commit of the batch is above every stored epoch. -/
def Above (m : DirectProposer State × List Proposal) : Prop :=
  ∀ a ∈ m.1.answered m.2, a.committed = true →
    ∀ k, (m.1.fsm.engine.getVersion k).epoch < a.index

theorem answers_index {ps : List Proposal} :
    ∀ {i : UInt64} {rs : List ApplyResult} {pre post : List Answered} {a : Answered},
      i.toNat + ps.length < 2 ^ 64 → answers i ps rs = pre ++ a :: post →
        a.index.toNat = i.toNat + pre.length + 1 := by
  induction ps with
  | nil =>
      intro i rs pre post a _ h
      exact absurd h.symm (List.append_ne_nil_of_right_ne_nil _ (List.cons_ne_nil _ _))
  | cons p ps ih =>
      intro i rs pre post a hlt h
      rw [List.length_cons] at hlt
      have hsucc : (i + 1).toNat = i.toNat + 1 := by
        rw [UInt64.toNat_add]
        exact Nat.mod_eq_of_lt (by show _ + 1 < 2 ^ 64; omega)
      cases rs with
      | nil => exact absurd h.symm (List.append_ne_nil_of_right_ne_nil _ (List.cons_ne_nil _ _))
      | cons r rs =>
          rw [answers] at h
          cases pre with
          | nil =>
              obtain ⟨rfl, -⟩ := List.cons.inj h
              exact hsucc
          | cons b pre =>
              obtain ⟨-, htail⟩ := List.cons.inj h
              rw [ih (by rw [hsucc]; omega) htail, hsucc, List.length_cons]
              omega

theorem Counted.reached {d : DirectProposer State} (h : Counted d) (entries : List Proposal) :
    Reached (d, entries) :=
  fun _ _ _ _ _ k => Nat.le_add_right_of_le (h k)

theorem above_iff_reached {m : DirectProposer State × List Proposal}
    (hwrap : m.1.index.toNat + m.2.length < 2 ^ 64) : Above m ↔ Reached m := by
  constructor
  · intro h pre a post hsplit hc k
    have hlt := UInt64.lt_iff_toNat_lt.mp (h a (by rw [hsplit]; simp) hc k)
    rw [answers_index hwrap hsplit] at hlt
    exact Nat.le_of_lt_succ hlt
  · intro h a ha hc k
    obtain ⟨pre, post, hsplit⟩ := List.append_of_mem ha
    refine UInt64.lt_iff_toNat_lt.mpr ?_
    rw [answers_index hwrap hsplit]
    exact Nat.lt_succ_of_le (h pre a post hsplit hc k)

namespace Life

variable {s : State} {ms : List (DirectProposer State × List Proposal)}
  {e : DirectProposer State}

theorem cut (h : Life s ms e) : ∀ {pre post : List (DirectProposer State × List Proposal)}
    {m : DirectProposer State × List Proposal}, ms = pre ++ m :: post →
      Life s pre m.1 ∧ (∀ p ∈ m.2, p.WellFormed) ∧ m.1.index.toNat + m.2.length < 2 ^ 64 := by
  induction h with
  | opened =>
      intro pre post m hsplit
      exact absurd hsplit.symm (List.append_ne_nil_of_right_ne_nil _ (List.cons_ne_nil _ _))
  | batch h hwf hwrap ih =>
      intro pre post m hsplit
      rcases List.eq_nil_or_concat post with rfl | ⟨post, m', rfl⟩
      · obtain ⟨rfl, hm⟩ := List.append_inj' hsplit rfl
        obtain rfl := List.singleton_inj.mp hm
        exact ⟨h, hwf, hwrap⟩
      · rw [List.concat_eq_append, ← List.cons_append, ← List.append_assoc] at hsplit
        exact ih (List.append_inj' hsplit rfl).1
  | reopened _ _ ih => exact fun hsplit => ih hsplit

/-- While every commit is above what is stored, versions only rise. -/
theorem rises (h : Life s ms e) (habove : ∀ m ∈ ms, Above m) :
    ∀ m ∈ ms, ∀ k, (m.1.fsm.engine.getVersion k).epoch.toNat ≤
      (e.fsm.engine.getVersion k).epoch.toNat := by
  induction h with
  | opened => exact fun m hm => absurd hm List.not_mem_nil
  | @batch ms e entries h hwf hwrap ih =>
      have hlast : Above (e, entries) := habove _ (List.mem_append_right _ List.mem_cons_self)
      have hstep : ∀ k, (e.fsm.engine.getVersion k).epoch.toNat ≤
          ((e.applyBatchDirect entries).2.fsm.engine.getVersion k).epoch.toNat := by
        intro k
        rcases getVersion_batch_cases hwf hwrap k with hsame | ⟨a, ha, hc, hnum⟩
        · rw [hsame]
        · rw [hnum]
          exact Nat.le_of_lt (UInt64.lt_iff_toNat_lt.mp (hlast a ha hc k))
      intro m hm k
      rcases List.mem_append.mp hm with hold | hnew
      · have hbefore := ih (fun m hm => habove m (List.mem_append_left _ hm)) m hold k
        exact Nat.le_trans hbefore (hstep k)
      · rw [List.mem_singleton.mp hnew]
        exact hstep k
  | reopened _ hopen ih =>
      intro m hm k
      rw [(newDirectProposer_ok hopen).1]
      exact ih habove m hm k

end Life

/-- The index of every commit is above every stored epoch, and the commit takes `keyEpoch` of each
key it writes above the epoch of the key in the snapshots of every state up to it. -/
structure EpochsSurvive (ms : List (DirectProposer State × List Proposal)) : Prop where
  above : ∀ m ∈ ms, Above m
  exceeds : ∀ pre m post, ms = pre ++ m :: post → ∀ a ∈ m.1.answered m.2, ∀ k,
    a.wrote k = true → ∀ m' ∈ pre ++ [m], (m'.1.fsm.engine.getVersion k).epoch <
      (epochOf (m.1.applyBatchDirect m.2).2.fsm.keyEpoch k).epoch

/-- **Epochs survive a reopen**, in every life of an engine, if and only if the counter has reached
every stored epoch whenever a proposal that commits is numbered. -/
theorem epochs_survive_iff {s : State} {ms : List (DirectProposer State × List Proposal)}
    {e : DirectProposer State} (h : Life s ms e) :
    EpochsSurvive ms ↔ ∀ m ∈ ms, Reached m := by
  have hiff : ∀ m ∈ ms, (Above m ↔ Reached m) := by
    intro m hm
    obtain ⟨pre, post, hsplit⟩ := List.append_of_mem hm
    exact above_iff_reached (h.cut hsplit).2.2
  refine ⟨fun hs m hm => (hiff m hm).mp (hs.above m hm), fun hreached => ?_⟩
  have habove : ∀ m ∈ ms, Above m := fun m hm => (hiff m hm).mpr (hreached m hm)
  refine ⟨habove, fun pre m post hsplit a ha k hwrote m' hm' => ?_⟩
  obtain ⟨hlife, hwf, hwrap⟩ := h.cut hsplit
  obtain ⟨a', ha', hc', hnum⟩ := keyEpoch_batch hwf hwrap ha hwrote
  have hm : m ∈ ms := by rw [hsplit]; simp
  have hold : (m'.1.fsm.engine.getVersion k).epoch.toNat ≤
      (m.1.fsm.engine.getVersion k).epoch.toNat := by
    rcases List.mem_append.mp hm' with hpre | hself
    · refine hlife.rises (fun m hm => habove m ?_) m' hpre k
      rw [hsplit]
      exact List.mem_append_left _ hm
    · rw [List.mem_singleton.mp hself]
  rw [hnum]
  exact UInt64.lt_iff_toNat_lt.mpr
    (Nat.lt_of_le_of_lt hold (UInt64.lt_iff_toNat_lt.mp (habove m hm a' ha' hc' k)))

/-! ## A reopen that loses an update -/

/-- A blind write of one key. -/
def overwrite : Proposal := ⟨[], [⟨.set, [0x6b], [1]⟩], 0, 0⟩

/-- A write of the key by a client that read it at epoch 2. -/
def rereader : Proposal := ⟨[⟨[0x6b], 2, false⟩], [⟨.set, [0x6b], [2]⟩], 0, 0⟩

/-- The engine is reopened after one overwrite, a proposal that read `k` before it is turned away,
and `k` is overwritten again. -/
def caughtUp (d : DirectProposer State) : List (DirectProposer State × List Proposal) :=
  [(opened, [overwrite]), (d, [earlierRead]), ((d.applyBatchDirect [earlierRead]).2, [overwrite])]

/-- The proposal that is turned away takes the number in use, and the overwrite the next one. -/
theorem caught_up_survives :
    ∃ d, newDirectProposer (opened.run [[overwrite]]).fsm.engine .syncBatch = .ok d ∧
      EpochsSurvive (caughtUp d) ∧
      (d.applyBatchDirect [earlierRead]).2.answered [overwrite] = [⟨2, overwrite, .ok⟩] := by
  have hrun : (newDirectProposer (opened.run [[overwrite]]).fsm.engine .syncBatch).toOption.map
      (fun d => (d.index, d.answered [earlierRead], (d.applyBatchDirect [earlierRead]).2.index,
        (d.applyBatchDirect [earlierRead]).2.answered [overwrite])) =
      some (0, [⟨1, earlierRead, .conflicted⟩], 1, [⟨2, overwrite, .ok⟩]) := by
    decide +kernel
  cases hopen : newDirectProposer (opened.run [[overwrite]]).fsm.engine .syncBatch with
  | error e => rw [hopen] at hrun; cases hrun
  | ok d =>
      rw [hopen] at hrun
      simp only [Except.toOption, Option.map_some, Option.some.injEq, Prod.mk.injEq] at hrun
      obtain ⟨hzero, hstale, hone, hans⟩ := hrun
      have hfirst : Counted opened :=
        counted_of_opened (newDirectProposer_empty .syncBatch) fun k => State.get_empty _
      have hsecond : Counted (opened.applyBatchDirect [overwrite]).2 :=
        (hfirst.batch (by decide) (by decide)).1
      have hlife : Life State.empty (caughtUp d) _ :=
        .batch (.batch (.reopened (.batch (.opened (newDirectProposer_empty .syncBatch))
          (by decide) (by decide)) hopen) (by decide) (by rw [hzero]; decide))
          (by decide) (by rw [hone]; decide)
      refine ⟨d, rfl, (epochs_survive_iff hlife).mpr ?_, hans⟩
      refine List.forall_mem_cons.mpr ⟨hfirst.reached _, List.forall_mem_cons.mpr
        ⟨fun pre a post hsplit hc => ?_, List.forall_mem_singleton.mpr (Counted.reached ?_ _)⟩⟩
      · -- what is turned away does not commit
        have ha : a ∈ d.answered [earlierRead] := by rw [hsplit]; simp
        rw [hstale] at ha
        rw [List.mem_singleton.mp ha] at hc
        exact absurd hc (by decide)
      · intro k
        rw [getVersion_batch (by decide) (by rw [hzero]; decide), hstale,
          (newDirectProposer_ok hopen).1, hone]
        exact hsecond k

/-- Two overwrites, a reopen, a third overwrite: it is given index 1 while the stored
epoch is 2, `keyEpoch` falls to 1, and the client that read epoch 2 before the third
overwrite commits over it. -/
theorem reopened_epoch_falls :
    ∃ d, newDirectProposer (opened.run [[overwrite], [overwrite]]).fsm.engine .syncBatch =
        .ok d ∧
      d.answered [overwrite] = [⟨1, overwrite, .ok⟩] ∧
      ¬ (d.fsm.engine.getVersion [0x6b]).epoch < 1 ∧
      ¬ (d.fsm.engine.getVersion [0x6b]).epoch <
        (epochOf (d.applyBatchDirect [overwrite]).2.fsm.keyEpoch [0x6b]).epoch ∧
      (d.applyBatchDirect [overwrite]).2.answered [rereader] = [⟨2, rereader, .ok⟩] := by
  have hrun : (newDirectProposer (opened.run [[overwrite], [overwrite]]).fsm.engine
      .syncBatch).toOption.map (fun d =>
        (d.answered [overwrite], (d.fsm.engine.getVersion [0x6b]).epoch,
          (epochOf (d.applyBatchDirect [overwrite]).2.fsm.keyEpoch [0x6b]).epoch,
          (d.applyBatchDirect [overwrite]).2.answered [rereader])) =
      some ([⟨1, overwrite, .ok⟩], 2, 1, [⟨2, rereader, .ok⟩]) := by
    decide +kernel
  cases hopen : newDirectProposer (opened.run [[overwrite], [overwrite]]).fsm.engine
      .syncBatch with
  | error e => rw [hopen] at hrun; cases hrun
  | ok d =>
      rw [hopen] at hrun
      obtain ⟨hans, hrest⟩ := Prod.mk.inj (Option.some.inj hrun)
      obtain ⟨hver, hrest⟩ := Prod.mk.inj hrest
      obtain ⟨hke, hread⟩ := Prod.mk.inj hrest
      refine ⟨d, rfl, hans, ?_, ?_, hread⟩
      · rw [hver]
        decide
      · rw [hver, hke]
        decide

end DirectProposer

end Dpx
