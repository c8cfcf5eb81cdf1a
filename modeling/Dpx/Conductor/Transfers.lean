/-
# `Dpx.Conductor.Transfers` — money moved by the single-node proposer

A transfer credits and debits user keys by amounts that cancel out modulo `2^64`.  It is
applied as a whole or turned away as a whole, so no snapshot of a run made of transfers
shows more or less money than the run began with (`money_conserved`).

Nothing is asked of the engine at the start, of the read sets or of the verdicts: the
mutations one transfer files are neutral (`Transfer.neutral`), hence so is whatever
selection of transfers a batch commits, and a neutral batch keeps the total.
-/
import Dpx.Engine.Money
import Dpx.Conductor.History

namespace Dpx

open scoped Word

/-! ## Transfers -/

/-- Credits and debits of user keys that cancel out. -/
structure Proposal.Transfer (p : Proposal) : Prop where
  merges : ∀ w ∈ p.writes, w.isMerge = true
  user : ∀ w ∈ p.writes, isReserved w.key = false
  balanced : (p.writes.map fun w => decodeInt64 w.value).sum = 0

theorem WriteEntry.ops_of_merge {w : WriteEntry} (hm : w.isMerge = true) (index : UInt64) :
    w.ops index = [.merge w.key w.value, w.versionOp index] := by
  obtain ⟨op, key, value⟩ := w
  cases op <;> simp_all [WriteEntry.isMerge, WriteEntry.ops, WriteEntry.dataOp]

theorem WriteEntry.versionOp_movement (w : WriteEntry) (index : UInt64) :
    (w.versionOp index).Movement ∧ (w.versionOp index).amount = 0 :=
  ⟨Or.inl (isReserved_versionKey w.key), rfl⟩

theorem neutral_appliedOp (index : UInt64) : BatchOp.Neutral [appliedOp index] where
  moves := by
    intro op hop
    rw [List.mem_singleton.mp hop]
    exact Or.inl isReserved_appliedKey
  cancel := rfl

namespace Proposal.Transfer

variable {p : Proposal}

theorem wellFormed (h : p.Transfer) : p.WellFormed :=
  ⟨fun w hw => WriteEntry.known_of_isMerge (h.merges w hw), h.user⟩

theorem amounts {ws : List WriteEntry} (hm : ∀ w ∈ ws, w.isMerge = true)
    (hu : ∀ w ∈ ws, isReserved w.key = false) (index : UInt64) :
    (∀ op ∈ ws.flatMap (WriteEntry.ops index), op.Movement) ∧
      ((ws.flatMap (WriteEntry.ops index)).map BatchOp.amount).sum =
        (ws.map fun w => decodeInt64 w.value).sum := by
  induction ws with
  | nil => exact ⟨fun _ h => absurd h List.not_mem_nil, rfl⟩
  | cons w ws ih =>
      simp only [List.forall_mem_cons] at hm hu
      obtain ⟨hmoves, hsum⟩ := ih hm.2 hu.2
      obtain ⟨hver, hzero⟩ := w.versionOp_movement index
      rw [List.flatMap_cons, WriteEntry.ops_of_merge hm.1]
      constructor
      · simp only [List.cons_append, List.nil_append, List.forall_mem_cons]
        exact ⟨Or.inr rfl, hver, hmoves⟩
      · have hamount : (BatchOp.merge w.key w.value).amount = decodeInt64 w.value := by
          simp [BatchOp.amount, hu.1]
        simp [hsum, hzero, hamount]

theorem neutral (h : p.Transfer) (index : UInt64) :
    BatchOp.Neutral (p.writes.flatMap (WriteEntry.ops index) ++ [appliedOp index]) := by
  obtain ⟨hmoves, hsum⟩ := amounts h.merges h.user index
  exact BatchOp.Neutral.append ⟨hmoves, hsum.trans h.balanced⟩ (neutral_appliedOp index)

end Proposal.Transfer

/-! ## Runs -/

theorem neutral_entryLoop {τ : Type} (S : ShadowOps τ) {ps : List Proposal}
    (hps : ∀ p ∈ ps, p.Transfer) :
    ∀ s : BatchPass τ, BatchOp.Neutral s.engBatch →
      BatchOp.Neutral (entryLoop (judge S) ps s).2.engBatch := by
  induction ps with
  | nil => intro s h; exact h
  | cons p ps ih =>
      intro s h
      simp only [List.forall_mem_cons] at hps
      refine ih hps.2 _ ?_
      rw [judge]
      split
      · exact h
      · exact h.append (hps.1.neutral _)

namespace DirectProposer

theorem total_batch (d : DirectProposer State) {ps : List Proposal}
    (hps : ∀ p ∈ ps, p.Transfer) :
    (d.applyBatchDirect ps).2.fsm.engine.total = d.fsm.engine.total := by
  obtain ⟨τ, S, -, -, -, hget⟩ := d.applyBatchDirect_spec fun p hp => (hps p hp).wellFormed
  have hneutral := neutral_entryLoop S hps (d.startPass S.empty) BatchOp.neutral_nil
  rw [← State.total_applyOps_neutral hneutral d.fsm.engine]
  refine State.total_congr fun k => ?_
  rw [State.get_applyOps]
  exact hget k

/-- **Money is conserved.**  From any state, with any engine contents, after every list of
batches of transfers the user keys add up to what they did at the start. -/
theorem money_conserved (d : DirectProposer State) (batches : List (List Proposal))
    (h : ∀ b ∈ batches, ∀ p ∈ b, p.Transfer) :
    (d.run batches).fsm.engine.total = d.fsm.engine.total := by
  induction batches generalizing d with
  | nil => rfl
  | cons batch batches ih =>
      simp only [List.forall_mem_cons] at h
      exact (ih (d.applyBatchDirect batch).2 h.2).trans (d.total_batch h.1)

/-- Moves 5 from the key `a` to the key `b`. -/
def move : Proposal :=
  ⟨[⟨[0x61], 0, true⟩],
    [⟨.debit, [0x61], encodeInt64 (-5)⟩, ⟨.credit, [0x62], encodeInt64 5⟩], 0, 0⟩

/-- An engine in which `a` holds 7 and `b` three stray bytes. -/
def uneven : State :=
  ⟨(∅ : GoMap Bytes).insert [0x61] (encodeInt64 7) |>.insert [0x62] [1, 2, 3], 0⟩

/-- The second move is stale and turned away; the total stays 7. -/
theorem moves_keep_seven :
    ((⟨DpxFSM.new uneven .syncBatch, 0⟩ : DirectProposer State).run
      [[move], [move]]).fsm.engine.total = 7 := by
  have hmove : move.Transfer := ⟨by decide, by decide, by decide +kernel⟩
  refine (money_conserved ⟨DpxFSM.new uneven .syncBatch, 0⟩ [[move], [move]] ?_).trans ?_
  · intro b hb p hp
    simp only [List.mem_cons, List.not_mem_nil, or_false, or_self] at hb
    subst hb
    rw [List.mem_singleton.mp hp]
    exact hmove
  · decide +kernel

end DirectProposer

end Dpx
