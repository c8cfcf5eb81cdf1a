/-
# `Dpx.Conductor.Bodies` — one conflict test, written several times

The test of `dpxFSM.detectConflict` is there three more times: in both branches of
`applyBatchDirect` and in `applyInline`.  Besides `keyEpoch` they consult

    detectConflict, map branch    the LAST write of the key in this call
    stack branch                  the FIRST write of the key among the first 64 of the call
    applyInline                   nothing; and above 64 read entries not even `keyEpoch`

`keyEpoch` itself holds the last write, under an index that no read entry of the call can
have seen; until the index wraps.  So the map's shadow decides nothing that `keyEpoch` has
not decided (`judged_map_eq_noShadow`), and one engine batch for a list is the list applied
one by one (`group_commit`).  The stack's shadow does: a debit is pardoned after a credit,
and the stack looks at the wrong end (`bodies_agree_iff`, `debit_after_set_and_credit`).
-/
import Mathlib.Data.List.Induction
import Dpx.Conductor.History
import Dpx.Conductor.ShardedMvcc

namespace Dpx

/-! ## `applyInline` -/

namespace ShardedDirectProposer

theorem conflict_applyInline {σ : Type} [StorageEngine σ] (s : ShardedDirectProposer σ)
    (p : Proposal) : (s.applyInline p).1.conflict = (s.shards (route p)).conflicts p := by
  rw [applyInline]
  cases (s.shards (route p)).conflicts p with
  | true => rfl
  | false =>
      simp only [Bool.false_eq_true, if_false]
      generalize StorageEngine.applyBatch s.engine _ _ = out
      obtain ⟨err, eng⟩ := out
      cases err <;> rfl

theorem conflict_applyInlineMVCC (s : ShardedDirectProposer MVCCEngine) (p : Proposal) :
    (s.applyInlineMVCC p).1.conflict = (s.shards (route p)).conflicts p := by
  rw [applyInlineMVCC]
  split
  · simp only
    cases (s.shards (route p)).conflicts p <;> rfl
  · exact s.conflict_applyInline p

end ShardedDirectProposer

theorem detectConflict_fresh (keyEpoch : GoMap EpochRecord) (p : Proposal) :
    detectConflict keyEpoch p ∅ = p.readSet.any fun re => stale (epochOf keyEpoch re.key) re := by
  simp [detectConflict, shadowed]

theorem ShardProposer.conflicts_eq_iff (sp : ShardProposer) (p : Proposal) :
    sp.conflicts p = detectConflict sp.keyEpoch p ∅ ↔
      p.readSet.length ≤ maxStackShadow ∨
        ∀ re ∈ p.readSet, stale (epochOf sp.keyEpoch re.key) re = false := by
  rw [detectConflict_fresh, conflicts]
  by_cases hlen : p.readSet.length ≤ maxStackShadow
  · rw [if_pos hlen, stackConflict_eq_any]
    simp [hlen, stackShadowed]
  · rw [if_neg hlen, eq_comm, List.any_eq_false]
    simp [hlen]

/-- **`applyInline` and the state machine.**  Whatever the engine and the state of the
shard, the answer is Conflict exactly when `detectConflict` says so on the same map, if and
only if the read set has at most 64 entries or none of them is stale. -/
theorem inline_verdict_iff (p : Proposal) :
    (∀ {σ : Type} [StorageEngine σ] (s : ShardedDirectProposer σ),
      ((s.applyInline p).1.conflict = true ↔
        detectConflict (s.shards (route p)).keyEpoch p ∅ = true) ↔
      p.readSet.length ≤ maxStackShadow ∨
        ∀ re ∈ p.readSet, stale (epochOf (s.shards (route p)).keyEpoch re.key) re = false) ∧
    ∀ s : ShardedDirectProposer MVCCEngine,
      ((s.applyInlineMVCC p).1.conflict = true ↔
        detectConflict (s.shards (route p)).keyEpoch p ∅ = true) ↔
      p.readSet.length ≤ maxStackShadow ∨
        ∀ re ∈ p.readSet, stale (epochOf (s.shards (route p)).keyEpoch re.key) re = false := by
  constructor
  · intro σ _ s
    rw [s.conflict_applyInline, ← Bool.eq_iff_iff]
    exact (s.shards (route p)).conflicts_eq_iff p
  · intro s
    rw [s.conflict_applyInlineMVCC, ← Bool.eq_iff_iff]
    exact (s.shards (route p)).conflicts_eq_iff p

/-- Sixty-five stale reads of the key `k`. -/
def manyReads : Proposal := ⟨List.replicate 65 ⟨[0x6b], 0, false⟩, [⟨.set, [0x6b], [2]⟩], 0, 0⟩

/-- They pass, where the state machine reports a conflict. -/
theorem large_read_set_passes :
    let s := (ShardedDirectProposer.freshSharded.applyInline
      (ShardedDirectProposer.keyWrite 0x6b)).2
    (s.applyInline manyReads).1 = .ok ∧
      detectConflict (s.shards (route manyReads)).keyEpoch manyReads ∅ = true := by
  decide +kernel

/-! ## The loop over a batch, for any shadow -/

section Passes

variable {τ τ' : Type} {S : ShadowOps τ} {T : ShadowOps τ'} {s : BatchPass τ} {t : BatchPass τ'}

/-- Equal but for the shadow. -/
structure SamePass (s : BatchPass τ) (t : BatchPass τ') : Prop where
  index : s.index = t.index
  keyEpoch : s.keyEpoch = t.keyEpoch
  engBatch : s.engBatch = t.engBatch
  hasWrite : s.hasWrite = t.hasWrite

theorem judge_fst (S : ShadowOps τ) (s : BatchPass τ) (p : Proposal) :
    (judge S s p).1 = if conflicts S s p then .conflicted else .ok := by
  rw [judge]
  split <;> rfl

theorem judge_fst_eq_iff (p : Proposal) :
    (judge S s p).1 = (judge T t p).1 ↔ conflicts S s p = conflicts T t p := by
  rw [judge_fst, judge_fst]
  cases conflicts S s p <;> cases conflicts T t p <;> decide

theorem SamePass.judge (h : SamePass s t) {p : Proposal}
    (hv : conflicts S s p = conflicts T t p) :
    SamePass (Dpx.judge S s p).2 (Dpx.judge T t p).2 := by
  rw [Dpx.judge, Dpx.judge, ← hv]
  cases conflicts S s p with
  | true => exact ⟨congrArg (· + 1) h.index, h.keyEpoch, h.engBatch, h.hasWrite⟩
  | false =>
      simp only [Bool.false_eq_true, if_false, BatchPass.accept, h.index, h.keyEpoch, h.engBatch]
      exact ⟨rfl, rfl, rfl, rfl⟩

end Passes

theorem forall_split_concat {α : Type} {C : List α → α → Prop} (l : List α) (a : α) :
    (∀ xs b ys, l ++ [a] = xs ++ b :: ys → C xs b) ↔
      (∀ xs b ys, l = xs ++ b :: ys → C xs b) ∧ C l a := by
  constructor
  · intro h
    refine ⟨fun xs b ys hl => h xs b (ys ++ [a]) ?_, h l a [] rfl⟩
    rw [hl, List.append_assoc, List.cons_append]
  · rintro ⟨hold, hlast⟩ xs b ys hl
    rcases List.eq_nil_or_concat ys with rfl | ⟨zs, c, rfl⟩
    · obtain ⟨rfl, hb⟩ := List.append_inj' hl rfl
      cases hb
      exact hlast
    · have hl' : l ++ [a] = (xs ++ b :: zs) ++ [c] := by
        rw [hl, List.concat_eq_append, List.append_assoc, List.cons_append]
      exact hold xs b zs (List.append_inj' hl' rfl).1

namespace DirectProposer

variable {σ τ : Type} (d : DirectProposer σ) (S : ShadowOps τ)

/-- The loop over `ps` at the start of a batch. -/
def judged (ps : List Proposal) : List ApplyResult × BatchPass τ :=
  entryLoop (judge S) ps (d.startPass S.empty)

theorem judged_concat (ps : List Proposal) (p : Proposal) :
    d.judged S (ps ++ [p]) = ((d.judged S ps).1 ++ [(judge S (d.judged S ps).2 p).1],
      (judge S (d.judged S ps).2 p).2) :=
  entryLoop_append (judge S) ps [p] (d.startPass S.empty)

/-- The writes of the entries that were let pass, in order. -/
def filed (ps : List Proposal) : List WriteEntry :=
  (ps.zip (d.judged S ps).1).flatMap fun x => if x.2 = .ok then x.1.writes else []

theorem filed_concat (ps : List Proposal) (p : Proposal) :
    d.filed S (ps ++ [p]) = d.filed S ps ++
      if conflicts S (d.judged S ps).2 p then [] else p.writes := by
  have hlen : ps.length = (d.judged S ps).1.length := (length_entryLoop _ _ _).symm
  rw [filed, judged_concat, List.zip_append hlen, List.flatMap_append, filed, judge_fst]
  cases conflicts S (d.judged S ps).2 p with
  | true => simp [ApplyResult.ok_ne_conflicted.symm]
  | false => simp

variable {d S}

theorem judged_induction {P : Nat → List WriteEntry → BatchPass τ → Prop}
    (hstart : P 0 [] (d.startPass S.empty))
    (hskip : ∀ n ws s, P n ws s → P (n + 1) ws { s with index := s.index + 1 })
    (haccept : ∀ n ws s p, P n ws s → P (n + 1) (ws ++ p.writes) (s.accept S p))
    (ps : List Proposal) : P ps.length (d.filed S ps) (d.judged S ps).2 := by
  induction ps using List.reverseRecOn with
  | nil => exact hstart
  | append_singleton ps p ih =>
      rw [filed_concat, judged_concat, judge, List.length_append]
      cases conflicts S (d.judged S ps).2 p with
      | true =>
          simp only [if_true, List.append_nil]
          exact hskip _ _ _ ih
      | false =>
          simp only [Bool.false_eq_true, if_false]
          exact haccept _ _ _ p ih

/-- Two loops give the same answers if and only if at every entry, the answers before it
being the same, so are the verdicts. -/
theorem judged_eq_iff {τ' : Type} {T : ShadowOps τ'} {C : List Proposal → Proposal → Prop}
    {all : List Proposal}
    (hC : ∀ xs p ys, all = xs ++ p :: ys → (d.judged S xs).1 = (d.judged T xs).1 →
      (conflicts S (d.judged S xs).2 p = conflicts T (d.judged T xs).2 p ↔ C xs p)) :
    ∀ ps zs, all = ps ++ zs → ((d.judged S ps).1 = (d.judged T ps).1 ↔
      ∀ xs p ys, ps = xs ++ p :: ys → C xs p) := by
  intro ps
  induction ps using List.reverseRecOn with
  | nil =>
      intro zs _
      refine ⟨fun _ xs p ys h => ?_, fun _ => rfl⟩
      exact absurd h.symm (List.append_ne_nil_of_right_ne_nil _ (List.cons_ne_nil _ _))
  | append_singleton ps p ih =>
      intro zs hall
      have hsplit : all = ps ++ p :: zs := by rw [hall, List.append_assoc, List.singleton_append]
      rw [forall_split_concat, ← ih (p :: zs) hsplit, judged_concat, judged_concat]
      constructor
      · intro h
        obtain ⟨hold, hnew⟩ := List.append_inj' h rfl
        exact ⟨hold, (hC ps p zs hsplit hold).mp ((judge_fst_eq_iff p).mp (List.cons.inj hnew).1)⟩
      · rintro ⟨hold, hlast⟩
        have hverdict := (hC ps p zs hsplit hold).mpr hlast
        rw [hold, (judge_fst_eq_iff p).mpr hverdict]

theorem samePass_of_judged_eq {τ' : Type} {T : ShadowOps τ'} {ps : List Proposal}
    (h : (d.judged S ps).1 = (d.judged T ps).1) :
    SamePass (d.judged S ps).2 (d.judged T ps).2 := by
  induction ps using List.reverseRecOn with
  | nil => exact ⟨rfl, rfl, rfl, rfl⟩
  | append_singleton ps p ih =>
      rw [judged_concat, judged_concat] at h ⊢
      obtain ⟨hold, hnew⟩ := List.append_inj' h rfl
      exact (ih hold).judge ((judge_fst_eq_iff p).mp (List.cons.inj hnew).1)

end DirectProposer

/-! ## What the two shadows answer

Of the writes that were let pass, the map remembers the last one of a key and the array
the first one, if it is among the first 64. -/

/-- The write of `k` in the first slot that has one. -/
def firstSlot (ws : List WriteEntry) (k : Key) : Option WriteEntry :=
  (ws.take maxStackShadow).find? fun w => w.key = k

/-- A shadowed write against a read entry: it counts, but for a credit under a debit. -/
def counts (re : ReadEntry) : Option WriteEntry → Bool
  | some w => !(w.isCredit && re.isDebit)
  | none => false

/-- The map has the flag of the last write. -/
def LastKinds (ws : List WriteEntry) (shadow : Shadow) : Prop :=
  ∀ k, shadow[k]?.map EpochRecord.isCredit = (lastWrite ws k).map WriteEntry.isCredit

theorem LastKinds.epochs {ws : List WriteEntry} {shadow : Shadow} (h : LastKinds ws shadow)
    (i : UInt64) (vs : List WriteEntry) : LastKinds (ws ++ vs) (epochs i vs shadow) := by
  intro k
  rw [getElem?_epochs, lastWrite_append, recordAfter]
  cases lastWrite vs k with
  | some w => rfl
  | none => exact h k

theorem LastKinds.shadowed {ws : List WriteEntry} {shadow : Shadow} (h : LastKinds ws shadow)
    (re : ReadEntry) : shadowed shadow re = counts re (lastWrite ws re.key) := by
  have hk := h re.key
  revert hk
  rw [Dpx.shadowed]
  cases shadow[re.key]? with
  | none =>
      cases lastWrite ws re.key with
      | none => exact fun _ => rfl
      | some w =>
          intro hk
          cases hk
  | some s =>
      cases lastWrite ws re.key with
      | none =>
          intro hk
          cases hk
      | some w =>
          intro hk
          simp only [counts, Option.some.inj hk]

/-- The array has the first 64 writes. -/
def FirstSlots (ws : List WriteEntry) (stack : List ShadowEntry) : Prop :=
  stack.map (fun s => (s.key, s.epoch.isCredit)) =
    (ws.take maxStackShadow).map fun w => (w.key, w.isCredit)

theorem FirstSlots.push {ws : List WriteEntry} {stack : List ShadowEntry}
    (h : FirstSlots ws stack) (i : UInt64) (w : WriteEntry) :
    FirstSlots (ws ++ [w]) (pushShadow stack ⟨w.key, w.epochRecord i⟩) := by
  have hlen : stack.length = min maxStackShadow ws.length := by
    simpa using congrArg List.length h
  rw [FirstSlots, pushShadow, List.take_append]
  split
  · rename_i hroom
    have hws : ws.length < maxStackShadow := by omega
    obtain ⟨n, hn⟩ := Nat.exists_eq_add_of_lt hws
    have htake : [w].take (maxStackShadow - ws.length) = [w] := by
      rw [hn, show ws.length + n + 1 - ws.length = n + 1 by omega, List.take_succ_cons,
        List.take_nil]
    rw [htake, List.map_append, List.map_append, h]
    rfl
  · rename_i hfull
    have hws : maxStackShadow - ws.length = 0 := by omega
    rw [hws, List.take_zero, List.append_nil, h]

theorem FirstSlots.foldl {ws : List WriteEntry} {stack : List ShadowEntry}
    (h : FirstSlots ws stack) (i : UInt64) (vs : List WriteEntry) :
    FirstSlots (ws ++ vs) (vs.foldl (stackOps.note i) stack) := by
  induction vs generalizing ws stack with
  | nil =>
      rw [List.append_nil]
      exact h
  | cons v vs ih =>
      rw [List.append_cons]
      exact ih (h.push i v)

theorem stackShadowed_eq_counts {slots : List WriteEntry} {stack : List ShadowEntry}
    (h : stack.map (fun s => (s.key, s.epoch.isCredit)) = slots.map fun w => (w.key, w.isCredit))
    (re : ReadEntry) :
    stackShadowed stack re = counts re (slots.find? fun w => w.key = re.key) := by
  induction slots generalizing stack with
  | nil =>
      rw [List.map_eq_nil_iff.mp h]
      rfl
  | cons w slots ih =>
      obtain ⟨s, stack, rfl, hs, hrest⟩ := List.map_eq_cons_iff.mp h
      obtain ⟨hkey, hcredit⟩ := Prod.mk.inj hs
      rw [stackShadowed, List.find?_cons, ih hrest, hkey]
      split
      · rename_i hw
        simp only [hw, decide_true, counts, hcredit]
      · rename_i hw
        simp only [hw, decide_false]

theorem FirstSlots.stackShadowed {ws : List WriteEntry} {stack : List ShadowEntry}
    (h : FirstSlots ws stack) (re : ReadEntry) :
    stackShadowed stack re = counts re (firstSlot ws re.key) :=
  stackShadowed_eq_counts h re

namespace DirectProposer

variable {σ τ : Type} {d : DirectProposer σ} {S : ShadowOps τ}

theorem lastKinds_judged (d : DirectProposer σ) (ps : List Proposal) :
    LastKinds (d.filed mapOps ps) (d.judged mapOps ps).2.shadow :=
  judged_induction (S := mapOps) (P := fun _ ws s => LastKinds ws s.shadow) (fun _ => rfl)
    (fun _ _ _ h => h) (fun _ _ s p h => h.epochs (s.index + 1) p.writes) ps

theorem firstSlots_judged (d : DirectProposer σ) (ps : List Proposal) :
    FirstSlots (d.filed stackOps ps) (d.judged stackOps ps).2.shadow :=
  judged_induction (S := stackOps) (P := fun _ ws s => FirstSlots ws s.shadow) rfl
    (fun _ _ _ h => h) (fun _ _ s p h => h.foldl (s.index + 1) p.writes) ps

/-- Unless the index wraps, a key written in the loop has a record newer than the index the
loop started with, with the flag of the last write. -/
theorem newer_judged (d : DirectProposer σ) (S : ShadowOps τ) (ps : List Proposal) :
    d.index.toNat + ps.length < 2 ^ 64 →
      (d.judged S ps).2.index.toNat = d.index.toNat + ps.length ∧
      ∀ k w, lastWrite (d.filed S ps) k = some w →
        ∃ e, (d.judged S ps).2.keyEpoch[k]? = some ⟨e, w.isCredit⟩ ∧ d.index < e := by
  refine judged_induction (S := S) (P := fun n ws s => d.index.toNat + n < 2 ^ 64 →
    s.index.toNat = d.index.toNat + n ∧ ∀ k w, lastWrite ws k = some w →
      ∃ e, s.keyEpoch[k]? = some ⟨e, w.isCredit⟩ ∧ d.index < e) ?_ ?_ ?_ ps
  · intro _
    refine ⟨rfl, fun k w hw => ?_⟩
    cases hw
  · intro n ws s ih hroom
    obtain ⟨hindex, hnewer⟩ := ih (by omega)
    refine ⟨?_, hnewer⟩
    rw [UInt64.toNat_add, hindex]
    exact Nat.mod_eq_of_lt hroom
  · intro n ws s p ih hroom
    obtain ⟨hindex, hnewer⟩ := ih (by omega)
    have hnext : (s.index + 1).toNat = d.index.toNat + (n + 1) := by
      rw [UInt64.toNat_add, hindex]
      exact Nat.mod_eq_of_lt hroom
    refine ⟨hnext, fun k w hw => ?_⟩
    rw [lastWrite_append] at hw
    show ∃ e, (epochs (s.index + 1) p.writes s.keyEpoch)[k]? = some ⟨e, w.isCredit⟩ ∧ _
    rw [getElem?_epochs, recordAfter]
    cases hlast : lastWrite p.writes k with
    | none =>
        rw [hlast] at hw
        exact hnewer k w hw
    | some v =>
        rw [hlast] at hw
        cases hw
        refine ⟨s.index + 1, rfl, ?_⟩
        rw [UInt64.lt_iff_toNat_lt, hnext]
        omega

theorem stale_judged {ps : List Proposal} (hroom : d.index.toNat + ps.length < 2 ^ 64)
    {re : ReadEntry} (hre : re.epoch ≤ d.index) {w : WriteEntry}
    (hw : lastWrite (d.filed S ps) re.key = some w) :
    stale (epochOf (d.judged S ps).2.keyEpoch re.key) re = counts re (some w) := by
  obtain ⟨e, he, hlt⟩ := (d.newer_judged S ps hroom).2 _ w hw
  have hnew : re.epoch < e := UInt64.lt_of_le_of_lt hre hlt
  rw [epochOf, he, Option.getD_some, stale, counts, decide_eq_true hnew, Bool.true_and]

end DirectProposer

theorem any_or_eq {α : Type} (f g : α → Bool) (l : List α) :
    l.any (fun a => f a || g a) = (l.any f || l.any g) := by
  induction l with
  | nil => rfl
  | cons a l ih =>
      rw [List.any_cons, List.any_cons, List.any_cons, ih]
      cases f a <;> cases g a <;> cases l.any f <;> rfl

/-! ## Small and large batches -/

/-- A debit reads a key whose latest write is a credit, and the array shows it one that is
not: the credit is masked. -/
def Masked (ws : List WriteEntry) (re : ReadEntry) : Prop :=
  re.isDebit = true ∧ (lastWrite ws re.key).map WriteEntry.isCredit = some true ∧
    (firstSlot ws re.key).map WriteEntry.isCredit = some false

theorem lastWrite_ne_none_of_firstSlot {ws : List WriteEntry} {k : Key} {v : WriteEntry}
    (h : firstSlot ws k = some v) : lastWrite ws k ≠ none := by
  intro hnone
  have hmem : v ∈ ws := List.mem_of_mem_take (List.mem_of_find?_eq_some h)
  have hkey : v.key = k := by simpa using List.find?_some h
  exact lastWrite_eq_none_iff.mp hnone v hmem hkey

theorem counts_firstSlot_iff {ws : List WriteEntry} {re : ReadEntry}
    (h : counts re (lastWrite ws re.key) = false) :
    counts re (firstSlot ws re.key) = true ↔ Masked ws re := by
  rw [Masked]
  cases hfirst : firstSlot ws re.key with
  | none => simp [counts]
  | some v =>
      obtain ⟨w, hw⟩ := Option.ne_none_iff_exists'.mp (lastWrite_ne_none_of_firstSlot hfirst)
      rw [hw] at h ⊢
      -- the last write does not count, so it is a credit under a debit
      have hpardon : w.isCredit = true ∧ re.isDebit = true := by simpa [counts] using h
      simp [counts, hpardon]

/-- Where no read entry is stale, the shadows agree on whether one of them counts. -/
def AlikeAt (keyEpoch : GoMap EpochRecord) (ws : List WriteEntry) (p : Proposal) : Prop :=
  (p.readSet.any fun re => stale (epochOf keyEpoch re.key) re) = true ∨
    (p.readSet.any fun re => counts re (lastWrite ws re.key)) =
      p.readSet.any fun re => counts re (firstSlot ws re.key)

namespace DirectProposer

variable {σ : Type} {d : DirectProposer σ}

theorem conflicts_map_eq (d : DirectProposer σ) (ps : List Proposal) (p : Proposal) :
    conflicts mapOps (d.judged mapOps ps).2 p =
      ((p.readSet.any fun re => stale (epochOf (d.judged mapOps ps).2.keyEpoch re.key) re) ||
        p.readSet.any fun re => counts re (lastWrite (d.filed mapOps ps) re.key)) := by
  rw [conflicts, any_or_eq]
  congr 2
  funext re
  exact (d.lastKinds_judged ps).shadowed re

theorem conflicts_stack_eq (d : DirectProposer σ) (ps : List Proposal) (p : Proposal) :
    conflicts stackOps (d.judged stackOps ps).2 p =
      ((p.readSet.any fun re => stale (epochOf (d.judged stackOps ps).2.keyEpoch re.key) re) ||
        p.readSet.any fun re => counts re (firstSlot (d.filed stackOps ps) re.key)) := by
  rw [conflicts, any_or_eq]
  congr 2
  funext re
  exact (d.firstSlots_judged ps).stackShadowed re

theorem filed_congr {τ τ' : Type} {S : ShadowOps τ} {T : ShadowOps τ'} {ps : List Proposal}
    (h : (d.judged S ps).1 = (d.judged T ps).1) : d.filed S ps = d.filed T ps := by
  rw [filed, filed, h]

theorem conflicts_alike_iff {ps : List Proposal} (p : Proposal)
    (h : (d.judged stackOps ps).1 = (d.judged mapOps ps).1) :
    conflicts stackOps (d.judged stackOps ps).2 p = conflicts mapOps (d.judged mapOps ps).2 p ↔
      AlikeAt (d.judged mapOps ps).2.keyEpoch (d.filed mapOps ps) p := by
  rw [conflicts_stack_eq, conflicts_map_eq, (samePass_of_judged_eq h).keyEpoch, filed_congr h,
    AlikeAt]
  cases p.readSet.any fun re => stale (epochOf (d.judged mapOps ps).2.keyEpoch re.key) re with
  | true => simp
  | false => simp [eq_comm]

/-- Unless the index wraps, only a masked credit can tell the shadows apart. -/
theorem alikeAt_iff_of_lt {ps : List Proposal} {p : Proposal}
    (hroom : d.index.toNat + ps.length < 2 ^ 64) (hread : ∀ re ∈ p.readSet, re.epoch ≤ d.index) :
    AlikeAt (d.judged mapOps ps).2.keyEpoch (d.filed mapOps ps) p ↔
      (p.readSet.any fun re => stale (epochOf (d.judged mapOps ps).2.keyEpoch re.key) re) = true ∨
        ∀ re ∈ p.readSet, ¬ Masked (d.filed mapOps ps) re := by
  rw [AlikeAt]
  cases hstale : p.readSet.any fun re =>
      stale (epochOf (d.judged mapOps ps).2.keyEpoch re.key) re with
  | true => simp
  | false =>
      have hlast : ∀ re ∈ p.readSet, counts re (lastWrite (d.filed mapOps ps) re.key) = false := by
        intro re hre
        cases hw : lastWrite (d.filed mapOps ps) re.key with
        | none => rfl
        | some w =>
            rw [← stale_judged hroom (hread re hre) hw]
            simpa using List.any_eq_false.mp hstale re hre
      have hnone : (p.readSet.any fun re => counts re (lastWrite (d.filed mapOps ps) re.key)) =
          false := List.any_eq_false.mpr fun re hre => Bool.not_eq_true _ ▸ hlast re hre
      simp only [hnone, Bool.false_eq_true, false_or]
      rw [eq_comm, List.any_eq_false]
      constructor
      · intro h re hre hmask
        exact h re hre ((counts_firstSlot_iff (hlast re hre)).mpr hmask)
      · intro h re hre hcounts
        exact h re hre ((counts_firstSlot_iff (hlast re hre)).mp hcounts)

theorem judged_stack_eq_iff (d : DirectProposer σ) (ps : List Proposal) :
    (d.judged stackOps ps).1 = (d.judged mapOps ps).1 ↔ ∀ xs p ys, ps = xs ++ p :: ys →
      AlikeAt (d.judged mapOps xs).2.keyEpoch (d.filed mapOps xs) p :=
  judged_eq_iff (d := d) (fun _ p _ _ h => conflicts_alike_iff p h) ps [] (List.append_nil ps).symm

theorem entryLoop_stackEntry (d : DirectProposer σ) (ps : List Proposal) :
    entryLoop stackEntry ps (d.startPass []) = d.judged stackOps ps :=
  entryLoop_congr (fun p _ s => stackEntry_eq_judge s p) _

theorem entryLoop_mapEntry (d : DirectProposer σ) {ps : List Proposal}
    (hknown : ∀ p ∈ ps, ∀ w ∈ p.writes, w.op.known = true) :
    entryLoop mapEntry ps (d.startPass ∅) = d.judged mapOps ps :=
  entryLoop_congr (fun p hp s => mapEntry_eq_judge s (hknown p hp)) _

theorem room_before {ps xs ys : List Proposal} {p : Proposal} (hps : ps = xs ++ p :: ys)
    (hroom : d.index.toNat + ps.length < 2 ^ 64) :
    p ∈ ps ∧ d.index.toNat + xs.length < 2 ^ 64 := by
  subst hps
  rw [List.length_append] at hroom
  exact ⟨List.mem_append_right _ List.mem_cons_self, by omega⟩

/-- **Small and large batches.**  The stack body and the map body give the same answers,
`keyEpoch` and engine batch if and only if at every entry, unless one of its read entries is
stale, the two shadows agree; short of a wrap of the index, if and only if no such entry has
a debit read of a masked credit. -/
theorem bodies_agree_iff (d : DirectProposer σ) {ps : List Proposal}
    (hknown : ∀ p ∈ ps, ∀ w ∈ p.writes, w.op.known = true)
    (hread : ∀ p ∈ ps, ∀ re ∈ p.readSet, re.epoch ≤ d.index) :
    let small := entryLoop stackEntry ps (d.startPass [])
    let large := entryLoop mapEntry ps (d.startPass ∅)
    let before := fun xs => (entryLoop mapEntry xs (d.startPass ∅)).2.keyEpoch
    (small.1 = large.1 ∧ small.2.keyEpoch = large.2.keyEpoch ∧
        small.2.engBatch = large.2.engBatch ↔
      ∀ xs p ys, ps = xs ++ p :: ys → AlikeAt (before xs) (d.filed mapOps xs) p) ∧
    (d.index.toNat + ps.length < 2 ^ 64 →
      ((∀ xs p ys, ps = xs ++ p :: ys → AlikeAt (before xs) (d.filed mapOps xs) p) ↔
        ∀ xs p ys, ps = xs ++ p :: ys →
          (p.readSet.any fun re => stale (epochOf (before xs) re.key) re) = true ∨
            ∀ re ∈ p.readSet, ¬ Masked (d.filed mapOps xs) re)) := by
  have hbefore : ∀ xs p ys, ps = xs ++ p :: ys →
      entryLoop mapEntry xs (d.startPass ∅) = d.judged mapOps xs := by
    intro xs p ys hps
    refine d.entryLoop_mapEntry fun q hq => hknown q ?_
    rw [hps]
    exact List.mem_append_left _ hq
  intro small large before
  have hsmall : small = d.judged stackOps ps := d.entryLoop_stackEntry ps
  have hlarge : large = d.judged mapOps ps := d.entryLoop_mapEntry hknown
  constructor
  · rw [hsmall, hlarge]
    constructor
    · rintro ⟨heq, -, -⟩ xs p ys hps
      simp only [before, hbefore xs p ys hps]
      exact (d.judged_stack_eq_iff ps).mp heq xs p ys hps
    · intro h
      have heq : (d.judged stackOps ps).1 = (d.judged mapOps ps).1 := by
        refine (d.judged_stack_eq_iff ps).mpr fun xs p ys hps => ?_
        rw [← hbefore xs p ys hps]
        exact h xs p ys hps
      have hsame := samePass_of_judged_eq heq
      exact ⟨heq, hsame.keyEpoch, hsame.engBatch⟩
  · intro hroom
    refine forall_congr' fun xs => forall_congr' fun p => forall_congr' fun ys =>
      forall_congr' fun hps => ?_
    obtain ⟨hp, hlen⟩ := room_before hps hroom
    simp only [before, hbefore xs p ys hps]
    exact alikeAt_iff_of_lt hlen (hread p hp)

/-- A set, a credit and a debit of one account, the debit by a client that has not seen
either. -/
def maskedCredit : List Proposal :=
  [⟨[], [⟨.set, [0x6b], encodeInt64 5⟩], 0, 0⟩, ⟨[], [⟨.credit, [0x6b], encodeInt64 5⟩], 0, 0⟩,
    ⟨[⟨[0x6b], 0, true⟩], [⟨.debit, [0x6b], encodeInt64 (-5)⟩], 0, 0⟩]

/-- The array still has the set, the map the credit. -/
theorem debit_after_set_and_credit :
    (entryLoop stackEntry maskedCredit (opened.startPass [])).1 = [.ok, .ok, .conflicted] ∧
      (entryLoop mapEntry maskedCredit (opened.startPass ∅)).1 = [.ok, .ok, .ok] := by
  decide +kernel

theorem not_alike_maskedCredit :
    (∀ p ∈ maskedCredit, ∀ re ∈ p.readSet, re.epoch ≤ opened.index) ∧
      ¬ ∀ xs p ys, maskedCredit = xs ++ p :: ys →
        AlikeAt (entryLoop mapEntry xs (opened.startPass ∅)).2.keyEpoch
          (opened.filed mapOps xs) p := by
  have hread : ∀ p ∈ maskedCredit, ∀ re ∈ p.readSet, re.epoch ≤ opened.index := by decide
  have hdiffer : (entryLoop stackEntry maskedCredit (opened.startPass [])).1 ≠
      (entryLoop mapEntry maskedCredit (opened.startPass ∅)).1 := by decide +kernel
  refine ⟨hread, fun h => hdiffer ?_⟩
  exact ((bodies_agree_iff opened (by decide) hread).1.mpr h).1

end DirectProposer

/-! ## One batch and many -/

/-- No shadow at all. -/
def noShadow : ShadowOps Unit where
  empty := ()
  hit _ _ := false
  note _ _ _ := ()
  Noted _ _ := False
  not_noted_empty _ := id
  noted_of_hit h := Bool.noConfusion h
  noted_note h := h.elim

theorem conflicts_noShadow (s : BatchPass Unit) (p : Proposal) :
    conflicts noShadow s p = p.readSet.any fun re => stale (epochOf s.keyEpoch re.key) re := by
  simp [conflicts, noShadow]

namespace DirectProposer

section Redundant

variable {σ : Type} {d : DirectProposer σ}

theorem conflicts_map_of_lt {ps : List Proposal} {p : Proposal}
    (hroom : d.index.toNat + ps.length < 2 ^ 64) (hread : ∀ re ∈ p.readSet, re.epoch ≤ d.index) :
    conflicts mapOps (d.judged mapOps ps).2 p =
      p.readSet.any fun re => stale (epochOf (d.judged mapOps ps).2.keyEpoch re.key) re := by
  rw [conflicts_map_eq, Bool.or_eq_left_iff_imp]
  intro h
  obtain ⟨re, hre, hcounts⟩ := List.any_eq_true.mp h
  refine List.any_eq_true.mpr ⟨re, hre, ?_⟩
  cases hw : lastWrite (d.filed mapOps ps) re.key with
  | none =>
      rw [hw] at hcounts
      exact Bool.noConfusion hcounts
  | some w => rw [stale_judged hroom (hread re hre) hw, ← hw, hcounts]

/-- The map shadow is redundant with `keyEpoch`. -/
theorem judged_map_eq_noShadow {ps : List Proposal} (hroom : d.index.toNat + ps.length < 2 ^ 64)
    (hread : ∀ p ∈ ps, ∀ re ∈ p.readSet, re.epoch ≤ d.index) :
    (d.judged mapOps ps).1 = (d.judged noShadow ps).1 := by
  refine (judged_eq_iff (C := fun _ _ => True) ?_ ps [] (List.append_nil ps).symm).mpr
    fun _ _ _ _ => trivial
  intro xs p ys hps h
  obtain ⟨hp, hlen⟩ := room_before hps hroom
  rw [conflicts_map_of_lt hlen (hread p hp), conflicts_noShadow,
    (samePass_of_judged_eq h).keyEpoch]
  exact iff_of_true rfl trivial

end Redundant

section Single

variable {σ : Type} [StorageEngine σ]

/-- The map body, for a batch of any length. -/
def applyLarge (d : DirectProposer σ) (entries : List Proposal) :
    List ApplyResult × DirectProposer σ :=
  let (results, s) := entryLoop mapEntry entries (d.startPass ∅)
  d.commitPass results s

theorem applyBatchDirect_of_large (d : DirectProposer σ) {entries : List Proposal}
    (h : maxStackShadow < entries.length) : d.applyBatchDirect entries = d.applyLarge entries := by
  rw [applyBatchDirect, if_neg (Nat.not_le.mpr h)]
  rfl

/-- `ApplyOneDirect`: a batch of one, and the answer in its channel. -/
def applyOneDirect (d : DirectProposer σ) (p : Proposal) : Option ApplyResult × DirectProposer σ :=
  let (results, d') := d.applyBatchDirect [p]
  (results.head?, d')

/-- One call after the other. -/
def oneByOne : List Proposal → DirectProposer σ → List (Option ApplyResult) × DirectProposer σ
  | [], d => ([], d)
  | p :: ps, d =>
      ((d.applyOneDirect p).1 :: (oneByOne ps (d.applyOneDirect p).2).1,
        (oneByOne ps (d.applyOneDirect p).2).2)

end Single

theorem commitPass_state {τ : Type} (d : DirectProposer State) (results : List ApplyResult)
    (s : BatchPass τ) (hidle : s.hasWrite = false → s.engBatch = []) :
    (d.commitPass results s).1 = results ∧ (d.commitPass results s).2.index = s.index ∧
      (d.commitPass results s).2.fsm.keyEpoch = s.keyEpoch ∧
      (d.commitPass results s).2.fsm.engine = d.fsm.engine.applyOps s.engBatch := by
  rw [commitPass]
  cases hw : s.hasWrite with
  | false =>
      rw [hidle hw]
      exact ⟨rfl, rfl, rfl, rfl⟩
  | true =>
      refine ⟨rfl, rfl, rfl, ?_⟩
      show (if d.fsm.syncPolicy = .syncBatch then _ else _) = _
      exact ite_self _

/-- `d'` stands where the pass `s` of `d` would commit. -/
structure StandsAt (d : DirectProposer State) (s : BatchPass Unit) (d' : DirectProposer State) :
    Prop where
  index : d'.index = s.index
  keyEpoch : d'.fsm.keyEpoch = s.keyEpoch
  engine : d'.fsm.engine = d.fsm.engine.applyOps s.engBatch

theorem applyOneDirect_state (d : DirectProposer State) (p : Proposal) :
    (d.applyOneDirect p).1 = some (judge stackOps (d.startPass []) p).1 ∧
      (d.applyOneDirect p).2.index = (judge stackOps (d.startPass []) p).2.index ∧
      (d.applyOneDirect p).2.fsm.keyEpoch = (judge stackOps (d.startPass []) p).2.keyEpoch ∧
      (d.applyOneDirect p).2.fsm.engine =
        d.fsm.engine.applyOps (judge stackOps (d.startPass []) p).2.engBatch := by
  obtain ⟨hresults, hrest⟩ := d.commitPass_state [(judge stackOps (d.startPass []) p).1] _
    (entryLoop_judge_idle stackOps [p] (d.startPass []) fun _ => rfl)
  have hone : [p].length ≤ maxStackShadow := Nat.succ_le_succ (Nat.zero_le 63)
  rw [applyOneDirect, applyBatchDirect, if_pos hone, entryLoop_stackEntry]
  exact ⟨congrArg List.head? hresults, hrest⟩

theorem StandsAt.applyOneDirect {d d' : DirectProposer State} {s : BatchPass Unit}
    (h : d.StandsAt s d') (p : Proposal) :
    (d'.applyOneDirect p).1 = some (judge noShadow s p).1 ∧
      d.StandsAt (judge noShadow s p).2 (d'.applyOneDirect p).2 := by
  have hverdict : conflicts stackOps (d'.startPass []) p = conflicts noShadow s p := by
    rw [conflicts_noShadow, ← h.keyEpoch]
    simp [conflicts, stackOps, stackShadowed, startPass]
  obtain ⟨hresult, hindex, hkeyEpoch, hengine⟩ := d'.applyOneDirect_state p
  have hjudge : judge stackOps (d'.startPass []) p = _ := if_congr (by rw [hverdict]) rfl rfl
  rw [hjudge] at hresult hindex hkeyEpoch hengine
  rw [judge]
  cases hc : conflicts noShadow s p with
  | true =>
      rw [hc] at hresult hindex hkeyEpoch hengine
      refine ⟨hresult, ⟨?_, ?_, ?_⟩⟩
      · rw [hindex]
        exact congrArg (· + 1) h.index
      · exact hkeyEpoch.trans h.keyEpoch
      · exact hengine.trans h.engine
  | false =>
      rw [hc] at hresult hindex hkeyEpoch hengine
      refine ⟨hresult, ⟨?_, ?_, ?_⟩⟩
      · rw [hindex]
        exact congrArg (· + 1) h.index
      · rw [hkeyEpoch]
        show epochs (d'.index + 1) p.writes d'.fsm.keyEpoch = _
        rw [h.index, h.keyEpoch]
        rfl
      · rw [hengine, h.engine]
        show State.applyOps (d.fsm.engine.applyOps s.engBatch)
          ([] ++ (p.writes.flatMap (WriteEntry.ops (d'.index + 1)) ++ [appliedOp (d'.index + 1)])) =
            d.fsm.engine.applyOps (s.engBatch ++ _)
        rw [h.index, List.nil_append, State.applyOps, State.applyOps, ← List.foldl_append]
        rfl

theorem StandsAt.oneByOne {d : DirectProposer State} (ps : List Proposal) :
    ∀ {d' : DirectProposer State} {s : BatchPass Unit}, d.StandsAt s d' →
      (DirectProposer.oneByOne ps d').1 = (entryLoop (judge noShadow) ps s).1.map some ∧
        d.StandsAt (entryLoop (judge noShadow) ps s).2 (DirectProposer.oneByOne ps d').2 := by
  induction ps with
  | nil => exact fun h => ⟨rfl, h⟩
  | cons p ps ih =>
      intro d' s h
      obtain ⟨hfirst, hthen⟩ := h.applyOneDirect p
      obtain ⟨hrest, hend⟩ := ih hthen
      rw [DirectProposer.oneByOne, entryLoop, hfirst, hrest]
      exact ⟨rfl, hend⟩

/-- **Group commit.**  Unless the index wraps, the map body commits a list of proposals as
`ApplyOneDirect` does one after the other. -/
theorem group_commit (d : DirectProposer State) {ps : List Proposal}
    (hknown : ∀ p ∈ ps, ∀ w ∈ p.writes, w.op.known = true)
    (hread : ∀ p ∈ ps, ∀ re ∈ p.readSet, re.epoch ≤ d.index)
    (hroom : d.index.toNat + ps.length < 2 ^ 64) :
    let single := oneByOne ps d
    let group := d.applyLarge ps
    single.1 = group.1.map some ∧ single.2.fsm.engine = group.2.fsm.engine ∧
      single.2.fsm.keyEpoch = group.2.fsm.keyEpoch ∧ single.2.index = group.2.index := by
  have hsame := judged_map_eq_noShadow hroom hread
  have hpass := samePass_of_judged_eq hsame
  obtain ⟨hresults, hstands⟩ := StandsAt.oneByOne ps
    (⟨rfl, rfl, rfl⟩ : d.StandsAt (d.startPass ()) d)
  obtain ⟨hanswers, hindex, hkeyEpoch, hengine⟩ := d.commitPass_state (d.judged mapOps ps).1
    (d.judged mapOps ps).2 (entryLoop_judge_idle mapOps ps (d.startPass ∅) fun _ => rfl)
  intro single group
  have hgroup : group = d.commitPass (d.judged mapOps ps).1 (d.judged mapOps ps).2 := by
    show applyLarge d ps = _
    rw [applyLarge, d.entryLoop_mapEntry hknown]
  rw [hgroup, hanswers, hindex, hkeyEpoch, hengine]
  refine ⟨hresults.trans (congrArg (List.map some) hsame.symm), ?_, ?_, ?_⟩
  · rw [hpass.engBatch]
    exact hstands.engine
  · rw [hpass.keyEpoch]
    exact hstands.keyEpoch
  · rw [hpass.index]
    exact hstands.index

/-- A write of an account and a read of it by a client that has not seen the write. -/
def writeThenRead : List Proposal :=
  [⟨[], [⟨.set, [0x6b], [1]⟩], 0, 0⟩, ⟨[⟨[0x6b], 0, false⟩], [⟨.set, [0x6b], [2]⟩], 0, 0⟩]

theorem group_commit_writeThenRead :
    (oneByOne writeThenRead opened).1 = [some .ok, some .conflicted] ∧
      (opened.applyLarge writeThenRead).1.map some = [some .ok, some .conflicted] := by
  have hsingle : (oneByOne writeThenRead opened).1 = [some .ok, some .conflicted] := by
    decide +kernel
  refine ⟨hsingle, ?_⟩
  rw [← (group_commit opened (by decide) (by decide) (by decide)).1]
  exact hsingle

/-- The proposer whose next index is zero. -/
def atTheTop : DirectProposer State := { opened with index := 0xffffffffffffffff }

/-- At the wrap the first write gets epoch zero, which no read entry is older than: only the
shadow of a common batch still shows it. -/
theorem group_differs_at_wrap :
    (∀ p ∈ writeThenRead, ∀ re ∈ p.readSet, re.epoch ≤ atTheTop.index) ∧
      (oneByOne writeThenRead atTheTop).1 = [some .ok, some .ok] ∧
      (atTheTop.applyLarge writeThenRead).1 = [.ok, .conflicted] := by
  decide +kernel

end DirectProposer

end Dpx
