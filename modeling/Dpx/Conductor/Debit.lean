/-
# `Dpx.Conductor.Debit` — debits, and what their validation overlooks

A debit read entry is pardoned when the last write of its key was a credit: money
that came in since the snapshot cannot turn a covered debit into an overdraft.  But
`keyEpoch` keeps the kind of the LAST write only.  A debit, a set or a delete that
came in since the snapshot is forgotten as soon as any credit follows it, and the
stale debit then commits (`masked_debit_commits`: a balance of 100 is paid out twice
and ends at −99).

`Unmasked` is the condition under which the last write speaks for all of them.  With
it a committed debit has seen only credits since its snapshot, and without it it has
not: `debits_guarded` states the equivalence, and, for callbacks that abort on a
negative balance, that no balance kept by `AtomicAdd` alone goes below zero.
-/
import Mathlib.Data.List.Induction
import Dpx.Lib.Word
import Dpx.Tx
import Dpx.Conductor.History

namespace Dpx

/-! ## The committed writes of a key -/

/-- The committed writes of `k`, in order. -/
def writesTo (tr : List Answered) (k : Key) : List WriteEntry :=
  (tr.filter Answered.committed).flatMap fun a => a.proposal.writes.filter fun w => w.key = k

/-- If the last write is a credit, so are the others. -/
def Unmasked (tr : List Answered) (k : Key) : Prop :=
  ∀ w, (writesTo tr k).getLast? = some w → w.op = .credit → ∀ v ∈ writesTo tr k, v.op = .credit

theorem writesTo_concat (tr : List Answered) (a : Answered) (k : Key) :
    writesTo (tr ++ [a]) k = writesTo tr k ++
      if a.committed then a.proposal.writes.filter fun w => w.key = k else [] := by
  rw [writesTo, List.filter_append, List.flatMap_append, writesTo]
  congr 1
  cases h : a.committed with
  | true => simp [h]
  | false => simp [h]

theorem getLast?_records_isCredit (tr : List Answered) (k : Key) :
    (records tr k).getLast?.map EpochRecord.isCredit =
      (writesTo tr k).getLast?.map WriteEntry.isCredit := by
  induction tr using List.reverseRecOn with
  | nil => rfl
  | append_singleton tr a ih =>
      rw [getLast?_records_concat, writesTo_concat, List.getLast?_append, Answered.record]
      cases a.committed with
      | false => exact ih
      | true =>
          show Option.map _ ((Option.map _ (lastWrite a.proposal.writes k)).or _) =
            Option.map _ ((lastWrite a.proposal.writes k).or _)
          cases lastWrite a.proposal.writes k with
          | some w => rfl
          | none => exact ih

theorem writesTo_eq_nil_of_records {tr : List Answered} {k : Key} (h : records tr k = []) :
    writesTo tr k = [] := by
  have hlast := getLast?_records_isCredit tr k
  rw [h] at hlast
  exact List.getLast?_eq_none_iff.mp (Option.map_eq_none_iff.mp hlast.symm)

/-- A read entry of the epoch at `old` that is not stale after `old ++ since`: nothing
was written since, or the last write was a credit. -/
theorem last_credit_of_pass {old since : List Answered} {re : ReadEntry}
    (hasc : LastWriter.Ascending EpochRecord.num (records (old ++ since) re.key))
    (hepoch : re.epoch = (lastRecord .empty old re.key).epoch)
    (hpass : stale (lastRecord .empty (old ++ since) re.key) re = false) {w : WriteEntry}
    (hw : (writesTo since re.key).getLast? = some w) : w.op = .credit := by
  have hne : records since re.key ≠ [] := by
    intro hnil
    rw [writesTo_eq_nil_of_records hnil] at hw
    cases hw
  rw [records_append] at hasc
  have hlt := hasc.top_lt_iff.mpr hne
  rw [← records_append, ← lastRecord_num, ← lastRecord_num] at hlt
  -- the record moved, so only the pardon can have let the entry pass
  have hmoved : re.epoch < (lastRecord .empty (old ++ since) re.key).epoch := by
    rw [hepoch]
    exact UInt64.lt_iff_toNat_lt.mpr hlt
  have hcredit : (lastRecord .empty (old ++ since) re.key).isCredit = true := by
    rw [stale, decide_eq_true hmoved, Bool.true_and] at hpass
    exact (Bool.and_eq_true_iff.mp (by simpa using hpass)).1
  have hrec := getLast?_records_isCredit since re.key
  rw [lastRecord_empty, records_append, LastWriter.getLast?_append_of_ne_nil _ hne] at hcredit
  rw [hw] at hrec
  obtain ⟨r, hr, hrw⟩ := Option.map_eq_some_iff.mp hrec
  rw [hr, Option.getD_some, hrw] at hcredit
  exact of_decide_eq_true hcredit

/-! ## Balances -/

/-- The balance the committed writes leave. -/
def balanceOf (tr : List Answered) (k : Key) : Int :=
  (decodeInt64 ((valueOf .empty tr k).getD [])).toInt

/-- What a proposal adds to `k`. -/
def amountOf (a : Answered) (k : Key) : Int :=
  ((newestFirst a.proposal.writes k).map fun w => (decodeInt64 w.value).toInt).sum

theorem covered_toInt {x e : Int64} (hx : 0 ≤ x.toInt) (he : e < 0) (h : 0 ≤ x + e) :
    0 ≤ x.toInt + e.toInt := by
  have hneg := Int64.lt_iff_toInt_lt.mp he
  have hle := Int64.le_iff_toInt_le.mp h
  have hlo := Int64.le_toInt e
  have hhi := Int64.toInt_lt x
  rw [Int64.toInt_zero] at hneg hle
  rwa [Int64.toInt_add, Int.bmod_eq_of_le (by omega) (by omega)] at hle

theorem balanceOf_skip {tr : List Answered} {a : Answered} {k : Key} (h : a.wrote k = false) :
    balanceOf (tr ++ [a]) k = balanceOf tr k := by
  have hval : valueOf .empty (tr ++ [a]) k = valueOf .empty tr k := by
    rw [valueOf, List.foldl_append, List.foldl_cons, List.foldl_nil]
    split
    · rename_i hc
      rw [Answered.wrote, hc, Bool.true_and, Proposal.writesKey, List.any_eq_false] at h
      exact valueAfter_of_forall_ne (fun w hw => by simpa using h w hw) _
    · rfl
  rw [balanceOf, hval, balanceOf]

theorem balanceOf_merge {tr : List Answered} {a : Answered} {k : Key} (hc : a.committed = true)
    (hmerge : ∀ w ∈ newestFirst a.proposal.writes k, w.isMerge = true)
    (hlo : -2 ^ 63 ≤ balanceOf tr k + amountOf a k) (hhi : balanceOf tr k + amountOf a k < 2 ^ 63) :
    balanceOf (tr ++ [a]) k = balanceOf tr k + amountOf a k := by
  have hval : valueOf .empty (tr ++ [a]) k =
      valueAfter a.proposal.writes k (valueOf .empty tr k) := by
    rw [valueOf, List.foldl_append, List.foldl_cons, List.foldl_nil, if_pos hc]
    rfl
  have hsum : amountOf a k =
      (((newestFirst a.proposal.writes k).map fun w => decodeInt64 w.value).map
        Int64.toInt).sum := by
    rw [List.map_map]
    rfl
  rw [balanceOf, hval, valueAfter_of_merges hmerge, decodeInt64_merged, hsum]
  rw [hsum] at hlo hhi
  exact Word.toInt_add_sum hlo hhi

theorem amounts_bound {l : List WriteEntry}
    (hcredit : ∀ w ∈ l, w.op = .credit → 0 ≤ (decodeInt64 w.value).toInt)
    (hmerge : ∀ w ∈ l, w.isMerge = true) (hone : (l.filter fun w => w.op = .debit).length ≤ 1) :
    0 ≤ (l.map fun w => (decodeInt64 w.value).toInt).sum ∨
      ∃ w ∈ l, w.op = .debit ∧
        (decodeInt64 w.value).toInt ≤ (l.map fun w => (decodeInt64 w.value).toInt).sum := by
  induction l with
  | nil => exact Or.inl (Int.le_refl 0)
  | cons w l ih =>
      rw [List.filter_cons] at hone
      rw [List.map_cons, List.sum_cons]
      rcases Bool.or_eq_true_iff.mp (hmerge w List.mem_cons_self) with hop | hop
      · have hop : w.op = .credit := of_decide_eq_true hop
        have hw := hcredit w List.mem_cons_self hop
        rw [hop, if_neg (by decide)] at hone
        rcases ih (fun v hv => hcredit v (List.mem_cons_of_mem _ hv))
          (fun v hv => hmerge v (List.mem_cons_of_mem _ hv)) hone with h | ⟨v, hv, hvop, hle⟩
        · exact Or.inl (by omega)
        · exact Or.inr ⟨v, List.mem_cons_of_mem _ hv, hvop, by omega⟩
      · have hop : w.op = .debit := of_decide_eq_true hop
        rw [hop, if_pos (by decide), List.length_cons] at hone
        rcases ih (fun v hv => hcredit v (List.mem_cons_of_mem _ hv))
          (fun v hv => hmerge v (List.mem_cons_of_mem _ hv)) (by omega) with h | ⟨v, hv, hvop, -⟩
        · exact Or.inr ⟨w, List.mem_cons_self, hop, by omega⟩
        · -- a second debit
          have hmem : v ∈ l.filter fun w => w.op = .debit :=
            List.mem_filter.mpr ⟨hv, by simpa using hvop⟩
          have := List.length_pos_of_mem hmem
          omega

/-! ## Accounts kept by `AtomicAdd` -/

namespace DirectProposer

/-- A proposal that touches the account `k` the way a careful client does: built from
an earlier snapshot of the run by a callback that aborts on a negative balance, with
at most one debit of `k`, changing `k` only by `AtomicAdd`, and within the word; and,
if it debits `k`, no debit since its snapshot is masked. -/
structure Teller (d : DirectProposer State) (batches : List (List Proposal)) (k : Key)
    (pre : List Answered) (a : Answered) : Prop where
  built : ∃ (before after : List (List Proposal)) (since : List Answered) (calls : List TxCall)
    (tx : DpxTx State), batches = before ++ after ∧ pre = d.trace before ++ since ∧
      (DpxTx.new (d.run before).fsm.engine).guarded calls = some tx ∧
      a.proposal.writes = tx.writes ∧ a.proposal.readSet.Perm tx.readSetSlice ∧
      ((∃ w ∈ newestFirst a.proposal.writes k, w.op = .debit) → Unmasked since k)
  merges : ∀ w ∈ newestFirst a.proposal.writes k, w.isMerge = true
  oneDebit : ((newestFirst a.proposal.writes k).filter fun w => w.op = .debit).length ≤ 1
  fits : balanceOf pre k + amountOf a k < 2 ^ 63

theorem mem_newestFirst {ws : List WriteEntry} {k : Key} {w : WriteEntry}
    (h : w ∈ newestFirst ws k) : w ∈ ws ∧ w.key = k := by
  have hmem := List.mem_filter.mp (List.mem_reverse.mp h)
  exact ⟨hmem.1, by simpa using hmem.2⟩

theorem Teller.credits_nonneg {d : DirectProposer State} {batches : List (List Proposal)} {k : Key}
    {pre : List Answered} {a : Answered} (h : Teller d batches k pre a) {w : WriteEntry}
    (hw : w ∈ newestFirst a.proposal.writes k) (hop : w.op = .credit) :
    0 ≤ (decodeInt64 w.value).toInt := by
  obtain ⟨before, after, since, calls, tx, -, -, hrun, hwrites, -, -⟩ := h.built
  obtain ⟨hs, -, -⟩ := DpxTx.sound_of_guarded (DpxTx.sound_new _)
    (fun v hv => absurd hv List.not_mem_nil) hrun
  obtain ⟨e, hpos, hval⟩ := hs.credits w (hwrites ▸ (mem_newestFirst hw).1) hop
  rw [hval, decodeInt64_encodeInt64]
  have := Int64.lt_iff_toInt_lt.mp hpos
  rw [Int64.toInt_zero] at this
  omega

theorem balanceOf_le_of_credits (d : DirectProposer State) (batches : List (List Proposal))
    {k : Key} (old : List Answered) :
    ∀ {since : List Answered}, (∀ v ∈ writesTo since k, v.op = .credit) →
      (∀ s₁ a s₂, since = s₁ ++ a :: s₂ → a.wrote k = true →
        Teller d batches k (old ++ s₁) a) →
      balanceOf old k ≤ balanceOf (old ++ since) k := by
  intro since
  induction since using List.reverseRecOn with
  | nil =>
      intro _ _
      rw [List.append_nil]
  | append_singleton since a ih =>
      intro hcredits htell
      rw [writesTo_concat, List.forall_mem_append] at hcredits
      have hle := ih hcredits.1 fun s₁ b s₂ hs hb =>
        htell s₁ b (s₂ ++ [a]) (by rw [hs, List.append_assoc]; rfl) hb
      rw [← List.append_assoc]
      cases hw : a.wrote k with
      | false =>
          rw [balanceOf_skip hw]
          exact hle
      | true =>
          have ht := htell since a [] rfl hw
          have hc : a.committed = true := (Bool.and_eq_true_iff.mp hw).1
          have hall : ∀ w ∈ newestFirst a.proposal.writes k, w.op = .credit := by
            intro w hmem
            refine hcredits.2 w ?_
            rw [if_pos hc]
            exact List.mem_reverse.mp hmem
          have hnone : ((newestFirst a.proposal.writes k).filter fun w => w.op = .debit) = [] := by
            rw [List.filter_eq_nil_iff]
            intro w hmem
            rw [hall w hmem]
            decide
          have hpos : 0 ≤ amountOf a k := by
            rcases amounts_bound (fun w hm hop => ht.credits_nonneg hm hop) ht.merges
              (by rw [hnone]; exact Nat.zero_le _) with h | ⟨w, hm, hop, -⟩
            · exact h
            · rw [hall w hm] at hop
              cases hop
          have hbase := Int64.le_toInt (decodeInt64 ((valueOf .empty (old ++ since) k).getD []))
          have hstep : balanceOf (old ++ since ++ [a]) k = _ :=
            balanceOf_merge hc ht.merges (by rw [balanceOf]; omega) ht.fits
          rw [hstep]
          omega

section Run

variable {d : DirectProposer State} {syncPolicy : SyncPolicy} {batches : List (List Proposal)}
  {k : Key} (hopen : newDirectProposer State.empty syncPolicy = .ok d)
  (hwf : ∀ b ∈ batches, ∀ p ∈ b, p.WellFormed) (hwrap : batches.flatten.length < 2 ^ 64)
  (hk : isReserved k = false)

include hopen hwf hwrap hk

/-- A debit that commits was covered at its snapshot, and only credits came in since. -/
theorem Teller.covered {pre post : List Answered} {a : Answered}
    (hsplit : d.trace batches = pre ++ a :: post) (hc : a.committed = true)
    (ht : Teller d batches k pre a) {w : WriteEntry} (hm : w ∈ newestFirst a.proposal.writes k)
    (hop : w.op = .debit) :
    ∃ before since, pre = d.trace before ++ since ∧ (∀ v ∈ writesTo since k, v.op = .credit) ∧
      (0 ≤ balanceOf (d.trace before) k →
        0 ≤ balanceOf (d.trace before) k + (decodeInt64 w.value).toInt) := by
  obtain ⟨before, after, since, calls, tx, rfl, rfl, hrun, hwrites, hperm, hmask⟩ := ht.built
  obtain ⟨hs, hcov, hsnapeq⟩ := DpxTx.sound_of_guarded (DpxTx.sound_new _)
    (fun v hv => absurd hv List.not_mem_nil) hrun
  obtain ⟨hsnap, hasc, start, -, hv⟩ := judged_after hopen hwf hwrap (by rw [hsplit])
  obtain ⟨hwmem, hwkey⟩ := mem_newestFirst hm
  rw [hwrites] at hwmem
  refine ⟨before, since, rfl, ?_, fun hbal => ?_⟩
  · -- the debit left a read entry for `k`, and that entry passed
    obtain ⟨re, hre, hrekey⟩ := hs.mem_readSetSlice hwmem hop
    have hrek : re.key = k := hrekey.trans hwkey
    have hepoch : re.epoch = (lastRecord .empty (d.trace before) re.key).epoch := by
      rw [hs.readSetSlice_epoch hre, hsnapeq]
      exact congrArg EpochRecord.epoch (hsnap.getVersion re.key)
    have hpass := hv.pass (of_decide_eq_true hc) re (hperm.mem_iff.mpr hre)
    cases hlast : (writesTo since k).getLast? with
    | none =>
        rw [List.getLast?_eq_none_iff.mp hlast]
        exact fun v hv => absurd hv List.not_mem_nil
    | some v =>
        refine hmask ⟨w, hm, hop⟩ v hlast ?_
        rw [← hrek] at hlast
        exact last_credit_of_pass (hasc re.key) hepoch hpass hlast
  · have hcovered := hcov w hwmem hop
    obtain ⟨⟨e, hneg, hval⟩, -⟩ := hs.debits w hwmem hop
    have hget : Snapshot.get tx.snap k = valueOf .empty (d.trace before) k := by
      rw [hsnapeq]
      exact hsnap.value_eq k hk
    rw [hwkey, hget, hval, decodeInt64_encodeInt64] at hcovered
    rw [hval, decodeInt64_encodeInt64]
    exact covered_toInt hbal hneg hcovered

variable (htell : ∀ pre a post, d.trace batches = pre ++ a :: post → a.wrote k = true →
  Teller d batches k pre a)

include htell

/-- One proposal of a teller, after a trace that never had the account overdrawn. -/
theorem Teller.keeps_nonneg {pre post : List Answered} {a : Answered}
    (hsplit : d.trace batches = pre ++ a :: post) (hw : a.wrote k = true)
    (hpast : ∀ old since, pre = old ++ since → 0 ≤ balanceOf old k) :
    0 ≤ balanceOf (pre ++ [a]) k := by
  have ht := htell pre a post hsplit hw
  have hc : a.committed = true := (Bool.and_eq_true_iff.mp hw).1
  have hpre : 0 ≤ balanceOf pre k := hpast pre [] (List.append_nil pre).symm
  suffices hsum : 0 ≤ balanceOf pre k + amountOf a k by
    rw [balanceOf_merge hc ht.merges (by omega) ht.fits]
    exact hsum
  rcases amounts_bound (fun w hm hop => ht.credits_nonneg hm hop) ht.merges ht.oneDebit
    with h | ⟨w, hm, hop, hle⟩
  · exact Int.add_nonneg hpre h
  · -- covered at the snapshot, and the balance has only grown since
    obtain ⟨before, since, rfl, hcredits, hcov⟩ :=
      ht.covered hopen hwf hwrap hk hsplit hc hm hop
    have hmono : balanceOf (d.trace before) k ≤ balanceOf (d.trace before ++ since) k := by
      refine balanceOf_le_of_credits d batches _ hcredits fun s₁ b s₂ hs hb => ?_
      refine htell (d.trace before ++ s₁) b (s₂ ++ a :: post) ?_ hb
      rw [hsplit, hs]
      simp
    have hdebit := hcov (hpast _ since rfl)
    have hsum : (decodeInt64 w.value).toInt ≤ amountOf a k := hle
    omega

theorem balanceOf_nonneg :
    ∀ n, ∀ pre post, pre.length = n → d.trace batches = pre ++ post → 0 ≤ balanceOf pre k := by
  intro n
  induction n using Nat.strongRecOn with
  | ind n ih =>
      intro pre post hlen hsplit
      rcases List.eq_nil_or_concat pre with rfl | ⟨pre, a, rfl⟩
      · exact Int.le_refl 0
      · rw [List.concat_eq_append] at hlen hsplit ⊢
        rw [List.length_append, List.length_singleton] at hlen
        rw [List.append_assoc, List.singleton_append] at hsplit
        have hpast : ∀ old since, pre = old ++ since → 0 ≤ balanceOf old k := by
          rintro old since rfl
          rw [List.length_append] at hlen
          exact ih old.length (by omega) old (since ++ a :: post) rfl
            (by rw [hsplit, List.append_assoc])
        cases hw : a.wrote k with
        | false =>
            rw [balanceOf_skip hw]
            exact hpast pre [] (List.append_nil pre).symm
        | true => exact Teller.keeps_nonneg hopen hwf hwrap hk htell hsplit hw hpast

end Run

/-- **Debit validation.**  In every run on the empty engine, a debit that commits has
seen only credits since its snapshot if and only if none of the writes since is
masked; and an account whose every proposal is a teller's is never overdrawn. -/
theorem debits_guarded {d : DirectProposer State} {syncPolicy : SyncPolicy}
    (hopen : newDirectProposer State.empty syncPolicy = .ok d) (batches : List (List Proposal))
    (hwf : ∀ b ∈ batches, ∀ p ∈ b, p.WellFormed) (hwrap : batches.flatten.length < 2 ^ 64) :
    (∀ before after since a post re, batches = before ++ after →
      d.trace batches = d.trace before ++ since ++ a :: post → a.committed = true →
      re ∈ a.proposal.readSet → re.isDebit = true →
      re.epoch = ((d.run before).fsm.engine.getVersion re.key).epoch →
      ((∀ w ∈ writesTo since re.key, w.op = .credit) ↔ Unmasked since re.key)) ∧
    (∀ k, isReserved k = false →
      (∀ pre a post, d.trace batches = pre ++ a :: post → a.wrote k = true →
        Teller d batches k pre a) →
      ∀ before after, batches = before ++ after →
        0 ≤ (decodeInt64 (((d.run before).fsm.engine.get k).getD [])).toInt) := by
  constructor
  · rintro before after since a post re rfl htrace hc hre - hepoch
    obtain ⟨hsnap, hasc, start, -, hv⟩ := judged_after hopen hwf hwrap htrace
    rw [hsnap.getVersion] at hepoch
    have hpass := hv.pass (of_decide_eq_true hc) re hre
    refine ⟨fun h w _ _ => h, fun h => ?_⟩
    cases hlast : (writesTo since re.key).getLast? with
    | none =>
        rw [List.getLast?_eq_none_iff.mp hlast]
        exact fun v hv => absurd hv List.not_mem_nil
    | some w => exact h w hlast (last_credit_of_pass (hasc re.key) hepoch hpass hlast)
  · rintro k hk htell before after rfl
    have hlen : before.flatten.length < 2 ^ 64 := by
      rw [List.flatten_append, List.length_append] at hwrap
      omega
    obtain ⟨hsnap, -⟩ := (explains_new hopen).run
      (fun b hb => hwf b (List.mem_append_left _ hb)) (by show 0 + 0 + _ < _; omega)
    have hval : (d.run before).fsm.engine.get k = valueOf .empty (d.trace before) k :=
      hsnap.value_eq k hk
    rw [hval]
    exact balanceOf_nonneg hopen hwf hwrap hk htell _ (d.trace before)
      ((d.run before).trace after) rfl (d.trace_append before after)

/-! ## An account paid out twice -/

/-- The account. -/
def account : Key := [0x6b]

def credit (n : Int64) : Proposal := ⟨[], [⟨.credit, account, encodeInt64 n⟩], 0, 0⟩

/-- A withdrawal of 100 by a client that saw the first write of the account. -/
def withdrawal : Proposal :=
  ⟨[⟨account, 1, true⟩], [⟨.debit, account, encodeInt64 (-100)⟩], 0, 0⟩

theorem guarded_single (snap : State) (c : TxCall) (p : Proposal)
    (hguard : (DpxTx.new snap).overdraws c = false)
    (hwrites : p.writes = ((DpxTx.new snap).perform c).writes)
    (hreads : p.readSet = ((DpxTx.new snap).perform c).readSetSlice) :
    ∃ tx : DpxTx State, (DpxTx.new snap).guarded [c] = some tx ∧ p.writes = tx.writes ∧
      p.readSet.Perm tx.readSetSlice := by
  refine ⟨(DpxTx.new snap).perform c, ?_, hwrites, hreads ▸ List.Perm.refl _⟩
  rw [DpxTx.guarded, hguard]
  rfl

theorem teller_credit :
    Teller opened [[credit 100], [withdrawal]] account [] ⟨1, credit 100, .ok⟩ where
  built := by
    obtain ⟨tx, hrun, hw, hr⟩ := guarded_single (opened.run []).fsm.engine
      (.atomicAdd account 100) (credit 100) (by decide +kernel) (by decide +kernel)
      (by decide +kernel)
    exact ⟨[], _, [], _, tx, rfl, rfl, hrun, hw, hr, fun _ w hw => nomatch hw⟩
  merges := by decide +kernel
  oneDebit := by decide +kernel
  fits := by decide +kernel

theorem teller_withdrawal :
    Teller opened [[credit 100], [withdrawal]] account [⟨1, credit 100, .ok⟩]
      ⟨2, withdrawal, .ok⟩ where
  built := by
    obtain ⟨tx, hrun, hw, hr⟩ := guarded_single (opened.run [[credit 100]]).fsm.engine
      (.atomicAdd account (-100)) withdrawal (by decide +kernel) (by decide +kernel)
      (by decide +kernel)
    exact ⟨[[credit 100]], _, [], _, tx, rfl, by decide +kernel, hrun, hw, hr,
      fun _ w hw => nomatch hw⟩
  merges := by decide +kernel
  oneDebit := by decide +kernel
  fits := by decide +kernel

/-- A deposit of 100 and its withdrawal: the account is not overdrawn. -/
theorem withdrawal_covered :
    0 ≤ (decodeInt64 (((opened.run [[credit 100], [withdrawal]]).fsm.engine.get account).getD
      [])).toInt := by
  have htrace : opened.trace [[credit 100], [withdrawal]] =
      [⟨1, credit 100, .ok⟩, ⟨2, withdrawal, .ok⟩] := by
    decide +kernel
  refine (debits_guarded (newDirectProposer_empty .syncBatch) [[credit 100], [withdrawal]]
    (by decide +kernel) (by decide)).2 account (by decide) ?_ _ [] (List.append_nil _).symm
  intro pre a post hsplit _
  change opened.trace _ = _ at hsplit
  rw [htrace] at hsplit
  match pre, hsplit with
  | [], hsplit =>
      obtain ⟨rfl, -⟩ := List.cons.inj hsplit
      exact teller_credit
  | [b], hsplit =>
      obtain ⟨rfl, htail⟩ := List.cons.inj hsplit
      obtain ⟨rfl, -⟩ := List.cons.inj htail
      exact teller_withdrawal
  | b :: c :: pre, hsplit =>
      exact nomatch (List.append_eq_nil_iff.mp
        (List.cons.inj (List.cons.inj hsplit).2).2.symm).2

/-- A deposit of 100, then two withdrawals of 100 from the one snapshot that follows
it, with a deposit of 1 between them. -/
def paidTwice : List (List Proposal) := [[credit 100], [withdrawal], [credit 1], [withdrawal]]

/-- Both withdrawals are built by guarded callbacks on the snapshot after the deposit,
both commit, the second has the first behind it, and the account ends at −99. -/
theorem masked_debit_commits :
    ((DpxTx.new (opened.run [[credit 100]]).fsm.engine).guarded [.atomicAdd account (-100)]).map
        (fun tx => (tx.propose 0 0).toOption) = some (some (some withdrawal)) ∧
    opened.trace paidTwice = opened.trace [[credit 100]] ++
      [⟨2, withdrawal, .ok⟩, ⟨3, credit 1, .ok⟩] ++ [⟨4, withdrawal, .ok⟩] ∧
    ((opened.run [[credit 100]]).fsm.engine.getVersion account).epoch = 1 ∧
    ¬ (∀ w ∈ writesTo [⟨2, withdrawal, .ok⟩, ⟨3, credit 1, .ok⟩] account, w.op = .credit) ∧
    decodeInt64 (((opened.run paidTwice).fsm.engine.get account).getD []) = -99 := by
  refine ⟨?_, ?_, ?_, ?_, ?_⟩
  · decide +kernel
  · decide +kernel
  · decide +kernel
  · decide +kernel
  · decide +kernel

end DirectProposer

end Dpx
