/-
# `Dpx.Balances` — what `AtomicAdd` reports, and what is stored

`AtomicAdd` buffers its amount, and the engine adds the amounts of a transaction when it
commits.  The value the call returns is computed before that, from the snapshot and its own
amount alone: it is the balance the transaction leaves only if the amounts buffered before it
add up to zero (`debit_reports_iff`).  A callback that debits a balance of 10 twice by 7 is
told 3 both times, and commits −4 (`overdraft_unreported`).

Both additions are additions of machine words, and neither is checked.  The stored balance is
the sum of the committed amounts modulo `2^64`; it is the sum itself as long as no committed
transaction takes it out of the word (`balances_exact_iff`), and a credit that does turns the
balance negative (`credit_wraps`).
-/
import Mathlib.Data.List.Induction
import Mathlib.Data.List.Infix
import Dpx.Node

namespace Dpx

open scoped Word

/-! ## Keys that are only added to -/

theorem valueAfterAll_eq_valueAfter (ps : List Proposal) (k : Key) :
    ∀ v : Option Bytes, valueAfterAll ps k v = valueAfter (ps.flatMap Proposal.writes) k v := by
  induction ps with
  | nil => exact fun v => rfl
  | cons p ps ih =>
      intro v
      rw [List.flatMap_cons, valueAfter_append, ← ih]
      rfl

theorem valueAfterAll_of_merges {ps : List Proposal} {k : Key}
    (h : ∀ p ∈ ps, ∀ w ∈ p.writes, w.key = k → w.isMerge = true) (v : Option Bytes) :
    valueAfterAll ps k v = merged v (deltasOf ps k) := by
  rw [valueAfterAll_eq_valueAfter, valueAfter_eq_deltas h]

/-! ## Callbacks that add -/

/-- A callback of `AtomicAdd` calls. -/
def adds (l : List (Key × Int64)) : List TxCall := l.map fun x => .atomicAdd x.1 x.2

/-- What it adds to `k`. -/
def amountsTo (l : List (Key × Int64)) (k : Key) : List Int64 :=
  (l.filter fun x => x.1 = k).map Prod.snd

theorem amountsTo_append (xs ys : List (Key × Int64)) (k : Key) :
    amountsTo (xs ++ ys) k = amountsTo xs k ++ amountsTo ys k := by
  simp [amountsTo]

theorem amountsTo_of_forall_ne {l : List (Key × Int64)} {k : Key} (h : ∀ x ∈ l, x.1 ≠ k) :
    amountsTo l k = [] := by
  simp only [amountsTo, List.map_eq_nil_iff, List.filter_eq_nil_iff]
  exact fun x hx => by simpa using h x hx

namespace DpxTx

variable {σ : Type} [Snapshot σ]

theorem writes_atomicAdd (tx : DpxTx σ) {k : Key} (hk : isReserved k = false) (delta : Int64) :
    ∃ op, (op = .credit ∨ op = .debit) ∧ (tx.perform (.atomicAdd k delta)).writes =
      tx.writes ++ if delta = 0 then [] else [⟨op, k, encodeInt64 delta⟩] := by
  rw [perform, atomicAdd, hk]
  by_cases hpos : 0 < delta
  · have hne : delta ≠ 0 := (Int64.ne_of_lt hpos).symm
    exact ⟨.credit, Or.inl rfl, by simp [hpos, hne]⟩
  · refine ⟨.debit, Or.inr rfl, ?_⟩
    by_cases hneg : delta < 0
    · simp [hpos, hneg, Int64.ne_of_lt hneg]
    · have hzero : delta = 0 := Int64.le_antisymm (Int64.not_lt.mp hpos) (Int64.not_lt.mp hneg)
      simp [hzero]

theorem writes_adds (snap : σ) {k : Key} (hk : isReserved k = false) (l : List (Key × Int64)) :
    (∀ w ∈ (after snap (adds l)).writes, w.isMerge = true) ∧
      (((after snap (adds l)).writes.filter fun w => w.key = k).map fun w => decodeInt64 w.value) =
        (amountsTo l k).filter (· != 0) := by
  induction l using List.reverseRecOn with
  | nil => exact ⟨fun w hw => absurd hw List.not_mem_nil, rfl⟩
  | append_singleton l x ih =>
      obtain ⟨j, delta⟩ := x
      have hcalls : adds (l ++ [(j, delta)]) = adds l ++ [.atomicAdd j delta] := List.map_append
      rw [hcalls, after_concat, amountsTo_append, List.filter_append]
      cases hj : isReserved j with
      | true =>
          have hne : j ≠ k := by
            rintro rfl
            rw [hk] at hj
            cases hj
          have hsame :
              (after snap (adds l)).perform (.atomicAdd j delta) = after snap (adds l) := by
            rw [perform, atomicAdd, hj]
            rfl
          have hnone : amountsTo [(j, delta)] k = [] :=
            amountsTo_of_forall_ne (List.forall_mem_singleton.mpr hne)
          rw [hsame, hnone, List.filter_nil, List.append_nil]
          exact ih
      | false =>
          obtain ⟨op, hop, hwrites⟩ := (after snap (adds l)).writes_atomicAdd hj delta
          rw [hwrites, List.filter_append, List.map_append, ih.2]
          constructor
          · refine List.forall_mem_append.mpr ⟨ih.1, fun w hw => ?_⟩
            split at hw
            · exact absurd hw List.not_mem_nil
            · rw [List.mem_singleton.mp hw]
              rcases hop with rfl | rfl <;> rfl
          · by_cases hzero : delta = 0 <;> by_cases hjk : j = k <;>
              simp [hzero, hjk, amountsTo, decodeInt64_encodeInt64]

theorem overdraws_of_guarded {pre post : List TxCall} {c : TxCall} :
    ∀ {tx tx' : DpxTx σ}, tx.guarded (pre ++ c :: post) = some tx' →
      (pre.foldl perform tx).overdraws c = false := by
  induction pre with
  | nil =>
      intro tx tx' h
      rw [List.nil_append, guarded] at h
      split at h
      · cases h
      · rename_i hover
        exact Bool.eq_false_iff.mpr hover
  | cons b pre ih =>
      intro tx tx' h
      rw [List.cons_append, guarded] at h
      split at h
      · cases h
      · exact ih h

end DpxTx

theorem merged_of_ne_nil {ds : List Int64} (h : ds ≠ []) (v : Option Bytes) :
    merged v ds = some (encodeInt64 (decodeInt64 (v.getD []) + ds.sum)) := by
  cases ds with
  | nil => exact absurd rfl h
  | cons d ds => rfl

/-! ## What a debit reports -/

section Reports

variable {ν σ : Type} [Snapshot σ] [Proposing ν σ] [Answering ν]

/-- A transaction of `AtomicAdd` calls leaves the balance of the snapshot plus its amounts, if
one of them is not zero. -/
theorem stored_adds (d : ν) {l : List (Key × Int64)} {k : Key} (hk : isReserved k = false)
    {delta : Int64} (hne : delta ≠ 0) (hmem : delta ∈ amountsTo l k) {wall : UInt64}
    {counter : UInt16} {p : Proposal}
    (hprop : (DpxTx.after (Proposing.snapshot d) (adds l)).propose wall counter = .ok (some p))
    (hok : Answering.commits d [p] = [p]) :
    Snapshot.get (Proposing.snapshot (Proposing.proposeAll d [p])) k =
      some (encodeInt64 (decodeInt64 ((Snapshot.get (Proposing.snapshot d) k).getD []) +
        (amountsTo l k).sum)) := by
  obtain ⟨hmerge, hdeltas⟩ := DpxTx.writes_adds (Proposing.snapshot d) hk l
  have hp := DpxTx.propose_eq_some hprop
  have hwf := (DpxTx.sound_after (Proposing.snapshot d) (adds l)).wellFormed hprop
  have hamounts : deltasOf [p] k = (amountsTo l k).filter (· != 0) := by
    rw [deltasOf, List.flatMap_singleton, hp]
    exact hdeltas
  have hfull : deltasOf [p] k ≠ [] := by
    rw [hamounts]
    exact List.ne_nil_of_mem (List.mem_filter.mpr ⟨hmem, by simpa using hne⟩)
  rw [Answering.get_commits d [p] (List.forall_mem_singleton.mpr hwf) k hk, hok,
    valueAfterAll_of_merges, merged_of_ne_nil hfull, hamounts, List.sum_filter_bne_zero]
  rw [hp]
  exact List.forall_mem_singleton.mpr fun w hw _ => hmerge w hw

/-- **What a debit reports.**  For every state of a node and every callback of `AtomicAdd`
calls whose proposal commits alone: the value that the last call on `k`, a debit, returned is
the one stored, if and only if the earlier amounts of `k` add up to zero; and then a callback
that aborts on a negative balance leaves none. -/
theorem debit_reports_iff (d : ν) {pre post : List (Key × Int64)} {k : Key} {delta r : Int64}
    {tx : DpxTx σ} {wall : UInt64} {counter : UInt16} {p : Proposal} (hneg : delta < 0)
    (hlast : ∀ x ∈ post, x.1 ≠ k)
    (hret : (DpxTx.after (Proposing.snapshot d) (adds pre)).atomicAdd k delta = .ok (r, tx))
    (hprop : (DpxTx.after (Proposing.snapshot d) (adds (pre ++ (k, delta) :: post))).propose wall
      counter = .ok (some p))
    (hok : Answering.commits d [p] = [p]) :
    let stored := Snapshot.get (Proposing.snapshot (Proposing.proposeAll d [p])) k
    (stored = some (encodeInt64 r) ↔ (amountsTo pre k).sum = 0) ∧
      ((amountsTo pre k).sum = 0 →
        (DpxTx.new (Proposing.snapshot d)).guarded (adds (pre ++ (k, delta) :: post)) ≠ none →
        0 ≤ decodeInt64 (stored.getD [])) := by
  intro stored
  obtain ⟨hk, hr⟩ := DpxTx.atomicAdd_debit hneg hret
  rw [DpxTx.after_snap] at hr
  have hamounts : amountsTo (pre ++ (k, delta) :: post) k = amountsTo pre k ++ [delta] := by
    rw [amountsTo_append, ← List.singleton_append, amountsTo_append,
      amountsTo_of_forall_ne hlast]
    simp [amountsTo]
  have hstored : stored = some (encodeInt64 (r + (amountsTo pre k).sum)) := by
    refine (stored_adds d hk (Int64.ne_of_lt hneg) ?_ hprop hok).trans ?_
    · rw [hamounts]
      exact List.mem_append_right _ List.mem_cons_self
    · rw [hamounts, List.sum_append, List.sum_singleton, hr, add_assoc,
        add_comm delta]
  constructor
  · rw [hstored, Option.some_inj, encodeInt64_inj]
    exact add_eq_left
  · intro hzero hguard
    obtain ⟨tx', htx'⟩ := Option.ne_none_iff_exists'.mp hguard
    have hcalls : adds (pre ++ (k, delta) :: post) =
        adds pre ++ .atomicAdd k delta :: adds post := by
      simp [adds]
    rw [hcalls] at htx'
    have hover : (DpxTx.after (Proposing.snapshot d) (adds pre)).overdraws
        (.atomicAdd k delta) = false := DpxTx.overdraws_of_guarded htx'
    have hpos : ¬ r < 0 := by
      rw [DpxTx.overdraws, hret] at hover
      simpa [hneg] using hover
    rw [hstored, hzero, add_zero, Option.getD_some, decodeInt64_encodeInt64]
    exact Int64.not_lt.mp hpos

end Reports

/-- A node whose account `k` holds 10. -/
def tenHeld : DirectProposer State := DirectProposer.opened.run [[DirectProposer.deposit 10]]

/-- What a callback that adds 5, −5 and −3 proposes. -/
def cancelled : Proposal :=
  ⟨[⟨[0x6b], 1, true⟩], [⟨.credit, [0x6b], encodeInt64 5⟩, ⟨.debit, [0x6b], encodeInt64 (-5)⟩,
    ⟨.debit, [0x6b], encodeInt64 (-3)⟩], 0, 0⟩

/-- The earlier amounts cancel: the debit of 3 reports the 7 that are stored. -/
theorem cancelled_reports :
    Snapshot.get (Proposing.snapshot (Proposing.proposeAll tenHeld [cancelled])) [0x6b] =
      some (encodeInt64 7) := by
  have hprop : (DpxTx.after (Proposing.snapshot tenHeld)
      (adds ([([0x6b], 5), ([0x6b], -5)] ++ ([0x6b], -3) :: []))).propose 0 0 =
        .ok (some cancelled) := by
    decide +kernel
  have hok : Answering.commits tenHeld [cancelled] = [cancelled] := by decide +kernel
  exact (debit_reports_iff tenHeld (by decide) (fun x hx => absurd hx List.not_mem_nil) rfl hprop
    hok).1.mpr (by decide)

/-- What a callback that debits 7 twice proposes. -/
def debitedTwice : Proposal :=
  ⟨[⟨[0x6b], 1, true⟩], [⟨.debit, [0x6b], encodeInt64 (-7)⟩,
    ⟨.debit, [0x6b], encodeInt64 (-7)⟩], 0, 0⟩

/-- Each debit of 7 is told that 3 are left, and −4 is stored. -/
theorem overdraft_unreported :
    (DpxTx.new (Proposing.snapshot tenHeld)).guarded (adds [([0x6b], -7), ([0x6b], -7)]) ≠ none ∧
    (∃ tx, (DpxTx.after (Proposing.snapshot tenHeld) (adds [([0x6b], -7)])).atomicAdd [0x6b] (-7) =
      .ok (3, tx)) ∧
    (DpxTx.after (Proposing.snapshot tenHeld) (adds [([0x6b], -7), ([0x6b], -7)])).propose 0 0 =
      .ok (some debitedTwice) ∧
    Answering.commits tenHeld [debitedTwice] = [debitedTwice] ∧
    Snapshot.get (Proposing.snapshot (Proposing.proposeAll tenHeld [debitedTwice])) [0x6b] =
      some (encodeInt64 (-4)) := by
  refine ⟨?_, ⟨_, rfl⟩, ?_, ?_, ?_⟩
  · exact Option.isSome_iff_ne_none.mp (by decide +kernel)
  · decide +kernel
  · decide +kernel
  · decide +kernel

/-! ## Sums that fit the word -/

/-- The balance some committed transactions leave of a key that was absent. -/
def balance (ps : List Proposal) (k : Key) : Int64 :=
  decodeInt64 ((valueAfterAll ps k none).getD [])

/-- What they have added to it. -/
def total (ps : List Proposal) (k : Key) : Int := ((deltasOf ps k).map Int64.toInt).sum

theorem total_concat (ps : List Proposal) (p : Proposal) (k : Key) :
    total (ps ++ [p]) k = total ps k + total [p] k := by
  simp [total, deltasOf]

section Sums

variable {cs : List Proposal} {k : Key}
  (hcs : ∀ p ∈ cs, ∀ w ∈ p.writes, w.key = k → w.isMerge = true)

include hcs

theorem balance_eq_total_iff : (balance cs k).toInt = total cs k ↔ Word.Fits (total cs k) := by
  rw [balance, valueAfterAll_of_merges hcs, decodeInt64_merged, total, ← Word.toInt_sum_eq_iff]
  exact Iff.of_eq (congrArg (fun x : Int64 => x.toInt = _) (zero_add _))

/-- No sum leaves the word if and only if no transaction takes the stored balance out. -/
theorem fits_iff :
    (∀ ps, ps <+: cs → Word.Fits (total ps k)) ↔
      ∀ ps p, ps ++ [p] <+: cs → Word.Fits ((balance ps k).toInt + total [p] k) := by
  have hbefore : ∀ {ps p}, ps ++ [p] <+: cs → ps <+: cs :=
    fun h => (List.prefix_append _ _).trans h
  have hexact : ∀ {ps}, ps <+: cs → Word.Fits (total ps k) → (balance ps k).toInt = total ps k :=
    fun h => (balance_eq_total_iff fun p hp => hcs p (h.subset hp)).mpr
  constructor
  · intro h ps p hp
    rw [hexact (hbefore hp) (h ps (hbefore hp)), ← total_concat]
    exact h (ps ++ [p]) hp
  · intro h ps
    induction ps using List.reverseRecOn with
    | nil => exact fun _ => Word.fits_toInt 0
    | append_singleton ps p ih =>
        intro hp
        have hstep := h ps p hp
        rwa [hexact (hbefore hp) (ih (hbefore hp)), ← total_concat] at hstep

end Sums

/-! ## Runs of a node -/

namespace Node

/-- An event that changes `k` by `AtomicAdd` only. -/
def OnlyAdds (k : Key) : NodeEvent → Prop
  | .call _ (.set j _) | .call _ (.delete j) => j ≠ k
  | _ => True

variable {ν σ : Type} [Snapshot σ] [Proposing ν σ] [Answering ν]

/-- The transactions an event commits, in order. -/
def commitsOf (n : Node ν σ) : NodeEvent → List Proposal
  | .propose batch => Answering.commits n.proposer (handIn batch n.inFlight).1
  | _ => []

/-- The transactions a run commits, in order. -/
def commits (n : Node ν σ) : List NodeEvent → List Proposal
  | [] => []
  | ev :: events => n.commitsOf ev ++ commits (n.step ev) events

theorem commits_append (xs ys : List NodeEvent) :
    ∀ n : Node ν σ, n.commits (xs ++ ys) = n.commits xs ++ (xs.foldl step n).commits ys := by
  induction xs with
  | nil => exact fun n => rfl
  | cons ev xs ih =>
      intro n
      rw [List.cons_append, commits, commits, ih, List.append_assoc]
      rfl

/-- The attempts in flight have added to `k` only. -/
def Adding (k : Key) (n : Node ν σ) : Prop :=
  ∀ a t, n.inFlight a = some t →
    t.tx.Sound ∧ ∀ w ∈ t.tx.writes, w.key = k → w.isMerge = true

variable {n : Node ν σ} {k : Key}

omit [Answering ν] in
theorem Adding.step (h : Adding k n) {ev : NodeEvent} (hev : OnlyAdds k ev) :
    Adding k (n.step ev) := by
  intro a u hu
  rcases inFlight_step hu with hold | rfl | ⟨t, ht, ⟨c, rfl, rfl⟩ | ⟨-, rfl, -⟩⟩
  · exact h a u hold
  · exact ⟨DpxTx.sound_new _, fun _ hw => absurd hw List.not_mem_nil⟩
  · obtain ⟨hsound, hmerge⟩ := h a t ht
    refine ⟨hsound.perform c, ?_⟩
    rcases t.tx.writes_perform c with hw | ⟨w, hw, hcall⟩
    · simp only [hw]
      exact hmerge
    · simp only [hw]
      refine List.forall_mem_append.mpr ⟨hmerge, List.forall_mem_singleton.mpr fun hk => ?_⟩
      rcases hcall with ⟨-, rfl⟩ | rfl | ⟨hop, -⟩
      · exact absurd hk hev
      · exact absurd hk hev
      · exact hop
  · exact h a t ht

theorem Adding.read_step (h : Adding k n) (hk : isReserved k = false) (ev : NodeEvent) :
    (n.step ev).read k = valueAfterAll (n.commitsOf ev) k (n.read k) ∧
      ∀ p ∈ n.commitsOf ev, ∀ w ∈ p.writes, w.key = k → w.isMerge = true := by
  rcases n.proposer_step ev with ⟨batch, rfl⟩ | ⟨hno, heq⟩
  · have hwf : ∀ p ∈ (handIn batch n.inFlight).1, p.WellFormed := by
      intro p hp
      obtain ⟨a, t, wall, counter, ht, hprop⟩ := mem_handIn hp
      exact (h a t ht).1.wellFormed (InFlight.propose_of_proposal hprop)
    refine ⟨Answering.get_commits n.proposer _ hwf k hk, fun p hp => ?_⟩
    obtain ⟨a, t, wall, counter, ht, hprop⟩ := mem_handIn (Answering.mem_commits _ _ p hp)
    rw [InFlight.proposal_eq_some hprop]
    exact (h a t ht).2
  · have hnone : n.commitsOf ev = [] := by
      cases ev with
      | propose batch => exact absurd rfl (hno batch)
      | begin | call | allocateNextSequence | giveUp => rfl
    rw [read, heq, hnone]
    exact ⟨rfl, fun _ hp => absurd hp List.not_mem_nil⟩

theorem Adding.read_run (hk : isReserved k = false) {events : List NodeEvent}
    (hadds : ∀ ev ∈ events, OnlyAdds k ev) :
    ∀ {n : Node ν σ}, Adding k n →
      (events.foldl Node.step n).read k = valueAfterAll (n.commits events) k (n.read k) ∧
        ∀ p ∈ n.commits events, ∀ w ∈ p.writes, w.key = k → w.isMerge = true := by
  induction events with
  | nil => exact fun _ => ⟨rfl, fun _ hp => absurd hp List.not_mem_nil⟩
  | cons ev events ih =>
      intro n h
      rw [List.forall_mem_cons] at hadds
      obtain ⟨hread, hmerge⟩ := h.read_step hk ev
      obtain ⟨hrest, hmerges⟩ := ih hadds.2 (h.step hadds.1)
      refine ⟨?_, List.forall_mem_append.mpr ⟨hmerge, hmerges⟩⟩
      rw [List.foldl_cons, hrest, hread, commits, valueAfterAll, valueAfterAll, valueAfterAll,
        List.foldl_append]

/-- **Exact balances.**  In every run of a node on which `k`, absent at first, is changed by
`AtomicAdd` only: at every point the stored word is the integer sum of the committed amounts,
and no transaction that commits takes the sum out of the word, if and only if each, when it
commits, finds a stored balance that its amounts do not take out. -/
theorem balances_exact_iff (proposer : ν) (hk : isReserved k = false)
    (habsent : Snapshot.get (Proposing.snapshot proposer) k = none) {events : List NodeEvent}
    (hadds : ∀ ev ∈ events, OnlyAdds k ev) :
    ((∀ pre, pre <+: events →
        (decodeInt64 (((after proposer pre : Node ν σ).read k).getD [])).toInt =
          total ((.open proposer : Node ν σ).commits pre) k) ∧
      ∀ ps, ps <+: (.open proposer : Node ν σ).commits events → Word.Fits (total ps k)) ↔
    ∀ ps p, ps ++ [p] <+: (.open proposer : Node ν σ).commits events →
      Word.Fits ((balance ps k).toInt + total [p] k) := by
  have hopen : Adding k (.open proposer : Node ν σ) := fun _ _ h => by cases h
  rw [← fits_iff (hopen.read_run hk hadds).2]
  refine ⟨And.right, fun hfits => ⟨fun pre hpre => ?_, hfits⟩⟩
  obtain ⟨hread, hmerge⟩ :=
    Adding.read_run hk (fun ev hev => hadds ev (hpre.subset hev)) hopen
  have hcommits : (.open proposer : Node ν σ).commits pre <+:
      (.open proposer : Node ν σ).commits events := by
    obtain ⟨rest, rfl⟩ := hpre
    rw [commits_append]
    exact List.prefix_append _ _
  have hval : (after proposer pre : Node ν σ).read k =
      valueAfterAll ((.open proposer : Node ν σ).commits pre) k none :=
    hread.trans (congrArg _ habsent)
  rw [hval]
  exact (balance_eq_total_iff hmerge).mpr (hfits _ hcommits)

/-- Two transactions that add to the key `k`, one after the other. -/
def addsTwice (d e : Int64) : List NodeEvent :=
  [.begin 0, .call 0 (.atomicAdd [0x6b] d), .propose [(0, 0, 0)],
    .begin 1, .call 1 (.atomicAdd [0x6b] e), .propose [(1, 0, 0)]]

theorem onlyAdds_addsTwice (d e : Int64) : ∀ ev ∈ addsTwice d e, OnlyAdds [0x6b] ev := by
  simp [addsTwice, OnlyAdds]

/-- The empty node. -/
def fresh : Node (DirectProposer State) State := .open DirectProposer.opened

/-- A deposit of 100 and a withdrawal of 30. -/
theorem savings_exact :
    (decodeInt64 (((after DirectProposer.opened (addsTwice 100 (-30)) : Node _ State).read
      [0x6b]).getD [])).toInt = total (fresh.commits (addsTwice 100 (-30))) [0x6b] ∧
    total (fresh.commits (addsTwice 100 (-30))) [0x6b] = 70 := by
  refine ⟨?_, by decide +kernel⟩
  refine ((balances_exact_iff DirectProposer.opened (by decide) (by decide)
    (onlyAdds_addsTwice 100 (-30))).mpr ?_).1 _ List.prefix_rfl
  refine (fits_iff (by decide +kernel)).mp fun ps hps => ?_
  have hall : ∀ ps ∈ (fresh.commits (addsTwice 100 (-30))).inits, Word.Fits (total ps [0x6b]) := by
    decide +kernel
  exact hall ps ((List.mem_inits _ _).mpr hps)

/-- A deposit of the largest word, and one of 1: both commit, their sum leaves the word, and
the balance is negative. -/
theorem credit_wraps :
    (∀ ev ∈ addsTwice Int64.maxValue 1, OnlyAdds [0x6b] ev) ∧
    (fresh.commits (addsTwice Int64.maxValue 1)).length = 2 ∧
    total (fresh.commits (addsTwice Int64.maxValue 1)) [0x6b] = 2 ^ 63 ∧
    (after DirectProposer.opened (addsTwice Int64.maxValue 1) : Node _ State).read [0x6b] =
      some (encodeInt64 Int64.minValue) := by
  refine ⟨onlyAdds_addsTwice _ _, ?_, ?_, ?_⟩
  · decide +kernel
  · decide +kernel
  · decide +kernel

end Node

end Dpx
