/-
# `Dpx.Conductor.Store` — what a run leaves of the user keys

To its users the embedded store is an ordered map: a proposal answered with a zero
`ApplyResult` has its writes applied in order, any other has none.  Everything else the
proposer keeps (version records, the applied index, the engine batch that several
proposals share, the two shadows) is meant to be invisible.

`run_values` is the bridge: along any run, the value of a user key is the fold of the
committed writes of that key, whatever the verdicts were based on.  It holds with no
bound on the number of proposals, since index numbers only ever reach reserved keys.

From it two laws that need no knowledge of the conflict test:

  * `store_refines_map`: lookups and range scans are those of a plain ordered map to
    which the committed writes were applied;
  * `credits_commute`: credits without reads all commit, and add up in any order and
    any cutting into batches.
-/
import Dpx.Lib.Word
import Dpx.Conductor.History

namespace Dpx

open scoped Word

/-! ## Values along a run -/

/-- The value of `k` after the answers, from `v`. -/
def valueSince (tr : List Answered) (k : Key) (v : Option Bytes) : Option Bytes :=
  tr.foldl (fun v a => if a.committed then valueAfter a.proposal.writes k v else v) v

theorem valueSince_append (xs ys : List Answered) (k : Key) (v : Option Bytes) :
    valueSince (xs ++ ys) k v = valueSince ys k (valueSince xs k v) :=
  List.foldl_append

theorem valueSince_of_unwritten {tr : List Answered} {k : Key}
    (h : ∀ b ∈ tr, b.wrote k = false) (v : Option Bytes) : valueSince tr k v = v := by
  induction tr generalizing v with
  | nil => rfl
  | cons a tr ih =>
      simp only [List.forall_mem_cons] at h
      have hstep : (if a.committed then valueAfter a.proposal.writes k v else v) = v := by
        split
        · rename_i hc
          have hnot := h.1
          rw [Answered.wrote, hc, Bool.true_and, Proposal.writesKey, List.any_eq_false] at hnot
          exact valueAfter_of_forall_ne (fun w hw => by simpa using hnot w hw) v
        · rfl
      rw [valueSince, List.foldl_cons, hstep]
      exact ih h.2 v

theorem effect_entryLoop {τ : Type} (S : ShadowOps τ) {k : Key} (hk : isReserved k = false)
    (v : Option Bytes) (ps : List Proposal) :
    ∀ s : BatchPass τ, BatchOp.effect k v (entryLoop (judge S) ps s).2.engBatch =
      valueSince (answers s.index ps (entryLoop (judge S) ps s).1) k
        (BatchOp.effect k v s.engBatch) := by
  induction ps with
  | nil => intro s; rfl
  | cons p ps ih =>
      intro s
      have hstep : BatchOp.effect k v (judge S s p).2.engBatch =
          valueSince [⟨s.index + 1, p, (judge S s p).1⟩] k (BatchOp.effect k v s.engBatch) := by
        rw [judge]
        split
        · rfl
        · rw [BatchPass.accept, BatchOp.effect_append, effect_commit_user hk]
          rfl
      have hrest := ih (judge S s p).2
      rw [index_judge, hstep] at hrest
      exact hrest

namespace DirectProposer

variable {σ : Type} [StorageEngine σ] [LawfulEngine σ] {k : Key}

theorem batch_values (d : DirectProposer σ) (hk : isReserved k = false) {ps : List Proposal}
    (hps : ∀ p ∈ ps, p.WellFormed) :
    StorageEngine.get (d.applyBatchDirect ps).2.fsm.engine k =
      valueSince (d.answered ps) k (StorageEngine.get d.fsm.engine k) := by
  obtain ⟨τ, S, hres, -, -, hget⟩ := d.applyBatchDirect_spec hps
  rw [hget, effect_entryLoop S hk, answered, hres]
  rfl

/-- **Every run.**  A user key has the value its committed writes leave. -/
theorem run_values (hk : isReserved k = false) {batches : List (List Proposal)}
    (hwf : ∀ b ∈ batches, ∀ p ∈ b, p.WellFormed) :
    ∀ d : DirectProposer σ, StorageEngine.get (d.run batches).fsm.engine k =
      valueSince (d.trace batches) k (StorageEngine.get d.fsm.engine k) := by
  induction batches with
  | nil => intro d; rfl
  | cons batch batches ih =>
      intro d
      simp only [List.forall_mem_cons] at hwf
      rw [trace, valueSince_append, ← d.batch_values hk hwf.1]
      exact ih hwf.2 _

end DirectProposer

/-! ## A plain ordered map -/

abbrev PlainMap := GoMap Bytes

namespace PlainMap

/-- A write, as the user means it. -/
def write (m : PlainMap) (w : WriteEntry) : PlainMap :=
  match w.op with
  | .set => m.insert w.key w.value
  | .delete => m.erase w.key
  | .credit | .debit => m.insert w.key (mergeInt64 ((m[w.key]?).getD []) w.value)
  | .other _ _ => m

/-- A proposal is its writes, in order. -/
def commit (m : PlainMap) (p : Proposal) : PlainMap := p.writes.foldl write m

/-- The pairs of `[start, fin)`, ascending; an empty `fin` bounds nothing. -/
def range (m : PlainMap) (start fin : Bytes) : List (Bytes × Bytes) :=
  m.toList.filter fun it => inRange start fin it.1

theorem getElem?_write (m : PlainMap) (w : WriteEntry) (k : Key) :
    (m.write w)[k]? = if w.key = k then w.act m[k]? else m[k]? := by
  obtain ⟨op, key, value⟩ := w
  by_cases h : key = k
  · subst h
    cases op <;> simp [write, WriteEntry.act]
  · cases op <;> simp [write, h, Std.ExtTreeMap.getElem?_insert, Std.ExtTreeMap.getElem?_erase]

theorem getElem?_commit (m : PlainMap) (p : Proposal) (k : Key) :
    (m.commit p)[k]? = valueAfter p.writes k m[k]? := by
  obtain ⟨readSet, writes, wall, counter⟩ := p
  induction writes generalizing m with
  | nil => rfl
  | cons w ws ih =>
      rw [valueAfter_cons, ← getElem?_write]
      exact ih (m.write w)

end PlainMap

/-- The proposals answered with a zero result, in order. -/
def committed (tr : List Answered) : List Proposal :=
  (tr.filter Answered.committed).map Answered.proposal

theorem getElem?_foldl_commit (tr : List Answered) (k : Key) :
    ∀ m : PlainMap, ((committed tr).foldl PlainMap.commit m)[k]? = valueSince tr k m[k]? := by
  induction tr with
  | nil => intro m; rfl
  | cons a tr ih =>
      intro m
      cases ha : a.committed with
      | false =>
          simp only [committed, List.filter_cons, ha, Bool.false_eq_true, if_false, valueSince,
            List.foldl_cons]
          exact ih m
      | true =>
          simp only [committed, List.filter_cons, ha, if_true, valueSince, List.foldl_cons,
            List.map_cons]
          rw [← PlainMap.getElem?_commit]
          exact ih (m.commit a.proposal)

theorem valueSince_reserved {tr : List Answered} (htr : ∀ a ∈ tr, a.proposal.WellFormed) {k : Key}
    (hk : isReserved k = true) (v : Option Bytes) : valueSince tr k v = v := by
  induction tr generalizing v with
  | nil => rfl
  | cons a tr ih =>
      simp only [List.forall_mem_cons] at htr
      have hne : ∀ w ∈ a.proposal.writes, w.key ≠ k := by
        rintro w hw rfl
        rw [htr.1.user w hw] at hk
        exact Bool.noConfusion hk
      have hstep : (if a.committed then valueAfter a.proposal.writes k v else v) = v := by
        split
        · exact valueAfter_of_forall_ne hne v
        · rfl
      rw [valueSince, List.foldl_cons, hstep]
      exact ih htr.2 v

namespace DirectProposer

theorem mem_trace_proposal {σ : Type} [StorageEngine σ] {batches : List (List Proposal)} :
    ∀ {d : DirectProposer σ} {a : Answered}, a ∈ d.trace batches →
      ∃ b ∈ batches, a.proposal ∈ b := by
  have hanswers : ∀ (ps : List Proposal) (i : UInt64) (rs : List ApplyResult) (a : Answered),
      a ∈ answers i ps rs → a.proposal ∈ ps := by
    intro ps
    induction ps with
    | nil => intro i rs a ha; exact absurd ha List.not_mem_nil
    | cons p ps ih =>
        intro i rs a ha
        cases rs with
        | nil => exact absurd ha List.not_mem_nil
        | cons r rs =>
            rcases List.mem_cons.mp ha with rfl | ha
            · exact List.mem_cons_self
            · exact List.mem_cons_of_mem _ (ih _ _ _ ha)
  induction batches with
  | nil => intro d a ha; exact absurd ha List.not_mem_nil
  | cons batch batches ih =>
      intro d a ha
      rcases List.mem_append.mp ha with ha | ha
      · exact ⟨batch, List.mem_cons_self, hanswers _ _ _ _ ha⟩
      · obtain ⟨b, hb, hab⟩ := ih ha
        exact ⟨b, List.mem_cons_of_mem _ hb, hab⟩

/-- **The store is a map.**  After every sequence of batches on the empty engine, lookups
of user keys and scans of every range are those of the plain map to which the writes of
the committed proposals were applied in order. -/
theorem store_refines_map {d : DirectProposer State} {syncPolicy : SyncPolicy}
    (hopen : newDirectProposer State.empty syncPolicy = .ok d) (batches : List (List Proposal))
    (hwf : ∀ b ∈ batches, ∀ p ∈ b, p.WellFormed) :
    let s := (d.run batches).fsm.engine
    let m := (committed (d.trace batches)).foldl PlainMap.commit ∅
    (∀ k, isReserved k = false → s.get k = m[k]?) ∧
      ∀ start fin, s.newIter start fin = m.range start fin := by
  intro s m
  have hempty : ∀ k, d.fsm.engine.get k = (∅ : PlainMap)[k]? := by
    intro k
    rw [newDirectProposer_empty] at hopen
    cases hopen
    exact State.get_empty k
  have hget : ∀ k, isReserved k = false → s.get k = m[k]? := by
    intro k hk
    have hrun : s.get k = _ := run_values hk hwf d
    rw [hrun, getElem?_foldl_commit]
    exact congrArg _ (hempty k)
  have hreserved : ∀ k, isReserved k = true → m[k]? = none := by
    intro k hk
    rw [getElem?_foldl_commit, valueSince_reserved ?_ hk]
    · exact Std.ExtTreeMap.getElem?_empty
    · intro a ha
      obtain ⟨b, hb, hab⟩ := mem_trace_proposal ha
      exact hwf b hb _ hab
  refine ⟨hget, fun start fin => ?_⟩
  refine (s.lists_newIter start fin).unique ?_
  refine ((Scan.lists_toList m).filter (inRange start fin)).congr fun k v => ?_
  cases hk : isReserved k with
  | false => simp [hget k hk]
  | true => simp [hreserved k hk]

/-- The write is the one pair a full scan yields; its version record is not listed. -/
theorem written_key_scanned :
    (opened.run [[laterWrite]]).fsm.engine.newIter [] [] =
      ((committed (opened.trace [[laterWrite]])).foldl PlainMap.commit ∅).range [] [] :=
  (store_refines_map (newDirectProposer_empty .syncBatch) [[laterWrite]] (by decide)).2 [] []

end DirectProposer

/-! ## Credits -/

/-- Credits of user keys, and no reads. -/
structure Proposal.CreditOnly (p : Proposal) : Prop where
  reads : p.readSet = []
  credits : ∀ w ∈ p.writes, w.op = .credit
  user : ∀ w ∈ p.writes, isReserved w.key = false

/-- The amounts the proposals merge into `k`. -/
def deltasOf (ps : List Proposal) (k : Key) : List Int64 :=
  ((ps.flatMap Proposal.writes).filter fun w => w.key = k).map fun w => decodeInt64 w.value

theorem Proposal.CreditOnly.wellFormed {p : Proposal} (h : p.CreditOnly) : p.WellFormed := by
  refine ⟨fun w hw => ?_, h.user⟩
  rw [h.credits w hw]
  rfl

theorem merged_perm (v : Option Bytes) {ds es : List Int64} (h : ds.Perm es) :
    merged v ds = merged v es := by
  have hsum : ds.sum = es.sum := h.sum_eq
  cases ds with
  | nil => rw [List.Perm.nil_eq h]
  | cons d ds =>
      cases es with
      | nil => exact absurd h.eq_nil (List.cons_ne_nil _ _)
      | cons e es => rw [merged, merged, hsum]

theorem valueAfter_eq_deltas {ps : List Proposal} {k : Key}
    (h : ∀ p ∈ ps, ∀ w ∈ p.writes, w.key = k → w.isMerge = true) (v : Option Bytes) :
    valueAfter (ps.flatMap Proposal.writes) k v = merged v (deltasOf ps k) := by
  have hmerge : ∀ w ∈ newestFirst (ps.flatMap Proposal.writes) k, w.isMerge = true := by
    intro w hw
    obtain ⟨hmem, hkey⟩ := List.mem_filter.mp (List.mem_reverse.mp hw)
    obtain ⟨p, hp, hwp⟩ := List.mem_flatMap.mp hmem
    exact h p hp w hwp (of_decide_eq_true hkey)
  rw [valueAfter_of_merges hmerge]
  exact merged_perm v ((List.reverse_perm _).map _)

theorem valueAfter_append (xs ys : List WriteEntry) (k : Key) (v : Option Bytes) :
    valueAfter (xs ++ ys) k v = valueAfter ys k (valueAfter xs k v) := by
  simp [valueAfter]

theorem valueSince_of_committed {tr : List Answered} (h : ∀ a ∈ tr, a.result = .ok) (k : Key)
    (v : Option Bytes) :
    valueSince tr k v = valueAfter ((tr.map Answered.proposal).flatMap Proposal.writes) k v := by
  induction tr generalizing v with
  | nil => rfl
  | cons a tr ih =>
      simp only [List.forall_mem_cons] at h
      rw [List.map_cons, List.flatMap_cons, valueAfter_append, ← ih h.2]
      simp [valueSince, Answered.committed, h.1]

theorem writesKey_iff_deltasOf {ps : List Proposal} {k : Key} :
    (ps.any fun p => p.writesKey k) = true ↔ deltasOf ps k ≠ [] := by
  simp only [deltasOf, ne_eq, List.map_eq_nil_iff, List.filter_eq_nil_iff, List.mem_flatMap,
    List.any_eq_true, Proposal.writesKey, decide_eq_true_eq]
  push Not
  constructor
  · rintro ⟨p, hp, w, hw, hk⟩
    exact ⟨w, ⟨p, hp, hw⟩, hk⟩
  · rintro ⟨w, ⟨p, hp, hw⟩, hk⟩
    exact ⟨p, hp, w, hw, hk⟩

theorem map_answers {ps : List Proposal} :
    ∀ {rs : List ApplyResult} (i : UInt64), rs.length = ps.length →
      (answers i ps rs).map (fun a => (a.proposal, a.result)) = ps.zip rs := by
  induction ps with
  | nil => intro rs i _; rfl
  | cons p ps ih =>
      intro rs i hlen
      cases rs with
      | nil => cases hlen
      | cons r rs => exact congrArg _ (ih (i + 1) (Nat.succ.inj hlen))

namespace DirectProposer

variable {σ : Type} [StorageEngine σ] (d : DirectProposer σ) (ps : List Proposal)

theorem map_answered : (d.answered ps).map Answered.proposal = ps := by
  have hlen := d.length_applyBatchDirect ps
  have hfst := congrArg (List.map Prod.fst) (map_answers d.index hlen)
  rwa [List.map_map, List.map_fst_zip (Nat.le_of_eq hlen.symm)] at hfst

theorem map_answered_result :
    (d.answered ps).map Answered.result = (d.applyBatchDirect ps).1 := by
  have hlen := d.length_applyBatchDirect ps
  have hsnd := congrArg (List.map Prod.snd) (map_answers d.index hlen)
  rwa [List.map_map, List.map_snd_zip (Nat.le_of_eq hlen)] at hsnd

theorem length_answered : (d.answered ps).length = ps.length := by
  have hlen := congrArg List.length (d.map_answered ps)
  rwa [List.length_map] at hlen

end DirectProposer

theorem entryLoop_of_no_reads {τ : Type} (S : ShadowOps τ) {ps : List Proposal}
    (h : ∀ p ∈ ps, p.readSet = []) :
    ∀ s : BatchPass τ, (entryLoop (judge S) ps s).1 = ps.map fun _ => ApplyResult.ok := by
  induction ps with
  | nil => intro s; rfl
  | cons p ps ih =>
      intro s
      simp only [List.forall_mem_cons] at h
      have hpass : (judge S s p).1 = .ok := by simp [judge, conflicts, h.1]
      rw [entryLoop, hpass, ih h.2]
      rfl

namespace DirectProposer

variable {σ : Type} [StorageEngine σ] [LawfulEngine σ]

theorem trace_of_no_reads {batches : List (List Proposal)}
    (hwf : ∀ b ∈ batches, ∀ p ∈ b, p.WellFormed) (h : ∀ b ∈ batches, ∀ p ∈ b, p.readSet = []) :
    ∀ d : DirectProposer σ, (d.trace batches).map (fun a => (a.proposal, a.result)) =
      batches.flatten.map fun p => (p, ApplyResult.ok) := by
  induction batches with
  | nil => intro d; rfl
  | cons batch batches ih =>
      intro d
      simp only [List.forall_mem_cons] at hwf h
      obtain ⟨τ, S, hres, -⟩ := d.applyBatchDirect_spec hwf.1
      rw [entryLoop_of_no_reads S h.1] at hres
      rw [trace, List.map_append, ih hwf.2 h.2, List.flatten_cons, List.map_append, answered, hres,
        map_answers _ (List.length_map _)]
      congr 1
      simpa using List.zip_map' (f := fun p : Proposal => p) (g := fun _ => ApplyResult.ok)
        (l := batch)

theorem run_values_of_no_reads {k : Key} (hk : isReserved k = false)
    {batches : List (List Proposal)} (hwf : ∀ b ∈ batches, ∀ p ∈ b, p.WellFormed)
    (h : ∀ b ∈ batches, ∀ p ∈ b, p.readSet = []) (d : DirectProposer σ) :
    StorageEngine.get (d.run batches).fsm.engine k =
      valueAfter (batches.flatten.flatMap Proposal.writes) k
        (StorageEngine.get d.fsm.engine k) := by
  have htrace := trace_of_no_reads hwf h d
  have hall : ∀ a ∈ d.trace batches, a.result = .ok := by
    intro a ha
    have hpair := List.mem_map_of_mem (f := fun a : Answered => (a.proposal, a.result)) ha
    rw [htrace] at hpair
    obtain ⟨p, -, hp⟩ := List.mem_map.mp hpair
    exact (Prod.mk.inj hp).2.symm
  have hprops : (d.trace batches).map Answered.proposal = batches.flatten := by
    have hfst := congrArg (List.map Prod.fst) htrace
    simpa [List.map_map, Function.comp_def] using hfst
  rw [run_values hk hwf, valueSince_of_committed hall, hprops]

/-- **Credits commute.**  However credits without reads are ordered and cut into batches,
all of them commit, and every key they name ends at its value plus the sum of its amounts
modulo `2^64`. -/
theorem credits_commute (d : DirectProposer State) {ps : List Proposal}
    (hps : ∀ p ∈ ps, p.CreditOnly) (batches : List (List Proposal))
    (hcut : batches.flatten.Perm ps) :
    (d.trace batches).map (fun a => (a.proposal, a.result)) =
        batches.flatten.map (fun p => (p, ApplyResult.ok)) ∧
      ∀ k, isReserved k = false → (d.run batches).fsm.engine.get k =
        if ps.any fun p => p.writesKey k then
          some (encodeInt64 (decodeInt64 ((d.fsm.engine.get k).getD []) + (deltasOf ps k).sum))
        else d.fsm.engine.get k := by
  have hmem : ∀ b ∈ batches, ∀ p ∈ b, p.CreditOnly := by
    intro b hb p hp
    exact hps p (hcut.mem_iff.mp (List.mem_flatten.mpr ⟨b, hb, hp⟩))
  have hwf : ∀ b ∈ batches, ∀ p ∈ b, p.WellFormed := fun b hb p hp => (hmem b hb p hp).wellFormed
  have hreads : ∀ b ∈ batches, ∀ p ∈ b, p.readSet = [] := fun b hb p hp => (hmem b hb p hp).reads
  refine ⟨trace_of_no_reads hwf hreads d, fun k hk => ?_⟩
  have hmerges : ∀ p ∈ batches.flatten, ∀ w ∈ p.writes, w.key = k → w.isMerge = true := by
    intro p hp w hw _
    simp [WriteEntry.isMerge, (hps p (hcut.mem_iff.mp hp)).credits w hw]
  -- the amounts of the cut are those of the list, in another order
  have hdeltas : (deltasOf batches.flatten k).Perm (deltasOf ps k) :=
    ((hcut.flatMap_right _).filter _).map _
  have hrun : (d.run batches).fsm.engine.get k = merged (d.fsm.engine.get k) (deltasOf ps k) := by
    rw [← merged_perm _ hdeltas, ← valueAfter_eq_deltas hmerges]
    exact run_values_of_no_reads hk hwf hreads d
  rw [hrun]
  cases hd : deltasOf ps k with
  | nil =>
      have hno : ¬ (ps.any fun p => p.writesKey k) = true :=
        fun h => writesKey_iff_deltasOf.mp h hd
      rw [if_neg hno]
      rfl
  | cons e es =>
      have hyes : (ps.any fun p => p.writesKey k) = true :=
        writesKey_iff_deltasOf.mpr (by rw [hd]; exact List.cons_ne_nil _ _)
      rw [if_pos hyes]
      rfl

/-- A credit of the key `k`. -/
def deposit (n : Int64) : Proposal := ⟨[], [⟨.credit, [0x6b], encodeInt64 n⟩], 0, 0⟩

/-- Two deposits in one batch, in the other order: the sum. -/
theorem deposits_add_up :
    (opened.run [[deposit 2, deposit 1]]).fsm.engine.get [0x6b] = some (encodeInt64 3) := by
  have hps : ∀ p ∈ [deposit 1, deposit 2], p.CreditOnly := by
    intro p hp
    simp only [List.mem_cons, List.not_mem_nil, or_false] at hp
    rcases hp with rfl | rfl
    · exact ⟨rfl, by decide, by decide⟩
    · exact ⟨rfl, by decide, by decide⟩
  have hrun := (credits_commute opened hps [[deposit 2, deposit 1]] (List.Perm.swap _ _ _)).2
    [0x6b] (by decide)
  exact hrun.trans (by decide +kernel)

end DirectProposer

end Dpx
