/-
# `Dpx.Conductor.History` — runs of the single-node proposer

A run is a list of batches; `applyBatchDirect` is deterministic, so the list
determines everything.  `trace` is what the clients saw of it: every proposal in
apply order, with the index it was given and the answer it got.

Every verdict keeps the trace an explanation of the state (`Coherent`), hence every
batch and every run does (`Explains.run`).

With that a verdict becomes a statement about the trace (`Verdict`): an entry that
passed is stale in no read entry, and an entry that was turned away is stale in one
or names a key committed earlier in its own batch.  For plain reads from a snapshot
the second case implies the first, which is `plain_reads_exact`.
-/
import Dpx.Engine.Memory
import Dpx.Conductor.Direct
import Dpx.Conductor.Trace

namespace Dpx

/-! ## Verdicts, read off the trace -/

/-- The answer to `a` after `tr`, whose batch began after the first `start` answers. -/
structure Verdict (b : Base) (start : Nat) (tr : List Answered) (a : Answered) : Prop where
  answered : a.result = .ok ∨ a.result = .conflicted
  pass : a.result = .ok → ∀ re ∈ a.proposal.readSet, stale (lastRecord b tr re.key) re = false
  turned : a.result = .conflicted → ∃ re ∈ a.proposal.readSet,
    stale (lastRecord b tr re.key) re = true ∨ ∃ a' ∈ tr.drop start, a'.wrote re.key = true

section Loop
variable {τ : Type} (S : ShadowOps τ) {b : Base} {get : Key → Option Bytes} {start : Nat}

/-- The trace also explains the pass, and the shadow knows only this batch's keys. -/
structure PassCoherent (b : Base) (get : Key → Option Bytes) (start : Nat) (s : BatchPass τ)
    (tr : List Answered) : Prop where
  state : Coherent b s.index s.keyEpoch (fun k => BatchOp.effect k (get k) s.engBatch) tr
  start_le : start ≤ tr.length
  noted : ∀ k, S.Noted s.shadow k → ∃ a ∈ tr.drop start, a.wrote k = true

theorem noted_foldl (i : UInt64) (ws : List WriteEntry) :
    ∀ {t : τ} {k : Key}, S.Noted (ws.foldl (S.note i) t) k →
      S.Noted t k ∨ ∃ w ∈ ws, w.key = k := by
  induction ws with
  | nil => exact fun h => Or.inl h
  | cons w ws ih =>
      intro t k h
      rcases ih h with hn | ⟨v, hv, hkey⟩
      · rcases S.noted_note hn with hold | hkey
        · exact Or.inl hold
        · exact Or.inr ⟨w, List.mem_cons_self, hkey⟩
      · exact Or.inr ⟨v, List.mem_cons_of_mem _ hv, hkey⟩

variable {S} {s : BatchPass τ} {tr : List Answered}

theorem PassCoherent.verdict (h : PassCoherent S b get start s tr) (p : Proposal) :
    Verdict b start tr ⟨s.index + 1, p, (judge S s p).1⟩ := by
  have hany : conflicts S s p =
      p.readSet.any fun re => stale (lastRecord b tr re.key) re || S.hit s.shadow re := by
    rw [conflicts]
    simp only [h.state.epochOf_eq]
  rw [judge, hany]
  cases hc : p.readSet.any fun re => stale (lastRecord b tr re.key) re || S.hit s.shadow re with
  | true =>
      refine ⟨Or.inr rfl, fun hr => absurd hr ApplyResult.ok_ne_conflicted.symm, fun _ => ?_⟩
      obtain ⟨re, hmem, hre⟩ := List.any_eq_true.mp hc
      refine ⟨re, hmem, ?_⟩
      rcases Bool.or_eq_true_iff.mp hre with hst | hhit
      · exact Or.inl hst
      · exact Or.inr (h.noted _ (S.noted_of_hit hhit))
  | false =>
      refine ⟨Or.inl rfl, fun _ re hmem => ?_, fun hr => absurd hr ApplyResult.ok_ne_conflicted⟩
      have hre := List.any_eq_false.mp hc re hmem
      exact (Bool.or_eq_false_iff.mp (Bool.eq_false_iff.mpr hre)).1

theorem PassCoherent.judge (h : PassCoherent S b get start s tr)
    (hlt : b.index + tr.length + 1 < 2 ^ 64) {p : Proposal} (hp : p.WellFormed) :
    PassCoherent S b get start (Dpx.judge S s p).2
      (tr ++ [⟨s.index + 1, p, (Dpx.judge S s p).1⟩]) := by
  rw [Dpx.judge]
  have hdrop : ∀ a : Answered, (tr ++ [a]).drop start = tr.drop start ++ [a] :=
    fun a => List.drop_append_of_le_length h.start_le
  have hlen : ∀ a : Answered, start ≤ (tr ++ [a]).length := fun a => by
    rw [List.length_append]
    exact Nat.le_add_right_of_le h.start_le
  split
  · refine ⟨h.state.skip hlt p, hlen _, fun k hk => ?_⟩
    obtain ⟨b, hb, hw⟩ := h.noted k hk
    exact ⟨b, by rw [hdrop]; exact List.mem_append_left _ hb, hw⟩
  · refine ⟨?_, hlen _, fun k hk => ?_⟩
    · have hadm := h.state.accept hlt hp
      simp only [← BatchOp.effect_append] at hadm
      exact hadm
    · rw [hdrop]
      rcases noted_foldl S _ p.writes hk with hold | ⟨w, hw, hkey⟩
      · obtain ⟨b, hb, hwrote⟩ := h.noted k hold
        exact ⟨b, List.mem_append_left _ hb, hwrote⟩
      · refine ⟨_, List.mem_append_right _ (List.mem_singleton.mpr rfl), ?_⟩
        show p.writesKey k = true
        exact List.any_eq_true.mpr ⟨w, hw, by simpa using hkey⟩

theorem index_judge (S : ShadowOps τ) (s : BatchPass τ) (p : Proposal) :
    (Dpx.judge S s p).2.index = s.index + 1 := by
  rw [Dpx.judge]
  split <;> rfl

theorem entryLoop_coherent {ps : List Proposal} (hps : ∀ p ∈ ps, p.WellFormed) :
    ∀ {s : BatchPass τ} {tr : List Answered}, PassCoherent S b get start s tr →
      b.index + tr.length + ps.length < 2 ^ 64 →
      PassCoherent S b get start (entryLoop (judge S) ps s).2
        (tr ++ answers s.index ps (entryLoop (judge S) ps s).1) ∧
      ∀ pre a post, answers s.index ps (entryLoop (judge S) ps s).1 = pre ++ a :: post →
        Verdict b start (tr ++ pre) a := by
  induction ps with
  | nil =>
      intro s tr h _
      refine ⟨?_, fun pre a post hsplit => ?_⟩
      · show PassCoherent S b get start s (tr ++ [])
        rwa [List.append_nil]
      · exact absurd hsplit.symm (List.append_ne_nil_of_right_ne_nil _ (List.cons_ne_nil _ _))
  | cons p ps ih =>
      intro s tr h hlt
      rw [List.length_cons] at hlt
      have hstep := h.judge (by omega) (hps p List.mem_cons_self)
      obtain ⟨hend, hverd⟩ := ih (fun q hq => hps q (List.mem_cons_of_mem _ hq)) hstep
        (by rw [List.length_append, List.length_singleton]; omega)
      rw [index_judge] at hend hverd
      rw [List.append_assoc] at hend
      refine ⟨hend, fun pre a post hsplit => ?_⟩
      cases pre with
      | nil =>
          obtain ⟨rfl, -⟩ := List.cons.inj hsplit
          rw [List.append_nil]
          exact h.verdict p
      | cons a' pre =>
          obtain ⟨rfl, htail⟩ := List.cons.inj hsplit
          have hv := hverd pre a post htail
          rwa [List.append_assoc] at hv

end Loop

/-! ## Runs -/

namespace DirectProposer

variable {σ : Type} [StorageEngine σ]

/-- The answers to one batch. -/
def answered (d : DirectProposer σ) (batch : List Proposal) : List Answered :=
  answers d.index batch (d.applyBatchDirect batch).1

/-- The state after a run. -/
def run (d : DirectProposer σ) : List (List Proposal) → DirectProposer σ
  | [] => d
  | batch :: batches => run (d.applyBatchDirect batch).2 batches

/-- What the clients saw of it. -/
def trace (d : DirectProposer σ) : List (List Proposal) → List Answered
  | [] => []
  | batch :: batches => d.answered batch ++ trace (d.applyBatchDirect batch).2 batches

theorem trace_append (xs ys : List (List Proposal)) :
    ∀ d : DirectProposer σ, d.trace (xs ++ ys) = d.trace xs ++ (d.run xs).trace ys := by
  induction xs with
  | nil => exact fun _ => rfl
  | cons x xs ih =>
      intro d
      show d.answered x ++ trace _ (xs ++ ys) = (d.answered x ++ _) ++ _
      rw [ih, List.append_assoc]
      rfl

theorem length_trace (batches : List (List Proposal)) :
    ∀ d : DirectProposer σ, (d.trace batches).length ≤ batches.flatten.length := by
  induction batches with
  | nil => exact fun _ => Nat.le_refl _
  | cons batch batches ih =>
      intro d
      rw [trace, List.flatten_cons, List.length_append, List.length_append]
      exact Nat.add_le_add (length_answers _ _ _) (ih _)

/-- From `b`, the trace leads to the proposer. -/
def Explains (b : Base) (tr : List Answered) (d : DirectProposer σ) : Prop :=
  Coherent b d.index d.fsm.keyEpoch (StorageEngine.get d.fsm.engine) tr

/-- A proposer as a base. -/
def base (d : DirectProposer σ) : Base :=
  ⟨d.index.toNat, fun k => d.fsm.keyEpoch[k]?, StorageEngine.get d.fsm.engine⟩

theorem explains_base (d : DirectProposer σ) : Explains d.base [] d where
  index_eq := rfl
  sorted := List.Pairwise.nil
  bounds := fun _ ha => absurd ha List.not_mem_nil
  keyEpoch_eq := fun _ => rfl
  version_eq := fun _ => rfl
  value_eq := fun _ _ => rfl

variable [LawfulEngine σ]

theorem Explains.batch {b : Base} {d : DirectProposer σ} {tr : List Answered}
    (h : Explains b tr d) {batch : List Proposal} (hwf : ∀ p ∈ batch, p.WellFormed)
    (hlt : b.index + tr.length + batch.length < 2 ^ 64) :
    Explains b (tr ++ d.answered batch) (d.applyBatchDirect batch).2 ∧
      ∀ pre a post, d.answered batch = pre ++ a :: post → Verdict b tr.length (tr ++ pre) a := by
  obtain ⟨τ, S, hres, hidx, hke, hget⟩ := d.applyBatchDirect_spec hwf
  have hstart : PassCoherent S b (StorageEngine.get d.fsm.engine) tr.length
      (d.startPass S.empty) tr :=
    ⟨h, Nat.le_refl _, fun k hk => absurd hk (S.not_noted_empty k)⟩
  obtain ⟨hend, hverd⟩ := entryLoop_coherent hwf hstart hlt
  rw [answered, hres]
  refine ⟨?_, hverd⟩
  have hview : StorageEngine.get (d.applyBatchDirect batch).2.fsm.engine = fun k =>
      BatchOp.effect k (StorageEngine.get d.fsm.engine k)
        (entryLoop (judge S) batch (d.startPass S.empty)).2.engBatch := funext hget
  rw [Explains, hidx, hke, hview]
  exact hend.state

/-- **Every run.**  The trace explains every state reached, and every answer is a
verdict in a batch that began no earlier than the run. -/
theorem Explains.run {b : Base} {batches : List (List Proposal)}
    (hwf : ∀ b ∈ batches, ∀ p ∈ b, p.WellFormed) :
    ∀ {d : DirectProposer σ} {tr : List Answered}, Explains b tr d →
      b.index + tr.length + batches.flatten.length < 2 ^ 64 →
      Explains b (tr ++ d.trace batches) (d.run batches) ∧
      ∀ pre a post, d.trace batches = pre ++ a :: post →
        ∃ start, tr.length ≤ start ∧ Verdict b start (tr ++ pre) a := by
  induction batches with
  | nil =>
      intro d tr h _
      refine ⟨?_, fun pre a post hsplit => ?_⟩
      · show Explains b (tr ++ []) d
        rwa [List.append_nil]
      · exact absurd hsplit.symm (List.append_ne_nil_of_right_ne_nil _ (List.cons_ne_nil _ _))
  | cons batch batches ih =>
      intro d tr h hlt
      rw [List.flatten_cons, List.length_append] at hlt
      obtain ⟨hbatch, hverd⟩ := h.batch (hwf batch List.mem_cons_self) (by omega)
      have hlen : (d.answered batch).length ≤ batch.length := length_answers _ _ _
      obtain ⟨hend, hrest⟩ := ih (fun b hb => hwf b (List.mem_cons_of_mem _ hb)) hbatch
        (by rw [List.length_append]; omega)
      rw [List.append_assoc] at hend
      refine ⟨hend, fun pre a post hsplit => ?_⟩
      -- the answer is one of this batch, or one of the rest of the run
      have hcut : d.answered batch ++ _ = pre ++ a :: post := hsplit
      rcases List.append_eq_append_iff.mp hcut with ⟨mid, hpre, hmid⟩ | ⟨mid, hans, hmid⟩
      · obtain ⟨start, hstart, hv⟩ := hrest mid a post hmid
        rw [List.length_append] at hstart
        refine ⟨start, by omega, ?_⟩
        rwa [hpre, ← List.append_assoc]
      · cases mid with
        | nil =>
            obtain ⟨start, hstart, hv⟩ := hrest [] a post hmid.symm
            rw [List.length_append] at hstart
            rw [List.append_nil] at hans hv
            refine ⟨start, by omega, ?_⟩
            rwa [← hans]
        | cons b mid =>
            obtain ⟨rfl, -⟩ := List.cons.inj hmid
            exact ⟨tr.length, Nat.le_refl _, hverd pre _ mid hans⟩

end DirectProposer

/-! ## Runs on the empty memory engine -/

namespace DirectProposer

theorem newDirectProposer_empty (syncPolicy : SyncPolicy) :
    newDirectProposer State.empty syncPolicy = .ok ⟨DpxFSM.new State.empty syncPolicy, 0⟩ := by
  have hscan : StorageEngine.rawIter (DpxFSM.new State.empty syncPolicy).engine rawIterStart
      rawIterEnd = ([], none) :=
    congrArg (fun l => (l, none)) (State.rawIter_empty rawIterStart rawIterEnd)
  rw [newDirectProposer, DpxFSM.open, hscan]
  rfl

/-- The proposer on the empty engine. -/
def opened : DirectProposer State := ⟨DpxFSM.new State.empty .syncBatch, 0⟩

theorem explains_new {d : DirectProposer State} {syncPolicy : SyncPolicy}
    (h : newDirectProposer State.empty syncPolicy = .ok d) : Explains .empty [] d := by
  rw [newDirectProposer_empty] at h
  cases h
  refine ⟨⟨rfl, List.Pairwise.nil, fun a ha => absurd ha List.not_mem_nil, fun k => ?_⟩,
    fun k => ?_, fun k _ => ?_⟩
  · exact Std.ExtTreeMap.getElem?_empty
  · exact State.get_empty _
  · exact State.get_empty _

theorem Explains.getVersion {d : DirectProposer State} {tr : List Answered}
    (h : Explains .empty tr d) (k : Key) : d.fsm.engine.getVersion k = lastRecord .empty tr k := by
  have hver : d.fsm.engine.get (versionKey k) = _ := h.version_eq k
  rw [State.getVersion_eq, hver, lastRecord_empty]
  cases (records tr k).getLast? with
  | none => rfl
  | some r => exact decodeEpochRecord_encode r

/-- What a run says about one of its answers and an earlier snapshot: the snapshot is
explained by its own trace, records ascend up to the answer, and the answer is a
verdict in a batch that began after the snapshot. -/
theorem judged_after {d : DirectProposer State} {syncPolicy : SyncPolicy}
    (hopen : newDirectProposer State.empty syncPolicy = .ok d)
    {before after : List (List Proposal)} {since post : List Answered} {a : Answered}
    (hwf : ∀ b ∈ before ++ after, ∀ p ∈ b, p.WellFormed)
    (hwrap : (before ++ after).flatten.length < 2 ^ 64)
    (htrace : d.trace (before ++ after) = d.trace before ++ since ++ a :: post) :
    Explains .empty (d.trace before) (d.run before) ∧
      (∀ k, LastWriter.Ascending EpochRecord.num (records (d.trace before ++ since) k)) ∧
      ∃ start, (d.trace before).length ≤ start ∧
        Verdict .empty start (d.trace before ++ since) a := by
  rw [List.flatten_append, List.length_append] at hwrap
  obtain ⟨hsnap, -⟩ := (explains_new hopen).run
    (fun b hb => hwf b (List.mem_append_left _ hb)) (by show 0 + 0 + _ < _; omega)
  rw [List.nil_append] at hsnap
  have hlen := d.length_trace before
  obtain ⟨hend, hverd⟩ := hsnap.run (fun b hb => hwf b (List.mem_append_right _ hb))
    (by show 0 + _ + _ < _; omega)
  have hrest : (d.run before).trace after = since ++ a :: post := by
    rw [trace_append, List.append_assoc] at htrace
    exact List.append_cancel_left htrace
  refine ⟨hsnap, fun k => ?_, hverd since a post hrest⟩
  have hall := hend.ascending k
  rw [hrest, ← List.append_assoc, records_append] at hall
  exact hall.left

/-- **Exact validation of plain reads.**  In every run on the empty engine, an entry
whose read set holds plain reads of one snapshot is turned away if and only if a
proposal answered after the snapshot and before it committed a write of one of its
read keys. -/
theorem plain_reads_exact {d : DirectProposer State} {syncPolicy : SyncPolicy}
    (hopen : newDirectProposer State.empty syncPolicy = .ok d)
    (before after : List (List Proposal)) {since post : List Answered} {a : Answered}
    (hwf : ∀ b ∈ before ++ after, ∀ p ∈ b, p.WellFormed)
    (hwrap : (before ++ after).flatten.length < 2 ^ 64)
    (htrace : d.trace (before ++ after) = d.trace before ++ since ++ a :: post)
    (hreads : ∀ re ∈ a.proposal.readSet, re.isDebit = false ∧
      re.epoch = ((d.run before).fsm.engine.getVersion re.key).epoch) :
    a.result = .conflicted ↔
      ∃ b ∈ since, ∃ re ∈ a.proposal.readSet, b.wrote re.key = true := by
  obtain ⟨hsnap, hasc, start, hstart, hv⟩ := judged_after hopen hwf hwrap htrace
  have hstale : ∀ re ∈ a.proposal.readSet,
      (stale (lastRecord .empty (d.trace before ++ since) re.key) re = true ↔
        ∃ b ∈ since, b.wrote re.key = true) := by
    intro re hre
    obtain ⟨hplain, hepoch⟩ := hreads re hre
    rw [hsnap.getVersion] at hepoch
    exact stale_plain_iff (hasc re.key) hplain hepoch
  constructor
  · intro hc
    obtain ⟨re, hre, hst | ⟨b, hb, hw⟩⟩ := hv.turned hc
    · obtain ⟨b, hb, hw⟩ := (hstale re hre).mp hst
      exact ⟨b, hb, re, hre, hw⟩
    · -- the batch began after the snapshot, so its earlier commits are in `since`
      rw [List.drop_append, List.drop_eq_nil_of_le hstart, List.nil_append] at hb
      exact ⟨b, List.mem_of_mem_drop hb, re, hre, hw⟩
  · rintro ⟨b, hb, re, hre, hw⟩
    rcases hv.answered with hok | hc
    · have hpass := hv.pass hok re hre
      rw [(hstale re hre).mpr ⟨b, hb, hw⟩] at hpass
      exact Bool.noConfusion hpass
    · exact hc

/-- A write of the key `k`. -/
def laterWrite : Proposal := ⟨[], [⟨.set, [0x6b], [1]⟩], 0, 0⟩

/-- A read of `k` from before it. -/
def earlierRead : Proposal := ⟨[⟨[0x6b], 0, false⟩], [⟨.set, [0x6b], [2]⟩], 0, 0⟩

/-- The read is turned away, and the write is what did it. -/
theorem earlier_read_turned_away :
    (⟨2, earlierRead, .conflicted⟩ : Answered).result = .conflicted ↔
      ∃ b ∈ [(⟨1, laterWrite, .ok⟩ : Answered)], ∃ re ∈ earlierRead.readSet,
        b.wrote re.key = true := by
  have htrace : opened.trace ([] ++ [[laterWrite], [earlierRead]]) =
      [] ++ [⟨1, laterWrite, .ok⟩] ++ ⟨2, earlierRead, .conflicted⟩ :: [] := by
    decide +kernel
  exact plain_reads_exact (newDirectProposer_empty .syncBatch) [] [[laterWrite], [earlierRead]]
    (by decide) (by decide) htrace (by decide +kernel)

end DirectProposer

end Dpx
