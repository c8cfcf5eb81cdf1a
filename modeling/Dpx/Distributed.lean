/-
# `Dpx.Distributed` — transactions on a cluster

What the calls of `Dpx.RaftTx` come to, in every run in which replicas agree
(`Dpx.Conductor.Cluster`) and proposals fit the wire format (`Proper`).

`distributed_serializable`: if callbacks that commit are settled, every replica holds what the
committed callbacks of the entries it has applied leave, one after the other in the order of the
log, each alone on a plain map.  A call that wrote did, at a place in the log it got while it was
under way, what its callback does there alone; a call that only read, at a point its node had
reached.  That point may lie before what another node has shown, even before the call began,
which is why this is not the strict serializability of a single node.

`at_most_once`: a call has at most one proposal committed, exactly one if it returns without
error after writing, and none if it returns an error, but for the error of `raft.Apply`.
-/
import Dpx.Serial
import Dpx.Conductor.Paths
import Dpx.RaftTx

namespace Dpx

open Cluster TxNode

namespace Distributed

variable {ε : Type} {syncPolicy : SyncPolicy}

/-- What is asked of a run: that of a cluster, and a proposal that gets its place in the log fits
the wire format and writes keys the scan of `open` reaches. -/
def Proper (w : Distributed ε) : DistributedEvent ε → Prop
  | .replica e => w.cluster.Orderly e ∧ w.cluster.Ungrouped e
  | .accept i => ∀ s, w.inFlight[i]? = some s →
      s.proposal.Fits ∧ ∀ write ∈ s.proposal.writes, ¬ Unscanned write.key
  | _ => True

/-! ## The ledger accounts for the machines -/

/-- On what the machine of position `p` holds, `f` returns without error and writes nothing. -/
def ReadAt (log : List (Submission State ε × Answered)) (f : Callback ε) (p : Nat) : Prop :=
  p ≤ log.length ∧ ∃ (snap : State) (tx : DpxTx State), ViewAt log p snap ∧
    f.exec snap = (none, tx) ∧ tx.writes = []

theorem ReadAt.append {log : List (Submission State ε × Answered)} {f : Callback ε} {p : Nat}
    (h : ReadAt log f p) (more : List (Submission State ε × Answered)) :
    ReadAt (log ++ more) f p := by
  obtain ⟨hle, snap, tx, hview, hexec⟩ := h
  refine ⟨?_, snap, tx, hview.append hle more, hexec⟩
  rw [List.length_append]
  exact Nat.le_add_right_of_le hle

/-- What the ledger says of a call that is under way, or that only read. -/
structure Told (log : List (Submission State ε × Answered)) (c : RaftCall ε) : Prop where
  ready : ∀ s, c.phase = .ready s → Built log s
  read : ∀ p ended, c.phase = .returned (.done p false) ended →
    ReadAt log c.callback p ∧ p ≤ ended

theorem Told.enter {log : List (Submission State ε × Answered)} {c : RaftCall ε} (h : Told log c)
    (i : Nat) : Told log { c with phase := c.phase.enter i } := by
  by_cases hphase : c.phase = .proposed
  · rw [hphase]
    exact ⟨fun _ hs => (by cases hs), fun _ _ hp => (by cases hp)⟩
  · rw [RaftPhase.enter_of_ne hphase]
    exact h

structure Accounted (syncPolicy : SyncPolicy) (w : Distributed ε) : Prop where
  sound : w.cluster.Sound syncPolicy
  length : w.ledger.length = w.cluster.log.length
  coherent : ∀ n, n ≤ w.cluster.log.length →
    Coherent .empty (UInt64.ofNat n) (machineAt syncPolicy w.cluster.log n).keyEpoch
      (machineAt syncPolicy w.cluster.log n).engine.get (answersOf (w.ledger.take n))
  calls : ∀ c ∈ w.calls, Told w.ledger c
  inFlight : ∀ s ∈ w.inFlight, Built w.ledger s
  entries : ∀ pre e post, w.ledger = pre ++ e :: post → e.2.committed = true →
    Built pre e.1 ∧ e.2.proposal = e.1.proposal ∧ Sentence pre e
  wellFormed : ∀ e ∈ w.ledger, e.2.proposal.WellFormed
  results : ∀ (i : Nat) e, w.ledger[i]? = some e → ∀ entry, w.cluster.log[i]? = some entry →
    entry.type = .command → verdictAt syncPolicy w.cluster.log i = some e.2.result

variable {w : Distributed ε}

theorem Accounted.replica (h : Accounted syncPolicy w) {c : Cluster}
    (hsound : c.Sound syncPolicy) (hlog : c.log = w.cluster.log) :
    Accounted syncPolicy { w with cluster := c } where
  sound := hsound
  length := by rw [hlog]; exact h.length
  coherent := by rw [hlog]; exact h.coherent
  calls := h.calls
  inFlight := h.inFlight
  entries := h.entries
  wellFormed := h.wellFormed
  results := by rw [hlog]; exact h.results

theorem machineAt_concat (log : List Log) (entry : Log) :
    machineAt syncPolicy (log ++ [entry]) (log.length + 1) =
      ((machineAt syncPolicy log log.length).apply entry).2 := by
  rw [machineAt, List.take_of_length_le (by simp), machineAt, List.take_length, DpxFSM.redeliver,
    List.foldl_append]
  rfl

theorem nextEntry_index (c : Cluster) (type : LogType) (data : Bytes) :
    (c.nextEntry type data).index = UInt64.ofNat c.log.length + 1 := by
  rw [nextEntry, UInt64.ofNat_add]
  rfl

theorem Accounted.commit (h : Accounted syncPolicy w) {type : LogType} {data : Bytes}
    {s : Submission State ε} {result : ApplyResult}
    (hentry : DpxFSM.WellFormedLog (w.cluster.nextEntry type data) ∧
      DpxFSM.ScannedLog (w.cluster.nextEntry type data))
    (hnext : Coherent .empty (UInt64.ofNat w.cluster.log.length + 1)
      ((machineAt syncPolicy w.cluster.log w.cluster.log.length).apply
        (w.cluster.nextEntry type data)).2.keyEpoch
      ((machineAt syncPolicy w.cluster.log w.cluster.log.length).apply
        (w.cluster.nextEntry type data)).2.engine.get
      (answersOf w.ledger ++ [⟨UInt64.ofNat w.cluster.log.length + 1, s.proposal, result⟩]))
    (hs : result = .ok → Built w.ledger s ∧ Sentence w.ledger
      (s, ⟨UInt64.ofNat w.cluster.log.length + 1, s.proposal, result⟩))
    (hwf : s.proposal.WellFormed)
    (hresult : type = .command → ((machineAt syncPolicy w.cluster.log w.cluster.log.length).apply
      (w.cluster.nextEntry type data)).1 = result) :
    Accounted syncPolicy (w.commit syncPolicy type data s result) := by
  rw [Distributed.commit, nextEntry_index]
  have hlen : (w.cluster.log ++ [w.cluster.nextEntry type data]).length =
      w.cluster.log.length + 1 := List.length_append
  refine ⟨h.sound.commit hentry, ?_, fun n hn => ?_, fun c hc => ?_,
    fun s' hs' => (h.inFlight s' hs').append _, ?_, ?_, ?_⟩
  · show (w.ledger ++ [_]).length = (w.cluster.log ++ [_]).length
    rw [hlen, List.length_append, h.length]
    rfl
  · show Coherent .empty _ (machineAt syncPolicy (w.cluster.log ++ _) n).keyEpoch
      (machineAt syncPolicy (w.cluster.log ++ _) n).engine.get
      (answersOf ((w.ledger ++ [_]).take n))
    have hn : n ≤ w.cluster.log.length + 1 := hn.trans_eq hlen
    rcases Nat.lt_or_eq_of_le hn with hlt | rfl
    · have hle := Nat.le_of_lt_succ hlt
      rw [machineAt_append _ hle, List.take_append_of_le_length (by rw [h.length]; exact hle)]
      exact h.coherent n hle
    · rw [machineAt_concat, List.take_of_length_le (by simp [h.length]), answersOf,
        List.map_append, UInt64.ofNat_add]
      exact hnext
  · obtain ⟨hready, hread⟩ := h.calls c hc
    exact ⟨fun s' hs' => (hready s' hs').append _,
      fun p ended hp => ⟨(hread p ended hp).1.append _, (hread p ended hp).2⟩⟩
  · refine (forall_split_concat w.ledger _).mpr ⟨h.entries, fun hc => ?_⟩
    obtain ⟨hbuilt, hsentence⟩ := hs (of_decide_eq_true hc)
    exact ⟨hbuilt, rfl, hsentence⟩
  · intro e he
    rcases List.mem_append.mp he with he | he
    · exact h.wellFormed e he
    · rw [List.mem_singleton.mp he]
      exact hwf
  · intro i e he entry hlog hcommand
    rcases Runs.getElem?_concat_cases he with ⟨rfl, rfl⟩ | ⟨hlt, he⟩
    · have hlast : (w.cluster.log ++ [w.cluster.nextEntry type data])[w.ledger.length]? =
          some entry := hlog
      rw [h.length, List.getElem?_concat_length] at hlast
      cases hlast
      show verdictAt syncPolicy (w.cluster.log ++ [_]) w.ledger.length = some result
      rw [verdictAt, h.length, List.getElem?_concat_length, machineAt_append _ (Nat.le_refl _),
        Option.map_some, hresult hcommand]
    · have hlog : (w.cluster.log ++ [w.cluster.nextEntry type data])[i]? = some entry := hlog
      rw [List.getElem?_append_left (by rw [← h.length]; exact hlt)] at hlog
      exact verdictAt_append _ (h.results i e he entry hlog hcommand)

theorem Accounted.now (h : Accounted syncPolicy w) :
    Coherent .empty (UInt64.ofNat w.cluster.log.length)
      (machineAt syncPolicy w.cluster.log w.cluster.log.length).keyEpoch
      (machineAt syncPolicy w.cluster.log w.cluster.log.length).engine.get
      (answersOf w.ledger) := by
  have hnow := h.coherent _ (Nat.le_refl _)
  rwa [List.take_of_length_le (Nat.le_of_eq h.length)] at hnow

theorem Accounted.length_answersOf (h : Accounted syncPolicy w)
    (hlt : w.cluster.log.length + 1 < 2 ^ 64) :
    Base.empty.index + (answersOf w.ledger).length + 1 < 2 ^ 64 := by
  rw [answersOf, List.length_map, h.length]
  show 0 + _ + 1 < 2 ^ 64
  omega

theorem Accounted.filler (h : Accounted syncPolicy w) (hlt : w.cluster.log.length + 1 < 2 ^ 64)
    (type : UInt8) (data : Bytes) :
    Accounted syncPolicy (w.commit syncPolicy (.other type) data blank .conflicted) := by
  have hnone : DpxFSM.proposalOf (w.cluster.nextEntry (.other type) data) = none :=
    if_pos (by simp [nextEntry])
  have hsame := (DpxFSM.applyLog_of_none
    (f := machineAt syncPolicy w.cluster.log w.cluster.log.length) hnone ∅ ∅).2.2
  have happly : ((machineAt syncPolicy w.cluster.log w.cluster.log.length).apply
      (w.cluster.nextEntry (.other type) data)).2 =
        machineAt syncPolicy w.cluster.log w.cluster.log.length := congrArg Prod.fst hsame
  refine h.commit ⟨?_, ?_⟩ ?_ ?_ ?_ ?_
  · intro p hp
    rw [hnone] at hp
    cases hp
  · intro p hp
    rw [hnone] at hp
    cases hp
  · rw [happly]
    exact h.now.skip (h.length_answersOf hlt) _
  · exact fun hok => absurd hok.symm ApplyResult.ok_ne_conflicted
  · exact ⟨fun _ hw => absurd hw List.not_mem_nil, fun _ hw => absurd hw List.not_mem_nil⟩
  · intro hcommand
    cases hcommand

theorem apply_of_proposal (f : DpxFSM State) {entry : Log} {p : Proposal}
    (hp : DpxFSM.proposalOf entry = some p) (hwf : p.WellFormed) :
    f.apply entry = if detectConflict f.keyEpoch p ∅ then (.conflicted, f)
      else (.ok, f.accept entry.index p) := by
  rw [DpxFSM.apply, DpxFSM.applyLog_of_some hp, DpxFSM.applyProposal_known f entry.index hwf.known]
  cases detectConflict f.keyEpoch p ∅ <;> rfl

theorem Accounted.append (h : Accounted syncPolicy w) (hlt : w.cluster.log.length + 1 < 2 ^ 64)
    {s : Submission State ε} (hs : Built w.ledger s) (hfits : s.proposal.Fits)
    (hscanned : ∀ write ∈ s.proposal.writes, ¬ Unscanned write.key) :
    Accounted syncPolicy (w.commit syncPolicy .command s.proposal.marshal s
      (w.verdict syncPolicy s.proposal)) := by
  let f := machineAt syncPolicy w.cluster.log w.cluster.log.length
  let entry := w.cluster.nextEntry .command s.proposal.marshal
  have hp : DpxFSM.proposalOf entry = some s.proposal := proposalOf_of_fits hfits _
  have hwf := hs.wellFormed
  have happly := apply_of_proposal f hp hwf
  have hindex : entry.index = UInt64.ofNat w.cluster.log.length + 1 := nextEntry_index _ _ _
  have hepoch : ∀ k, epochOf f.keyEpoch k = lastRecord .empty (answersOf w.ledger) k :=
    h.now.epochOf_eq
  have hverdict : Verdict .empty w.ledger.length (answersOf w.ledger)
      ⟨UInt64.ofNat w.cluster.log.length + 1, s.proposal, (f.apply entry).1⟩ := by
    rw [happly, detectConflict_empty]
    cases hd : s.proposal.readSet.any fun re => stale (epochOf f.keyEpoch re.key) re with
    | true =>
        refine ⟨Or.inr rfl, fun hok => ?_, fun _ => ?_⟩
        · exact absurd hok.symm ApplyResult.ok_ne_conflicted
        · obtain ⟨re, hre, hstale⟩ := List.any_eq_true.mp hd
          exact ⟨re, hre, Or.inl (by rwa [← hepoch])⟩
    | false =>
        refine ⟨Or.inl rfl, fun _ re hre => ?_, fun hc => ?_⟩
        · rw [← hepoch]
          exact Bool.eq_false_iff.mpr (List.any_eq_false.mp hd re hre)
        · exact absurd hc ApplyResult.ok_ne_conflicted
  refine h.commit ⟨DpxFSM.wellFormedLog_of_eq hp hwf, ?_⟩ ?_ (fun _ => ⟨hs, ?_⟩) hwf fun _ => rfl
  · intro q hq
    rw [hp] at hq
    cases hq
    exact hscanned
  · show Coherent .empty _ (f.apply entry).2.keyEpoch (f.apply entry).2.engine.get
      (answersOf w.ledger ++ [⟨_, s.proposal, (f.apply entry).1⟩])
    rw [happly]
    split
    · exact h.now.skip (h.length_answersOf hlt) s.proposal
    · have hview : (f.accept entry.index s.proposal).engine.get = fun k =>
          BatchOp.effect k (f.engine.get k)
            (s.proposal.writes.flatMap (WriteEntry.ops entry.index) ++ [appliedOp entry.index]) :=
        funext fun k => LawfulEngine.get_applyBatch f.engine _ ⟨f.syncPolicy = .syncFull⟩ k
      rw [hview, hindex]
      exact h.now.accept (h.length_answersOf hlt) hwf
  · rw [← List.append_nil w.ledger]
    refine sentence_of_verdict hs rfl (fun k => ?_) ?_
    · rw [List.append_nil]
      exact h.now.ascending k
    · rw [List.append_nil]
      exact hverdict

/-- What a node has is a point of the ledger. -/
theorem Accounted.view (h : Accounted syncPolicy w) {x : Replica}
    (hx : x ∈ w.cluster.replicas) :
    x.position ≤ w.ledger.length ∧ ViewAt w.ledger x.position x.host.fsm.engine := by
  have hsound := h.sound.replicas x hx
  have hposition : x.position ≤ w.ledger.length := hsound.position.trans_eq h.length.symm
  have hlen : (w.ledger.take x.position).length = x.position :=
    List.length_take_of_le hposition
  have hview := viewAt_of_coherent
    (e := (machineAt syncPolicy w.cluster.log x.position).engine)
    (h.coherent x.position hsound.position)
  rw [hlen, ← hsound.machine] at hview
  have hview := hview.append (Nat.le_of_eq hlen.symm) (w.ledger.drop x.position)
  rw [List.take_append_drop] at hview
  exact ⟨hposition, hview⟩

theorem Accounted.advance (h : Accounted syncPolicy w) {n : Nat} {c c' : RaftCall ε}
    (hadv : Advances w n c c') :
    Accounted syncPolicy (w.put n c') := by
  refine { h with calls := Runs.forall_mem_set h.calls ⟨fun s hs => ?_, fun p ended hp => ?_⟩ }
  · cases hadv with
    | @build x tx wall counter p _ hx hexec hp =>
        cases hs
        obtain ⟨hposition, hview⟩ := h.view (List.mem_of_getElem? hx)
        have hsnap := c.callback.snap_exec x.host.fsm.engine
        rw [hexec] at hsnap
        have hsnap : tx.snap = x.host.fsm.engine := hsnap
        exact ⟨hposition, hsnap ▸ hview, hsnap ▸ hexec, wall, counter, hp⟩
    | _ => cases hs
  · cases hadv with
    | @readOnly x tx _ hx hexec hwrites =>
        cases hp
        obtain ⟨hposition, hview⟩ := h.view (List.mem_of_getElem? hx)
        exact ⟨⟨hposition, _, tx, hview, hexec, hwrites⟩, hposition⟩
    | _ => cases hp

theorem Accounted.step (h : Accounted syncPolicy w) {ev : DistributedEvent ε}
    (hlt : w.cluster.log.length + 1 < 2 ^ 64) (hproper : w.Proper ev) :
    Accounted syncPolicy (w.step syncPolicy ev) := by
  have htook : Took syncPolicy w ev (w.step syncPolicy ev) :=
    step_took w ev
  generalize w.step syncPolicy ev = w' at htook ⊢
  cases htook with
  | idle => exact h
  | replica he => exact h.replica (h.sound.step hproper.1 hproper.2) (log_step he)
  | filler type data => exact h.filler hlt type data
  | call node f =>
      refine { h with calls := fun c hc => ?_ }
      rcases List.mem_append.mp hc with hc | hc
      · exact h.calls c hc
      · rw [List.mem_singleton.mp hc]
        exact ⟨fun _ hs => (by cases hs), fun _ _ hp => (by cases hp)⟩
  | advance _ hadv => exact h.advance hadv
  | @propose _ n c s hc hphase =>
      refine { h with
        calls := Runs.forall_mem_set h.calls
          ⟨fun _ hs => (by cases hs), fun _ _ hp => (by cases hp)⟩
        inFlight := fun s' hs' => ?_ }
      rcases List.mem_append.mp hs' with hs' | hs'
      · exact h.inFlight s' hs'
      · rw [List.mem_singleton.mp hs']
        exact (h.calls c (List.mem_of_getElem? hc)).ready s hphase
  | @accept i s hs =>
      obtain ⟨hfits, hscanned⟩ := hproper s hs
      have hbuilt := h.inFlight s (List.mem_of_getElem? hs)
      have hnext : Accounted syncPolicy { w with
          inFlight := w.inFlight.eraseIdx i
          calls := w.calls.modify s.call fun c =>
            { c with phase := c.phase.enter w.ledger.length } } := by
        refine { h with
          calls := fun c hc => ?_
          inFlight := fun s' hs' => h.inFlight s' (List.mem_of_mem_eraseIdx hs') }
        obtain ⟨m, hm⟩ := List.getElem?_of_mem hc
        rw [List.getElem?_modify] at hm
        obtain ⟨d, hd, rfl⟩ := Option.map_eq_some_iff.mp hm
        have htold := h.calls d (List.mem_of_getElem? hd)
        split
        · exact htold.enter _
        · exact htold
      exact hnext.append hlt hbuilt hfits hscanned

end Distributed

end Dpx
