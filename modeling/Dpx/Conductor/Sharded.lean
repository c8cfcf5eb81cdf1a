/-
# `Dpx.Conductor.Sharded` — one proposer per shard

`conductor/sharded_direct.go` on engines without a fast path of their own.  A proposal
goes to the shard of its first written key; that shard's index counter and `keyEpoch`
map judge it, and the batch goes to the one engine all shards share.

So a version record in the engine is the record of the last writer of its key, of any
shard, while `keyEpoch` of a shard knows only the writers that were routed there
(`ShardedCoherent`).  A reader compares an epoch of the first kind with one of the
second.  They speak of the same write only if all writers of the key came through the
reader's shard: `sharded_reads_sound` asks for that, and for a read set of at most 64
entries, since a larger one is not looked at.  A transaction that writes two keys is
enough to break it (`unseen_writer`).
-/
import Dpx.Engine.Memory
import Dpx.Conductor.Direct
import Dpx.Conductor.Trace

namespace Dpx

/-! ## Routing -/

/-- The hash loop of `shardFor` in package `conductor`. -/
def hashLoop : UInt32 → Key → UInt32
  | h, [] => h
  | h, b :: key => hashLoop ((h ^^^ b.toUInt32) * 16777619) key

/-- `shardFor` in package `conductor`. -/
def keyShard (key : Key) : ShardId :=
  ⟨(hashLoop 2166136261 key).toNat % numShards, Nat.mod_lt _ (by decide)⟩

theorem keyShard_eq_shardFor (key : Key) : keyShard key = shardFor key := by
  have hloop : ∀ (key : Key) (h : UInt32), hashLoop h key = Fnv.fnvFrom h key := by
    intro key
    induction key with
    | nil => exact fun _ => rfl
    | cons b key ih => exact fun h => ih _
  rw [keyShard, shardFor]
  congr 3
  exact hloop key _

/-- The shard of the first written key, else of the first read key. -/
def route (p : Proposal) : ShardId :=
  match p.writes with
  | w :: _ => keyShard w.key
  | [] =>
      match p.readSet with
      | re :: _ => keyShard re.key
      | [] => ⟨0, by decide⟩

/-! ## The proposer -/

structure ShardProposer where
  keyEpoch : GoMap EpochRecord
  applied : UInt64
  index : UInt64

namespace ShardProposer

/-- The conflict test of `applyInline`: its stack shadow stays empty, and a read set
of more than 64 entries is not tested. -/
def conflicts (sp : ShardProposer) (p : Proposal) : Bool :=
  if p.readSet.length ≤ maxStackShadow then stackConflict sp.keyEpoch [] p.readSet false
  else false

/-- The shard after an entry that is turned away. -/
def skip (sp : ShardProposer) : ShardProposer := { sp with index := sp.index + 1 }

/-- The shard after the loop over the writes of an entry that passes. -/
def accept (sp : ShardProposer) (p : Proposal) : ShardProposer :=
  { sp with
    index := sp.index + 1
    keyEpoch := epochs (sp.index + 1) p.writes sp.keyEpoch }

end ShardProposer

structure ShardedDirectProposer (σ : Type) where
  engine : σ
  syncPolicy : SyncPolicy
  shards : ShardId → ShardProposer

namespace ShardedDirectProposer

variable {σ : Type}

def setShard (s : ShardedDirectProposer σ) (i : ShardId) (sp : ShardProposer) :
    ShardedDirectProposer σ :=
  { s with shards := Function.update s.shards i sp }

variable [StorageEngine σ]

/-- `newShardedDirectProposer`: every shard opens on the same engine, with the same
outcome, and starts its index at zero. -/
def newShardedDirectProposer (eng : σ) (syncPolicy : SyncPolicy) :
    Except OpenError (ShardedDirectProposer σ) :=
  match (DpxFSM.new eng syncPolicy).open with
  | .error e => .error e
  | .ok f => .ok ⟨eng, syncPolicy, fun _ => ⟨f.keyEpoch, f.applied, 0⟩⟩

/-- `applyInline` of the shard the proposal is routed to, through `ApplyBatch`. -/
def applyInline (s : ShardedDirectProposer σ) (p : Proposal) :
    ApplyResult × ShardedDirectProposer σ :=
  let i := route p
  let sp := s.shards i
  if sp.conflicts p then (.conflicted, s.setShard i sp.skip)
  else
    let sp := sp.accept p
    let engBatch := p.writes.flatMap (WriteEntry.ops sp.index) ++ [appliedOp sp.index]
    match StorageEngine.applyBatch s.engine engBatch ⟨s.syncPolicy = .syncFull⟩ with
    | (some e, eng) => (.failed (.engine e), { s.setShard i sp with engine := eng })
    | (none, eng) =>
        let eng := if s.syncPolicy = .syncBatch then (StorageEngine.sync eng).2 else eng
        (.ok, { s.setShard i { sp with applied := sp.index } with engine := eng })

/-- The state after a run of calls. -/
def run (s : ShardedDirectProposer σ) (ps : List Proposal) : ShardedDirectProposer σ :=
  ps.foldl (fun s p => (s.applyInline p).2) s

/-- The answer to one call, with the index its shard gave it. -/
def answer (s : ShardedDirectProposer σ) (p : Proposal) : Answered :=
  ⟨(s.shards (route p)).index + 1, p, (s.applyInline p).1⟩

/-- What the callers saw of the run. -/
def trace (s : ShardedDirectProposer σ) : List Proposal → List Answered
  | [] => []
  | p :: ps => s.answer p :: trace (s.applyInline p).2 ps

theorem trace_append (xs ys : List Proposal) :
    ∀ s : ShardedDirectProposer σ, s.trace (xs ++ ys) = s.trace xs ++ (s.run xs).trace ys := by
  induction xs with
  | nil => exact fun _ => rfl
  | cons x xs ih =>
      intro s
      show s.answer x :: trace _ (xs ++ ys) = s.answer x :: _
      rw [ih]
      rfl

theorem length_trace (ps : List Proposal) :
    ∀ s : ShardedDirectProposer σ, (s.trace ps).length = ps.length := by
  induction ps with
  | nil => exact fun _ => rfl
  | cons p ps ih => exact fun s => congrArg (· + 1) (ih _)

/-! ## What one call does -/

/-- On an engine that never fails a call is answered by the verdict alone, changes its
own shard alone, and commits its batch if it passes. -/
theorem applyInline_cases [LawfulEngine σ] (s : ShardedDirectProposer σ) (p : Proposal) :
    ((s.shards (route p)).conflicts p = true ∧ (s.applyInline p).1 = .conflicted ∧
      (s.applyInline p).2 = s.setShard (route p) (s.shards (route p)).skip) ∨
    ((s.shards (route p)).conflicts p = false ∧ (s.applyInline p).1 = .ok ∧
      (∃ applied, (s.applyInline p).2.shards = Function.update s.shards (route p)
        { (s.shards (route p)).accept p with applied := applied }) ∧
      ∀ k, StorageEngine.get (s.applyInline p).2.engine k =
        BatchOp.effect k (StorageEngine.get s.engine k)
          (p.writes.flatMap (WriteEntry.ops ((s.shards (route p)).index + 1)) ++
            [appliedOp ((s.shards (route p)).index + 1)])) := by
  rw [applyInline]
  cases hc : (s.shards (route p)).conflicts p with
  | true => exact Or.inl ⟨rfl, rfl, rfl⟩
  | false =>
      refine Or.inr ⟨rfl, ?_⟩
      simp only [Bool.false_eq_true, if_false, ShardProposer.accept]
      have hok := LawfulEngine.applyBatch_ok s.engine
        (p.writes.flatMap (WriteEntry.ops ((s.shards (route p)).index + 1)) ++
          [appliedOp ((s.shards (route p)).index + 1)]) ⟨s.syncPolicy = .syncFull⟩
      have hget := LawfulEngine.get_applyBatch s.engine
        (p.writes.flatMap (WriteEntry.ops ((s.shards (route p)).index + 1)) ++
          [appliedOp ((s.shards (route p)).index + 1)]) ⟨s.syncPolicy = .syncFull⟩
      revert hok hget
      generalize StorageEngine.applyBatch s.engine _ _ = out
      obtain ⟨err, eng⟩ := out
      intro hok hget
      cases hok
      refine ⟨rfl, ⟨_, rfl⟩, fun k => ?_⟩
      rw [← hget k]
      simp only [LawfulEngine.sync_ok]
      split <;> rfl

/-! ## The trace explains every shard -/

end ShardedDirectProposer

/-- The entries routed to shard `i`. -/
def routedTo (i : ShardId) (tr : List Answered) : List Answered :=
  tr.filter fun a => route a.proposal = i

theorem routedTo_concat (i : ShardId) (tr : List Answered) (a : Answered) :
    routedTo i (tr ++ [a]) =
      routedTo i tr ++ if route a.proposal = i then [a] else [] := by
  rw [routedTo, List.filter_append, routedTo]
  congr 1
  rw [List.filter_singleton]
  by_cases h : route a.proposal = i
  · rw [if_pos h, decide_eq_true h]
    rfl
  · rw [if_neg h, decide_eq_false h]
    rfl

theorem records_routedTo {i : ShardId} {tr : List Answered} {k : Key}
    (h : ∀ a ∈ tr, a.wrote k = true → route a.proposal = i) :
    records (routedTo i tr) k = records tr k := by
  rw [records, routedTo, List.filterMap_filter, records]
  refine List.filterMap_congr fun a ha => ?_
  by_cases hr : route a.proposal = i
  · rw [decide_eq_true hr]
    rfl
  · have hnot : a.wrote k = false := Bool.eq_false_iff.mpr fun hw => hr (h a ha hw)
    rw [← a.record_isSome, Option.isSome_eq_false_iff, Option.isNone_iff_eq_none] at hnot
    rw [hnot, decide_eq_false hr]
    rfl

namespace ShardedDirectProposer

variable {σ : Type} [StorageEngine σ]

/-- Each shard is explained by the entries routed to it, the engine by all of them. -/
structure ShardedCoherent (s : ShardedDirectProposer σ) (tr : List Answered) : Prop where
  shard : ∀ i, Numbered .empty (s.shards i).index (s.shards i).keyEpoch (routedTo i tr)
  version_eq : ∀ k, StorageEngine.get s.engine (versionKey k) =
    (records tr k).getLast?.map encodeEpochRecord

theorem ShardedCoherent.call [LawfulEngine σ] {s : ShardedDirectProposer σ} {tr : List Answered}
    (h : ShardedCoherent s tr) {p : Proposal} (hp : p.WellFormed)
    (hlt : tr.length + 1 < 2 ^ 64) :
    ShardedCoherent (s.applyInline p).2 (tr ++ [s.answer p]) := by
  have hlen : ∀ i, Base.empty.index + (routedTo i tr).length + 1 < 2 ^ 64 := by
    intro i
    have hle : (routedTo i tr).length ≤ tr.length := List.length_filter_le _ _
    show 0 + _ + 1 < _
    omega
  rcases s.applyInline_cases p with ⟨-, hres, hstate⟩ | ⟨-, hres, ⟨applied, hshards⟩, hget⟩
  · rw [answer, hres, hstate]
    constructor
    · intro i
      rw [routedTo_concat]
      by_cases hi : route p = i
      · subst hi
        rw [if_pos rfl]
        show Numbered .empty (Function.update s.shards (route p) _ (route p)).index
          (Function.update s.shards (route p) _ (route p)).keyEpoch _
        rw [Function.update_self]
        exact (h.shard (route p)).skip (hlen _) p
      · rw [if_neg hi, List.append_nil]
        show Numbered .empty (Function.update s.shards (route p) _ i).index
          (Function.update s.shards (route p) _ i).keyEpoch _
        rw [Function.update_of_ne (Ne.symm hi)]
        exact h.shard i
    · intro k
      rw [getLast?_records_concat]
      exact h.version_eq k
  · rw [answer, hres]
    constructor
    · intro i
      rw [hshards, routedTo_concat]
      by_cases hi : route p = i
      · subst hi
        rw [if_pos rfl, Function.update_self]
        exact (h.shard (route p)).accept (hlen _) p
      · rw [if_neg hi, List.append_nil, Function.update_of_ne (Ne.symm hi)]
        exact h.shard i
    · intro k
      rw [hget, getLast?_records_concat]
      have heff := effect_commit_version hp ((s.shards (route p)).index + 1) k none
        ((h.version_eq k).trans (Option.or_none).symm)
      rw [Option.or_none] at heff
      exact heff

theorem ShardedCoherent.run [LawfulEngine σ] {ps : List Proposal} (hps : ∀ p ∈ ps, p.WellFormed) :
    ∀ {s : ShardedDirectProposer σ} {tr : List Answered}, ShardedCoherent s tr →
      tr.length + ps.length < 2 ^ 64 → ShardedCoherent (s.run ps) (tr ++ s.trace ps) := by
  induction ps with
  | nil =>
      intro s tr h _
      show ShardedCoherent s (tr ++ [])
      rwa [List.append_nil]
  | cons p ps ih =>
      intro s tr h hlt
      rw [List.length_cons] at hlt
      have hstep := h.call (hps p List.mem_cons_self) (by omega)
      have hend := ih (fun q hq => hps q (List.mem_cons_of_mem _ hq)) hstep
        (by rw [List.length_append, List.length_singleton]; omega)
      rw [List.append_assoc] at hend
      exact hend

theorem answer_of_trace {xs ys : List Answered} {a : Answered} :
    ∀ {s : ShardedDirectProposer σ} {ps : List Proposal}, s.trace ps = xs ++ a :: ys →
      ∃ mid p rest, ps = mid ++ p :: rest ∧ xs = s.trace mid ∧ a = (s.run mid).answer p := by
  induction xs with
  | nil =>
      intro s ps h
      cases ps with
      | nil => cases h
      | cons p ps =>
          obtain ⟨ha, -⟩ := List.cons.inj h
          exact ⟨[], p, ps, rfl, rfl, ha.symm⟩
  | cons x xs ih =>
      intro s ps h
      cases ps with
      | nil => cases h
      | cons p ps =>
          obtain ⟨hx, htail⟩ := List.cons.inj h
          obtain ⟨mid, q, rest, rfl, rfl, ha⟩ := ih htail
          exact ⟨p :: mid, q, rest, rfl, congrArg (· :: _) hx.symm, ha⟩

theorem stale_of_passed {sp : ShardProposer} {p : Proposal}
    (hlen : p.readSet.length ≤ maxStackShadow) (h : sp.conflicts p = false) {re : ReadEntry}
    (hre : re ∈ p.readSet) : stale (epochOf sp.keyEpoch re.key) re = false := by
  rw [ShardProposer.conflicts, if_pos hlen, stackConflict_eq_any, Bool.false_or,
    List.any_eq_false] at h
  exact (Bool.or_eq_false_iff.mp (Bool.eq_false_iff.mpr (h re hre))).1

/-! ## Runs on a new sharded engine -/

theorem newShardedDirectProposer_new (syncPolicy : SyncPolicy) :
    newShardedDirectProposer ShardedEngine.new syncPolicy =
      .ok ⟨ShardedEngine.new, syncPolicy,
        fun _ => ⟨∅, StorageEngine.currentSequence ShardedEngine.new, 0⟩⟩ := by
  have hscan : StorageEngine.rawIter (DpxFSM.new ShardedEngine.new syncPolicy).engine rawIterStart
      rawIterEnd = ([], none) :=
    congrArg (fun l => (l, none)) (ShardedEngine.rawIter_new rawIterStart rawIterEnd)
  rw [newShardedDirectProposer, DpxFSM.open, hscan]
  rfl

theorem coherent_new {s : ShardedDirectProposer ShardedEngine} {syncPolicy : SyncPolicy}
    (h : newShardedDirectProposer ShardedEngine.new syncPolicy = .ok s) :
    ShardedCoherent s [] := by
  rw [newShardedDirectProposer_new] at h
  cases h
  refine ⟨fun i => ⟨rfl, List.Pairwise.nil, fun a ha => absurd ha List.not_mem_nil, fun k => ?_⟩,
    fun k => ?_⟩
  · exact Std.ExtTreeMap.getElem?_empty
  · exact State.get_empty (versionKey k)

theorem ShardedCoherent.getVersion {s : ShardedDirectProposer ShardedEngine} {tr : List Answered}
    (h : ShardedCoherent s tr) (k : Key) : s.engine.getVersion k = lastRecord .empty tr k := by
  have hver : s.engine.get (versionKey k) = _ := h.version_eq k
  rw [ShardedEngine.getVersion_eq, hver, lastRecord_empty]
  cases (records tr k).getLast? with
  | none => rfl
  | some r => exact decodeEpochRecord_encode r

/-- **Sharded conflict detection**, where it is sound.  In every run on a new sharded
engine, an entry that commits with a plain read of a snapshot has no writer of the key
behind it since the snapshot, if its read set has at most 64 entries and every earlier
writer of the key was routed to its shard. -/
theorem sharded_reads_sound {s : ShardedDirectProposer ShardedEngine} {syncPolicy : SyncPolicy}
    (hopen : newShardedDirectProposer ShardedEngine.new syncPolicy = .ok s)
    (before after : List Proposal) {since post : List Answered} {a : Answered}
    (hwf : ∀ p ∈ before ++ after, p.WellFormed) (hwrap : (before ++ after).length < 2 ^ 64)
    (htrace : s.trace (before ++ after) = s.trace before ++ since ++ a :: post)
    (hc : a.committed = true) (re : ReadEntry) (hre : re ∈ a.proposal.readSet)
    (hplain : re.isDebit = false)
    (hepoch : re.epoch = ((s.run before).engine.getVersion re.key).epoch)
    (hlen : a.proposal.readSet.length ≤ maxStackShadow)
    (hroute : ∀ b ∈ s.trace before ++ since, b.wrote re.key = true →
      route b.proposal = route a.proposal) :
    ∀ b ∈ since, b.wrote re.key = false := by
  have hrest : (s.run before).trace after = since ++ a :: post := by
    rw [trace_append, List.append_assoc] at htrace
    exact List.append_cancel_left htrace
  obtain ⟨mid, p, rest, rfl, rfl, rfl⟩ := answer_of_trace hrest
  rw [List.length_append, List.length_append, List.length_cons] at hwrap
  have hsnap := (coherent_new hopen).run
    (fun q hq => hwf q (List.mem_append_left _ hq)) (by show 0 + _ < _; omega)
  rw [List.nil_append] at hsnap
  have hnow := hsnap.run
    (fun q hq => hwf q (List.mem_append_right _ (List.mem_append_left _ hq)))
    (by rw [length_trace]; omega)
  -- all writers of the key came through this shard, so its records are the key's
  have hrec := records_routedTo hroute
  have hasc := (hnow.shard (route p)).ascending re.key
  rw [show (((s.run before).run mid).answer p).proposal = p from rfl] at hrec
  rw [hrec] at hasc
  have hpass : stale (lastRecord .empty (s.trace before ++ (s.run before).trace mid) re.key) re =
      false := by
    rcases ((s.run before).run mid).applyInline_cases p with ⟨-, hres, -⟩ | ⟨hok, -⟩
    · have : (((s.run before).run mid).applyInline p).1 = .ok := of_decide_eq_true hc
      rw [hres] at this
      cases this
    · have hst := stale_of_passed hlen hok hre
      rwa [(hnow.shard (route p)).epochOf_eq, lastRecord, hrec] at hst
  intro b hb
  rw [hsnap.getVersion] at hepoch
  refine Bool.eq_false_iff.mpr fun hw => ?_
  rw [(stale_plain_iff hasc hplain hepoch).mpr ⟨b, hb, hw⟩] at hpass
  exact Bool.noConfusion hpass

/-! ## A writer that came through another shard -/

/-- Writes `a`, then `b`: routed by `a`. -/
def pairWrite : Proposal := ⟨[], [⟨.set, [0x61], [1]⟩, ⟨.set, [0x62], [1]⟩], 0, 0⟩

/-- Reads `b` at the epoch of the new engine and writes it: routed by `b`. -/
def staleWrite : Proposal := ⟨[⟨[0x62], 0, false⟩], [⟨.set, [0x62], [2]⟩], 0, 0⟩

/-- The proposer on a new sharded engine. -/
def freshSharded : ShardedDirectProposer ShardedEngine :=
  ⟨ShardedEngine.new, .syncBatch,
    fun _ => ⟨∅, StorageEngine.currentSequence ShardedEngine.new, 0⟩⟩

/-- A write of one key. -/
def keyWrite (k : UInt8) : Proposal := ⟨[], [⟨.set, [k], [1]⟩], 0, 0⟩

/-- Reads `b` at epoch 1 and writes it. -/
def freshWrite : Proposal := ⟨[⟨[0x62], 1, false⟩], [⟨.set, [0x62], [2]⟩], 0, 0⟩

/-- A read of `b` after its first write, with a write of `c` in between. -/
theorem between_writes_other_key :
    (⟨1, keyWrite 0x63, .ok⟩ : Answered).wrote [0x62] = false := by
  have htrace : freshSharded.trace ([keyWrite 0x62] ++ [keyWrite 0x63, freshWrite]) =
      freshSharded.trace [keyWrite 0x62] ++ [⟨1, keyWrite 0x63, .ok⟩] ++
        ⟨2, freshWrite, .ok⟩ :: [] := by
    decide +kernel
  exact sharded_reads_sound (newShardedDirectProposer_new .syncBatch)
    [keyWrite 0x62] [keyWrite 0x63, freshWrite] (by decide) (by decide) htrace rfl
    ⟨[0x62], 1, false⟩ List.mem_cons_self rfl (by decide +kernel) (by decide)
    (by decide +kernel) _ List.mem_cons_self

/-- The read of `b` is stale, its writer came through the shard of `a`, and both
commit. -/
theorem unseen_writer :
    freshSharded.trace ([] ++ [pairWrite, staleWrite]) = freshSharded.trace [] ++
      [⟨1, pairWrite, .ok⟩] ++ ⟨1, staleWrite, .ok⟩ :: [] ∧
    (0 : UInt64) = ((freshSharded.run []).engine.getVersion [0x62]).epoch ∧
    (⟨1, pairWrite, .ok⟩ : Answered).wrote [0x62] = true := by
  refine ⟨?_, ?_, ?_⟩
  · decide +kernel
  · decide +kernel
  · decide +kernel

end ShardedDirectProposer

end Dpx
