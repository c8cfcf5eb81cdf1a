/-
# `Dpx.Engine.MvccCalls` — commits that overlap

`ApplyBatch` and `ApplyShardDirect` reserve a commit sequence, write one locked section
per shard, and publish.  Between these steps other calls may run and snapshots may be
taken.  A world holds the engine, all calls made so far with the sections they still
have to write, and all snapshots with what their `Get` answered when they were taken.

Calls under way at the same time work on different shards (`Apart`).  That alone keeps
the versions of every key sorted (`Ordered`): a section is written at a sequence above
everything in its shard.

It does not make a batch visible at once.  `lastCommitted` is a maximum, so a call that
reserved late and finished early publishes past a call that is still writing; a snapshot
taken then shows the sections that call has written and not the others, and answers
differently once they are (`half_written_seen`).  Visibility is atomic if no snapshot is
taken in such a moment (`Quiet`) and each direct write's keys hash to the shard it is
told (`Homed`): `atomic_visibility`.

The invariants are kept by `step`, whose counter has no end; the results are about
`stepWrapping`, with the counter of the source, and fewer than `2^64` mutations.
-/
import Dpx.Engine.MvccCompact

namespace Dpx

open VersionList (Sorted newest)

/-! ## Calls -/

/-- Where a call files its mutations: `ApplyBatch` by key, `ApplyShardDirect` in the
shard it is told. -/
inductive Routing where
  | byKey
  | direct (shardIdx : ShardId)
  deriving DecidableEq, Repr

namespace Routing

def shardOf : Routing → Key → ShardId
  | .byKey, k => shardFor k
  | .direct i, _ => i

/-- The shards whose sections a call runs through. -/
def shards : Routing → List BatchOp → List ShardId
  | .byKey, ops => ShardedEngine.touched ops
  | .direct i, _ => [i]

/-- The section of shard `i`. -/
def part (r : Routing) (ops : List BatchOp) (i : ShardId) : List BatchOp :=
  ops.filter fun op => r.shardOf op.key = i

theorem nodup_shards (r : Routing) (ops : List BatchOp) : (r.shards ops).Nodup := by
  cases r with
  | byKey => exact ShardedEngine.nodup_touched ops
  | direct i => exact List.pairwise_singleton _ i

theorem mem_shards (r : Routing) {ops : List BatchOp} {op : BatchOp} (h : op ∈ ops) :
    r.shardOf op.key ∈ r.shards ops := by
  cases r with
  | byKey => exact ShardedEngine.mem_touched h
  | direct i => exact List.mem_singleton_self i

end Routing

/-- A call, with the shards it has yet to write. -/
structure MvccCall where
  routing : Routing
  ops : List BatchOp
  commitSeq : Nat
  todo : List ShardId
  published : Bool

def MvccCall.shards (c : MvccCall) : List ShardId := c.routing.shards c.ops

/-- The read of `k` through `s` ends at the call's own write or at one over it. -/
def MvccSnapshot.Sees (s : MvccSnapshot) (e : MVCCEngine) (c : MvccCall) (k : Key) : Prop :=
  (s.found e k).any (fun v => c.commitSeq ≤ v.seq) = true

instance (s : MvccSnapshot) (e : MVCCEngine) (c : MvccCall) (k : Key) : Decidable (s.Sees e c k) :=
  inferInstanceAs (Decidable (_ = true))

structure Overlap where
  engine : MVCCEngine
  calls : List MvccCall
  snapshots : List OpenSnapshot

inductive OverlapEvent where
  | reserve (routing : Routing) (ops : List BatchOp)
  | write (n : Nat) (i : ShardId)
  | publish (n : Nat)
  | getSnapshot

namespace Overlap

def new (sharded : Bool) : Overlap := ⟨.newMVCCEngine sharded, [], []⟩

/-- The world after a call has reserved `commitSeq`. -/
def afterReserve (w : Overlap) (routing : Routing) (ops : List BatchOp) (commitSeq : Nat) :
    Overlap :=
  { w with
    engine := w.engine.reserveAt commitSeq
    calls := w.calls ++ [⟨routing, ops, commitSeq, routing.shards ops, false⟩] }

/-- The world after call `c`, the `n`-th, has written shard `i`. -/
def afterWrite (w : Overlap) (n : Nat) (c : MvccCall) (i : ShardId) : Overlap :=
  { w with
    engine := w.engine.writeSection c.commitSeq i (c.routing.part c.ops i)
    calls := w.calls.set n { c with todo := c.todo.erase i } }

/-- The world after call `c`, the `n`-th, has published. -/
def afterPublish (w : Overlap) (n : Nat) (c : MvccCall) : Overlap :=
  { w with
    engine := w.engine.publish c.commitSeq
    calls := w.calls.set n { c with published := true } }

/-- One atomic step.  An empty `ApplyBatch` returns before it reserves; the `n`-th call
writes a shard it still has to, and publishes when none is left. -/
def step (w : Overlap) : OverlapEvent → Overlap
  | .reserve routing ops =>
      if routing = .byKey ∧ ops = [] then w
      else w.afterReserve routing ops (w.engine.nextSeq ops.length)
  | .write n i =>
      match w.calls[n]? with
      | none => w
      | some c => if i ∈ c.todo then w.afterWrite n c i else w
  | .publish n =>
      match w.calls[n]? with
      | none => w
      | some c => if c.todo = [] ∧ c.published = false then w.afterPublish n c else w
  | .getSnapshot =>
      let (snap, engine) := w.engine.getSnapshot
      { w with engine := engine, snapshots := ⟨snap, snap.get engine⟩ :: w.snapshots }

/-- One atomic step, with the counter of the source. -/
def stepWrapping (w : Overlap) : OverlapEvent → Overlap
  | .reserve routing ops =>
      if routing = .byKey ∧ ops = [] then w
      else w.afterReserve routing ops (w.engine.nextSeqWrapping ops.length)
  | .write n i => w.step (.write n i)
  | .publish n => w.step (.publish n)
  | .getSnapshot => w.step .getSnapshot

theorem step_cases (w : Overlap) (ev : OverlapEvent) :
    w.step ev = w ∨
    (∃ routing ops, ev = .reserve routing ops ∧
      w.step ev = w.afterReserve routing ops (w.engine.nextSeq ops.length)) ∨
    (∃ n i c, w.calls[n]? = some c ∧ i ∈ c.todo ∧ w.step ev = w.afterWrite n c i) ∨
    (∃ n c, w.calls[n]? = some c ∧ c.todo = [] ∧ w.step ev = w.afterPublish n c) ∨
    ev = .getSnapshot := by
  cases ev with
  | reserve routing ops =>
      rw [step]
      split
      · exact Or.inl rfl
      · exact Or.inr (Or.inl ⟨routing, ops, rfl, rfl⟩)
  | write n i =>
      rw [step]
      cases hc : w.calls[n]? with
      | none => exact Or.inl rfl
      | some c =>
          simp only
          split
          · rename_i hi
            exact Or.inr (Or.inr (Or.inl ⟨n, i, c, hc, hi, rfl⟩))
          · exact Or.inl rfl
  | publish n =>
      rw [step]
      cases hc : w.calls[n]? with
      | none => exact Or.inl rfl
      | some c =>
          simp only
          split
          · rename_i hready
            exact Or.inr (Or.inr (Or.inr (Or.inl ⟨n, c, hc, hready.1, rfl⟩)))
          · exact Or.inl rfl
  | getSnapshot => exact Or.inr (Or.inr (Or.inr (Or.inr rfl)))

end Overlap

/-- How many mutations a call comes with. -/
def OverlapEvent.mutations : OverlapEvent → Nat
  | .reserve _ ops => ops.length
  | .write _ _ | .publish _ | .getSnapshot => 0

namespace Overlap

theorem stepWrapping_eq (w : Overlap) (ev : OverlapEvent)
    (h : w.engine.seqCounter + ev.mutations < 2 ^ 64) : w.stepWrapping ev = w.step ev := by
  cases ev with
  | reserve routing ops =>
      rw [stepWrapping, step, MVCCEngine.nextSeqWrapping_eq (n := ops.length) h]
  | write n i | publish n | getSnapshot => rfl

theorem seqCounter_step_le (w : Overlap) (ev : OverlapEvent) :
    (w.step ev).engine.seqCounter ≤ w.engine.seqCounter + ev.mutations := by
  rcases w.step_cases ev with hsame | ⟨routing, ops, rfl, hstep⟩ | ⟨n, i, c, -, -, hstep⟩ |
    ⟨n, c, -, -, hstep⟩ | rfl
  · rw [hsame]
    exact Nat.le_add_right _ _
  · rw [hstep]
    exact Nat.le_refl _
  · rw [hstep]
    exact Nat.le_add_right _ _
  · rw [hstep]
    exact (w.engine.publish_seqCounter c.commitSeq).le.trans (Nat.le_add_right _ _)
  · exact Nat.le_refl _

section Few

variable (sharded : Bool) {events : List OverlapEvent}
  (hfew : (events.map OverlapEvent.mutations).sum < 2 ^ 64)

include hfew

theorem states_stepWrapping :
    Runs.states stepWrapping (new sharded) events = Runs.states step (new sharded) events :=
  Runs.states_eq_of_bound stepWrapping_eq seqCounter_step_le events _
    (by rwa [show (new sharded).engine.seqCounter = 0 from rfl, Nat.zero_add])

theorem moves_stepWrapping :
    Runs.moves stepWrapping (new sharded) events = Runs.moves step (new sharded) events :=
  Runs.moves_eq_of_states_eq (states_stepWrapping sharded hfew)

end Few

/-! ## What is promised and what is asked -/

/-- Every snapshot answers as it did when it was taken. -/
def Repeatable (w : Overlap) : Prop := ∀ o ∈ w.snapshots, ∀ k, o.snap.get w.engine k = o.view k

/-- Every snapshot sees all writes of a call or none. -/
def AllOrNone (w : Overlap) : Prop :=
  ∀ o ∈ w.snapshots, ∀ c ∈ w.calls,
    (∀ op ∈ c.ops, o.snap.Sees w.engine c op.key) ∨
      ∀ op ∈ c.ops, ¬ o.snap.Sees w.engine c op.key

instance (w : Overlap) : Decidable (AllOrNone w) :=
  inferInstanceAs (Decidable (∀ o ∈ w.snapshots, ∀ c ∈ w.calls,
    (∀ op ∈ c.ops, o.snap.Sees w.engine c op.key) ∨
      ∀ op ∈ c.ops, ¬ o.snap.Sees w.engine c op.key))

/-- A call starts on shards no call under way works on. -/
def Apart (w : Overlap) : OverlapEvent → Prop
  | .reserve routing ops => ∀ c ∈ w.calls, c.published = false →
      ∀ i ∈ routing.shards ops, i ∉ c.shards
  | .write _ _ | .publish _ | .getSnapshot => True

/-- A direct write's keys hash to the shard it is told. -/
def Homed : OverlapEvent → Prop
  | .reserve routing ops => ∀ op ∈ ops, routing.shardOf op.key = shardFor op.key
  | .write _ _ | .publish _ | .getSnapshot => True

/-- A snapshot is not taken while a call that still has writes to make is at or below
`lastCommitted`. -/
def Quiet (w : Overlap) : OverlapEvent → Prop
  | .getSnapshot => ∀ c ∈ w.calls, c.ops ≠ [] → c.todo ≠ [] → w.engine.lastCommitted < c.commitSeq
  | .reserve _ _ | .write _ _ | .publish _ => True

instance (w : Overlap) : ∀ ev, Decidable (Apart w ev)
  | .reserve routing ops => inferInstanceAs (Decidable (∀ c ∈ w.calls, c.published = false →
      ∀ i ∈ routing.shards ops, i ∉ c.shards))
  | .write _ _ | .publish _ | .getSnapshot => inferInstanceAs (Decidable True)

instance : ∀ ev, Decidable (Homed ev)
  | .reserve routing ops =>
      inferInstanceAs (Decidable (∀ op ∈ ops, routing.shardOf op.key = shardFor op.key))
  | .write _ _ | .publish _ | .getSnapshot => inferInstanceAs (Decidable True)

instance (w : Overlap) : ∀ ev, Decidable (Quiet w ev)
  | .getSnapshot => inferInstanceAs (Decidable (∀ c ∈ w.calls, c.ops ≠ [] → c.todo ≠ [] →
      w.engine.lastCommitted < c.commitSeq))
  | .reserve _ _ | .write _ _ | .publish _ => inferInstanceAs (Decidable True)

end Overlap

/-! ## Versions stay sorted -/

/-- A call and the engine: its sequence is reserved, and above everything in the shards
it has yet to write. -/
structure MvccCall.Ahead (c : MvccCall) (e : MVCCEngine) : Prop where
  reserved : c.commitSeq ≤ e.seqCounter
  nodup : c.todo.Nodup
  sub : ∀ i ∈ c.todo, i ∈ c.shards
  above : ∀ i ∈ c.todo, ∀ k, ∀ v ∈ e.versions i k, v.seq + c.ops.length ≤ c.commitSeq
  unpublished : c.todo ≠ [] → c.published = false

theorem MvccCall.Ahead.frame {c : MvccCall} {e e' : MVCCEngine} (h : c.Ahead e)
    (hseq : e.seqCounter ≤ e'.seqCounter)
    (hsame : ∀ i ∈ c.todo, ∀ k, e'.versions i k = e.versions i k) : c.Ahead e' := by
  refine ⟨h.reserved.trans hseq, h.nodup, h.sub, fun i hi k v hv => ?_, h.unpublished⟩
  rw [hsame i hi k] at hv
  exact h.above i hi k v hv

namespace Overlap

structure Ordered (w : Overlap) : Prop where
  sorted : ∀ i k, Sorted MvccEntry.seq (w.engine.versions i k)
  bound : ∀ i k, ∀ v ∈ w.engine.versions i k, v.seq ≤ w.engine.seqCounter
  published : w.engine.lastCommitted ≤ w.engine.seqCounter
  ahead : ∀ (n : Nat) (c : MvccCall), w.calls[n]? = some c → c.Ahead w.engine
  apart : ∀ (m n : Nat) (c d : MvccCall), m ≠ n → w.calls[m]? = some c → w.calls[n]? = some d →
    c.published = false → d.published = false → ∀ i ∈ c.shards, i ∉ d.shards

theorem ordered_new (sharded : Bool) : Ordered (new sharded) := by
  refine ⟨fun i k => ?_, fun i k v hv => ?_, le_refl _, (fun n c h => nomatch h),
    (fun m n c d _ h => nomatch h)⟩
  · show Sorted _ ((MVCCEngine.newMVCCEngine sharded).versions i k)
    rw [MVCCEngine.versions_newMVCCEngine]
    exact List.Pairwise.nil
  · change v ∈ (MVCCEngine.newMVCCEngine sharded).versions i k at hv
    rw [MVCCEngine.versions_newMVCCEngine] at hv
    exact absurd hv List.not_mem_nil

theorem Ordered.reserve {w : Overlap} (h : Ordered w) {routing : Routing} {ops : List BatchOp}
    (hapart : Apart w (.reserve routing ops)) :
    Ordered (w.afterReserve routing ops (w.engine.nextSeq ops.length)) := by
  rw [afterReserve]
  have hle : w.engine.seqCounter ≤ w.engine.nextSeq ops.length := Nat.le_add_right _ _
  refine ⟨h.sorted, fun i k v hv => (h.bound i k v hv).trans hle, h.published.trans hle, ?_, ?_⟩
  · intro n c hc
    rcases Runs.getElem?_concat_cases hc with ⟨-, rfl⟩ | ⟨-, hc⟩
    · refine ⟨le_refl _, routing.nodup_shards ops, fun i hi => hi, fun i _ k v hv => ?_,
        fun _ => rfl⟩
      exact Nat.add_le_add_right (h.bound i k v hv) _
    · exact (h.ahead n c hc).frame hle fun _ _ _ => rfl
  · intro m n c d hmn hc hd hcp hdp i hi
    rcases Runs.getElem?_concat_cases hc with ⟨rfl, rfl⟩ | ⟨-, hc⟩
    · rcases Runs.getElem?_concat_cases hd with ⟨rfl, rfl⟩ | ⟨-, hd⟩
      · exact absurd rfl hmn
      · exact hapart d (List.mem_of_getElem? hd) hdp i hi
    · rcases Runs.getElem?_concat_cases hd with ⟨rfl, rfl⟩ | ⟨-, hd⟩
      · exact fun hin => hapart c (List.mem_of_getElem? hc) hcp i hin hi
      · exact h.apart m n c d hmn hc hd hcp hdp i hi

theorem Ordered.apart_set {w : Overlap} (h : Ordered w) {n : Nat} {c c' : MvccCall}
    (hc : w.calls[n]? = some c) (hshards : c'.shards = c.shards)
    (hopen : c'.published = false → c.published = false) (m m' : Nat) (d d' : MvccCall)
    (hmm : m ≠ m') (hd : (w.calls.set n c')[m]? = some d)
    (hd' : (w.calls.set n c')[m']? = some d') (hp : d.published = false)
    (hp' : d'.published = false) : ∀ j ∈ d.shards, j ∉ d'.shards := by
  rcases Runs.getElem?_set_cases hd with ⟨rfl, rfl⟩ | ⟨-, hold⟩
  · rcases Runs.getElem?_set_cases hd' with ⟨rfl, -⟩ | ⟨-, hold'⟩
    · exact absurd rfl hmm
    · rw [hshards]
      exact h.apart m m' c d' hmm hc hold' (hopen hp) hp'
  · rcases Runs.getElem?_set_cases hd' with ⟨rfl, rfl⟩ | ⟨-, hold'⟩
    · rw [hshards]
      exact h.apart m m' d c hmm hold hc hp (hopen hp')
    · exact h.apart m m' d d' hmm hold hold' hp hp'

theorem Ordered.write {w : Overlap} (h : Ordered w) {n : Nat} {c : MvccCall}
    (hc : w.calls[n]? = some c) {i : ShardId} (hi : i ∈ c.todo) :
    Ordered (w.afterWrite n c i) := by
  rw [afterWrite]
  have hahead := h.ahead n c hc
  have hopen := hahead.unpublished (List.ne_nil_of_mem hi)
  -- a shard other than `i` keeps its versions
  have hother : ∀ j, j ≠ i → ∀ k,
      (w.engine.writeSection c.commitSeq i (c.routing.part c.ops i)).versions j k =
        w.engine.versions j k := by
    intro j hj k
    rw [MVCCEngine.versions_writeSection, if_neg hj]
  refine ⟨fun j k => ?_, fun j k v hv => ?_, h.published, ?_, ?_⟩
  · rw [MVCCEngine.versions_writeSection]
    split
    · rename_i hj
      subst hj
      refine sorted_grow (h.sorted j k) (fun v hv => ?_) _
      have := hahead.above j hi k v hv
      omega
    · exact h.sorted j k
  · rw [MVCCEngine.versions_writeSection] at hv
    split at hv
    · rcases mem_grow hv with hold | ⟨hnew, -⟩
      · exact h.bound j k v hold
      · rw [hnew]
        exact hahead.reserved
    · exact h.bound j k v hv
  · intro m d hd
    rcases Runs.getElem?_set_cases hd with ⟨-, rfl⟩ | ⟨hmn, hold⟩
    · have hmem : ∀ j ∈ c.todo.erase i, j ≠ i ∧ j ∈ c.todo := fun j hj =>
        (hahead.nodup.mem_erase_iff).mp hj
      refine ⟨hahead.reserved, hahead.nodup.erase i, fun j hj => hahead.sub j (hmem j hj).2,
        fun j hj k v hv => ?_, fun _ => hopen⟩
      rw [hother j (hmem j hj).1] at hv
      exact hahead.above j (hmem j hj).2 k v hv
    · have hd' := h.ahead m d hold
      refine hd'.frame (le_refl _) fun j hj k => hother j ?_ k
      rintro rfl
      exact h.apart m n d c hmn hold hc (hd'.unpublished (List.ne_nil_of_mem hj)) hopen j
        (hd'.sub j hj) (hahead.sub j hi)
  · exact h.apart_set hc rfl id

theorem Ordered.publish {w : Overlap} (h : Ordered w) {n : Nat} {c : MvccCall}
    (hc : w.calls[n]? = some c) (htodo : c.todo = []) :
    Ordered (w.afterPublish n c) := by
  rw [afterPublish]
  have hahead := h.ahead n c hc
  have hver := w.engine.versions_publish c.commitSeq
  have hseq := w.engine.publish_seqCounter c.commitSeq
  refine ⟨fun i k => ?_, fun i k v hv => ?_, ?_, ?_, ?_⟩
  · rw [hver]
    exact h.sorted i k
  · rw [hver] at hv
    rw [hseq]
    exact h.bound i k v hv
  · rw [hseq, MVCCEngine.publish_lastCommitted]
    exact max_le h.published hahead.reserved
  · intro m d hd
    rcases Runs.getElem?_set_cases hd with ⟨-, rfl⟩ | ⟨-, hd⟩
    · have hnone : ∀ i, i ∉ c.todo := fun i hi => by rw [htodo] at hi; cases hi
      exact ⟨hahead.reserved.trans hseq.ge, hahead.nodup, fun i hi => absurd hi (hnone i),
        fun i hi => absurd hi (hnone i), fun hne => absurd htodo hne⟩
    · exact (h.ahead m d hd).frame hseq.ge fun i _ k => hver i k
  · exact h.apart_set hc rfl fun hp => Bool.noConfusion hp

theorem Ordered.getSnapshot {w : Overlap} (h : Ordered w) (snapshots : List OpenSnapshot) :
    Ordered { w with engine := w.engine.getSnapshot.2, snapshots := snapshots } :=
  ⟨h.sorted, h.bound, h.published,
    fun n c hc => (h.ahead n c hc).frame (le_refl _) fun _ _ _ => rfl, h.apart⟩

/-- Calls on different shards keep the versions sorted. -/
theorem Ordered.step {w : Overlap} (h : Ordered w) {ev : OverlapEvent} (hapart : Apart w ev) :
    Ordered (w.step ev) := by
  rcases w.step_cases ev with hsame | ⟨routing, ops, rfl, hstep⟩ | ⟨n, i, c, hc, hi, hstep⟩ |
    ⟨n, c, hc, htodo, hstep⟩ | rfl
  · rw [hsame]
    exact h
  · rw [hstep]
    exact h.reserve hapart
  · rw [hstep]
    exact h.write hc hi
  · rw [hstep]
    exact h.publish hc htodo
  · exact h.getSnapshot _

/-! ## Batches become visible at once -/

/-- What a call has written is there, under the hash of its keys, and no snapshot has
reached a call that still has writes to make. -/
structure Atomic (w : Overlap) : Prop where
  ordered : Ordered w
  written : ∀ c ∈ w.calls, ∀ op ∈ c.ops, c.routing.shardOf op.key ∉ c.todo →
    ∃ v ∈ w.engine.versions (c.routing.shardOf op.key) op.key, v.seq = c.commitSeq
  homed : ∀ c ∈ w.calls, ∀ op ∈ c.ops, c.routing.shardOf op.key = shardFor op.key
  published : ∀ o ∈ w.snapshots, o.snap.seq ≤ w.engine.lastCommitted
  unreached : ∀ o ∈ w.snapshots, ∀ c ∈ w.calls, c.ops ≠ [] → c.todo ≠ [] →
    o.snap.seq < c.commitSeq
  repeatable : Repeatable w

theorem atomic_new (sharded : Bool) : Atomic (new sharded) :=
  ⟨ordered_new sharded, (fun _ hc => nomatch hc), (fun _ hc => nomatch hc),
    (fun _ ho => nomatch ho), (fun _ ho => nomatch ho), (fun _ ho => nomatch ho)⟩

theorem Atomic.reserve {w : Overlap} (h : Atomic w) {routing : Routing} {ops : List BatchOp}
    (hapart : Apart w (.reserve routing ops)) (hhomed : Homed (.reserve routing ops)) :
    Atomic (w.afterReserve routing ops (w.engine.nextSeq ops.length)) := by
  rw [afterReserve]
  refine ⟨h.ordered.reserve hapart, ?_, ?_, h.published, ?_, h.repeatable⟩
  · intro c hc op hop hdone
    rcases List.mem_append.mp hc with hc | hc
    · exact h.written c hc op hop hdone
    · rw [List.mem_singleton.mp hc] at hop hdone
      exact absurd (routing.mem_shards hop) hdone
  · intro c hc
    rcases List.mem_append.mp hc with hc | hc
    · exact h.homed c hc
    · rw [List.mem_singleton.mp hc]
      exact hhomed
  · intro o ho c hc hops htodo
    rcases List.mem_append.mp hc with hc | hc
    · exact h.unreached o ho c hc hops htodo
    · -- a fresh sequence is above everything published
      rw [List.mem_singleton.mp hc] at hops ⊢
      have hlen : 0 < ops.length := List.length_pos_iff.mpr hops
      have hpub := (h.published o ho).trans h.ordered.published
      show o.snap.seq < w.engine.seqCounter + ops.length
      omega

theorem exists_written {e : MVCCEngine} {c : MvccCall} {i : ShardId} {op : BatchOp}
    (hop : op ∈ c.ops) (hi : c.routing.shardOf op.key = i) :
    ∃ v ∈ (e.writeSection c.commitSeq i (c.routing.part c.ops i)).versions i op.key,
      v.seq = c.commitSeq := by
  have hmem : op ∈ opsOn op.key (c.routing.part c.ops i) :=
    List.mem_filter.mpr ⟨List.mem_filter.mpr ⟨hop, decide_eq_true hi⟩, decide_eq_true rfl⟩
  obtain ⟨new, hnew, hlen, hseq⟩ := exists_grow c.commitSeq
    (opsOn op.key (c.routing.part c.ops i)) (e.versions i op.key)
  have hpos : 0 < new.length := by rw [hlen]; exact List.length_pos_of_mem hmem
  obtain ⟨v, hv⟩ := List.exists_mem_of_length_pos hpos
  refine ⟨v, ?_, hseq v hv⟩
  rw [MVCCEngine.versions_writeSection, if_pos rfl, hnew]
  exact List.mem_append_right _ hv

theorem versions_subset_writeSection (e : MVCCEngine) (s : Nat) (i : ShardId)
    (ops : List BatchOp) (j : ShardId) (k : Key) :
    e.versions j k ⊆ (e.writeSection s i ops).versions j k := by
  intro v hv
  rw [MVCCEngine.versions_writeSection]
  split
  · obtain ⟨new, hnew, -⟩ := exists_grow s (opsOn k ops) (e.versions j k)
    rw [hnew]
    exact List.mem_append_left _ hv
  · exact hv

theorem shown_writeSection (e : MVCCEngine) {s : MvccSnapshot} {c : MvccCall}
    (h : c.ops ≠ [] → s.seq < c.commitSeq) (i : ShardId) (k : Key) :
    s.shown (e.writeSection c.commitSeq i (c.routing.part c.ops i)) k = s.shown e k := by
  rw [MvccSnapshot.shown, MVCCEngine.versions_writeSection]
  split
  · by_cases hops : c.ops = []
    · rw [hops]
      rfl
    · exact newest_grow (h hops) _ _
  · rfl

theorem Atomic.write {w : Overlap} (h : Atomic w) {n : Nat} {c : MvccCall}
    (hc : w.calls[n]? = some c) {i : ShardId} (hi : i ∈ c.todo) :
    Atomic (w.afterWrite n c i) := by
  have hord := h.ordered.write hc hi
  rw [afterWrite] at hord ⊢
  have hmem := List.mem_of_getElem? hc
  have htodo : c.todo ≠ [] := List.ne_nil_of_mem hi
  refine ⟨hord, ?_, ?_, h.published, ?_, ?_⟩
  · intro d hd op hop hdone
    rcases List.mem_or_eq_of_mem_set hd with hd | rfl
    · obtain ⟨v, hv, hseq⟩ := h.written d hd op hop hdone
      exact ⟨v, versions_subset_writeSection _ _ _ _ _ _ hv, hseq⟩
    · -- the shard is the one just written, or was written before
      by_cases hhere : c.routing.shardOf op.key = i
      · show ∃ v ∈ MVCCEngine.versions _ (c.routing.shardOf op.key) _, _
        rw [hhere]
        exact exists_written hop hhere
      · have hbefore : c.routing.shardOf op.key ∉ c.todo := fun hin =>
          hdone ((List.mem_erase_of_ne hhere).mpr hin)
        obtain ⟨v, hv, hseq⟩ := h.written c hmem op hop hbefore
        exact ⟨v, versions_subset_writeSection _ _ _ _ _ _ hv, hseq⟩
  · exact Runs.forall_mem_set h.homed (h.homed c hmem)
  · intro o ho d hd hops hleft
    rcases List.mem_or_eq_of_mem_set hd with hd | rfl
    · exact h.unreached o ho d hd hops hleft
    · exact h.unreached o ho c hmem hops htodo
  · intro o ho k
    rw [← h.repeatable o ho k, MvccSnapshot.get_eq_shown (hord.sorted _ k),
      MvccSnapshot.get_eq_shown (h.ordered.sorted _ k)]
    show (o.snap.shown (w.engine.writeSection _ _ _) k).bind _ = _
    rw [shown_writeSection w.engine fun hops => h.unreached o ho c hmem hops htodo]

theorem Atomic.publish {w : Overlap} (h : Atomic w) {n : Nat} {c : MvccCall}
    (hc : w.calls[n]? = some c) (htodo : c.todo = []) :
    Atomic (w.afterPublish n c) := by
  rw [afterPublish]
  have hmem := List.mem_of_getElem? hc
  have hver := w.engine.versions_publish c.commitSeq
  refine ⟨h.ordered.publish hc htodo, ?_, ?_, ?_, ?_, ?_⟩
  · intro d hd op hop hdone
    show ∃ v ∈ MVCCEngine.versions (w.engine.publish _) _ _, _
    rw [hver]
    rcases List.mem_or_eq_of_mem_set hd with hd | rfl
    · exact h.written d hd op hop hdone
    · exact h.written c hmem op hop hdone
  · exact Runs.forall_mem_set h.homed (h.homed c hmem)
  · intro o ho
    show _ ≤ (w.engine.publish _).lastCommitted
    rw [MVCCEngine.publish_lastCommitted]
    exact (h.published o ho).trans (le_max_left _ _)
  · intro o ho d hd hops hleft
    rcases List.mem_or_eq_of_mem_set hd with hd | rfl
    · exact h.unreached o ho d hd hops hleft
    · exact absurd htodo hleft
  · intro o ho k
    rw [← h.repeatable o ho k]
    exact MvccSnapshot.get_of_shards (w.engine.publish_shards c.commitSeq) o.snap k

theorem Atomic.getSnapshot {w : Overlap} (h : Atomic w) (hquiet : Quiet w .getSnapshot) :
    Atomic (w.step .getSnapshot) := by
  refine ⟨h.ordered.getSnapshot _, h.written, h.homed, ?_, ?_, ?_⟩
  · intro o ho
    rcases List.mem_cons.mp ho with rfl | ho
    · exact le_refl _
    · exact h.published o ho
  · intro o ho c hc hops htodo
    rcases List.mem_cons.mp ho with rfl | ho
    · exact hquiet c hc hops htodo
    · exact h.unreached o ho c hc hops htodo
  · intro o ho k
    rcases List.mem_cons.mp ho with rfl | ho
    · rfl
    · exact h.repeatable o ho k

theorem Atomic.step {w : Overlap} (h : Atomic w) {ev : OverlapEvent} (hapart : Apart w ev)
    (hhomed : Homed ev) (hquiet : Quiet w ev) : Atomic (w.step ev) := by
  rcases w.step_cases ev with hsame | ⟨routing, ops, rfl, hstep⟩ | ⟨n, i, c, hc, hi, hstep⟩ |
    ⟨n, c, hc, htodo, hstep⟩ | rfl
  · rw [hsame]
    exact h
  · rw [hstep]
    exact h.reserve hapart hhomed
  · rw [hstep]
    exact h.write hc hi
  · rw [hstep]
    exact h.publish hc htodo
  · exact h.getSnapshot hquiet

theorem Atomic.sees_iff {w : Overlap} (h : Atomic w) {o : OpenSnapshot} (ho : o ∈ w.snapshots)
    {c : MvccCall} (hc : c ∈ w.calls) {op : BatchOp} (hop : op ∈ c.ops) :
    o.snap.Sees w.engine c op.key ↔ c.commitSeq ≤ o.snap.seq := by
  have hsorted := h.ordered.sorted (shardFor op.key) op.key
  rw [MvccSnapshot.Sees, MvccSnapshot.found_eq_shown hsorted, Option.any_eq_true]
  constructor
  · rintro ⟨v, hv, hle⟩
    exact (of_decide_eq_true hle).trans (VersionList.newest_mem hv).2
  · intro hle
    -- a call the snapshot has reached has written all its shards
    have htodo : c.todo = [] := by
      by_contra hne
      have := h.unreached o ho c hc (List.ne_nil_of_mem hop) hne
      omega
    obtain ⟨v, hv, hseq⟩ := h.written c hc op hop (by rw [htodo]; exact List.not_mem_nil)
    rw [h.homed c hc op hop] at hv
    obtain ⟨u, hu, hvu⟩ := hsorted.exists_newest hv (hseq ▸ hle)
    exact ⟨u, hu, decide_eq_true (hseq ▸ hvu)⟩

theorem Atomic.allOrNone {w : Overlap} (h : Atomic w) : AllOrNone w := by
  intro o ho c hc
  by_cases hle : c.commitSeq ≤ o.snap.seq
  · exact Or.inl fun op hop => (h.sees_iff ho hc hop).mpr hle
  · exact Or.inr fun op hop hsees => hle ((h.sees_iff ho hc hop).mp hsees)

/-- **Atomic visibility**, where it holds.  In every interleaving of calls on different
shards, every snapshot sees all writes of a call or none and answers every read as it did
when it was taken, if direct writes go to the shard of their keys and no snapshot is
taken while a call at or below `lastCommitted` still has writes to make, and there are fewer
than `2^64` mutations in all. -/
theorem atomic_visibility (sharded : Bool) {events : List OverlapEvent}
    (hfew : (events.map OverlapEvent.mutations).sum < 2 ^ 64)
    (h : ∀ m ∈ Runs.moves stepWrapping (new sharded) events,
      Apart m.1 m.2 ∧ Homed m.2 ∧ Quiet m.1 m.2) :
    ∀ w ∈ Runs.states stepWrapping (new sharded) events, AllOrNone w ∧ Repeatable w := by
  rw [moves_stepWrapping sharded hfew] at h
  rw [states_stepWrapping sharded hfew]
  have hstep : ∀ w ev, Atomic w → (Apart w ev ∧ Homed ev ∧ Quiet w ev) → Atomic (w.step ev) :=
    fun _ _ hw hok => hw.step hok.1 hok.2.1 hok.2.2
  intro w hw
  have hatomic : Atomic w := Runs.invariant hstep (atomic_new sharded) h w hw
  exact ⟨hatomic.allOrNone, hatomic.repeatable⟩

/-- Two calls overlap; a snapshot is taken between the sections of the first, before
anything is published, and another at the end. -/
def orderly : List OverlapEvent :=
  [.reserve .byKey [.set [0x61] [1], .set [0x62] [1]], .write 0 (shardFor [0x61]),
    .reserve (.direct (shardFor [0x63])) [.set [0x63] [1]], .getSnapshot,
    .write 1 (shardFor [0x63]), .write 0 (shardFor [0x62]), .publish 1, .getSnapshot, .publish 0]

theorem orderly_visible :
    AllOrNone (orderly.foldl stepWrapping (new true)) ∧
      Repeatable (orderly.foldl stepWrapping (new true)) :=
  atomic_visibility true (by decide) (by decide +kernel) _ (Runs.foldl_mem_states orderly _)

/-! ## A half-written batch -/

/-- The second call reserves after the first and publishes while the first has still to
write `b`; a snapshot is taken; the first goes on. -/
def overtaken : List OverlapEvent :=
  [.reserve .byKey [.set [0x61] [1], .set [0x62] [1]], .write 0 (shardFor [0x61]),
    .reserve .byKey [.set [0x63] [1]], .write 1 (shardFor [0x63]), .publish 1, .getSnapshot,
    .write 0 (shardFor [0x62])]

/-- The calls are on different shards; the snapshot sees `a` and not `b` of one batch,
and later sees `b` too. -/
theorem half_written_seen :
    (∀ m ∈ Runs.moves stepWrapping (new true) overtaken, Apart m.1 m.2) ∧
      (¬ ∀ w ∈ Runs.states stepWrapping (new true) overtaken, AllOrNone w) ∧
      ¬ ∀ w ∈ Runs.states stepWrapping (new true) overtaken, Repeatable w := by
  refine ⟨by decide +kernel, by decide +kernel, fun h => ?_⟩
  have hread : (overtaken.foldl stepWrapping (new true)).snapshots.map (fun o =>
      (o.snap.get (overtaken.foldl stepWrapping (new true)).engine [0x62], o.view [0x62])) =
        [(some [1], none)] := by
    decide +kernel
  have hend : Repeatable (overtaken.foldl stepWrapping (new true)) :=
    h _ (Runs.foldl_mem_states overtaken (new true))
  exact OpenSnapshot.not_repeatable hread nofun hend

end Overlap

end Dpx
