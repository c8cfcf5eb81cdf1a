/-
# `Dpx.Node` — transactions on a node, and the change feed

`dpx.go`: `RunInTx` starts a callback on a fresh snapshot, hands the proposal it built to
the proposer, and starts it again after a conflict.  Callbacks run side by side, so a
run of the node is a list of events (`NodeEvent`), each on one attempt; a retry is a new
attempt, and an attempt whose callback fails is given up.

`AllocateNextSequence` takes the next number of a counter of the node while the callback
runs, and `GetSafeReadPoint` returns the number taken last.  A change feed files an event
under the number (`eventKey`) and reads up to the safe read point.

But a number is taken before its event commits.  What lies at or below the safe read
point is settled if no attempt in flight holds a number (`Since`: from there on, numbers
in flight are larger); and it is not settled if one of them holds a number and has read
nothing, since no conflict can stop it (`late_event`).  `safe_read_point` states both.

The counter is a word: `AllocateNextSequence` hands out a number twice once it has been called
`2^64` times, so a run is `Disciplined` only as long as it has not.
-/
import Dpx.Lib.Runs
import Dpx.Tx
import Dpx.Conductor.Store
import Dpx.Conductor.Sharded

namespace Dpx

/-! ## What a node asks of its proposer -/

/-- The snapshot `GetSnapshot` takes, and the state after proposals that are answered
together.  The answers only decide whether a callback is started again, which a run is
free to do or not. -/
class Proposing (ν : Type) (σ : outParam Type) where
  snapshot : ν → σ
  proposeAll : ν → List Proposal → ν

/-- The value of `k` after the writes of some proposals. -/
def valueAfterAll (ps : List Proposal) (k : Key) (v : Option Bytes) : Option Bytes :=
  ps.foldl (fun v p => valueAfter p.writes k v) v

/-- Some of the proposals commit, one after the other; one without reads, alone, does. -/
class LawfulProposing (ν : Type) {σ : Type} [Snapshot σ] [Proposing ν σ] : Prop where
  get_proposeAll : ∀ (d : ν) (ps : List Proposal), (∀ p ∈ ps, p.WellFormed) →
    ∃ cs : List Proposal, (∀ p ∈ cs, p ∈ ps) ∧ ∀ k, isReserved k = false →
      Snapshot.get (Proposing.snapshot (Proposing.proposeAll d ps)) k =
        valueAfterAll cs k (Snapshot.get (Proposing.snapshot d) k)
  get_blind : ∀ (d : ν) (p : Proposal), p.WellFormed → p.readSet = [] →
    ∀ k, isReserved k = false →
      Snapshot.get (Proposing.snapshot (Proposing.proposeAll d [p])) k =
        valueAfter p.writes k (Snapshot.get (Proposing.snapshot d) k)

/-- Which of the proposals commit: those that are answered with a zero result, in order. -/
class Answering (ν : Type) {σ : outParam Type} [Snapshot σ] [Proposing ν σ] where
  commits : ν → List Proposal → List Proposal
  mem_commits : ∀ (d : ν) (ps : List Proposal), ∀ p ∈ commits d ps, p ∈ ps
  get_commits : ∀ (d : ν) (ps : List Proposal), (∀ p ∈ ps, p.WellFormed) →
    ∀ k, isReserved k = false →
      Snapshot.get (Proposing.snapshot (Proposing.proposeAll d ps)) k =
        valueAfterAll (commits d ps) k (Snapshot.get (Proposing.snapshot d) k)

/-- A snapshot that is a copy of its engine. -/
class LawfulSnapshot (σ : Type) [StorageEngine σ] [Snapshot σ] : Prop where
  get_eq : ∀ (e : σ) (k : Key), Snapshot.get e k = StorageEngine.get e k

instance : LawfulSnapshot State := ⟨fun _ _ => rfl⟩

instance : LawfulSnapshot ShardedEngine := ⟨fun _ _ => rfl⟩

theorem valueSince_eq_valueAfterAll (tr : List Answered) (k : Key) (v : Option Bytes) :
    valueSince tr k v = valueAfterAll (committed tr) k v := by
  rw [valueSince, valueAfterAll, committed, List.foldl_map, List.foldl_filter]

section Proposers

variable {σ : Type} [StorageEngine σ]

instance : Proposing (DirectProposer σ) σ where
  snapshot d := d.fsm.engine
  proposeAll d ps := (d.applyBatchDirect ps).2

/-- The proposals of several callers reach their shards in some order. -/
instance : Proposing (ShardedDirectProposer σ) σ where
  snapshot s := s.engine
  proposeAll s ps := s.run ps

variable [LawfulEngine σ]

theorem ShardedDirectProposer.get_applyInline (s : ShardedDirectProposer σ) (p : Proposal) :
    ((s.answer p).committed = true ∧ ∀ k, isReserved k = false →
      StorageEngine.get (s.applyInline p).2.engine k =
        valueAfter p.writes k (StorageEngine.get s.engine k)) ∨
    ((s.answer p).committed = false ∧ p.readSet ≠ [] ∧
      (s.applyInline p).2.engine = s.engine) := by
  rcases s.applyInline_cases p with ⟨hc, hres, hstate⟩ | ⟨-, hres, -, hget⟩
  · refine Or.inr ⟨?_, fun hnil => ?_, by rw [hstate]; rfl⟩
    · rw [Answered.committed, answer, hres]
      rfl
    · simp [ShardProposer.conflicts, hnil, stackConflict] at hc
  · refine Or.inl ⟨?_, fun k hk => ?_⟩
    · simp [Answered.committed, answer, hres]
    · rw [hget, effect_commit_user hk]

theorem ShardedDirectProposer.run_values {k : Key} (hk : isReserved k = false)
    (ps : List Proposal) : ∀ s : ShardedDirectProposer σ,
      StorageEngine.get (s.run ps).engine k =
        valueSince (s.trace ps) k (StorageEngine.get s.engine k) := by
  induction ps with
  | nil => exact fun s => rfl
  | cons p ps ih =>
      intro s
      refine (ih (s.applyInline p).2).trans ?_
      rw [trace, valueSince, valueSince, List.foldl_cons]
      rcases s.get_applyInline p with ⟨hc, hget⟩ | ⟨hc, -, hsame⟩
      · rw [hget k hk, if_pos hc]
        rfl
      · rw [hsame, hc]
        rfl

omit [LawfulEngine σ] in
theorem ShardedDirectProposer.map_trace (ps : List Proposal) :
    ∀ s : ShardedDirectProposer σ, (s.trace ps).map Answered.proposal = ps := by
  induction ps with
  | nil => exact fun s => rfl
  | cons p ps ih => exact fun s => congrArg _ (ih _)

variable [Snapshot σ] [LawfulSnapshot σ]

instance : Answering (DirectProposer σ) where
  commits d ps := committed (d.answered ps)
  mem_commits := fun d ps p hp => by
    obtain ⟨a, ha, rfl⟩ := List.mem_map.mp hp
    have hmem : a ∈ d.trace [ps] := List.mem_append_left _ (List.mem_filter.mp ha).1
    obtain ⟨b, hb, hab⟩ := DirectProposer.mem_trace_proposal hmem
    rwa [List.mem_singleton.mp hb] at hab
  get_commits := fun d ps hps k hk => by
    rw [← valueSince_eq_valueAfterAll, LawfulSnapshot.get_eq, LawfulSnapshot.get_eq]
    exact d.batch_values hk hps

instance : Answering (ShardedDirectProposer σ) where
  commits s ps := committed (s.trace ps)
  mem_commits := fun s ps p hp => by
    obtain ⟨a, ha, rfl⟩ := List.mem_map.mp hp
    rw [← s.map_trace ps]
    exact List.mem_map_of_mem (List.mem_filter.mp ha).1
  get_commits := fun s ps _ k hk => by
    rw [← valueSince_eq_valueAfterAll, LawfulSnapshot.get_eq, LawfulSnapshot.get_eq]
    exact ShardedDirectProposer.run_values hk ps s

instance : LawfulProposing (DirectProposer σ) where
  get_proposeAll := fun d ps hps =>
    ⟨Answering.commits d ps, Answering.mem_commits d ps, Answering.get_commits d ps hps⟩
  get_blind := fun d p hp hreads k hk => by
    have hval := DirectProposer.run_values_of_no_reads hk
      (List.forall_mem_singleton.mpr (List.forall_mem_singleton.mpr hp))
      (List.forall_mem_singleton.mpr (List.forall_mem_singleton.mpr hreads)) d
    rw [List.flatten_singleton, List.flatMap_singleton] at hval
    rw [LawfulSnapshot.get_eq, LawfulSnapshot.get_eq]
    exact hval

instance : LawfulProposing (ShardedDirectProposer σ) where
  get_proposeAll := fun s ps hps =>
    ⟨Answering.commits s ps, Answering.mem_commits s ps, Answering.get_commits s ps hps⟩
  get_blind := fun s p _ hreads k hk => by
    rw [LawfulSnapshot.get_eq, LawfulSnapshot.get_eq]
    rcases s.get_applyInline p with ⟨-, h⟩ | ⟨-, hne, -⟩
    · exact h k hk
    · exact absurd hreads hne

end Proposers

/-! ## The node -/

/-- One attempt of a callback: its transaction, and the numbers it has allocated. -/
structure InFlight (σ : Type) where
  tx : DpxTx σ
  drawn : List UInt64

structure Node (ν σ : Type) where
  proposer : ν
  seqCounter : UInt64
  inFlight : Nat → Option (InFlight σ)

/-- What happens on a node.  Attempts have names; a proposal of the batch has the
timestamp the clock gave it. -/
inductive NodeEvent where
  | begin (a : Nat)
  | call (a : Nat) (c : TxCall)
  | allocateNextSequence (a : Nat)
  | giveUp (a : Nat)
  | propose (batch : List (Nat × UInt64 × UInt16))

section Attempts

variable {σ : Type} [Snapshot σ]

/-- The end of `runOnce`: without a write, or with one that is not valid, there is no
proposal. -/
def InFlight.proposal (t : InFlight σ) (wall : UInt64) (counter : UInt16) : Option Proposal :=
  match t.tx.propose wall counter with
  | .ok p => p
  | .error _ => none

/-- The proposals of the named attempts, and the attempts that are left. -/
def handIn : List (Nat × UInt64 × UInt16) → (Nat → Option (InFlight σ)) →
    List Proposal × (Nat → Option (InFlight σ))
  | [], inFlight => ([], inFlight)
  | (a, wall, counter) :: batch, inFlight =>
      let rest := handIn batch (Function.update inFlight a none)
      (((inFlight a).bind fun t => t.proposal wall counter).toList ++ rest.1, rest.2)

end Attempts

namespace Node

variable {ν σ : Type} [Snapshot σ] [Proposing ν σ]

/-- `Open`: the counter starts at zero. -/
def «open» (proposer : ν) : Node ν σ := ⟨proposer, 0, fun _ => none⟩

def getSafeReadPoint (n : Node ν σ) : UInt64 := n.seqCounter

/-- `Get` through a snapshot taken now. -/
def read (n : Node ν σ) (k : Key) : Option Bytes := Snapshot.get (Proposing.snapshot n.proposer) k

def step (n : Node ν σ) : NodeEvent → Node ν σ
  | .begin a => match n.inFlight a with
      | some _ => n
      | none =>
          let tx := DpxTx.new (Proposing.snapshot n.proposer)
          { n with inFlight := Function.update n.inFlight a (some ⟨tx, []⟩) }
  | .call a c => match n.inFlight a with
      | some t =>
          { n with inFlight := Function.update n.inFlight a (some { t with tx := t.tx.perform c }) }
      | none => n
  | .allocateNextSequence a => match n.inFlight a with
      | some t =>
          let s := n.seqCounter + 1
          { n with
            seqCounter := s
            inFlight := Function.update n.inFlight a (some { t with drawn := t.drawn ++ [s] }) }
      | none => n
  | .giveUp a => { n with inFlight := Function.update n.inFlight a none }
  | .propose batch =>
      let (ps, inFlight) := handIn batch n.inFlight
      { n with proposer := Proposing.proposeAll n.proposer ps, inFlight := inFlight }

/-- The node after a run. -/
def after (proposer : ν) (events : List NodeEvent) : Node ν σ := events.foldl step (.open proposer)

/-- An attempt writes an event only under a number it has allocated, and does nothing
else with the keys of events; the counter is not at its end when a number is allocated. -/
def Disciplined (eventKey : UInt64 → Key) (n : Node ν σ) : NodeEvent → Prop
  | .call a (.set k _) => ∀ s, k = eventKey s → ∀ t, n.inFlight a = some t → s ∈ t.drawn
  | .call _ (.delete k) | .call _ (.atomicAdd k _) => ∀ s, k ≠ eventKey s
  | .allocateNextSequence _ => n.seqCounter.toNat + 1 < 2 ^ 64
  | _ => True

/-- The safe read point after `pre` is safe: an event at or below it that was there is
there, and whatever happens next, there will be no other. -/
structure Safe (eventKey : UInt64 → Key) (proposer : ν) (pre : List NodeEvent) : Prop where
  earlier : ∀ m ∈ Runs.states step (.open proposer) pre,
    ∀ s ≤ (after proposer pre).getSafeReadPoint,
      m.read (eventKey s) ≠ none → (after proposer pre).read (eventKey s) ≠ none
  later : ∀ es, (∀ m ∈ Runs.moves step (after proposer pre) es, Disciplined eventKey m.1 m.2) →
    ∀ m ∈ Runs.states step (after proposer pre) es,
      ∀ s ≤ (after proposer pre).getSafeReadPoint,
        m.read (eventKey s) = (after proposer pre).read (eventKey s)

end Node

/-! ## What one event can do -/

section Attempts

variable {σ : Type} [Snapshot σ]

theorem InFlight.propose_of_proposal {t : InFlight σ} {wall : UInt64} {counter : UInt16}
    {p : Proposal} (h : t.proposal wall counter = some p) :
    t.tx.propose wall counter = .ok (some p) := by
  rw [proposal] at h
  split at h
  · rename_i hp
    rw [hp, h]
  · cases h

theorem InFlight.proposal_eq_some {t : InFlight σ} {wall : UInt64} {counter : UInt16}
    {p : Proposal} (h : t.proposal wall counter = some p) :
    p = ⟨t.tx.readSetSlice, t.tx.writes, wall, counter⟩ :=
  DpxTx.propose_eq_some (propose_of_proposal h)

theorem mem_handIn {batch : List (Nat × UInt64 × UInt16)} {p : Proposal} :
    ∀ {inFlight : Nat → Option (InFlight σ)}, p ∈ (handIn batch inFlight).1 →
      ∃ a t wall counter, inFlight a = some t ∧ t.proposal wall counter = some p := by
  induction batch with
  | nil => intro f h; exact absurd h List.not_mem_nil
  | cons x batch ih =>
      obtain ⟨a, wall, counter⟩ := x
      intro f h
      rcases List.mem_append.mp h with h | h
      · obtain ⟨t, ht, hp⟩ := Option.bind_eq_some_iff.mp (Option.mem_toList.mp h)
        exact ⟨a, t, wall, counter, ht, hp⟩
      · obtain ⟨b, t, w, c, hb, hp⟩ := ih h
        have hne : b ≠ a := by
          rintro rfl
          rw [Function.update_self] at hb
          cases hb
        rw [Function.update_of_ne hne] at hb
        exact ⟨b, t, w, c, hb, hp⟩

theorem handIn_eq_some {batch : List (Nat × UInt64 × UInt16)} {a : Nat} {t : InFlight σ} :
    ∀ {inFlight : Nat → Option (InFlight σ)}, (handIn batch inFlight).2 a = some t →
      inFlight a = some t := by
  induction batch with
  | nil => exact fun h => h
  | cons x batch ih =>
      intro f h
      have hrest := ih h
      have hne : a ≠ x.1 := by
        rintro rfl
        rw [Function.update_self] at hrest
        cases hrest
      rwa [Function.update_of_ne hne] at hrest

theorem DpxTx.writes_perform (tx : DpxTx σ) (c : TxCall) :
    (tx.perform c).writes = tx.writes ∨
    ∃ w : WriteEntry, (tx.perform c).writes = tx.writes ++ [w] ∧
      (w.op = .set ∧ c = .set w.key w.value ∨ c = .delete w.key ∨
        w.isMerge = true ∧ ∃ d, c = .atomicAdd w.key d) := by
  cases c with
  | get k =>
      rw [perform, DpxTx.get]
      cases isReserved k with
      | true => exact Or.inl rfl
      | false => cases Snapshot.get tx.snap k <;> exact Or.inl rfl
  | set k v =>
      rw [perform, DpxTx.set]
      cases isReserved k with
      | true => exact Or.inl rfl
      | false => exact Or.inr ⟨_, rfl, Or.inl ⟨rfl, rfl⟩⟩
  | delete k =>
      rw [perform, DpxTx.delete]
      cases isReserved k with
      | true => exact Or.inl rfl
      | false => exact Or.inr ⟨_, rfl, Or.inr (Or.inl rfl)⟩
  | atomicAdd k d =>
      rw [perform, DpxTx.atomicAdd]
      cases isReserved k with
      | true => exact Or.inl rfl
      | false =>
          by_cases hpos : 0 < d
          · refine Or.inr ⟨⟨.credit, k, encodeInt64 d⟩, ?_, Or.inr (Or.inr ⟨rfl, d, rfl⟩)⟩
            simp [hpos]
          · by_cases hneg : d < 0
            · refine Or.inr ⟨⟨.debit, k, encodeInt64 d⟩, ?_, Or.inr (Or.inr ⟨rfl, d, rfl⟩)⟩
              simp [hpos, hneg]
            · exact Or.inl (by simp [hpos, hneg])

/-- An attempt that keeps to its own numbers. -/
structure InFlight.Owned (eventKey : UInt64 → Key) (t : InFlight σ) : Prop where
  sound : t.tx.Sound
  events : ∀ w ∈ t.tx.writes, ∀ s, w.key = eventKey s → w.op = .set ∧ s ∈ t.drawn

variable {eventKey : UInt64 → Key}

theorem InFlight.Owned.draw {t : InFlight σ} (h : t.Owned eventKey) (s : UInt64) :
    Owned eventKey { t with drawn := t.drawn ++ [s] } where
  sound := h.sound
  events := fun w hw s hk =>
    ⟨(h.events w hw s hk).1, List.mem_append_left _ (h.events w hw s hk).2⟩

end Attempts

namespace Node

variable {ν σ : Type} [Snapshot σ] [Proposing ν σ] {eventKey : UInt64 → Key} {n m : Node ν σ}

omit [Proposing ν σ] in
theorem InFlight.Owned.call {a : Nat} {t : InFlight σ} (ht : n.inFlight a = some t)
    (h : t.Owned eventKey) {c : TxCall} (hc : Disciplined eventKey n (.call a c)) :
    InFlight.Owned eventKey { t with tx := t.tx.perform c } := by
  refine ⟨h.sound.perform c, ?_⟩
  rcases t.tx.writes_perform c with hw | ⟨w, hw, hcall⟩
  · simp only [hw]
    exact h.events
  · simp only [hw]
    refine List.forall_mem_append.mpr ⟨h.events, List.forall_mem_singleton.mpr fun s hk => ?_⟩
    rcases hcall with ⟨hop, rfl⟩ | rfl | ⟨-, d, rfl⟩
    · exact ⟨hop, hc s hk t ht⟩
    · exact absurd hk (hc s)
    · exact absurd hk (hc s)

omit [Snapshot σ] [Proposing ν σ] in
theorem disciplined_set (hinj : Function.Injective eventKey) {a : Nat} {t : InFlight σ}
    (ht : n.inFlight a = some t) {s : UInt64} (hs : s ∈ t.drawn) (v : Bytes) :
    Disciplined eventKey n (.call a (.set (eventKey s) v)) := by
  intro r hr u hu
  obtain rfl := hinj hr
  obtain rfl := Option.some.inj (ht.symm.trans hu)
  exact hs

omit [Snapshot σ] [Proposing ν σ] in
theorem toNat_next {ev : NodeEvent} (hev : Disciplined eventKey n ev) {a : Nat}
    (ha : ev = .allocateNextSequence a) :
    (n.seqCounter + 1).toNat = n.seqCounter.toNat + 1 := by
  subst ha
  rw [UInt64.toNat_add]
  exact Nat.mod_eq_of_lt hev

/-- An attempt in flight after an event was in flight, has just begun, has made a call, or
has taken the next number. -/
theorem inFlight_step {ev : NodeEvent} {a : Nat} {u : InFlight σ}
    (h : (n.step ev).inFlight a = some u) :
    n.inFlight a = some u ∨ u = ⟨DpxTx.new (Proposing.snapshot n.proposer), []⟩ ∨
    ∃ t, n.inFlight a = some t ∧
      ((∃ c, ev = .call a c ∧ u = { t with tx := t.tx.perform c }) ∨
        (ev = .allocateNextSequence a ∧ u = { t with drawn := t.drawn ++ [n.seqCounter + 1] } ∧
          (n.step ev).seqCounter = n.seqCounter + 1)) := by
  have hupdate : ∀ {b : Nat} {v : Option (InFlight σ)},
      Function.update n.inFlight b v a = some u → n.inFlight a = some u ∨ (a = b ∧ v = some u) := by
    intro b v hb
    by_cases hab : a = b
    · subst hab
      rw [Function.update_self] at hb
      exact Or.inr ⟨rfl, hb⟩
    · rw [Function.update_of_ne hab] at hb
      exact Or.inl hb
  cases ev with
  | begin b =>
      rw [step] at h
      cases hb : n.inFlight b with
      | some t =>
          rw [hb] at h
          exact Or.inl h
      | none =>
          rw [hb] at h
          rcases hupdate h with hold | ⟨-, hnew⟩
          · exact Or.inl hold
          · exact Or.inr (Or.inl (Option.some.inj hnew).symm)
  | call b c =>
      rw [step] at h
      cases hb : n.inFlight b with
      | none =>
          rw [hb] at h
          exact Or.inl h
      | some t =>
          rw [hb] at h
          rcases hupdate h with hold | ⟨rfl, hnew⟩
          · exact Or.inl hold
          · exact Or.inr (Or.inr ⟨t, hb, Or.inl ⟨c, rfl, (Option.some.inj hnew).symm⟩⟩)
  | allocateNextSequence b =>
      rw [step] at h ⊢
      cases hb : n.inFlight b with
      | none =>
          rw [hb] at h
          exact Or.inl h
      | some t =>
          rw [hb] at h
          rcases hupdate h with hold | ⟨rfl, hnew⟩
          · exact Or.inl hold
          · exact Or.inr (Or.inr ⟨t, hb, Or.inr ⟨rfl, (Option.some.inj hnew).symm, rfl⟩⟩)
  | giveUp b =>
      rcases hupdate h with hold | ⟨-, hnew⟩
      · exact Or.inl hold
      · cases hnew
  | propose batch => exact Or.inl (handIn_eq_some h)

theorem proposer_step (n : Node ν σ) (ev : NodeEvent) :
    (∃ batch, ev = .propose batch) ∨
      (∀ batch, ev ≠ .propose batch) ∧ (n.step ev).proposer = n.proposer := by
  cases ev with
  | begin a | call a c | allocateNextSequence a =>
      rw [step]
      cases n.inFlight a <;> exact Or.inr ⟨fun _ h => (nomatch h), rfl⟩
  | giveUp a => exact Or.inr ⟨fun _ h => (nomatch h), rfl⟩
  | propose batch => exact Or.inl ⟨batch, rfl⟩

theorem seqCounter_le_step {ev : NodeEvent} (hev : Disciplined eventKey n ev) :
    n.seqCounter ≤ (n.step ev).seqCounter := by
  cases ev with
  | begin a | call a c =>
      rw [step]
      cases n.inFlight a <;> exact UInt64.le_refl _
  | allocateNextSequence a =>
      rw [step]
      cases n.inFlight a with
      | none => exact UInt64.le_refl _
      | some t =>
          refine UInt64.le_iff_toNat_le.mpr ?_
          show _ ≤ (n.seqCounter + 1).toNat
          rw [toNat_next hev rfl]
          exact Nat.le_succ _
  | giveUp a | propose batch => exact UInt64.le_refl _

/-! ## What holds all along a run -/

/-- The attempts in flight keep to their numbers, which the counter has passed. -/
structure Feeding (eventKey : UInt64 → Key) (n : Node ν σ) : Prop where
  owned : ∀ a t, n.inFlight a = some t → t.Owned eventKey
  drawn_le : ∀ a t, n.inFlight a = some t → ∀ s ∈ t.drawn, s ≤ n.seqCounter

omit [Proposing ν σ] in
theorem feeding_open (proposer : ν) : Feeding eventKey (.open proposer : Node ν σ) where
  owned := fun _ _ h => by cases h
  drawn_le := fun _ _ h => by cases h

theorem Feeding.step (h : Feeding eventKey n) {ev : NodeEvent} (hev : Disciplined eventKey n ev) :
    Feeding eventKey (n.step ev) := by
  have hle := seqCounter_le_step hev
  constructor
  · intro a u hu
    rcases inFlight_step hu with hold | rfl | ⟨t, ht, ⟨c, rfl, rfl⟩ | ⟨-, rfl, -⟩⟩
    · exact h.owned a u hold
    · exact ⟨DpxTx.sound_new _, fun _ hw => absurd hw List.not_mem_nil⟩
    · exact InFlight.Owned.call ht (h.owned a t ht) hev
    · exact (h.owned a t ht).draw _
  · intro a u hu s hs
    rcases inFlight_step hu with hold | rfl | ⟨t, ht, ⟨c, rfl, rfl⟩ | ⟨-, rfl, hcount⟩⟩
    · exact UInt64.le_trans (h.drawn_le a u hold s hs) hle
    · exact absurd hs List.not_mem_nil
    · exact UInt64.le_trans (h.drawn_le a t ht s hs) hle
    · rcases List.mem_append.mp hs with hs | hs
      · exact UInt64.le_trans (h.drawn_le a t ht s hs) hle
      · rw [List.mem_singleton.mp hs, hcount]
        exact UInt64.le_refl _

theorem valueAfter_ne_none {ws : List WriteEntry} {k : Key}
    (h : ∀ w ∈ ws, w.key = k → w.op = .set) {v : Option Bytes} (hv : v ≠ none) :
    valueAfter ws k v ≠ none := by
  induction ws generalizing v with
  | nil => exact hv
  | cons w ws ih =>
      simp only [List.forall_mem_cons] at h
      rw [valueAfter_cons]
      refine ih h.2 ?_
      split
      · rename_i hk
        rw [WriteEntry.act, h.1 hk]
        exact Option.some_ne_none _
      · exact hv

section Reads

variable [law : LawfulProposing ν]

theorem Feeding.read_step (h : Feeding eventKey n) (ev : NodeEvent) :
    ∃ cs : List Proposal,
      (∀ p ∈ cs, ∃ a t, n.inFlight a = some t ∧ p.writes = t.tx.writes) ∧
      ∀ k, isReserved k = false → (n.step ev).read k = valueAfterAll cs k (n.read k) := by
  rcases n.proposer_step ev with ⟨batch, rfl⟩ | ⟨-, heq⟩
  · have hwf : ∀ p ∈ (handIn batch n.inFlight).1, p.WellFormed := by
      intro p hp
      obtain ⟨a, t, wall, counter, ht, hprop⟩ := mem_handIn hp
      exact (h.owned a t ht).sound.wellFormed (InFlight.propose_of_proposal hprop)
    obtain ⟨cs, hcs, hget⟩ := law.get_proposeAll n.proposer _ hwf
    refine ⟨cs, fun p hp => ?_, hget⟩
    obtain ⟨a, t, wall, counter, ht, hprop⟩ := mem_handIn (hcs p hp)
    refine ⟨a, t, ht, ?_⟩
    rw [InFlight.proposal_eq_some hprop]
  · refine ⟨[], fun _ hp => absurd hp List.not_mem_nil, fun k _ => ?_⟩
    rw [read, heq]
    rfl

theorem Feeding.visible_step (h : Feeding eventKey n) (huser : ∀ s, isReserved (eventKey s) = false)
    (ev : NodeEvent) {s : UInt64} (hs : n.read (eventKey s) ≠ none) :
    (n.step ev).read (eventKey s) ≠ none := by
  obtain ⟨cs, hcs, hread⟩ := h.read_step ev
  rw [hread _ (huser s)]
  revert hs
  generalize n.read (eventKey s) = v
  clear hread
  induction cs generalizing v with
  | nil => exact fun hv => hv
  | cons p cs ih =>
      intro hv
      simp only [List.forall_mem_cons] at hcs
      obtain ⟨⟨a, t, ht, hp⟩, hcs⟩ := hcs
      refine ih hcs _ (valueAfter_ne_none (fun w hw hk => ?_) hv)
      rw [hp] at hw
      exact ((h.owned a t ht).events w hw s hk).1

theorem Feeding.read_of_not_drawn (h : Feeding eventKey n)
    (huser : ∀ s, isReserved (eventKey s) = false) (ev : NodeEvent) {s : UInt64}
    (hs : ∀ a t, n.inFlight a = some t → s ∉ t.drawn) :
    (n.step ev).read (eventKey s) = n.read (eventKey s) := by
  obtain ⟨cs, hcs, hread⟩ := h.read_step ev
  rw [hread _ (huser s)]
  clear hread
  induction cs with
  | nil => rfl
  | cons p cs ih =>
      simp only [List.forall_mem_cons] at hcs
      obtain ⟨⟨a, t, ht, hp⟩, hcs⟩ := hcs
      have hkeep : valueAfter p.writes (eventKey s) (n.read (eventKey s)) =
          n.read (eventKey s) := by
        refine valueAfter_of_forall_ne (fun w hw hk => ?_) _
        rw [hp] at hw
        exact hs a t ht ((h.owned a t ht).events w hw s hk).2
      rw [valueAfterAll, List.foldl_cons, hkeep]
      exact ih hcs

/-- What has become of `n` after it had no number in flight: the numbers in flight are
larger than its safe read point, and what lies below is as it was. -/
structure Since (eventKey : UInt64 → Key) (n m : Node ν σ) : Prop where
  feeding : Feeding eventKey m
  counter : n.seqCounter ≤ m.seqCounter
  late : ∀ a t, m.inFlight a = some t → ∀ s ∈ t.drawn, n.seqCounter < s
  old : ∀ s ≤ n.seqCounter, m.read (eventKey s) = n.read (eventKey s)

theorem Since.step (h : Since eventKey n m) (huser : ∀ s, isReserved (eventKey s) = false)
    {ev : NodeEvent} (hev : Disciplined eventKey m ev) : Since eventKey n (m.step ev) where
  feeding := h.feeding.step hev
  counter := UInt64.le_trans h.counter (seqCounter_le_step hev)
  late := by
    intro a u hu s hs
    rcases inFlight_step hu with hold | rfl | ⟨t, ht, ⟨c, -, rfl⟩ | ⟨hev', rfl, -⟩⟩
    · exact h.late a u hold s hs
    · exact absurd hs List.not_mem_nil
    · exact h.late a t ht s hs
    · rcases List.mem_append.mp hs with hs | hs
      · exact h.late a t ht s hs
      · rw [List.mem_singleton.mp hs]
        refine UInt64.lt_iff_toNat_lt.mpr ?_
        rw [toNat_next hev hev']
        exact Nat.lt_succ_of_le (UInt64.le_iff_toNat_le.mp h.counter)
  old := by
    intro s hs
    rw [h.feeding.read_of_not_drawn huser ev, h.old s hs]
    intro a t ht hmem
    exact absurd (h.late a t ht s hmem) (UInt64.not_lt.mpr hs)

/-- An attempt that holds a number and has read nothing can still commit its event. -/
theorem late_event (h : Feeding eventKey n) (hinj : Function.Injective eventKey)
    (huser : ∀ s, isReserved (eventKey s) = false) {a : Nat} {t : InFlight σ}
    (ht : n.inFlight a = some t) (hreads : t.tx.readSet = ∅) (hval : t.tx.validate = .ok ())
    {s : UInt64} (hs : s ∈ t.drawn) (v : Bytes) :
    ∃ es, (∀ m ∈ Runs.moves step n es, Disciplined eventKey m.1 m.2) ∧
      (es.foldl step n).read (eventKey s) = some v := by
  refine ⟨[.call a (.set (eventKey s) v), .propose [(a, 0, 0)]], ?_, ?_⟩
  · simp only [Runs.moves, List.forall_mem_cons, List.not_mem_nil, false_imp_iff, implies_true,
      and_true]
    exact ⟨disciplined_set hinj ht hs v, trivial⟩
  · -- the attempt hands in its writes, the event last, with an empty read set
    let ws := t.tx.writes ++ [⟨.set, eventKey s, v⟩]
    let p : Proposal := ⟨[], ws, 0, 0⟩
    have hset : t.tx.perform (.set (eventKey s) v) = { t.tx with writes := ws } := by
      rw [DpxTx.perform, DpxTx.set, huser s]
      rfl
    have hprop : InFlight.proposal { t with tx := { t.tx with writes := ws } } 0 0 = some p := by
      have hslice : DpxTx.readSetSlice { t.tx with writes := ws } = [] := by
        simp [DpxTx.readSetSlice, hreads]
      have hok : DpxTx.validate { t.tx with writes := ws } = .ok () := by
        rw [← hval, DpxTx.validate, DpxTx.validate]
        simp [ws]
      rw [InFlight.proposal, DpxTx.propose, if_neg (by simp [ws]), hok, hslice]
    have hstep : ((n.step (.call a (.set (eventKey s) v))).step (.propose [(a, 0, 0)])).proposer =
        Proposing.proposeAll n.proposer [p] := by
      simp only [step, ht, hset, handIn, Function.update_self, Option.bind_some, hprop]
      rfl
    have hwf : p.WellFormed := by
      have hsound := h.owned a t ht |>.sound
      exact ⟨List.forall_mem_append.mpr ⟨hsound.known, List.forall_mem_singleton.mpr rfl⟩,
        List.forall_mem_append.mpr ⟨hsound.user, List.forall_mem_singleton.mpr (huser s)⟩⟩
    show Node.read _ _ = _
    rw [List.foldl_cons, List.foldl_cons, List.foldl_nil, read, hstep,
      law.get_blind n.proposer p hwf rfl _ (huser s), valueAfter_append, valueAfter_cons,
      if_pos rfl]
    rfl

end Reads

/-! ## The safe read point -/

/-- **The change feed.**  In every run of the node, the safe read point is safe if no
attempt in flight holds a number; and if it is safe, none holds one that can still commit
without a conflict. -/
theorem safe_read_point [LawfulProposing ν] (hinj : Function.Injective eventKey)
    (huser : ∀ s, isReserved (eventKey s) = false) (proposer : ν) (pre : List NodeEvent)
    (hpre : ∀ m ∈ Runs.moves step (.open proposer : Node ν σ) pre,
      Disciplined eventKey m.1 m.2) :
    ((∀ a t, (after proposer pre : Node ν σ).inFlight a = some t → t.drawn = []) →
      Safe eventKey proposer pre) ∧
    (Safe eventKey proposer pre →
      ∀ a t, (after proposer pre : Node ν σ).inFlight a = some t →
        t.tx.readSet = ∅ → t.tx.validate = .ok () → t.drawn = []) := by
  have hfeed : Feeding eventKey (after proposer pre : Node ν σ) :=
    Runs.invariant (fun _ _ h hev => h.step hev) (feeding_open proposer) hpre _
      (Runs.foldl_mem_states pre _)
  constructor
  · intro hnone
    constructor
    · intro m hm s _
      have hstep : ∀ (n : Node ν σ) (ev : NodeEvent), Feeding eventKey n →
          Disciplined eventKey n ev → Feeding eventKey (n.step ev) ∧
            (n.read (eventKey s) ≠ none → (n.step ev).read (eventKey s) ≠ none) :=
        fun _ ev h hev => ⟨h.step hev, h.visible_step huser ev⟩
      exact Runs.last_of_mem_states hstep (feeding_open proposer) hpre m hm
    · intro es hes m hm
      have hstart : Since eventKey (after proposer pre) (after proposer pre : Node ν σ) := by
        refine ⟨hfeed, UInt64.le_refl _, fun a t ht s hs => ?_, fun _ _ => rfl⟩
        rw [hnone a t ht] at hs
        exact absurd hs List.not_mem_nil
      exact (Runs.invariant (fun _ _ h hev => h.step huser hev) hstart hes m hm).old
  · intro hsafe a t ht hreads hval
    refine List.eq_nil_iff_forall_not_mem.mpr fun s hs => ?_
    -- an event that is not the one that is there now
    have hvalue : ∃ v, (after proposer pre : Node ν σ).read (eventKey s) ≠ some v := by
      by_cases hv : (after proposer pre : Node ν σ).read (eventKey s) = some []
      · exact ⟨[0], by rw [hv]; decide⟩
      · exact ⟨[], hv⟩
    obtain ⟨v, hv⟩ := hvalue
    obtain ⟨es, hes, hread⟩ := late_event hfeed hinj huser ht hreads hval hs v
    have hsame := hsafe.later es hes _ (Runs.foldl_mem_states es _) s (hfeed.drawn_le a t ht s hs)
    exact hv (hsame.symm.trans hread)

/-- The number, in unary, behind the letter `e`. -/
def feedKey (s : UInt64) : Key := 0x65 :: List.replicate s.toNat 0

theorem feedKey_injective : Function.Injective feedKey := by
  intro r s h
  have hlen := congrArg List.length h
  exact UInt64.toNat_inj.mp (by simpa [feedKey] using hlen)

theorem isReserved_feedKey (s : UInt64) : isReserved (feedKey s) = false := rfl

/-- A transaction that takes a number, files its event and commits. -/
def oneEvent : List NodeEvent :=
  [.begin 0, .allocateNextSequence 0, .call 0 (.set (feedKey 1) [1]), .propose [(0, 0, 0)]]

/-- Nothing is in flight then: the safe read point is safe. -/
theorem one_event_safe : Safe feedKey DirectProposer.opened oneEvent := by
  refine (safe_read_point feedKey_injective isReserved_feedKey DirectProposer.opened oneEvent
    ?_).1 fun a t ht => ?_
  · simp only [oneEvent, Runs.moves, List.forall_mem_cons, List.not_mem_nil, false_imp_iff,
      implies_true, and_true]
    exact ⟨trivial, (by decide : (0 : UInt64).toNat + 1 < 2 ^ 64),
      disciplined_set feedKey_injective rfl (List.mem_singleton_self 1) _, trivial⟩
  · have hnone : (after DirectProposer.opened oneEvent : Node _ State).inFlight a = none := by
      simp [oneEvent, after, «open», step, handIn]
    rw [hnone] at ht
    cases ht

/-! ## A number that commits late -/

/-- Two transactions take the numbers 1 and 2, and the second commits its event. -/
def secondFirst : List NodeEvent :=
  [.begin 0, .begin 1, .allocateNextSequence 0, .allocateNextSequence 1,
    .call 1 (.set (feedKey 2) [2]), .propose [(1, 0, 0)]]

/-- Then the first does. -/
def firstLast : List NodeEvent := [.call 0 (.set (feedKey 1) [1]), .propose [(0, 0, 0)]]

/-- The safe read point is 2 and event 1 is not there; it comes later. -/
theorem event_below_safe_read_point :
    (∀ m ∈ Runs.moves step (.open DirectProposer.opened : Node (DirectProposer State) State)
      (secondFirst ++ firstLast), Disciplined feedKey m.1 m.2) ∧
    (after DirectProposer.opened secondFirst : Node _ State).getSafeReadPoint = 2 ∧
    (after DirectProposer.opened secondFirst : Node _ State).read (feedKey 2) = some [2] ∧
    (after DirectProposer.opened secondFirst : Node _ State).read (feedKey 1) = none ∧
    (after DirectProposer.opened (secondFirst ++ firstLast) : Node _ State).read (feedKey 1) =
      some [1] := by
  refine ⟨?_, rfl, ?_, ?_, ?_⟩
  · simp only [secondFirst, firstLast, List.cons_append, List.nil_append, Runs.moves,
      List.forall_mem_cons, List.not_mem_nil, false_imp_iff, implies_true, and_true]
    exact ⟨trivial, trivial, (by decide : (0 : UInt64).toNat + 1 < 2 ^ 64),
      (by decide : (1 : UInt64).toNat + 1 < 2 ^ 64),
      disciplined_set feedKey_injective rfl (List.mem_singleton_self 2) _, trivial,
      disciplined_set feedKey_injective rfl (List.mem_singleton_self 1) _, trivial⟩
  · decide +kernel
  · decide +kernel
  · decide +kernel

end Node

end Dpx
