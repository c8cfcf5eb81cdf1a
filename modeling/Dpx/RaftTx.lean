/-
# `Dpx.RaftTx` — calls of `RunInTx` on a cluster

`dpx.go`, `RunInTx` and `runOnce`, over the Raft proposer (`conductor/node.go`, `Propose`).  A
call runs on one node.  An attempt takes its snapshot of that node's own engine, which is as far
as the node has got, and the callback runs on the snapshot alone: it is no matter when, so an
attempt is one event.  What it has to write is marshalled, and after `batcher.Wait` and the
admission to it handed to `raft.Apply`.  From there it gets its place in the log at some later
time or never.  The call learns of it when its node has applied it; or Raft answers with an
error, which says nothing about the proposal.  As in `Dpx.RunInTx`, what `retry.Do` does after a
conflict is left open.

Any number of calls are under way, on any nodes, while replicas do what they do
(`Dpx.Conductor.Cluster`) and Raft has entries of its own.  `ledger` is the log once more: what
each entry comes from, and how the log answers it.  Nothing reads it, nor `began` and `ended`,
which are positions in it.

`Booked` is what can be said of a call by its phase: how many of its proposals are on their way,
and how many are committed.  The sum is at most one.
-/
import Dpx.RunInTx
import Dpx.Conductor.Cluster

namespace Dpx

open Cluster

/-! ## Calls -/

/-- The errors of `RunInTx` with this proposer. -/
inductive RaftError (ε : Type) where
  | run (e : RunError ε)
  /-- `raft: admission: %w` -/
  | admission
  /-- `raft: apply: %w` -/
  | apply

/-- The caller cannot know what became of the proposal. -/
def RaftError.open {ε : Type} : RaftError ε → Bool
  | .apply => true
  | _ => false

inductive RaftOutcome (ε : Type) where
  | done (point : Nat) (wrote : Bool)
  | failed (e : RaftError ε)

inductive RaftPhase (ε : Type) where
  /-- Before an attempt. -/
  | waiting
  /-- In `batcher.Wait`, or before `raft.Apply`. -/
  | ready (s : Submission State ε)
  /-- In `raft.Apply`, without a place in the log. -/
  | proposed
  /-- In `raft.Apply`, with the place `i`. -/
  | logged (i : Nat)
  /-- `runOnce` has returned `ErrConflict`. -/
  | conflicted
  | returned (o : RaftOutcome ε) (ended : Nat)

/-- The entry is in the log. -/
def RaftPhase.enter {ε : Type} (i : Nat) : RaftPhase ε → RaftPhase ε
  | .proposed => .logged i
  | ph => ph

theorem RaftPhase.enter_of_ne {ε : Type} {ph : RaftPhase ε} (h : ph ≠ .proposed) (i : Nat) :
    ph.enter i = ph := by
  cases ph with
  | proposed => exact absurd rfl h
  | _ => rfl

/-- Neither in the log, nor a write. -/
def RaftPhase.plain {ε : Type} : RaftPhase ε → Bool
  | .logged _ => false
  | .returned (.done _ true) _ => false
  | _ => true

/-- One call of `RunInTx`. -/
structure RaftCall (ε : Type) where
  node : Nat
  callback : Callback ε
  began : Nat
  phase : RaftPhase ε

structure Distributed (ε : Type) where
  cluster : Cluster
  calls : List (RaftCall ε)
  /-- Proposals handed to `raft.Apply` that are not in the log. -/
  inFlight : List (Submission State ε)
  ledger : List (Submission State ε × Answered)

inductive DistributedEvent (ε : Type) where
  /-- Anything of a replica. -/
  | replica (e : ClusterEvent)
  /-- An entry of Raft itself. -/
  | filler (type : UInt8) (data : Bytes)
  | runInTx (node : Nat) (f : Callback ε)
  /-- An attempt, up to the proposal. -/
  | runOnce (n : Nat) (wall : UInt64) (counter : UInt16)
  /-- `retry.Do` makes another attempt. -/
  | again (n : Nat)
  /-- `retry.Do` returns `ErrRetryExhausted`. -/
  | exhaust (n : Nat)
  /-- `retry.Do` returns another error, or the context ends in `batcher.Wait`. -/
  | contextDone (n : Nat)
  /-- `sem.Acquire` fails. -/
  | refuse (n : Nat)
  | raftApply (n : Nat)
  /-- A proposal gets its place in the log. -/
  | accept (i : Nat)
  /-- `future.Error`: the leadership is lost, or the time is over. -/
  | futureError (n : Nat)
  /-- `future.Response`, the answer `j` that some node has given. -/
  | futureResponse (n j : Nat)

namespace Distributed

variable {ε : Type} (syncPolicy : SyncPolicy)

def start : Distributed ε := ⟨Cluster.start, [], [], []⟩

def put (w : Distributed ε) (n : Nat) (c : RaftCall ε) : Distributed ε :=
  { w with calls := w.calls.set n c }

def ret (w : Distributed ε) (n : Nat) (c : RaftCall ε) (o : RaftOutcome ε) : Distributed ε :=
  w.put n { c with phase := .returned o w.ledger.length }

/-- An attempt of call `n` on the node's engine. -/
def attempt (w : Distributed ε) (n : Nat) (c : RaftCall ε) (x : Replica) (wall : UInt64)
    (counter : UInt16) : Distributed ε :=
  match c.callback.exec x.host.fsm.engine with
  | (some .conflict, _) => w.put n { c with phase := .conflicted }
  | (some (.other e), _) => w.ret n c (.failed (.run (.callback e)))
  | (none, tx) =>
      match tx.propose wall counter with
      | .error e => w.ret n c (.failed (.run (.tx e)))
      | .ok none => w.ret n c (.done x.position false)
      | .ok (some p) => w.put n { c with phase := .ready ⟨n, c.callback, x.position, tx, p⟩ }

def runOnce (w : Distributed ε) (n : Nat) (wall : UInt64) (counter : UInt16) (c : RaftCall ε) :
    Distributed ε :=
  match c.phase, w.cluster.replicas[c.node]? with
  | .waiting, some x => w.attempt n c x wall counter
  | _, _ => w

def again (w : Distributed ε) (n : Nat) (c : RaftCall ε) : Distributed ε :=
  match c.phase with
  | .conflicted => w.put n { c with phase := .waiting }
  | _ => w

def exhaust (w : Distributed ε) (n : Nat) (c : RaftCall ε) : Distributed ε :=
  match c.phase with
  | .conflicted => w.ret n c (.failed (.run .conflictExhausted))
  | _ => w

def contextDone (w : Distributed ε) (n : Nat) (c : RaftCall ε) : Distributed ε :=
  match c.phase with
  | .waiting => w.ret n c (.failed (.run .context))
  | .conflicted => w.ret n c (.failed (.run .context))
  | .ready _ => w.ret n c (.failed (.run .context))
  | _ => w

def refuse (w : Distributed ε) (n : Nat) (c : RaftCall ε) : Distributed ε :=
  match c.phase with
  | .ready _ => w.ret n c (.failed .admission)
  | _ => w

def raftApply (w : Distributed ε) (n : Nat) (c : RaftCall ε) : Distributed ε :=
  match c.phase with
  | .ready s => { w with inFlight := w.inFlight ++ [s] }.put n { c with phase := .proposed }
  | _ => w

def futureError (w : Distributed ε) (n : Nat) (c : RaftCall ε) : Distributed ε :=
  match c.phase with
  | .proposed => w.ret n c (.failed .apply)
  | .logged _ => w.ret n c (.failed .apply)
  | _ => w

/-- The answer reaches the caller. -/
def resolve (w : Distributed ε) (n : Nat) (c : RaftCall ε) (i : Nat) (r : ApplyResult) :
    Distributed ε :=
  match r.err with
  | some e => w.ret n c (.failed (.run (.apply e)))
  | none =>
      if r.conflict then w.put n { c with phase := .conflicted } else w.ret n c (.done i true)

def futureResponse (w : Distributed ε) (n j : Nat) (c : RaftCall ε) : Distributed ε :=
  match c.phase, w.cluster.answers[j]? with
  | .logged i, some (r, i') => if i' = i then w.resolve n c i r else w
  | _, _ => w

/-- What an entry without a proposal is entered as. -/
def blank : Submission State ε := ⟨0, .ret none, 0, DpxTx.new State.empty, ⟨[], [], 0, 0⟩⟩

/-- An entry is appended to the log. -/
def commit (w : Distributed ε) (type : LogType) (data : Bytes) (s : Submission State ε)
    (result : ApplyResult) : Distributed ε :=
  { w with
    cluster := w.cluster.step syncPolicy (.commit type data)
    ledger := w.ledger ++
      [(s, ⟨(w.cluster.nextEntry type data).index, s.proposal, result⟩)] }

/-- The answer the log gives to a proposal that is appended to it. -/
def verdict (w : Distributed ε) (p : Proposal) : ApplyResult :=
  ((machineAt syncPolicy w.cluster.log w.cluster.log.length).apply
    (w.cluster.nextEntry .command p.marshal)).1

/-- The proposal at `i` of those in flight is accepted; its call may have returned. -/
def accept (w : Distributed ε) (i : Nat) (s : Submission State ε) : Distributed ε :=
  commit syncPolicy { w with
    inFlight := w.inFlight.eraseIdx i
    calls := w.calls.modify s.call fun c => { c with phase := c.phase.enter w.ledger.length } }
    .command s.proposal.marshal s (w.verdict syncPolicy s.proposal)

/-- A step of call `n`, if there is such a call. -/
def onCall (w : Distributed ε) (n : Nat) (f : RaftCall ε → Distributed ε) : Distributed ε :=
  (w.calls[n]?).elim w f

def step (w : Distributed ε) : DistributedEvent ε → Distributed ε
  | .replica (.commit _ _) => w
  | .replica e => { w with cluster := w.cluster.step syncPolicy e }
  | .filler type data => w.commit syncPolicy (.other type) data blank .conflicted
  | .runInTx node f => { w with calls := w.calls ++ [⟨node, f, w.ledger.length, .waiting⟩] }
  | .runOnce n wall counter => w.onCall n (w.runOnce n wall counter)
  | .again n => w.onCall n (w.again n)
  | .exhaust n => w.onCall n (w.exhaust n)
  | .contextDone n => w.onCall n (w.contextDone n)
  | .refuse n => w.onCall n (w.refuse n)
  | .raftApply n => w.onCall n (w.raftApply n)
  | .accept i => (w.inFlight[i]?).elim w (w.accept syncPolicy i)
  | .futureError n => w.onCall n (w.futureError n)
  | .futureResponse n j => w.onCall n (w.futureResponse n j)

def after (events : List (DistributedEvent ε)) : Distributed ε :=
  events.foldl (step syncPolicy) start

/-! ## What a step can do -/

/-- How a call moves on by itself, handing nothing to Raft. -/
inductive Advances (w : Distributed ε) (n : Nat) (c : RaftCall ε) : RaftCall ε → Prop where
  | clash : c.phase = .waiting → Advances w n c { c with phase := .conflicted }
  | again : c.phase = .conflicted → Advances w n c { c with phase := .waiting }
  | readOnly {x : Replica} {tx : DpxTx State} : c.phase = .waiting →
      w.cluster.replicas[c.node]? = some x →
      c.callback.exec x.host.fsm.engine = (none, tx) → tx.writes = [] →
      Advances w n c { c with phase := .returned (.done x.position false) w.ledger.length }
  | build {x : Replica} {tx : DpxTx State} {wall : UInt64} {counter : UInt16} {p : Proposal} :
      c.phase = .waiting → w.cluster.replicas[c.node]? = some x →
      c.callback.exec x.host.fsm.engine = (none, tx) → tx.propose wall counter = .ok (some p) →
      Advances w n c { c with phase := .ready ⟨n, c.callback, x.position, tx, p⟩ }
  | quit {e : RaftError ε} :
      (c.phase = .waiting ∨ c.phase = .conflicted ∨ ∃ s, c.phase = .ready s) → e.open = false →
      Advances w n c { c with phase := .returned (.failed e) w.ledger.length }
  | lose : (c.phase = .proposed ∨ ∃ i, c.phase = .logged i) →
      Advances w n c { c with phase := .returned (.failed .apply) w.ledger.length }
  | succeed {i : Nat} : c.phase = .logged i → (.ok, i) ∈ w.cluster.answers →
      Advances w n c { c with phase := .returned (.done i true) w.ledger.length }
  | turnedAway {i : Nat} : c.phase = .logged i → (.conflicted, i) ∈ w.cluster.answers →
      Advances w n c { c with phase := .conflicted }
  | giveUp {i : Nat} {r : ApplyResult} {e : RaftError ε} : c.phase = .logged i →
      (r, i) ∈ w.cluster.answers → r ≠ .ok → e.open = false →
      Advances w n c { c with phase := .returned (.failed e) w.ledger.length }

/-- What an event does. -/
inductive Took (w : Distributed ε) : DistributedEvent ε → Distributed ε → Prop where
  | idle {ev : DistributedEvent ε} : Took w ev w
  | replica {e : ClusterEvent} : (∀ type data, e ≠ .commit type data) →
      Took w (.replica e) { w with cluster := w.cluster.step syncPolicy e }
  | filler (type : UInt8) (data : Bytes) :
      Took w (.filler type data) (w.commit syncPolicy (.other type) data blank .conflicted)
  | call (node : Nat) (f : Callback ε) : Took w (.runInTx node f)
      { w with calls := w.calls ++ [⟨node, f, w.ledger.length, .waiting⟩] }
  | advance {ev : DistributedEvent ε} {n : Nat} {c c' : RaftCall ε} : w.calls[n]? = some c →
      Advances w n c c' → Took w ev (w.put n c')
  | propose {ev : DistributedEvent ε} {n : Nat} {c : RaftCall ε} {s : Submission State ε} :
      w.calls[n]? = some c → c.phase = .ready s → Took w ev
        (put { w with inFlight := w.inFlight ++ [s] } n { c with phase := .proposed })
  | accept {i : Nat} {s : Submission State ε} : w.inFlight[i]? = some s →
      Took w (.accept i) (w.accept syncPolicy i s)

variable {syncPolicy} {w : Distributed ε}

theorem took_attempt {ev : DistributedEvent ε} {n : Nat} {c : RaftCall ε} {x : Replica}
    (hc : w.calls[n]? = some c) (hphase : c.phase = .waiting)
    (hx : w.cluster.replicas[c.node]? = some x) (wall : UInt64) (counter : UInt16) :
    Took syncPolicy w ev (w.attempt n c x wall counter) := by
  rw [attempt]
  split
  · exact .advance hc (.clash hphase)
  · exact .advance hc (.quit (.inl hphase) rfl)
  · rename_i tx hexec
    split
    · exact .advance hc (.quit (.inl hphase) rfl)
    · rename_i hnone
      refine .advance hc (.readOnly hphase hx hexec ?_)
      rw [DpxTx.propose] at hnone
      split at hnone
      · assumption
      · split at hnone <;> cases hnone
    · rename_i p hp
      exact .advance hc (.build hphase hx hexec hp)

theorem took_resolve {ev : DistributedEvent ε} {n i : Nat} {c : RaftCall ε} {r : ApplyResult}
    (hc : w.calls[n]? = some c) (hphase : c.phase = .logged i)
    (hr : (r, i) ∈ w.cluster.answers) :
    Took syncPolicy w ev (w.resolve n c i r) := by
  obtain ⟨conflict, err⟩ := r
  rw [resolve]
  split
  · rename_i e he
    refine .advance hc (.giveUp hphase hr ?_ rfl)
    intro hok
    rw [hok] at he
    cases he
  · rename_i he
    cases he
    cases conflict with
    | false => exact .advance hc (.succeed hphase hr)
    | true => exact .advance hc (.turnedAway hphase hr)

theorem step_took (w : Distributed ε) (ev : DistributedEvent ε) :
    Took syncPolicy w ev (w.step syncPolicy ev) := by
  have hcall : ∀ {ev : DistributedEvent ε} n (f : RaftCall ε → Distributed ε),
      (∀ c, w.calls[n]? = some c → Took syncPolicy w ev (f c)) →
      Took syncPolicy w ev (w.onCall n f) := by
    intro ev n f h
    rw [onCall]
    cases hc : w.calls[n]? with
    | none => exact .idle
    | some c => exact h c hc
  cases ev with
  | replica e =>
      cases e with
      | commit type data => exact .idle
      | _ => exact .replica (fun _ _ => by simp)
  | filler type data => exact .filler type data
  | runInTx node f => exact .call node f
  | runOnce n wall counter =>
      refine hcall n _ fun c hc => ?_
      rw [runOnce]
      split
      · rename_i x hphase hx
        exact took_attempt hc hphase hx wall counter
      · exact .idle
  | again n =>
      refine hcall n _ fun c hc => ?_
      rw [again]
      split
      · rename_i hphase
        exact .advance hc (.again hphase)
      · exact .idle
  | exhaust n =>
      refine hcall n _ fun c hc => ?_
      rw [exhaust]
      split
      · rename_i hphase
        exact .advance hc (.quit (.inr (.inl hphase)) rfl)
      · exact .idle
  | contextDone n =>
      refine hcall n _ fun c hc => ?_
      rw [contextDone]
      split
      · rename_i hphase
        exact .advance hc (.quit (.inl hphase) rfl)
      · rename_i hphase
        exact .advance hc (.quit (.inr (.inl hphase)) rfl)
      · rename_i s hphase
        exact .advance hc (.quit (.inr (.inr ⟨s, hphase⟩)) rfl)
      · exact .idle
  | refuse n =>
      refine hcall n _ fun c hc => ?_
      rw [refuse]
      split
      · rename_i s hphase
        exact .advance hc (.quit (.inr (.inr ⟨s, hphase⟩)) rfl)
      · exact .idle
  | raftApply n =>
      refine hcall n _ fun c hc => ?_
      rw [raftApply]
      split
      · rename_i s hphase
        exact .propose hc hphase
      · exact .idle
  | accept i =>
      rw [step]
      cases hs : w.inFlight[i]? with
      | none => exact .idle
      | some s => exact .accept hs
  | futureError n =>
      refine hcall n _ fun c hc => ?_
      rw [futureError]
      split
      · rename_i hphase
        exact .advance hc (.lose (.inl hphase))
      · rename_i i hphase
        exact .advance hc (.lose (.inr ⟨i, hphase⟩))
      · exact .idle
  | futureResponse n j =>
      refine hcall n _ fun c hc => ?_
      rw [futureResponse]
      split
      · rename_i i r i' hphase hj
        split
        · rename_i hi
          rw [hi] at hj
          exact took_resolve hc hphase (List.mem_of_getElem? hj)
        · exact .idle
      · exact .idle

/-! ## The books -/

/-- How many proposals of call `n` are on their way. -/
def flying (w : Distributed ε) (n : Nat) : Nat := (w.inFlight.filter fun s => s.call = n).length

/-- Nothing of call `n` is on its way, and nothing is committed. -/
def Untouched (w : Distributed ε) (n : Nat) : Prop :=
  w.flying n = 0 ∧ (commitsOf w.ledger n).length = 0

/-- What is so of call `n` in this phase. -/
def Stands (w : Distributed ε) (n : Nat) : RaftPhase ε → Prop
  | .waiting => w.Untouched n
  | .conflicted => w.Untouched n
  | .ready _ => w.Untouched n
  | .proposed => w.flying n = 1 ∧ (commitsOf w.ledger n).length = 0
  | .logged i => w.flying n = 0 ∧ ∃ s a entry, w.ledger[i]? = some (s, a) ∧ s.call = n ∧
      w.cluster.log[i]? = some entry ∧ entry.type = .command ∧
      (commitsOf w.ledger n).length = a.committed.toNat
  | .returned (.done p true) _ => w.flying n = 0 ∧ (commitsOf w.ledger n).length = 1 ∧
      ∃ s a, w.ledger[p]? = some (s, a) ∧ s.call = n ∧ a.committed = true
  | .returned (.done _ false) _ => w.Untouched n
  | .returned (.failed e) _ =>
      if e.open then w.flying n + (commitsOf w.ledger n).length ≤ 1 else w.Untouched n

/-- Answers are those of the ledger. -/
def Truthful (w : Distributed ε) : Prop :=
  ∀ a ∈ w.cluster.answers, ∀ e entry, w.ledger[a.2]? = some e →
    w.cluster.log[a.2]? = some entry → entry.type = .command → a.1 = e.2.result

end Distributed

/-- What a call wrote is in the log since it began and before it ended. -/
structure RaftCall.Within {ε : Type} (length : Nat) (c : RaftCall ε) : Prop where
  began : c.began ≤ length
  logged : ∀ i, c.phase = .logged i → c.began ≤ i ∧ i < length
  wrote : ∀ p ended, c.phase = .returned (.done p true) ended →
    c.began ≤ p ∧ p < ended ∧ ended ≤ length

section Within

variable {ε : Type} {length : Nat} {c : RaftCall ε}

theorem RaftCall.Within.mono {n : Nat} (h : c.Within length) (hle : length ≤ n) : c.Within n where
  began := h.began.trans hle
  logged i hi := ⟨(h.logged i hi).1, (h.logged i hi).2.trans_le hle⟩
  wrote p ended hp := by
    obtain ⟨hbegan, hlt, hended⟩ := h.wrote p ended hp
    exact ⟨hbegan, hlt, hended.trans hle⟩

theorem RaftCall.Within.of_plain (hbegan : c.began ≤ length) (hplain : c.phase.plain = true) :
    c.Within length where
  began := hbegan
  logged i hp := by
    rw [hp] at hplain
    cases hplain
  wrote p ended hp := by
    rw [hp] at hplain
    cases hplain

theorem RaftCall.Within.enter (h : c.Within length) :
    RaftCall.Within (length + 1) { c with phase := c.phase.enter length } := by
  have hmono := h.mono (Nat.le_succ length)
  by_cases hphase : c.phase = .proposed
  · rw [hphase]
    refine ⟨hmono.began, fun i hp => ?_, fun _ _ hp => ?_⟩ <;> cases hp
    exact ⟨h.began, Nat.lt_succ_self _⟩
  · rw [RaftPhase.enter_of_ne hphase]
    exact hmono

end Within

namespace Distributed

variable {ε : Type} {syncPolicy : SyncPolicy} {w : Distributed ε}

structure Booked (w : Distributed ε) : Prop where
  stands : ∀ n, w.Stands n (((w.calls.map (·.phase))[n]?).getD .waiting)
  ready : ∀ (n : Nat) (c : RaftCall ε) s, w.calls[n]? = some c → c.phase = .ready s →
    s.call = n ∧ s.callback = c.callback
  origin : ∀ s ∈ w.inFlight, (w.calls.map (·.callback))[s.call]? = some s.callback
  owner : ∀ e ∈ w.ledger, e.2.committed = true →
    (w.calls.map (·.callback))[e.1.call]? = some e.1.callback
  within : ∀ c ∈ w.calls, c.Within w.ledger.length

theorem Booked.stands_of (h : Booked w) {n : Nat} {c : RaftCall ε}
    (hc : w.calls[n]? = some c) : w.Stands n c.phase := by
  have hn := h.stands n
  rwa [List.getElem?_map, hc] at hn

theorem Stands.frame {w' : Distributed ε} {n : Nat} {ph : RaftPhase ε} (h : w.Stands n ph)
    (hflying : w'.flying n = w.flying n)
    (hcommits : (commitsOf w'.ledger n).length = (commitsOf w.ledger n).length)
    (hledger : ∀ (i : Nat) e, w.ledger[i]? = some e → w'.ledger[i]? = some e)
    (hlog : ∀ (i : Nat) e, w.cluster.log[i]? = some e → w'.cluster.log[i]? = some e) :
    w'.Stands n ph := by
  have huntouched : w.Untouched n → w'.Untouched n := fun hu => by
    rwa [Untouched, hflying, hcommits]
  cases ph with
  | waiting | conflicted => exact huntouched h
  | ready s => exact huntouched h
  | proposed => exact ⟨hflying.trans h.1, hcommits.trans h.2⟩
  | logged i =>
      obtain ⟨hzero, s, a, entry, hi, hcall, hentry, hcommand, hcount⟩ := h
      exact ⟨hflying.trans hzero, s, a, entry, hledger i _ hi, hcall, hlog i _ hentry, hcommand,
        hcommits.trans hcount⟩
  | returned o ended =>
      cases o with
      | done p wrote =>
          cases wrote with
          | true =>
              obtain ⟨hzero, hone, s, a, hp, hrest⟩ := h
              exact ⟨hflying.trans hzero, hcommits.trans hone, s, a, hledger p _ hp, hrest⟩
          | false => exact huntouched h
      | failed e =>
          simp only [Stands] at h ⊢
          split at h
          · rename_i hopen
            rw [if_pos hopen, hflying, hcommits]
            exact h
          · rename_i hopen
            rw [if_neg hopen]
            exact huntouched h

theorem Booked.move (h : Booked w) {n : Nat} {c : RaftCall ε}
    (hc : w.calls[n]? = some c) (c' : RaftCall ε) (hcb : c'.callback = c.callback)
    {w' : Distributed ε}
    (hcalls : w'.calls = w.calls.set n c') (hstands : w'.Stands n c'.phase)
    (hothers : ∀ m ph, m ≠ n → w.Stands m ph → w'.Stands m ph)
    (hready : ∀ s, c'.phase = .ready s → s.call = n ∧ s.callback = c.callback)
    (horigin : ∀ s ∈ w'.inFlight, s ∈ w.inFlight ∨ s.call = n ∧ s.callback = c.callback)
    (howner : ∀ e ∈ w'.ledger, e.2.committed = true →
      e ∈ w.ledger ∨ e.1.call = n ∧ e.1.callback = c.callback)
    (hle : w.ledger.length ≤ w'.ledger.length)
    (hwithin : c'.Within w'.ledger.length) : Booked w' := by
  have hcallbacks : w'.calls.map (·.callback) = w.calls.map (·.callback) := by
    rw [hcalls, Runs.map_set_of_eq hc hcb]
  have hown : (w.calls.map (·.callback))[n]? = some c.callback := by
    rw [List.getElem?_map, hc]
    rfl
  constructor
  · intro m
    rw [hcalls, Runs.getD_map_set _ hc]
    split
    · rename_i hm
      rw [hm]
      exact hstands
    · rename_i hm
      exact hothers m _ hm (h.stands m)
  · intro m d s hd hphase
    rw [hcalls] at hd
    rcases Runs.getElem?_set_cases hd with ⟨rfl, rfl⟩ | ⟨-, hd⟩
    · rw [hcb]
      exact hready s hphase
    · exact h.ready m d s hd hphase
  · intro s hs
    rw [hcallbacks]
    rcases horigin s hs with hs | ⟨hcall, hf⟩
    · exact h.origin s hs
    · rw [hcall, hf]
      exact hown
  · intro e he hcommitted
    rw [hcallbacks]
    rcases howner e he hcommitted with he | ⟨hcall, hf⟩
    · exact h.owner e he hcommitted
    · rw [hcall, hf]
      exact hown
  · rw [hcalls]
    exact Runs.forall_mem_set (fun d hd => (h.within d hd).mono hle) hwithin

theorem flying_concat (w : Distributed ε) (s : Submission State ε) (m : Nat) :
    flying { w with inFlight := w.inFlight ++ [s] } m =
      w.flying m + if m = s.call then 1 else 0 := by
  rw [flying, flying, List.filter_append, List.length_append, List.filter_singleton]
  by_cases hm : m = s.call
  · simp [hm]
  · simp [hm, Ne.symm hm]

theorem flying_eraseIdx {i : Nat} {s : Submission State ε} (hs : w.inFlight[i]? = some s)
    (m : Nat) : w.flying m =
      flying { w with inFlight := w.inFlight.eraseIdx i } m + if m = s.call then 1 else 0 := by
  obtain ⟨hlt, rfl⟩ := List.getElem?_eq_some_iff.mp hs
  have hperm := (List.getElem_cons_eraseIdx_perm hlt).filter fun s => decide (s.call = m)
  rw [flying, ← hperm.length_eq, List.filter_cons, flying]
  by_cases hm : m = w.inFlight[i].call
  · simp [hm]
  · simp [hm, Ne.symm hm]

theorem Booked.call (h : Booked w) (node : Nat)
    (f : Callback ε) : Booked
      { w with calls := w.calls ++ [⟨node, f, w.ledger.length, .waiting⟩] } := by
  have hkeep : ∀ {k : Nat} {g : Callback ε} (c : RaftCall ε),
      (w.calls.map (·.callback))[k]? = some g →
      ((w.calls ++ [c]).map (·.callback))[k]? = some g := by
    intro k g c hk
    rw [List.map_append, List.getElem?_append_left (List.getElem?_eq_some_iff.mp hk).1, hk]
  constructor
  · intro m
    have hm := h.stands m
    rw [List.getElem?_map] at hm ⊢
    rw [Runs.getElem?_concat]
    split
    · rename_i heq
      rw [heq, List.getElem?_eq_none (Nat.le_refl _)] at hm
      rw [heq]
      exact hm
    · exact hm
  · intro n c s hc hphase
    rcases Runs.getElem?_concat_cases hc with ⟨-, rfl⟩ | ⟨-, hc⟩
    · cases hphase
    · exact h.ready n c s hc hphase
  · exact fun s hs => hkeep _ (h.origin s hs)
  · exact fun e he hcommitted => hkeep _ (h.owner e he hcommitted)
  · intro c hc
    rcases List.mem_append.mp hc with hc | hc
    · exact h.within c hc
    · rw [List.mem_singleton.mp hc]
      exact .of_plain (Nat.le_refl _) rfl

theorem Stands.answer {n i : Nat} {r : ApplyResult} (h : w.Stands n (.logged i))
    (htruthful : w.Truthful) (hr : (r, i) ∈ w.cluster.answers) :
    w.flying n = 0 ∧ (commitsOf w.ledger n).length = (decide (r = .ok)).toNat ∧
      ∃ s a, w.ledger[i]? = some (s, a) ∧ s.call = n ∧ a.result = r := by
  obtain ⟨hzero, s, a, entry, hi, hcall, hentry, hcommand, hcount⟩ := h
  have hresult : r = a.result := htruthful (r, i) hr (s, a) entry hi hentry hcommand
  rw [hresult]
  exact ⟨hzero, hcount, s, a, hi, hcall, rfl⟩

theorem Booked.stands_advance (h : Booked w) (htruthful : w.Truthful) {n : Nat}
    {c c' : RaftCall ε} (hc : w.calls[n]? = some c) (hadv : Advances w n c c') :
    w.Stands n c'.phase := by
  have hst := h.stands_of hc
  have hfailed : ∀ {e : RaftError ε} {ended : Nat}, e.open = false → w.Untouched n →
      w.Stands n (.returned (.failed e) ended) := by
    intro e ended hopen hu
    simp only [Stands, hopen]
    exact hu
  have hanswer : ∀ {i : Nat} {r : ApplyResult}, c.phase = .logged i →
      (r, i) ∈ w.cluster.answers → r ≠ .ok → w.Untouched n := by
    intro i r hphase hr hne
    rw [hphase] at hst
    obtain ⟨hzero, hcount, -⟩ := hst.answer htruthful hr
    rw [decide_eq_false hne] at hcount
    exact ⟨hzero, hcount⟩
  cases hadv with
  | clash hphase => rwa [hphase] at hst
  | again hphase => rwa [hphase] at hst
  | readOnly hphase _ _ _ => rwa [hphase] at hst
  | build hphase _ _ _ => rwa [hphase] at hst
  | quit hphase hopen =>
      refine hfailed hopen ?_
      rcases hphase with hphase | hphase | ⟨s, hphase⟩ <;> rwa [hphase] at hst
  | lose hphase =>
      show w.flying n + _ ≤ 1
      rcases hphase with hphase | ⟨i, hphase⟩
      · rw [hphase] at hst
        rw [hst.1, hst.2]
      · rw [hphase] at hst
        obtain ⟨hzero, s, a, entry, -, -, -, -, hcount⟩ := hst
        rw [hzero, hcount, Nat.zero_add]
        exact Bool.toNat_le _
  | succeed hphase hr =>
      rw [hphase] at hst
      obtain ⟨hzero, hcount, s, a, hi, hcall, hresult⟩ := hst.answer htruthful hr
      exact ⟨hzero, hcount, s, a, hi, hcall, decide_eq_true hresult⟩
  | turnedAway hphase hr => exact hanswer hphase hr ApplyResult.ok_ne_conflicted.symm
  | giveUp hphase hr hne hopen => exact hfailed hopen (hanswer hphase hr hne)

theorem RaftCall.Within.advance {n : Nat} {c c' : RaftCall ε}
    (h : c.Within w.ledger.length) (hadv : Advances w n c c') :
    c'.Within w.ledger.length := by
  cases hadv with
  | succeed hphase _ =>
      obtain ⟨hbegan, hlt⟩ := h.logged _ hphase
      refine ⟨h.began, fun _ hp => ?_, fun p ended hp => ?_⟩ <;> cases hp
      exact ⟨hbegan, hlt, Nat.le_refl _⟩
  | _ => exact .of_plain h.began rfl

theorem Booked.advance (h : Booked w) (htruthful : w.Truthful) {n : Nat}
    {c c' : RaftCall ε} (hc : w.calls[n]? = some c) (hadv : Advances w n c c') :
    Booked (w.put n c') := by
  have hcb : c'.callback = c.callback := by cases hadv <;> rfl
  have hwithin := RaftCall.Within.advance (h.within c (List.mem_of_getElem? hc)) hadv
  refine h.move hc c' hcb rfl (h.stands_advance htruthful hc hadv) (fun _ _ _ hst => hst) ?_
    (fun _ => Or.inl) (fun _ he _ => Or.inl he) (Nat.le_refl _) hwithin
  intro s hs
  cases hadv with
  | build hphase _ _ _ =>
      cases hs
      exact ⟨rfl, rfl⟩
  | _ => cases hs

theorem Booked.propose (h : Booked w) {n : Nat} {c : RaftCall ε}
    {s : Submission State ε} (hc : w.calls[n]? = some c) (hphase : c.phase = .ready s) :
    Booked
      (put { w with inFlight := w.inFlight ++ [s] } n { c with phase := .proposed }) := by
  obtain ⟨hcall, hcallback⟩ := h.ready n c s hc hphase
  have hst := h.stands_of hc
  rw [hphase] at hst
  have hwithin := h.within c (List.mem_of_getElem? hc)
  refine h.move hc { c with phase := .proposed } rfl rfl ⟨?_, hst.2⟩ (fun m ph hm hst => ?_)
    (fun s' hs' => by cases hs') ?_ (fun _ he _ => Or.inl he) (Nat.le_refl _)
    (.of_plain hwithin.began rfl)
  · refine (flying_concat w s n).trans ?_
    rw [if_pos hcall.symm, hst.1]
  · refine hst.frame ((flying_concat w s m).trans ?_) rfl (fun _ _ => id) fun _ _ => id
    rw [if_neg (fun heq => hm (heq.trans hcall)), Nat.add_zero]
  · intro s' hs'
    rcases List.mem_append.mp hs' with hs' | hs'
    · exact Or.inl hs'
    · rw [List.mem_singleton.mp hs']
      exact Or.inr ⟨hcall, hcallback⟩

/-- Where an accepted proposal leaves its call: only a call in `raft.Apply`, or one that got an
error from it, has a proposal on its way. -/
theorem Stands.accept {i : Nat} {s : Submission State ε} {ph : RaftPhase ε}
    (h : w.Stands s.call ph) (hs : w.inFlight[i]? = some s)
    (hlen : w.ledger.length = w.cluster.log.length) :
    (w.accept syncPolicy i s).Stands s.call (ph.enter w.ledger.length) := by
  have hflying : w.flying s.call = (w.accept syncPolicy i s).flying s.call + 1 := by
    have hflying := flying_eraseIdx hs s.call
    rwa [if_pos rfl] at hflying
  obtain ⟨a, hledger⟩ : ∃ a, (w.accept syncPolicy i s).ledger = w.ledger ++ [(s, a)] := ⟨_, rfl⟩
  have hcommits := commitsOf_concat w.ledger s a s.call
  rw [if_pos rfl, ← hledger] at hcommits
  have hnot : ¬ w.Untouched s.call := fun hu => by
    rw [hu.1] at hflying
    cases hflying
  cases ph with
  | waiting | conflicted => exact absurd h hnot
  | ready s' => exact absurd h hnot
  | proposed =>
      refine ⟨?_, s, a, w.cluster.nextEntry .command s.proposal.marshal, ?_, rfl, ?_, rfl, ?_⟩
      · rw [h.1] at hflying
        exact (Nat.succ.inj hflying).symm
      · rw [hledger]
        exact List.getElem?_concat_length
      · rw [hlen]
        exact List.getElem?_concat_length
      · rw [hcommits, h.2, Nat.zero_add]
  | logged j =>
      rw [h.1] at hflying
      cases hflying
  | returned o ended =>
      cases o with
      | done p wrote =>
          cases wrote with
          | true =>
              rw [h.1] at hflying
              cases hflying
          | false => exact absurd h hnot
      | failed e =>
          simp only [Stands] at h
          split at h
          · rename_i hopen
            have hle := Bool.toNat_le a.committed
            simp only [RaftPhase.enter, Stands, hopen, if_true]
            omega
          · exact absurd h hnot

theorem Booked.accept (h : Booked w) (hlen : w.ledger.length = w.cluster.log.length)
    {i : Nat} {s : Submission State ε} (hs : w.inFlight[i]? = some s) :
    Booked (w.accept syncPolicy i s) := by
  have horigin := h.origin s (List.mem_of_getElem? hs)
  rw [List.getElem?_map] at horigin
  obtain ⟨c, hc, hcb⟩ := Option.map_eq_some_iff.mp horigin
  have hcalls : (w.accept syncPolicy i s).calls =
      w.calls.set s.call { c with phase := c.phase.enter w.ledger.length } := by
    refine List.ext_getElem? fun m => ?_
    rw [Distributed.accept, commit, List.getElem?_modify, List.getElem?_set]
    split
    · rename_i hm
      rw [← hm, hc, if_pos (List.getElem?_eq_some_iff.mp hc).1]
      rfl
    · cases w.calls[m]? <;> rfl
  have hlength : (w.accept syncPolicy i s).ledger.length = w.ledger.length + 1 :=
    List.length_append
  refine h.move hc { c with phase := c.phase.enter w.ledger.length } rfl hcalls
    ((h.stands_of hc).accept hs hlen) (fun m ph hm hst => ?_) ?_ ?_ ?_ (by omega) ?_
  · refine hst.frame ?_ ?_ ?_ ?_
    · have hflying := flying_eraseIdx hs m
      rw [if_neg hm] at hflying
      exact hflying.symm
    · refine (commitsOf_concat w.ledger s _ m).trans ?_
      rw [if_neg hm, Nat.add_zero]
    · exact fun j e hj => (List.getElem?_append_left (List.getElem?_eq_some_iff.mp hj).1).trans hj
    · exact fun j e hj => (List.getElem?_append_left (List.getElem?_eq_some_iff.mp hj).1).trans hj
  · intro s' hs'
    by_cases hphase : c.phase = .proposed
    · rw [hphase] at hs'
      cases hs'
    · rw [RaftPhase.enter_of_ne hphase] at hs'
      exact h.ready s.call c s' hc hs'
  · exact fun s' hs' => Or.inl (List.mem_of_mem_eraseIdx hs')
  · intro e he _
    rcases List.mem_append.mp he with he | he
    · exact Or.inl he
    · rw [List.mem_singleton.mp he]
      exact Or.inr ⟨rfl, hcb.symm⟩
  · rw [hlength]
    exact (h.within c (List.mem_of_getElem? hc)).enter

theorem Booked.filler (h : Booked w) (type : UInt8) (data : Bytes) :
    Booked (w.commit syncPolicy (.other type) data blank .conflicted) := by
  refine ⟨fun m => ?_, h.ready, h.origin, fun e he hcommitted => ?_, fun c hc => ?_⟩
  · refine (h.stands m).frame rfl ?_ ?_ ?_
    · refine (commitsOf_concat w.ledger blank _ m).trans ?_
      split <;> rfl
    · exact fun j e hj => (List.getElem?_append_left (List.getElem?_eq_some_iff.mp hj).1).trans hj
    · exact fun j e hj => (List.getElem?_append_left (List.getElem?_eq_some_iff.mp hj).1).trans hj
  · rcases List.mem_append.mp he with he | he
    · exact h.owner e he hcommitted
    · rw [List.mem_singleton.mp he] at hcommitted
      cases hcommitted
  · refine (h.within c hc).mono ?_
    show w.ledger.length ≤ (w.ledger ++ [_]).length
    rw [List.length_append]
    exact Nat.le_add_right _ _

theorem Booked.step (h : Booked w) (htruthful : w.Truthful)
    (hlen : w.ledger.length = w.cluster.log.length) (ev : DistributedEvent ε) :
    Booked (w.step syncPolicy ev) := by
  have htook : Took syncPolicy w ev (w.step syncPolicy ev) :=
    step_took w ev
  generalize w.step syncPolicy ev = w' at htook ⊢
  cases htook with
  | idle => exact h
  | replica he =>
      refine ⟨fun m => ?_, h.ready, h.origin, h.owner, h.within⟩
      refine (h.stands m).frame rfl rfl (fun _ _ => id) fun j e hj => ?_
      show (w.cluster.step syncPolicy _).log[j]? = some e
      rw [log_step he]
      exact hj
  | filler type data => exact h.filler type data
  | call node f => exact h.call node f
  | advance hc hadv => exact h.advance htruthful hc hadv
  | propose hc hphase => exact h.propose hc hphase
  | accept hs => exact h.accept hlen hs

end Distributed

end Dpx
