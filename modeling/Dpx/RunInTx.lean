/-
# `Dpx.RunInTx` — calls of `RunInTx`, side by side

`dpx.go`, `RunInTx` and `runOnce`, over the single-node proposer.  A call makes attempts: each
takes a snapshot, runs the callback on it and, if there is something to write, hands a proposal
to `ProposeDirect` and waits for the answer.  The node is open, and `GetSnapshot` succeeds.

`retry.Do` is code of `jack`.  It is taken to make one attempt after the other, and to return what
`runOnce` returns unless that is `ErrConflict`, which `RetryWithRetryIf` asks for: from the
proposer, or from the callback itself.  After that it may make another attempt (`again`), give up
(`exhaust`) or return an error of its own or of the context (`cancel`), whatever it was configured
with.

What a call does by itself is the same however it waits in `ProposeDirect`, which is a parameter
(`π`).  Here every call has a place of its own for its answer (`Mail`).  In the source the answer
comes through an entry that others use too: `Dpx.Pooled` has the entries, and says when they
make no difference.

Any number of calls are under way.  A run is a list of events (`TxEvent`), each of one call or
of the applier; `log` is a record of every submission with its answer, and `since`, `began` and
`ended` are positions in it.  Nothing reads them.

`Booked` says what the log and the queue hold of each call: one committed submission if it has
returned without error after writing, or is about to, and none otherwise.  And a run of calls is
a run of the node of `Dpx.Node`, which knows attempts and no calls (`node_of_calls`).
-/
import Dpx.Callback

namespace Dpx

/-! ## One call -/

/-- The errors of `RunInTx`. -/
inductive RunError (ε : Type) where
  | conflictExhausted
  /-- The context's error, or one of `retry.Do`. -/
  | context
  | callback (e : ε)
  | tx (e : TxError)
  | apply (e : ApplyError)

inductive Outcome (ε : Type) where
  | done (wrote : Bool)
  | failed (e : RunError ε)

/-- Where a call is; `π` says how far it is in `ProposeDirect`. -/
inductive TxPhase (σ ε π : Type) where
  /-- Before an attempt. -/
  | waiting
  /-- In the callback, on a snapshot taken after `since` answers. -/
  | running (since : Nat) (tx : DpxTx σ) (rest : Callback ε)
  | proposing (x : π)
  /-- `runOnce` has returned `ErrConflict`. -/
  | conflicted
  | returned (o : Outcome ε) (ended : Nat)

namespace TxPhase

variable {σ ε π : Type}

def succeeded : TxPhase σ ε π → Bool
  | .returned (.done _) _ => true
  | _ => false

def exhausted : TxPhase σ ε π → Bool
  | .returned (.failed .conflictExhausted) _ => true
  | _ => false

def Returned (ph : TxPhase σ ε π) : Prop := ∃ o ended, ph = .returned o ended

/-- The end of the call, or `now` if there is none yet. -/
def endedBy (now : Nat) : TxPhase σ ε π → Nat
  | .returned _ ended => ended
  | _ => now

theorem endedBy_mono {now later : Nat} (h : now ≤ later) (ph : TxPhase σ ε π) :
    ph.endedBy now ≤ ph.endedBy later := by
  cases ph with
  | returned o ended => exact Nat.le_refl _
  | _ => exact h

theorem open_counts {ph : TxPhase σ ε π} (h : ¬ ph.Returned) :
    ph.succeeded = false ∧ ph.exhausted = false := by
  cases ph with
  | returned o ended => exact absurd ⟨o, ended, rfl⟩ h
  | _ => exact ⟨rfl, rfl⟩

end TxPhase

/-- One call of `RunInTx`. -/
structure Invocation (σ ε π : Type) where
  callback : Callback ε
  began : Nat
  attempts : Nat
  phase : TxPhase σ ε π

/-- What an attempt submits, with where it comes from. -/
structure Submission (σ ε : Type) where
  call : Nat
  callback : Callback ε
  since : Nat
  tx : DpxTx σ
  proposal : Proposal

/-- A submission of call `n`, of callback `f`. -/
structure Submission.From {σ ε : Type} [Snapshot σ] (s : Submission σ ε) (n : Nat)
    (f : Callback ε) : Prop where
  call_eq : s.call = n
  callback_eq : s.callback = f
  proposed : s.tx.propose s.proposal.timestampWall s.proposal.timestampCounter =
    .ok (some s.proposal)

/-- How `runOnce` returns. -/
inductive Ending (ε : Type) where
  | returns (o : Outcome ε)
  | conflict

/-- `runOnce` from where `ProposeDirect` has returned. -/
def Ending.ofResult {ε : Type} (r : ApplyResult) : Ending ε :=
  match r.err with
  | some e => .returns (.failed (.apply e))
  | none => if r.conflict then .conflict else .returns (.done true)

namespace Invocation

variable {σ ε π : Type}

/-- `GetSnapshot`, and a new transaction on it. -/
def begin (now : Nat) (engine : σ) (c : Invocation σ ε π) : Option (Invocation σ ε π) :=
  match c.phase with
  | .waiting => some { c with
      attempts := c.attempts + 1
      phase := .running now (DpxTx.new engine) c.callback }
  | _ => none

/-- The callback makes its next call. -/
def request [Snapshot σ] [RangeSnapshot σ] (c : Invocation σ ε π) : Option (Invocation σ ε π) :=
  match c.phase with
  | .running since tx (.ask q next) =>
      some { c with phase := .running since (tx.answer q).2 (next (tx.answer q).1) }
  | _ => none

/-- `runOnce` of call `n` from where the callback has returned, up to `ProposeDirect`. -/
def finish [Snapshot σ] (n : Nat) (wall : UInt64) (counter : UInt16) (c : Invocation σ ε π) :
    Option (Except (Ending ε) (Submission σ ε)) :=
  match c.phase with
  | .running _ _ (.ret (some .conflict)) => some (.error .conflict)
  | .running _ _ (.ret (some (.other e))) => some (.error (.returns (.failed (.callback e))))
  | .running since tx (.ret none) =>
      match tx.propose wall counter with
      | .error e => some (.error (.returns (.failed (.tx e))))
      | .ok none => some (.error (.returns (.done false)))
      | .ok (some p) => some (.ok ⟨n, c.callback, since, tx, p⟩)
  | _ => none

/-- `runOnce` returns. -/
def conclude (now : Nat) (c : Invocation σ ε π) : Ending ε → Invocation σ ε π
  | .returns o => { c with phase := .returned o now }
  | .conflict => { c with phase := .conflicted }

/-- `retry.Do` makes another attempt. -/
def again (c : Invocation σ ε π) : Option (Invocation σ ε π) :=
  match c.phase with
  | .conflicted => some { c with phase := .waiting }
  | _ => none

/-- `retry.Do` returns `ErrRetryExhausted`. -/
def exhaust (now : Nat) (c : Invocation σ ε π) : Option (Invocation σ ε π) :=
  match c.phase with
  | .conflicted => some { c with phase := .returned (.failed .conflictExhausted) now }
  | _ => none

/-- `retry.Do` returns another error. -/
def cancel (now : Nat) (c : Invocation σ ε π) : Option (Invocation σ ε π) :=
  match c.phase with
  | .waiting | .conflicted => some { c with phase := .returned (.failed .context) now }
  | _ => none

end Invocation

/-- The calls of a node, and the metrics of `RunInTx`. -/
structure Calls (σ ε π : Type) where
  calls : List (Invocation σ ε π)
  transactionsTotal : Nat
  conflictExhausted : Nat

/-- Call `n` moves on to `c`; `RunInTx` counts how it returns. -/
def Calls.put {σ ε π : Type} (w : Calls σ ε π) (n : Nat) (c : Invocation σ ε π) : Calls σ ε π where
  calls := w.calls.set n c
  transactionsTotal := w.transactionsTotal + c.phase.succeeded.toNat
  conflictExhausted := w.conflictExhausted + c.phase.exhausted.toNat

/-! ## Calls with a place of their own for the answer -/

/-- Where a submission is. -/
inductive Mail (σ ε : Type) where
  | ready (s : Submission σ ε)
  | queued (s : Submission σ ε)
  | answered (r : ApplyResult)

abbrev MailedCall (σ ε : Type) := Invocation σ ε (Mail σ ε)

namespace TxPhase

variable {σ ε : Type}

/-- It has written: it returned so, or will when it receives its answer. -/
def wrote : TxPhase σ ε (Mail σ ε) → Bool
  | .returned (.done true) _ => true
  | .proposing (.answered r) => r = .ok
  | _ => false

/-- The transaction under way. -/
def tx : TxPhase σ ε (Mail σ ε) → Option (DpxTx σ)
  | .running _ tx _ => some tx
  | .proposing (.ready s) | .proposing (.queued s) => some s.tx
  | _ => none

end TxPhase

structure TxNode (σ ε : Type) extends Calls σ ε (Mail σ ε) where
  proposer : DirectProposer σ
  submitCh : List (Submission σ ε)
  log : List (Submission σ ε × Answered)

inductive TxEvent (ε : Type) where
  | runInTx (f : Callback ε)
  | begin (n : Nat)
  | request (n : Nat)
  | finish (n : Nat) (wall : UInt64) (counter : UInt16)
  | submit (n : Nat)
  | apply (m : Nat)
  | receive (n : Nat)
  | again (n : Nat)
  | exhaust (n : Nat)
  | cancel (n : Nat)

namespace TxNode

variable {σ ε : Type}

/-- `Open` on a proposer. -/
def «open» (proposer : DirectProposer σ) : TxNode σ ε where
  calls := []
  transactionsTotal := 0
  conflictExhausted := 0
  proposer := proposer
  submitCh := []
  log := []

def put (w : TxNode σ ε) (n : Nat) (c : MailedCall σ ε) : TxNode σ ε :=
  { w with toCalls := w.toCalls.put n c }

/-- A step of call `n`, if there is such a call and it can take it. -/
def move (w : TxNode σ ε) (n : Nat)
    (f : MailedCall σ ε → Option (MailedCall σ ε)) : TxNode σ ε :=
  ((w.calls[n]?).bind f).elim w (w.put n)

def finish [Snapshot σ] (w : TxNode σ ε) (n : Nat) (wall : UInt64) (counter : UInt16)
    (c : MailedCall σ ε) : Option (MailedCall σ ε) :=
  (c.finish n wall counter).map fun
    | .error e => c.conclude w.log.length e
    | .ok s => { c with phase := .proposing (.ready s) }

def submit (w : TxNode σ ε) (n : Nat) : TxNode σ ε :=
  match w.calls[n]? with
  | none => w
  | some c =>
      match c.phase with
      | .proposing (.ready s) => put { w with submitCh := w.submitCh ++ [s] } n
          { c with phase := .proposing (.queued s) }
      | _ => w

def receive (w : TxNode σ ε) (c : MailedCall σ ε) :
    Option (MailedCall σ ε) :=
  match c.phase with
  | .proposing (.answered r) => some (c.conclude w.log.length (.ofResult r))
  | _ => none

/-- One answer of a batch: it is the first submission's. -/
def settle (w : TxNode σ ε) (a : Answered) : TxNode σ ε :=
  match w.submitCh with
  | [] => w
  | s :: rest => move { w with submitCh := rest, log := w.log ++ [(s, a)] } s.call fun c =>
      some { c with phase := .proposing (.answered a.result) }

variable [StorageEngine σ]

/-- The applier takes the first `m` submissions, applies them as one batch and answers. -/
def apply (w : TxNode σ ε) (m : Nat) : TxNode σ ε :=
  let batch := (w.submitCh.take m).map Submission.proposal
  (w.proposer.answered batch).foldl settle
    { w with proposer := (w.proposer.applyBatchDirect batch).2 }

variable [Snapshot σ] [RangeSnapshot σ]

def step (w : TxNode σ ε) : TxEvent ε → TxNode σ ε
  | .runInTx f => { w with calls := w.calls ++ [⟨f, w.log.length, 0, .waiting⟩] }
  | .begin n => w.move n (Invocation.begin w.log.length w.proposer.fsm.engine)
  | .request n => w.move n Invocation.request
  | .finish n wall counter => w.move n (w.finish n wall counter)
  | .submit n => w.submit n
  | .apply m => w.apply m
  | .receive n => w.move n w.receive
  | .again n => w.move n Invocation.again
  | .exhaust n => w.move n (Invocation.exhaust w.log.length)
  | .cancel n => w.move n (Invocation.cancel w.log.length)

/-- The node after a run. -/
def after (proposer : DirectProposer σ) (events : List (TxEvent ε)) : TxNode σ ε :=
  events.foldl step (.open proposer)

/-! ## What a step can do -/

omit [StorageEngine σ] in
/-- How call `n` moves on by itself, without touching the queue. -/
inductive Advances (w : TxNode σ ε) (n : Nat) (c : MailedCall σ ε) :
    MailedCall σ ε → Prop where
  | begin : c.phase = .waiting → Advances w n c { c with
      attempts := c.attempts + 1
      phase := .running w.log.length (DpxTx.new w.proposer.fsm.engine) c.callback }
  | request {since : Nat} {tx : DpxTx σ} {q : Request} {next : q.Answer → Callback ε} :
      c.phase = .running since tx (.ask q next) →
      Advances w n c { c with phase := .running since (tx.answer q).2 (next (tx.answer q).1) }
  | readOnly {since : Nat} {tx : DpxTx σ} : c.phase = .running since tx (.ret none) →
      tx.writes = [] →
      Advances w n c { c with phase := .returned (.done false) w.log.length }
  | propose {since : Nat} {tx : DpxTx σ} {wall : UInt64} {counter : UInt16} {p : Proposal} :
      c.phase = .running since tx (.ret none) → tx.propose wall counter = .ok (some p) →
      Advances w n c { c with phase := .proposing (.ready ⟨n, c.callback, since, tx, p⟩) }
  | commit : c.phase = .proposing (.answered .ok) →
      Advances w n c { c with phase := .returned (.done true) w.log.length }
  | conflict : ((∃ since tx, c.phase = .running since tx (.ret (some .conflict))) ∨
        ∃ r, c.phase = .proposing (.answered r) ∧ r.conflict = true) →
      Advances w n c { c with phase := .conflicted }
  | fail {e : RunError ε} : ((∃ since tx r, c.phase = .running since tx (.ret r)) ∨
        ∃ r, c.phase = .proposing (.answered r) ∧ r ≠ .ok) → e ≠ .conflictExhausted →
      Advances w n c { c with phase := .returned (.failed e) w.log.length }
  | again : c.phase = .conflicted → Advances w n c { c with phase := .waiting }
  | quit {e : RunError ε} : (c.phase = .waiting ∧ e ≠ .conflictExhausted) ∨ c.phase = .conflicted →
      Advances w n c { c with phase := .returned (.failed e) w.log.length }

/-- What an event does to the node. -/
inductive Took (w : TxNode σ ε) : TxNode σ ε → Prop where
  | idle : Took w w
  | call (f : Callback ε) :
      Took w { w with calls := w.calls ++ [⟨f, w.log.length, 0, .waiting⟩] }
  | advance {n : Nat} {c c' : MailedCall σ ε} : w.calls[n]? = some c →
      Advances w n c c' → Took w (w.put n c')
  | submit {n : Nat} {c : MailedCall σ ε} {s : Submission σ ε} :
      w.calls[n]? = some c → c.phase = .proposing (.ready s) →
      Took w (put { w with submitCh := w.submitCh ++ [s] } n
        { c with phase := .proposing (.queued s) })
  | apply (m : Nat) : Took w (w.apply m)

omit [StorageEngine σ] in
theorem advances_finish {w : TxNode σ ε} {n : Nat} {c c' : MailedCall σ ε}
    {wall : UInt64} {counter : UInt16} (h : w.finish n wall counter c = some c') :
    Advances w n c c' := by
  obtain ⟨out, hout, rfl⟩ := Option.map_eq_some_iff.mp h
  rw [Invocation.finish] at hout
  split at hout
  · rename_i since tx hphase
    cases hout
    exact .conflict (Or.inl ⟨since, tx, hphase⟩)
  · rename_i since tx e hphase
    cases hout
    exact .fail (Or.inl ⟨since, tx, _, hphase⟩) (by simp)
  · rename_i since tx hphase
    split at hout
    · cases hout
      exact .fail (Or.inl ⟨since, tx, _, hphase⟩) (by simp)
    · rename_i hnone
      cases hout
      refine .readOnly hphase ?_
      rw [DpxTx.propose] at hnone
      split at hnone
      · assumption
      · split at hnone <;> cases hnone
    · rename_i p hp
      cases hout
      exact .propose hphase hp
  · cases hout

omit [StorageEngine σ] in
theorem advances_receive {w : TxNode σ ε} {n : Nat} {c c' : MailedCall σ ε}
    (h : w.receive c = some c') : Advances w n c c' := by
  rw [receive] at h
  split at h
  · rename_i r hphase
    cases h
    obtain ⟨conflict, err⟩ := r
    cases err with
    | some e =>
        refine .fail (Or.inr ⟨_, hphase, ?_⟩) (by simp)
        intro hok
        cases hok
    | none =>
        cases conflict with
        | true => exact .conflict (Or.inr ⟨_, hphase, rfl⟩)
        | false => exact .commit hphase
  · cases h

theorem took_move {w : TxNode σ ε} {n : Nat}
    {f : MailedCall σ ε → Option (MailedCall σ ε)}
    (h : ∀ c c', f c = some c' → Advances w n c c') : Took w (w.move n f) := by
  rw [move]
  cases hc : w.calls[n]? with
  | none => exact .idle
  | some c =>
      cases hf : f c with
      | none =>
          rw [Option.bind_some, hf]
          exact .idle
      | some c' =>
          rw [Option.bind_some, hf]
          exact .advance hc (h c c' hf)

theorem step_took (w : TxNode σ ε) (ev : TxEvent ε) : Took w (w.step ev) := by
  cases ev with
  | runInTx f => exact .call f
  | begin n =>
      refine took_move fun c c' h => ?_
      rw [Invocation.begin] at h
      split at h
      · rename_i hphase
        cases h
        exact .begin hphase
      · cases h
  | request n =>
      refine took_move fun c c' h => ?_
      rw [Invocation.request] at h
      split at h
      · rename_i hphase
        cases h
        exact .request hphase
      · cases h
  | finish n wall counter => exact took_move fun c c' h => advances_finish h
  | submit n =>
      rw [step, submit]
      split
      · exact .idle
      · rename_i c hc
        split
        · rename_i s hphase
          exact .submit hc hphase
        · exact .idle
  | apply m => exact .apply m
  | receive n => exact took_move fun c c' h => advances_receive h
  | again n =>
      refine took_move fun c c' h => ?_
      rw [Invocation.again] at h
      split at h
      · rename_i hphase
        cases h
        exact .again hphase
      · cases h
  | exhaust n =>
      refine took_move fun c c' h => ?_
      rw [Invocation.exhaust] at h
      split at h
      · rename_i hphase
        cases h
        exact .quit (Or.inr hphase)
      · cases h
  | cancel n =>
      refine took_move fun c c' h => ?_
      rw [Invocation.cancel] at h
      split at h
      · rename_i hphase
        cases h
        exact .quit (Or.inl ⟨hphase, by simp⟩)
      · rename_i hphase
        cases h
        exact .quit (Or.inr hphase)
      · cases h

end TxNode

/-! ## The books -/

section Books

variable {σ ε : Type}

/-- The committed submissions of call `n`. -/
def commitsOf (log : List (Submission σ ε × Answered)) (n : Nat) :
    List (Submission σ ε × Answered) :=
  log.filter fun e => e.1.call = n && e.2.committed

/-- Call `n`, of callback `f`, committed at `p`, and submitted nothing after that. -/
structure CommittedAt (log : List (Submission σ ε × Answered)) (n : Nat) (f : Callback ε)
    (p : Nat) : Prop where
  entry : ∃ s a, log[p]? = some (s, a) ∧ s.call = n ∧ s.callback = f ∧ a.committed = true
  last : ∀ q e, p < q → log[q]? = some e → e.1.call ≠ n

theorem commitsOf_concat (log : List (Submission σ ε × Answered)) (s : Submission σ ε)
    (a : Answered) (n : Nat) : (commitsOf (log ++ [(s, a)]) n).length =
      (commitsOf log n).length + if n = s.call then a.committed.toNat else 0 := by
  rw [commitsOf, List.filter_append, List.length_append, commitsOf, List.filter_singleton]
  by_cases hn : n = s.call
  · subst hn
    cases a.committed <;> simp
  · simp [hn, Ne.symm hn]

theorem CommittedAt.concat {log : List (Submission σ ε × Answered)} {n p : Nat} {f : Callback ε}
    (h : CommittedAt log n f p) {e : Submission σ ε × Answered} (hne : e.1.call ≠ n) :
    CommittedAt (log ++ [e]) n f p := by
  obtain ⟨⟨s, a, hp, hentry⟩, hlast⟩ := h
  have hlt := (List.getElem?_eq_some_iff.mp hp).1
  refine ⟨⟨s, a, by rw [List.getElem?_append_left hlt, hp], hentry⟩, ?_⟩
  intro q e' hq he'
  rcases Runs.getElem?_concat_cases he' with ⟨-, rfl⟩ | ⟨-, hold⟩
  · exact hne
  · exact hlast q e' hq hold

end Books

namespace TxNode

variable {σ ε : Type} [Snapshot σ]

/-- What the log and the queue say of each call, and what the counters say of all. -/
structure Booked (w : TxNode σ ε) : Prop where
  commits : ∀ n, (commitsOf w.log n).length = ((w.calls.map (·.phase.wrote.toNat))[n]?).getD 0
  nodup : (w.submitCh.map Submission.call).Nodup
  queue : ∀ s ∈ w.submitCh, ∃ c, w.calls[s.call]? = some c ∧ c.phase = .proposing (.queued s)
  mail : ∀ (n : Nat) (c : MailedCall σ ε) (s : Submission σ ε), w.calls[n]? = some c →
    (c.phase = .proposing (.ready s) ∨ c.phase = .proposing (.queued s)) → s.From n c.callback
  effect : ∀ n c, w.calls[n]? = some c → c.phase.wrote = true →
    ∃ p, CommittedAt w.log n c.callback p ∧ c.began ≤ p ∧ p < c.phase.endedBy w.log.length
  times : ∀ c ∈ w.calls, c.began ≤ w.log.length ∧ c.phase.endedBy w.log.length ≤ w.log.length
  total : w.transactionsTotal = w.calls.countP (·.phase.succeeded)
  spent : w.conflictExhausted = w.calls.countP (·.phase.exhausted)

theorem booked_open (proposer : DirectProposer σ) : Booked (.open proposer : TxNode σ ε) where
  commits := fun _ => rfl
  nodup := List.nodup_nil
  queue := fun _ hs => absurd hs List.not_mem_nil
  mail := fun _ _ _ hc => by cases hc
  effect := fun _ _ hc => by cases hc
  times := fun _ hc => absurd hc List.not_mem_nil
  total := rfl
  spent := rfl

theorem Booked.commits_of {w : TxNode σ ε} (h : Booked w) {n : Nat}
    {c : MailedCall σ ε} (hc : w.calls[n]? = some c) :
    (commitsOf w.log n).length = c.phase.wrote.toNat := by
  rw [h.commits, List.getElem?_map, hc]
  rfl

theorem Booked.move {w : TxNode σ ε} (h : Booked w) {n : Nat} {c : MailedCall σ ε}
    (hc : w.calls[n]? = some c) (c' : MailedCall σ ε) (hopen : ¬ c.phase.Returned)
    (hcb : c'.callback = c.callback) (hbegan : c'.began = c.began)
    {submitCh : List (Submission σ ε)} {log : List (Submission σ ε × Answered)}
    (hlen : w.log.length ≤ log.length)
    (hcommits : ∀ m, (commitsOf log m).length =
      if m = n then c'.phase.wrote.toNat else (commitsOf w.log m).length)
    (hnodup : (submitCh.map Submission.call).Nodup)
    (hqueue : ∀ s ∈ submitCh, (s.call = n ∧ c'.phase = .proposing (.queued s)) ∨
      (s.call ≠ n ∧ s ∈ w.submitCh))
    (hmail : ∀ s, (c'.phase = .proposing (.ready s) ∨ c'.phase = .proposing (.queued s)) →
      s.From n c.callback)
    (hkeep : ∀ m f p, m ≠ n → CommittedAt w.log m f p → CommittedAt log m f p)
    (heffect : c'.phase.wrote = true →
      ∃ p, CommittedAt log n c.callback p ∧ c.began ≤ p ∧ p < c'.phase.endedBy log.length)
    (hended : c'.phase.endedBy log.length ≤ log.length) :
    Booked (put { w with submitCh := submitCh, log := log } n c') := by
  obtain ⟨hsucceeded, hexhausted⟩ := TxPhase.open_counts hopen
  have hlt : n < w.calls.length := (List.getElem?_eq_some_iff.mp hc).1
  constructor
  · intro m
    rw [put, Calls.put, Runs.getD_map_set _ hc, hcommits, h.commits]
  · exact hnodup
  · intro s hs
    rcases hqueue s hs with ⟨rfl, hphase⟩ | ⟨hne, hold⟩
    · exact ⟨c', List.getElem?_set_self hlt, hphase⟩
    · obtain ⟨d, hd, hphase⟩ := h.queue s hold
      exact ⟨d, (List.getElem?_set_ne (Ne.symm hne)).trans hd, hphase⟩
  · intro m d s hd hphase
    rcases Runs.getElem?_set_cases hd with ⟨rfl, rfl⟩ | ⟨-, hd⟩
    · rw [hcb]
      exact hmail s hphase
    · exact h.mail m d s hd hphase
  · intro m d hd hwrote
    rcases Runs.getElem?_set_cases hd with ⟨rfl, rfl⟩ | ⟨hm, hd⟩
    · rw [hcb, hbegan]
      exact heffect hwrote
    · obtain ⟨p, hat, hle, hp⟩ := h.effect m d hd hwrote
      exact ⟨p, hkeep m _ p hm hat, hle, Nat.lt_of_lt_of_le hp (d.phase.endedBy_mono hlen)⟩
  · refine Runs.forall_mem_set (fun d hd => ?_) ⟨?_, hended⟩
    · obtain ⟨hle, hend⟩ := h.times d hd
      refine ⟨Nat.le_trans hle hlen, ?_⟩
      cases hphase : d.phase with
      | returned o ended =>
          rw [hphase] at hend
          exact Nat.le_trans hend hlen
      | _ => exact Nat.le_refl _
    · rw [hbegan]
      exact Nat.le_trans (h.times c (List.mem_of_getElem? hc)).1 hlen
  · show w.transactionsTotal + _ = _
    rw [put, Calls.put, Runs.countP_set_of_not hc hsucceeded, h.total]
  · show w.conflictExhausted + _ = _
    rw [put, Calls.put, Runs.countP_set_of_not hc hexhausted, h.spent]

omit [Snapshot σ] in
theorem settle_eq {w : TxNode σ ε} {s : Submission σ ε} {rest : List (Submission σ ε)}
    {c : MailedCall σ ε} (hs : w.submitCh = s :: rest) (hc : w.calls[s.call]? = some c)
    (a : Answered) : w.settle a = put { w with submitCh := rest, log := w.log ++ [(s, a)] } s.call
      { c with phase := .proposing (.answered a.result) } := by
  simp only [settle, hs, TxNode.move, hc, Option.bind_some, Option.elim_some]

/-- The first submission is that of a call which waits for its answer, and has no other. -/
theorem settle_cases {w : TxNode σ ε} (h : Booked w) (a : Answered) :
    (w.submitCh = [] ∧ w.settle a = w) ∨
    ∃ s rest c, w.submitCh = s :: rest ∧ w.calls[s.call]? = some c ∧
      c.phase = .proposing (.queued s) ∧ s.From s.call c.callback ∧
      (∀ t ∈ rest, t.call ≠ s.call) ∧
      w.settle a = put { w with submitCh := rest, log := w.log ++ [(s, a)] } s.call
        { c with phase := .proposing (.answered a.result) } := by
  cases hs : w.submitCh with
  | nil => exact Or.inl ⟨rfl, by rw [settle, hs]⟩
  | cons s rest =>
      obtain ⟨c, hc, hphase⟩ := h.queue s (by rw [hs]; exact List.mem_cons_self)
      have hnodup := h.nodup
      rw [hs, List.map_cons, List.nodup_cons] at hnodup
      refine Or.inr ⟨s, rest, c, rfl, hc, hphase, h.mail _ c s hc (Or.inr hphase),
        fun t ht heq => hnodup.1 (List.mem_map.mpr ⟨t, ht, heq⟩), settle_eq hs hc a⟩

theorem Booked.settle {w : TxNode σ ε} (h : Booked w) (a : Answered) : Booked (w.settle a) := by
  rcases settle_cases h a with ⟨-, hidle⟩ | ⟨s, rest, c, hs, hc, hphase, hfrom, hrest, heq⟩
  · rw [hidle]
    exact h
  · have hnone : (commitsOf w.log s.call).length = 0 := by
      rw [h.commits_of hc, hphase]
      rfl
    have hnodup := h.nodup
    rw [hs, List.map_cons, List.nodup_cons] at hnodup
    rw [heq]
    have hlen : (w.log ++ [(s, a)]).length = w.log.length + 1 := by simp
    refine h.move hc { c with phase := .proposing (.answered a.result) } ?_ rfl rfl
      (hlen ▸ Nat.le_succ _) ?_ hnodup.2 (fun t ht => ?_) (by simp) ?_ ?_ (Nat.le_refl _)
    · rw [hphase, TxPhase.Returned]
      simp
    · intro m
      rw [commitsOf_concat]
      split
      · rename_i hm
        rw [hm, hnone, Nat.zero_add]
        rfl
      · rfl
    · exact Or.inr ⟨hrest t ht, by rw [hs]; exact List.mem_cons_of_mem _ ht⟩
    · intro m f p hm hat
      exact hat.concat (Ne.symm hm)
    · intro hwrote
      refine ⟨w.log.length, ⟨⟨s, a, List.getElem?_concat_length, rfl, hfrom.callback_eq, hwrote⟩,
        fun q e hq he => ?_⟩, (h.times c (List.mem_of_getElem? hc)).1, ?_⟩
      · have hlt := (List.getElem?_eq_some_iff.mp he).1
        omega
      · rw [hlen]
        exact Nat.lt_succ_self _

theorem Booked.settleAll {w : TxNode σ ε} (h : Booked w) (as : List Answered) :
    Booked (as.foldl TxNode.settle w) := by
  induction as generalizing w with
  | nil => exact h
  | cons a as ih => exact ih (h.settle a)

theorem Booked.applied {w : TxNode σ ε} (h : Booked w) (d : DirectProposer σ) :
    Booked { w with proposer := d } :=
  ⟨h.commits, h.nodup, h.queue, h.mail, h.effect, h.times, h.total, h.spent⟩

theorem Booked.call {w : TxNode σ ε} (h : Booked w) (f : Callback ε) :
    Booked { w with calls := w.calls ++ [⟨f, w.log.length, 0, .waiting⟩] } := by
  refine ⟨fun n => ?_, h.nodup, fun s hs => ?_, fun n c s hc hphase => ?_,
    fun n c hc hwrote => ?_, List.forall_mem_append.mpr ⟨h.times,
      List.forall_mem_singleton.mpr ⟨Nat.le_refl _, Nat.le_refl _⟩⟩, ?_, ?_⟩
  · refine (h.commits n).trans (Runs.getD_map_concat _ _ ?_ n).symm
    rfl
  · obtain ⟨c, hc, hphase⟩ := h.queue s hs
    refine ⟨c, ?_, hphase⟩
    rw [List.getElem?_append_left (List.getElem?_eq_some_iff.mp hc).1, hc]
  · rcases Runs.getElem?_concat_cases hc with ⟨-, rfl⟩ | ⟨-, hold⟩
    · rcases hphase with hphase | hphase <;> cases hphase
    · exact h.mail n c s hold hphase
  · rcases Runs.getElem?_concat_cases hc with ⟨-, rfl⟩ | ⟨-, hold⟩
    · cases hwrote
    · exact h.effect n c hold hwrote
  · rw [List.countP_append]
    exact h.total
  · rw [List.countP_append]
    exact h.spent

theorem Booked.not_queued {w : TxNode σ ε} (h : Booked w) {n : Nat} {c : MailedCall σ ε}
    (hc : w.calls[n]? = some c) (hphase : ∀ s, c.phase ≠ .proposing (.queued s)) :
    ∀ s ∈ w.submitCh, s.call ≠ n := by
  rintro s hs rfl
  obtain ⟨d, hd, hqueued⟩ := h.queue s hs
  cases hc.symm.trans hd
  exact hphase s hqueued

theorem Booked.submit {w : TxNode σ ε} (h : Booked w) {n : Nat} {c : MailedCall σ ε}
    {s : Submission σ ε} (hc : w.calls[n]? = some c) (hphase : c.phase = .proposing (.ready s)) :
    Booked (put { w with submitCh := w.submitCh ++ [s] } n
      { c with phase := .proposing (.queued s) }) := by
  have hfrom := h.mail n c s hc (Or.inl hphase)
  have hne := h.not_queued hc fun t hqueued => by
    rw [hphase] at hqueued
    cases hqueued
  refine h.move hc { c with phase := .proposing (.queued s) } ?_ rfl rfl (Nat.le_refl _)
    (fun m => ?_) ?_ (fun t ht => ?_) (fun t ht => ?_) (fun _ _ _ _ hat => hat)
    (fun hw => absurd hw Bool.false_ne_true) (Nat.le_refl _)
  · rw [hphase, TxPhase.Returned]
    simp
  · split
    · rename_i hm
      rw [hm, h.commits_of hc, hphase]
      rfl
    · rfl
  · rw [List.map_append, List.nodup_append]
    refine ⟨h.nodup, List.nodup_singleton _, fun a ha b hb => ?_⟩
    obtain ⟨t, ht, rfl⟩ := List.mem_map.mp ha
    rw [List.mem_singleton.mp hb, hfrom.call_eq]
    exact hne t ht
  · rcases List.mem_append.mp ht with ht | ht
    · exact Or.inr ⟨hne t ht, ht⟩
    · rw [List.mem_singleton.mp ht]
      exact Or.inl ⟨hfrom.call_eq, rfl⟩
  · rcases ht with ht | ht <;> cases ht
    exact hfrom

section Steps

variable [RangeSnapshot σ]

/-- A call that advances is not in the queue, and commits nothing by it. -/
structure Idles (now n : Nat) (c c' : MailedCall σ ε) : Prop where
  isOpen : ¬ c.phase.Returned
  unqueued : ∀ s, c.phase ≠ .proposing (.queued s) ∧ c'.phase ≠ .proposing (.queued s)
  callback_eq : c'.callback = c.callback
  began_eq : c'.began = c.began
  wrote_eq : c'.phase.wrote = c.phase.wrote
  ready : ∀ s, c'.phase = .proposing (.ready s) → s.From n c.callback
  ended : c'.phase.endedBy now = now

theorem Advances.idles {w : TxNode σ ε} {n : Nat} {c c' : MailedCall σ ε}
    (h : Advances w n c c') : Idles w.log.length n c c' := by
  have hidle : ∀ {ph : TxPhase σ ε (Mail σ ε)} (attempts : Nat), c.phase = ph → ¬ ph.Returned →
      (∀ s, ph ≠ .proposing (.queued s)) → ∀ {ph' : TxPhase σ ε (Mail σ ε)},
      (∀ s, ph' ≠ .proposing (.queued s)) → ph'.wrote = ph.wrote →
      (∀ s, ph' = .proposing (.ready s) → s.From n c.callback) →
      ph'.endedBy w.log.length = w.log.length →
      Idles w.log.length n c { c with attempts := attempts, phase := ph' } := by
    rintro ph attempts rfl hopen hqueued ph' hqueued' hwrote hready hended
    exact ⟨hopen, fun s => ⟨hqueued s, hqueued' s⟩, rfl, rfl, hwrote, hready, hended⟩
  cases h with
  | begin hphase | request hphase | readOnly hphase | again hphase =>
      exact hidle _ hphase (by simp [TxPhase.Returned]) (by simp) (by simp) rfl (by simp) rfl
  | @propose since tx wall counter p hphase hp =>
      refine hidle _ hphase (by simp [TxPhase.Returned]) (by simp) (by simp) rfl ?_ rfl
      intro s hs
      cases hs
      exact ⟨rfl, rfl, DpxTx.propose_stamped hp⟩
  | commit hphase =>
      exact hidle _ hphase (by simp [TxPhase.Returned]) (by simp) (by simp) rfl (by simp) rfl
  | conflict hphase =>
      rcases hphase with ⟨since, tx, hphase⟩ | ⟨r, hphase, hconflict⟩
      · exact hidle _ hphase (by simp [TxPhase.Returned]) (by simp) (by simp) rfl (by simp) rfl
      · have hne : r ≠ .ok := by
          rintro rfl
          cases hconflict
        exact hidle _ hphase (by simp [TxPhase.Returned]) (by simp) (by simp)
          (decide_eq_false hne).symm (by simp) rfl
  | fail hphase _ =>
      rcases hphase with ⟨since, tx, r, hphase⟩ | ⟨r, hphase, hne⟩
      · exact hidle _ hphase (by simp [TxPhase.Returned]) (by simp) (by simp) rfl (by simp) rfl
      · exact hidle _ hphase (by simp [TxPhase.Returned]) (by simp) (by simp)
          (decide_eq_false hne).symm (by simp) rfl
  | quit hphase =>
      rcases hphase with ⟨hphase, -⟩ | hphase <;>
        exact hidle _ hphase (by simp [TxPhase.Returned]) (by simp) (by simp) rfl (by simp) rfl

theorem Booked.advance {w : TxNode σ ε} (h : Booked w) {n : Nat} {c c' : MailedCall σ ε}
    (hc : w.calls[n]? = some c) (hadv : Advances w n c c') : Booked (w.put n c') := by
  obtain ⟨hopen, hunqueued, hcb, hbegan, hwrote, hready, hended⟩ := hadv.idles
  refine h.move hc c' hopen hcb hbegan (Nat.le_refl _) (fun m => ?_) h.nodup (fun s hs => ?_)
    (fun s hs => ?_) (fun _ _ _ _ hat => hat) (fun hw => ?_) (Nat.le_of_eq hended)
  · split
    · rename_i hm
      rw [hm, h.commits_of hc, hwrote]
    · rfl
  · exact Or.inr ⟨h.not_queued hc (fun s => (hunqueued s).1) s hs, hs⟩
  · exact hs.elim (hready s) fun hq => absurd hq (hunqueued s).2
  · rw [hwrote] at hw
    obtain ⟨p, hat, hle, hp⟩ := h.effect n c hc hw
    refine ⟨p, hat, hle, ?_⟩
    rw [hended]
    exact Nat.lt_of_lt_of_le hp (h.times c (List.mem_of_getElem? hc)).2

variable [StorageEngine σ]

/-- The node with the attempts of the calls: each call has at most one, under its number. -/
structure OnNode (w : TxNode σ ε) (m : Node (DirectProposer σ) σ) : Prop where
  booked : Booked w
  proposer_eq : m.proposer = w.proposer
  inFlight_eq : ∀ n, (m.inFlight n).map InFlight.tx = (w.calls[n]?).bind (·.phase.tx)

omit [Snapshot σ] [RangeSnapshot σ] [StorageEngine σ] in
theorem inFlight_put {w : TxNode σ ε} {inFlight : Nat → Option (InFlight σ)}
    (h : ∀ n, (inFlight n).map InFlight.tx = (w.calls[n]?).bind (·.phase.tx)) {n : Nat}
    {c : MailedCall σ ε} (hc : w.calls[n]? = some c) (c' : MailedCall σ ε)
    {t : Option (InFlight σ)} (ht : t.map InFlight.tx = c'.phase.tx) (k : Nat) :
    (Function.update inFlight n t k).map InFlight.tx =
      ((w.calls.set n c')[k]?).bind (·.phase.tx) := by
  by_cases hk : k = n
  · subst hk
    rw [Function.update_self, List.getElem?_set_self (List.getElem?_eq_some_iff.mp hc).1, ht]
    rfl
  · rw [Function.update_of_ne hk, List.getElem?_set_ne (Ne.symm hk)]
    exact h k

omit [Snapshot σ] [RangeSnapshot σ] [StorageEngine σ] in
theorem inFlight_keep {w : TxNode σ ε} {inFlight : Nat → Option (InFlight σ)}
    (h : ∀ n, (inFlight n).map InFlight.tx = (w.calls[n]?).bind (·.phase.tx)) {n : Nat}
    {c : MailedCall σ ε} (hc : w.calls[n]? = some c) (c' : MailedCall σ ε)
    (hn : (inFlight n).map InFlight.tx = c'.phase.tx) (k : Nat) :
    (inFlight k).map InFlight.tx = ((w.calls.set n c')[k]?).bind (·.phase.tx) := by
  have hput := inFlight_put h hc c' hn k
  rwa [Function.update_eq_self] at hput

/-- What an attempt is handed in with. -/
def handedIn (s : Submission σ ε) : Nat × UInt64 × UInt16 :=
  (s.call, s.proposal.timestampWall, s.proposal.timestampCounter)

omit [RangeSnapshot σ] [StorageEngine σ] in
theorem handIn_settle (subs : List (Submission σ ε)) :
    ∀ {w : TxNode σ ε} {rest : List (Submission σ ε)} {as : List Answered}
      {inFlight : Nat → Option (InFlight σ)}, Booked w → w.submitCh = subs ++ rest →
      as.length = subs.length →
      (∀ n, (inFlight n).map InFlight.tx = (w.calls[n]?).bind (·.phase.tx)) →
      (handIn (subs.map handedIn) inFlight).1 = subs.map Submission.proposal ∧
        (as.foldl TxNode.settle w).proposer = w.proposer ∧
        ∀ n, ((handIn (subs.map handedIn) inFlight).2 n).map InFlight.tx =
          ((as.foldl TxNode.settle w).calls[n]?).bind (·.phase.tx) := by
  induction subs with
  | nil =>
      intro w rest as inFlight _ _ hlen h
      rw [List.length_eq_zero_iff.mp hlen]
      exact ⟨rfl, rfl, h⟩
  | cons s subs ih =>
      intro w rest as inFlight hb hs hlen h
      cases as with
      | nil => cases hlen
      | cons a as =>
          rcases settle_cases hb a with ⟨hnil, -⟩ | ⟨s', rest', c, hs', hc, hphase, hfrom, -, heq⟩
          · rw [hnil] at hs
            cases hs
          · rw [hs] at hs'
            obtain ⟨rfl, rfl⟩ := List.cons.inj hs'
            obtain ⟨hps, hproposer, hleft⟩ := ih (hb.settle a) (by rw [heq]; rfl)
              (Nat.succ.inj hlen) fun n => by
                rw [heq]
                exact inFlight_put h hc _ (t := none) rfl n
            obtain ⟨t, ht, htx⟩ : ∃ t, inFlight s.call = some t ∧ t.tx = s.tx := by
              have hn := h s.call
              rw [hc, Option.bind_some, hphase] at hn
              exact Option.map_eq_some_iff.mp hn
            have hprop : t.proposal s.proposal.timestampWall s.proposal.timestampCounter =
                some s.proposal := by
              rw [InFlight.proposal, htx, hfrom.proposed]
            refine ⟨?_, ?_, hleft⟩
            · rw [List.map_cons, handedIn, handIn, ht, Option.bind_some, hprop, hps]
              rfl
            · rw [List.foldl_cons, hproposer, heq]
              rfl

theorem OnNode.advance {w : TxNode σ ε} {m : Node (DirectProposer σ) σ} (h : OnNode w m) {n : Nat}
    {c c' : MailedCall σ ε} (hc : w.calls[n]? = some c) (hadv : Advances w n c c') :
    OnNode (w.put n c') m ∨ ∃ e, OnNode (w.put n c') (m.step e) := by
  have hbooked := h.booked.advance hc hadv
  have hn := h.inFlight_eq n
  rw [hc, Option.bind_some] at hn
  -- an attempt that is over is given up
  have hover : c'.phase.tx = none → ∃ e, OnNode (w.put n c') (m.step e) := fun hnone =>
    ⟨.giveUp n, hbooked, h.proposer_eq, inFlight_put h.inFlight_eq hc c' hnone.symm⟩
  cases hadv with
  | begin hphase =>
      rw [hphase] at hn
      refine Or.inr ⟨.begin n, ?_⟩
      simp only [Node.step, Option.map_eq_none_iff.mp hn]
      refine ⟨hbooked, h.proposer_eq, inFlight_put h.inFlight_eq hc _ ?_⟩
      rw [h.proposer_eq]
      rfl
  | @request since tx q next hphase =>
      rw [hphase] at hn
      rcases tx.answer_snd q with hsame | ⟨call, hcall⟩
      · refine Or.inl ⟨hbooked, h.proposer_eq, inFlight_keep h.inFlight_eq hc _ ?_⟩
        show _ = some (tx.answer q).2
        rw [hsame, hn]
        rfl
      · obtain ⟨t, ht, htx⟩ := Option.map_eq_some_iff.mp hn
        refine Or.inr ⟨.call n call, ?_⟩
        simp only [Node.step, ht]
        refine ⟨hbooked, h.proposer_eq, inFlight_put h.inFlight_eq hc _ ?_⟩
        show some (t.tx.perform call) = some (tx.answer q).2
        rw [hcall, htx]
  | propose hphase hp =>
      rw [hphase] at hn
      exact Or.inl ⟨hbooked, h.proposer_eq, inFlight_keep h.inFlight_eq hc _ hn⟩
  | readOnly | commit | conflict | fail | again | quit => exact Or.inr (hover rfl)

omit [RangeSnapshot σ] in
theorem OnNode.apply {w : TxNode σ ε} {m : Node (DirectProposer σ) σ} (h : OnNode w m) (k : Nat) :
    OnNode (w.apply k) (m.step (.propose ((w.submitCh.take k).map handedIn))) := by
  let ps := (w.submitCh.take k).map Submission.proposal
  have hlen : (w.proposer.answered ps).length = (w.submitCh.take k).length := by
    rw [DirectProposer.length_answered, List.length_map]
  have happlied := h.booked.applied (w.proposer.applyBatchDirect ps).2
  obtain ⟨hps, hproposer, hleft⟩ := handIn_settle (w.submitCh.take k) happlied
    (List.take_append_drop k w.submitCh).symm hlen h.inFlight_eq
  refine ⟨happlied.settleAll _, ?_, hleft⟩
  show Proposing.proposeAll m.proposer (handIn _ m.inFlight).1 = _
  rw [hps, h.proposer_eq]
  exact hproposer.symm

/-- An event of a call or of the applier is at most one event of the node. -/
theorem OnNode.step {w : TxNode σ ε} {m : Node (DirectProposer σ) σ} (h : OnNode w m)
    (ev : TxEvent ε) : OnNode (w.step ev) m ∨ ∃ e, OnNode (w.step ev) (m.step e) := by
  have hstep := step_took w ev
  generalize w.step ev = w' at hstep
  cases hstep with
  | idle => exact Or.inl h
  | call f =>
      refine Or.inl ⟨h.booked.call f, h.proposer_eq, fun n => (h.inFlight_eq n).trans ?_⟩
      rw [Runs.getElem?_concat]
      split
      · rename_i hn
        rw [hn, List.getElem?_eq_none (Nat.le_refl _)]
        rfl
      · rfl
  | advance hc hadv => exact h.advance hc hadv
  | @submit n c s hc hphase =>
      have hn := h.inFlight_eq n
      rw [hc, Option.bind_some, hphase] at hn
      exact Or.inl ⟨h.booked.submit hc hphase, h.proposer_eq,
        inFlight_keep h.inFlight_eq hc _ hn⟩
  | apply k => exact Or.inr ⟨_, h.apply k⟩

/-- **A run of calls is a run of the node**: some run of `Dpx.Node` leaves the same proposer and
has the same transactions in flight. -/
theorem node_of_calls (proposer : DirectProposer σ) (events : List (TxEvent ε)) :
    ∃ es : List NodeEvent, OnNode (after proposer events) (Node.after proposer es) := by
  have hopen : OnNode (.open proposer : TxNode σ ε) (.open proposer) :=
    ⟨booked_open proposer, rfl, fun _ => rfl⟩
  have hstep : ∀ (w : TxNode σ ε) (m : Node (DirectProposer σ) σ) (ev : TxEvent ε), OnNode w m →
      True → OnNode (w.step ev) m ∨ ∃ e, OnNode (w.step ev) (m.step e) :=
    fun _ _ ev h _ => h.step ev
  obtain ⟨es, -, hend⟩ := Runs.follows hstep hopen fun _ _ => trivial
  exact ⟨es, hend⟩

end Steps

end TxNode

end Dpx
