/-
# `Dpx.Pooled` — calls of `RunInTx` over the recycled entries

The node as it is: the calls of `Dpx.RunInTx`, with `ProposeDirect` and the applier of
`Dpx.Conductor.Pipeline`.  A call that has something to write takes an entry from `entryPool`,
sends it on `submitCh` and waits on the entry's `resultCh`, and so may other calls that were handed
the same entry; then a call can return `nil` although its own proposal met a conflict
(`Pipeline.result_swapped`).

In a run in which no entry is submitted while a call still waits on it (`Released`), nobody can
tell: to every call it looks as if it had a place of its own for its answer.  `view` is what it
looks like, and every event of the node is an event of that view or none (`Linked.step`).  So what
`Dpx.RunInTx`, `Dpx.Serial` and `Dpx.Progress` say of calls with a place of their own holds here:
`strictly_serializable`, `exactly_once` and `exhausted_by_others`.

`asks` and `log` are for the statements: what each `ProposeDirect` was called with and by whom, and
every submission with its answer.  No step reads them.  There is no shutdown here.
-/
import Dpx.Progress
import Dpx.Conductor.Pipeline

namespace Dpx

/-! ## The node -/

/-- Where the call waits, if it is in `ProposeDirect`. -/
def TxPhase.place {σ ε π : Type} : TxPhase σ ε π → Option π
  | .proposing x => some x
  | _ => none

/-- A call in `ProposeDirect` is known by the number it has in the pipeline. -/
structure PooledNode (σ ε : Type) extends Calls σ ε Nat where
  pipeline : Pipeline σ
  asks : List (Submission σ ε)
  log : List (Submission σ ε × Answered)

inductive PooledEvent (ε : Type) where
  | runInTx (f : Callback ε)
  | begin (n : Nat)
  | request (n : Nat)
  | finish (n : Nat) (wall : UInt64) (counter : UInt16) (slot : Option Nat)
  | submit (n : Nat)
  | receive (n : Nat)
  | again (n : Nat)
  | exhaust (n : Nat)
  | cancel (n : Nat)
  | take
  | flush
  | deliver
  | collect (slot : Nat)

namespace PooledNode

variable {σ ε : Type}

/-- `Open` on a proposer. -/
def «open» (proposer : DirectProposer σ) : PooledNode σ ε where
  calls := []
  transactionsTotal := 0
  conflictExhausted := 0
  pipeline := .new proposer
  asks := []
  log := []

def put (w : PooledNode σ ε) (n : Nat) (c : Invocation σ ε Nat) : PooledNode σ ε :=
  { w with toCalls := w.toCalls.put n c }

/-- A step of call `n`, if there is such a call and it can take it. -/
def move (w : PooledNode σ ε) (n : Nat)
    (f : Invocation σ ε Nat → Option (Invocation σ ε Nat)) : PooledNode σ ε :=
  ((w.calls[n]?).bind f).elim w (w.put n)

/-- Where call `n` is in the pipeline. -/
def proposing (w : PooledNode σ ε) (n : Nat) : Option Nat :=
  (w.calls[n]?).bind (·.phase.place)

variable [StorageEngine σ] [Snapshot σ] [RangeSnapshot σ]

omit [Snapshot σ] [RangeSnapshot σ] in
/-- `ProposeDirect` up to the send; `entryPool.Get` returns a pooled entry or makes one. -/
def propose (w : PooledNode σ ε) (n : Nat) (c : Invocation σ ε Nat) (s : Submission σ ε)
    (slot : Option Nat) : PooledNode σ ε :=
  put { w with
    pipeline := w.pipeline.step (.get s.proposal (slot.filter (· < w.pipeline.pool.length)))
    asks := w.asks ++ [s] } n { c with phase := .proposing w.pipeline.calls.length }

/-- `runOnce` from where the callback has returned. -/
def finish (w : PooledNode σ ε) (n : Nat) (wall : UInt64) (counter : UInt16) (slot : Option Nat) :
    PooledNode σ ε :=
  match w.calls[n]? with
  | none => w
  | some c =>
      match c.finish n wall counter with
      | none => w
      | some (.error e) => w.put n (c.conclude w.log.length e)
      | some (.ok s) => w.propose n c s slot

/-- `ProposeDirect` returns, if there is something in the slot. -/
def receive (w : PooledNode σ ε) (n : Nat) : PooledNode σ ε :=
  match w.calls[n]?, w.proposing n with
  | some c, some k =>
      let pipeline := w.pipeline.step (.receive k)
      match (pipeline.calls[k]?).map ProposeCall.phase with
      | some (.returned r) =>
          put { w with pipeline := pipeline } n (c.conclude w.log.length (.ofResult r))
      | _ => w
  | _, _ => w

omit [StorageEngine σ] [Snapshot σ] [RangeSnapshot σ] in
/-- What the entries were submitted with. -/
def submissions (w : PooledNode σ ε) (ts : List Ticket) : List (Submission σ ε) :=
  ts.filterMap fun t => w.asks[t.call]?

/-- The submissions of the batch with their answers. -/
def answers (w : PooledNode σ ε) : List (Submission σ ε × Answered) :=
  match w.pipeline.applier with
  | .select batch =>
      match batch.mapM fun t => w.pipeline.p t.entry with
      | some ps => (w.submissions batch).zip (w.pipeline.proposer.answered ps)
      | none => []
  | _ => []

def step (w : PooledNode σ ε) : PooledEvent ε → PooledNode σ ε
  | .runInTx f => { w with calls := w.calls ++ [⟨f, w.log.length, 0, .waiting⟩] }
  | .begin n => w.move n (Invocation.begin w.log.length w.pipeline.proposer.fsm.engine)
  | .request n => w.move n Invocation.request
  | .finish n wall counter slot => w.finish n wall counter slot
  | .submit n => (w.proposing n).elim w fun k =>
      { w with pipeline := w.pipeline.step (.submit k) }
  | .receive n => w.receive n
  | .again n => w.move n Invocation.again
  | .exhaust n => w.move n (Invocation.exhaust w.log.length)
  | .cancel n => w.move n (Invocation.cancel w.log.length)
  | .take => { w with pipeline := w.pipeline.step .take }
  | .flush => { w with pipeline := w.pipeline.step .flush, log := w.log ++ w.answers }
  | .deliver => { w with pipeline := w.pipeline.step .deliver }
  | .collect slot => { w with pipeline := w.pipeline.step (.collect slot) }

/-- The node after a run. -/
def after (proposer : DirectProposer σ) (events : List (PooledEvent ε)) : PooledNode σ ε :=
  events.foldl step (.open proposer)

omit [StorageEngine σ] [Snapshot σ] [RangeSnapshot σ] in
/-- No entry is submitted while a call still waits on it. -/
def Released (w : PooledNode σ ε) : PooledEvent ε → Prop
  | .submit n => ∀ k ∈ w.proposing n, w.pipeline.Released (.submit k)
  | _ => True

instance (w : PooledNode σ ε) : ∀ ev, Decidable (Released w ev)
  | .submit n => inferInstanceAs (Decidable (∀ k ∈ w.proposing n, w.pipeline.Released (.submit k)))
  | .runInTx _ | .begin _ | .request _ | .finish _ _ _ _ | .receive _ | .again _ | .exhaust _
  | .cancel _ | .take | .flush | .deliver | .collect _ => inferInstanceAs (Decidable True)

end PooledNode

/-! ## The view -/

section Map

variable {σ ε π ρ : Type} (f : π → ρ)

def TxPhase.map : TxPhase σ ε π → TxPhase σ ε ρ
  | .waiting => .waiting
  | .running since tx rest => .running since tx rest
  | .proposing x => .proposing (f x)
  | .conflicted => .conflicted
  | .returned o ended => .returned o ended

def Invocation.map (c : Invocation σ ε π) : Invocation σ ε ρ where
  callback := c.callback
  began := c.began
  attempts := c.attempts
  phase := c.phase.map f

variable (c : Invocation σ ε π)

theorem TxPhase.map_counts (ph : TxPhase σ ε π) :
    (ph.map f).succeeded = ph.succeeded ∧ (ph.map f).exhausted = ph.exhausted := by
  cases ph with
  | returned o ended =>
      cases o with
      | done wrote => exact ⟨rfl, rfl⟩
      | failed e => cases e <;> exact ⟨rfl, rfl⟩
  | _ => exact ⟨rfl, rfl⟩

namespace Invocation

theorem map_conclude (now : Nat) (e : Ending ε) :
    (c.conclude now e).map f = (c.map f).conclude now e := by
  cases e <;> rfl

variable [Snapshot σ]

theorem map_finish (n : Nat) (wall : UInt64) (counter : UInt16) :
    (c.map f).finish n wall counter = c.finish n wall counter := by
  obtain ⟨callback, began, attempts, phase⟩ := c
  cases phase with
  | running since tx rest =>
      cases rest with
      | ask q next => rfl
      | ret r =>
          cases r with
          | none => rfl
          | some e => cases e <;> rfl
  | _ => rfl

end Invocation

end Map

section Aside

variable {σ ε : Type}

/-- A step of a call outside of `ProposeDirect`: it does not matter how one waits there. -/
structure Aside (f : (π : Type) → Invocation σ ε π → Option (Invocation σ ε π)) : Prop where
  map : ∀ {π ρ : Type} (g : π → ρ) (c : Invocation σ ε π),
    f ρ (c.map g) = (f π c).map (Invocation.map g)
  place : ∀ {π : Type} {c c' : Invocation σ ε π}, f π c = some c' →
    c.phase.place = none ∧ c'.phase.place = none

theorem aside_begin (now : Nat) (engine : σ) :
    Aside fun π => Invocation.begin (ε := ε) (π := π) now engine where
  map := fun _ c => by
    obtain ⟨callback, began, attempts, phase⟩ := c
    cases phase <;> rfl
  place := fun {_ c _} h => by
    obtain ⟨callback, began, attempts, phase⟩ := c
    cases phase <;> cases h
    exact ⟨rfl, rfl⟩

theorem aside_request [Snapshot σ] [RangeSnapshot σ] :
    Aside fun π => Invocation.request (σ := σ) (ε := ε) (π := π) where
  map := fun _ c => by
    obtain ⟨callback, began, attempts, phase⟩ := c
    cases phase with
    | running since tx rest => cases rest <;> rfl
    | _ => rfl
  place := fun {_ c _} h => by
    obtain ⟨callback, began, attempts, phase⟩ := c
    cases phase with
    | running since tx rest =>
        cases rest <;> cases h
        exact ⟨rfl, rfl⟩
    | _ => cases h

theorem aside_again : Aside fun π => Invocation.again (σ := σ) (ε := ε) (π := π) where
  map := fun _ c => by
    obtain ⟨callback, began, attempts, phase⟩ := c
    cases phase <;> rfl
  place := fun {_ c _} h => by
    obtain ⟨callback, began, attempts, phase⟩ := c
    cases phase <;> cases h
    exact ⟨rfl, rfl⟩

theorem aside_exhaust (now : Nat) :
    Aside fun π => Invocation.exhaust (σ := σ) (ε := ε) (π := π) now where
  map := fun _ c => by
    obtain ⟨callback, began, attempts, phase⟩ := c
    cases phase <;> rfl
  place := fun {_ c _} h => by
    obtain ⟨callback, began, attempts, phase⟩ := c
    cases phase <;> cases h
    exact ⟨rfl, rfl⟩

theorem aside_cancel (now : Nat) :
    Aside fun π => Invocation.cancel (σ := σ) (ε := ε) (π := π) now where
  map := fun _ c => by
    obtain ⟨callback, began, attempts, phase⟩ := c
    cases phase <;> rfl
  place := fun {_ c _} h => by
    obtain ⟨callback, began, attempts, phase⟩ := c
    cases phase <;> cases h <;> exact ⟨rfl, rfl⟩

end Aside

namespace PooledNode

variable {σ ε : Type}

/-- What `ProposeDirect` number `k` is to its caller. -/
def mail (w : PooledNode σ ε) (k : Nat) : Mail σ ε :=
  match w.pipeline.computed k, w.asks[k]? with
  | some (_, r), _ => .answered r
  | none, some s =>
      if ((w.pipeline.calls[k]?).bind (·.phase.held)).isSome then .ready s else .queued s
  | none, none => .answered .conflicted

/-- The node as its callers see it. -/
def view (w : PooledNode σ ε) : TxNode σ ε where
  calls := w.calls.map (Invocation.map w.mail)
  transactionsTotal := w.transactionsTotal
  conflictExhausted := w.conflictExhausted
  proposer := w.pipeline.proposer
  submitCh := w.submissions (w.pipeline.applier.batch ++ w.pipeline.submitCh)
  log := w.log

theorem submissions_append (w : PooledNode σ ε) (ts us : List Ticket) :
    w.submissions (ts ++ us) = w.submissions ts ++ w.submissions us := List.filterMap_append

theorem submissions_cons {w : PooledNode σ ε} {t : Ticket} {s : Submission σ ε}
    (hs : w.asks[t.call]? = some s) (ts : List Ticket) :
    w.submissions (t :: ts) = s :: w.submissions ts := by
  rw [submissions, List.filterMap_cons, hs]
  rfl

theorem view_put (w : PooledNode σ ε) (n : Nat) (c : Invocation σ ε Nat) :
    (w.put n c).view = w.view.put n (c.map w.mail) := by
  have hcounts := c.phase.map_counts w.mail
  rw [put, TxNode.put, Calls.put, Calls.put, view]
  simp only [List.map_set, Invocation.map, hcounts]
  rfl

theorem getElem?_view (w : PooledNode σ ε) (n : Nat) :
    w.view.calls[n]? = (w.calls[n]?).map (Invocation.map w.mail) := List.getElem?_map

theorem call_view {w : PooledNode σ ε} {n : Nat} {c : Invocation σ ε Nat}
    (hc : w.calls[n]? = some c) : w.view.calls[n]? = some (c.map w.mail) := by
  rw [getElem?_view, hc]
  rfl

end PooledNode

/-! ## What links the calls to the pipeline -/

section Active

variable {calls : List ProposeCall} {k : Nat} {c c' : ProposeCall}

/-- `ProposeDirect` number `k` has not returned. -/
def ActiveIn (calls : List ProposeCall) (k : Nat) : Prop :=
  ∃ c, calls[k]? = some c ∧ ∀ r, c.phase ≠ .returned r

theorem activeIn_concat (hc : ∀ r, c.phase ≠ .returned r) (j : Nat) :
    ActiveIn (calls ++ [c]) j ↔ j = calls.length ∨ ActiveIn calls j := by
  constructor
  · rintro ⟨d, hd, hopen⟩
    rcases Runs.getElem?_concat_cases hd with ⟨hj, -⟩ | ⟨-, hd⟩
    · exact Or.inl hj
    · exact Or.inr ⟨d, hd, hopen⟩
  · rintro (rfl | ⟨d, hd, hopen⟩)
    · exact ⟨c, List.getElem?_concat_length, hc⟩
    · exact ⟨d, (List.getElem?_append_left (List.getElem?_eq_some_iff.mp hd).1).trans hd, hopen⟩

theorem activeIn_set (hc : calls[k]? = some c) (hopen : ∀ r, c.phase ≠ .returned r)
    (hopen' : ∀ r, c'.phase ≠ .returned r) (j : Nat) :
    ActiveIn (calls.set k c') j ↔ ActiveIn calls j := by
  constructor
  · rintro ⟨d, hd, hd'⟩
    rcases Runs.getElem?_set_cases hd with ⟨rfl, -⟩ | ⟨-, hd⟩
    · exact ⟨c, hc, hopen⟩
    · exact ⟨d, hd, hd'⟩
  · rintro ⟨d, hd, hd'⟩
    by_cases hj : j = k
    · subst hj
      exact ⟨c', List.getElem?_set_self (List.getElem?_eq_some_iff.mp hc).1, hopen'⟩
    · exact ⟨d, (List.getElem?_set_ne (Ne.symm hj)).trans hd, hd'⟩

theorem activeIn_returned {r : ApplyResult} (hc' : c'.phase = .returned r) (j : Nat) :
    ActiveIn (calls.set k c') j ↔ j ≠ k ∧ ActiveIn calls j := by
  constructor
  · rintro ⟨d, hd, hopen⟩
    rcases Runs.getElem?_set_cases hd with ⟨-, rfl⟩ | ⟨hj, hd⟩
    · exact absurd hc' (hopen r)
    · exact ⟨hj, d, hd, hopen⟩
  · rintro ⟨hj, d, hd, hopen⟩
    exact ⟨d, (List.getElem?_set_ne (Ne.symm hj)).trans hd, hopen⟩

end Active

namespace Pipeline

variable {σ : Type}

/-- It has not been called, or not been judged. -/
def Unjudged (w : Pipeline σ) (k : Nat) : Prop :=
  w.calls[k]? = none ∨ (∃ p e, w.calls[k]? = some ⟨p, .holding e⟩) ∨
    ∃ t ∈ w.unjudged, t.call = k

namespace Unjudged

variable {w d : Pipeline σ} {j k : Nat} {c : ProposeCall}

theorem of_get (hd : Beside w d) (hcalls : d.calls = w.calls ++ [c]) (h : d.Unjudged j) :
    w.Unjudged j := by
  rcases h with h | ⟨p, e, h⟩ | h
  · rw [hcalls, Runs.getElem?_concat] at h
    split at h
    · cases h
    · exact Or.inl h
  · rw [hcalls] at h
    rcases Runs.getElem?_concat_cases h with ⟨rfl, -⟩ | ⟨-, h⟩
    · exact Or.inl (List.getElem?_eq_none (Nat.le_refl _))
    · exact Or.inr (Or.inl ⟨p, e, h⟩)
  · rw [Entries.unjudged, hd.submitCh_eq, hd.batch_eq] at h
    exact Or.inr (Or.inr h)

theorem of_submit {t : Ticket} (hj : j ≠ t.call)
    (h : Unjudged { w with submitCh := w.submitCh ++ [t], calls := w.calls.set t.call c } j) :
    w.Unjudged j := by
  have hsame : (w.calls.set t.call c)[j]? = w.calls[j]? := List.getElem?_set_ne (Ne.symm hj)
  rcases h with h | ⟨p, e, h⟩ | ⟨u, hu, hcall⟩
  · exact Or.inl (hsame.symm.trans h)
  · exact Or.inr (Or.inl ⟨p, e, hsame.symm.trans h⟩)
  · refine Or.inr (Or.inr ⟨u, ?_, hcall⟩)
    rcases List.mem_cons.mp ((Entries.perm_submit _ _ _).mem_iff.mp hu) with rfl | hu
    · exact absurd hcall.symm hj
    · exact hu

theorem of_receive {resultCh : Nat → Option (Nat × ApplyResult)} (hc : ∀ e, c.phase ≠ .holding e)
    (h : Unjudged { w with resultCh := resultCh, calls := w.calls.set k c } j) :
    w.Unjudged j := by
  rcases h with h | ⟨p, e, h⟩ | h
  · change (w.calls.set k c)[j]? = none at h
    rw [List.getElem?_eq_none_iff, List.length_set] at h
    exact Or.inl (List.getElem?_eq_none_iff.mpr h)
  · rcases Runs.getElem?_set_cases h with ⟨-, heq⟩ | ⟨-, h⟩
    · exact absurd (congrArg ProposeCall.phase heq).symm (hc e)
    · exact Or.inr (Or.inl ⟨p, e, h⟩)
  · exact Or.inr (Or.inr h)

theorem of_take {batch rest : List Ticket} {t : Ticket} (ha : w.applier = .select batch)
    (hs : w.submitCh = t :: rest)
    (h : Unjudged { w with submitCh := rest, applier := .select (batch ++ [t]) } j) :
    w.Unjudged j := by
  refine h.imp_right (Or.imp_right ?_)
  rintro ⟨u, hu, hcall⟩
  refine ⟨u, ?_, hcall⟩
  rw [Entries.unjudged, ha]
  exact (Entries.perm_take batch hs).subset hu

end Unjudged

end Pipeline

namespace PooledNode

variable {σ ε : Type}

/-- Each call in `ProposeDirect` has its own, which was called with its submission. -/
structure Linked (w : PooledNode σ ε) : Prop where
  accounted : w.pipeline.Accounted
  asks_eq : w.asks.map Submission.proposal = w.pipeline.calls.map ProposeCall.proposal
  callers : ∀ n k, w.proposing n = some k ↔
    ActiveIn w.pipeline.calls k ∧ (w.asks[k]?).map Submission.call = some n
  unjudged : ∀ k, w.pipeline.Unjudged k → w.pipeline.computed k = none

theorem Linked.asked {w : PooledNode σ ε} (h : Linked w) {k : Nat} {q : ProposeCall}
    (hq : w.pipeline.calls[k]? = some q) : ∃ s, w.asks[k]? = some s ∧ s.proposal = q.proposal := by
  have hk := congrArg (·[k]?) h.asks_eq
  simp only [List.getElem?_map, hq, Option.map_some] at hk
  exact Option.map_eq_some_iff.mp hk

theorem proposing_put {w : PooledNode σ ε} {n : Nat} {c : Invocation σ ε Nat}
    (hc : w.calls[n]? = some c) (c' : Invocation σ ε Nat) (m : Nat) :
    (w.put n c').proposing m = if m = n then c'.phase.place else w.proposing m := by
  show ((w.calls.set n c')[m]?).bind _ = _
  split
  · rename_i hm
    rw [hm, List.getElem?_set_self (List.getElem?_eq_some_iff.mp hc).1]
    rfl
  · rename_i hm
    rw [List.getElem?_set_ne (Ne.symm hm)]
    rfl

theorem Linked.put {w : PooledNode σ ε} (h : Linked w) {n : Nat} {c c' : Invocation σ ε Nat}
    (hc : w.calls[n]? = some c) (hplace : c.phase.place = none) (hplace' : c'.phase.place = none) :
    Linked (w.put n c') := by
  refine ⟨h.accounted, h.asks_eq, fun m k => ?_, h.unjudged⟩
  show (w.put n c').proposing m = some k ↔ _
  rw [proposing_put hc]
  split
  · rename_i hm
    have hn : w.proposing n = c.phase.place := by rw [proposing, hc]; rfl
    rw [hplace', ← hplace, ← hn, ← hm]
    exact h.callers m k
  · exact h.callers m k

theorem Linked.aside {w : PooledNode σ ε} (h : Linked w) (n : Nat)
    {f : (π : Type) → Invocation σ ε π → Option (Invocation σ ε π)} (hf : Aside f) :
    Linked (w.move n (f Nat)) ∧ (w.move n (f Nat)).view = w.view.move n (f (Mail σ ε)) := by
  rw [move, TxNode.move, getElem?_view]
  cases hc : w.calls[n]? with
  | none => exact ⟨h, rfl⟩
  | some c =>
      rw [Option.map_some, Option.bind_some, Option.bind_some, hf.map]
      cases hc' : f Nat c with
      | none => exact ⟨h, rfl⟩
      | some c' => exact ⟨h.put hc (hf.place hc').1 (hf.place hc').2, w.view_put n c'⟩

theorem Linked.of_calls_eq {w : PooledNode σ ε} (h : Linked w) {d : Pipeline σ}
    (hacc : d.Accounted) (hcalls : d.calls = w.pipeline.calls)
    (hunjudged : ∀ k, d.Unjudged k → d.computed k = none)
    (log : List (Submission σ ε × Answered)) : Linked { w with pipeline := d, log := log } where
  accounted := hacc
  asks_eq := by
    show _ = d.calls.map _
    rw [hcalls]
    exact h.asks_eq
  callers := by
    intro n k
    show w.proposing n = some k ↔ ActiveIn d.calls k ∧ _
    rw [hcalls]
    exact h.callers n k
  unjudged := hunjudged

/-- Nobody sees where in the pipeline an entry is, as long as it is to be judged. -/
theorem view_of_calls_eq {w : PooledNode σ ε} {d : Pipeline σ}
    (hproposer : d.proposer = w.pipeline.proposer) (hcalls : d.calls = w.pipeline.calls)
    (hcomputed : d.computed = w.pipeline.computed)
    (hqueue : d.applier.batch ++ d.submitCh = w.pipeline.applier.batch ++ w.pipeline.submitCh) :
    view { w with pipeline := d } = w.view := by
  have hmail : mail { w with pipeline := d } = w.mail := by
    funext k
    rw [mail, mail, hcomputed, hcalls]
  rw [view, view, hmail, hproposer, hqueue]
  rfl

theorem mail_submit {w : PooledNode σ ε} (h : Linked w) {k : Nat} {p : Proposal} {e : Nat}
    {s : Submission σ ε} (hq : w.pipeline.calls[k]? = some ⟨p, .holding e⟩)
    (hs : w.asks[k]? = some s) (submitCh : List Ticket) :
    mail { w with pipeline := { w.pipeline with
      submitCh := submitCh, calls := w.pipeline.calls.set k ⟨p, .waiting e⟩ } } =
      Function.update w.mail k (.queued s) := by
  have hnone := h.unjudged k (Or.inr (Or.inl ⟨p, e, hq⟩))
  funext j
  by_cases hj : j = k
  · subst hj
    rw [Function.update_self, mail]
    simp only [hnone, hs, List.getElem?_set_self (List.getElem?_eq_some_iff.mp hq).1]
    rfl
  · rw [Function.update_of_ne hj, mail, mail]
    simp only [List.getElem?_set_ne (Ne.symm hj)]

theorem proposing_eq_some {w : PooledNode σ ε} {n k : Nat} :
    w.proposing n = some k ↔ ∃ c, w.calls[n]? = some c ∧ c.phase = .proposing k := by
  constructor
  · intro h
    obtain ⟨c, hc, hplace⟩ := Option.bind_eq_some_iff.mp h
    refine ⟨c, hc, ?_⟩
    cases hphase : c.phase with
    | proposing j =>
        rw [hphase] at hplace
        rw [Option.some.inj hplace]
    | _ =>
        rw [hphase] at hplace
        cases hplace
  · rintro ⟨c, hc, hphase⟩
    rw [proposing, hc, Option.bind_some, hphase]
    rfl

theorem Linked.map_update {w : PooledNode σ ε} (h : Linked w) {n k : Nat}
    {c : Invocation σ ε Nat} (hc : w.calls[n]? = some c) (hphase : c.phase = .proposing k)
    (f : Nat → Mail σ ε) (x : Mail σ ε) :
    w.calls.map (Invocation.map (Function.update f k x)) =
      (w.calls.map (Invocation.map f)).set n { c.map f with phase := .proposing x } := by
  refine List.ext_getElem? fun m => ?_
  rw [List.getElem?_set, List.getElem?_map, List.getElem?_map, List.length_map]
  by_cases hm : n = m
  · subst hm
    rw [if_pos rfl, if_pos (List.getElem?_eq_some_iff.mp hc).1, hc, Option.map_some]
    simp only [Invocation.map, hphase, TxPhase.map, Function.update_self]
  · rw [if_neg hm]
    cases hd : w.calls[m]? with
    | none => rfl
    | some d =>
        -- another call waits in another one
        have hother : d.phase ≠ .proposing k := by
          intro hdk
          have hn := ((h.callers n k).mp (proposing_eq_some.mpr ⟨c, hc, hphase⟩)).2
          have hm' := ((h.callers m k).mp (proposing_eq_some.mpr ⟨d, hd, hdk⟩)).2
          exact hm (Option.some.inj (hn.symm.trans hm'))
        have hsame : d.phase.map (Function.update f k x) = d.phase.map f := by
          cases hdp : d.phase with
          | proposing j =>
              have hj : j ≠ k := by
                rintro rfl
                exact hother hdp
              show TxPhase.proposing _ = TxPhase.proposing _
              rw [Function.update_of_ne hj]
          | _ => rfl
        simp only [Option.map_some, Invocation.map, hsame]

theorem Linked.view_submit {w : PooledNode σ ε} (h : Linked w) {n k e : Nat} {p : Proposal}
    {c : Invocation σ ε Nat} (hc : w.calls[n]? = some c) (hphase : c.phase = .proposing k)
    (hq : w.pipeline.calls[k]? = some ⟨p, .holding e⟩) :
    view { w with pipeline := { w.pipeline with
      submitCh := w.pipeline.submitCh ++ [⟨e, k⟩]
      calls := w.pipeline.calls.set k ⟨p, .waiting e⟩ } } = w.view.submit n := by
  obtain ⟨s, hs, -⟩ := h.asked hq
  have hnone := h.unjudged k (Or.inr (Or.inl ⟨p, e, hq⟩))
  have hmail : w.mail k = .ready s := by
    simp only [mail, hnone, hs, hq]
    rfl
  have hready : (c.map w.mail).phase = .proposing (.ready s) := by
    rw [Invocation.map, hphase, ← hmail]
    rfl
  have hqueue : w.submissions (w.pipeline.applier.batch ++
      (w.pipeline.submitCh ++ [⟨e, k⟩])) = w.view.submitCh ++ [s] := by
    rw [← List.append_assoc, submissions_append, submissions_cons hs]
    rfl
  simp only [TxNode.submit, call_view hc, hready]
  rw [view, mail_submit h hq hs, h.map_update hc hphase]
  exact congrArg (fun queue => TxNode.put { w.view with submitCh := queue } n
    { c.map w.mail with phase := .proposing (.queued s) }) hqueue

theorem mail_receive {w : PooledNode σ ε} {k : Nat} {x : Proposal × ApplyResult}
    (hown : w.pipeline.computed k = some x) (resultCh : Nat → Option (Nat × ApplyResult))
    (q : ProposeCall) :
    mail { w with pipeline := { w.pipeline with
      resultCh := resultCh, calls := w.pipeline.calls.set k q } } = w.mail := by
  funext j
  by_cases hj : j = k
  · subst hj
    simp only [mail, hown]
  · simp only [mail, List.getElem?_set_ne (Ne.symm hj)]

theorem view_receive {w : PooledNode σ ε} {n k : Nat} {c : Invocation σ ε Nat}
    (hc : w.calls[n]? = some c) (hphase : c.phase = .proposing k) {p : Proposal} {r : ApplyResult}
    (hown : w.pipeline.computed k = some (p, r)) (resultCh : Nat → Option (Nat × ApplyResult))
    (q : ProposeCall) :
    (put { w with pipeline := { w.pipeline with
      resultCh := resultCh, calls := w.pipeline.calls.set k q } } n
      (c.conclude w.log.length (.ofResult r))).view = w.view.move n w.view.receive := by
  have hanswered : (c.map w.mail).phase = .proposing (.answered r) := by
    rw [Invocation.map, hphase]
    show TxPhase.proposing (w.mail k) = _
    simp only [mail, hown]
  rw [view_put, mail_receive hown, Invocation.map_conclude]
  simp only [TxNode.move, call_view hc, Option.bind_some, TxNode.receive, hanswered,
    Option.elim_some]
  rw [view, mail_receive hown]
  rfl

theorem Linked.callers_receive {w : PooledNode σ ε} (h : Linked w) {n k : Nat}
    {c c' : Invocation σ ε Nat} (hc : w.calls[n]? = some c) (hk : w.proposing n = some k)
    (hplace : c'.phase.place = none) {q : ProposeCall} {r : ApplyResult}
    (hq : q.phase = .returned r) (m j : Nat) :
    (w.put n c').proposing m = some j ↔ ActiveIn (w.pipeline.calls.set k q) j ∧
      (w.asks[j]?).map Submission.call = some m := by
  rw [activeIn_returned hq, proposing_put hc, hplace]
  split
  · rename_i hm
    subst hm
    refine ⟨fun hnone => (by cases hnone), ?_⟩
    rintro ⟨⟨hj, hactive⟩, hcall⟩
    have hj' := (h.callers m j).mpr ⟨hactive, hcall⟩
    rw [hk] at hj'
    exact absurd (Option.some.inj hj').symm hj
  · rename_i hm
    rw [h.callers m j]
    refine ⟨fun hold => ⟨⟨?_, hold.1⟩, hold.2⟩, fun hnew => ⟨hnew.1.2, hnew.2⟩⟩
    rintro rfl
    exact hm (Option.some.inj (hold.2.symm.trans ((h.callers n j).mp hk).2))

theorem Linked.length_asks {w : PooledNode σ ε} (h : Linked w) :
    w.asks.length = w.pipeline.calls.length := by
  have hlen := congrArg List.length h.asks_eq
  rwa [List.length_map, List.length_map] at hlen

theorem Linked.lt_of_proposing {w : PooledNode σ ε} (h : Linked w) {n k : Nat}
    (hk : w.proposing n = some k) : k < w.pipeline.calls.length := by
  obtain ⟨⟨q, hq, -⟩, -⟩ := (h.callers n k).mp hk
  exact (List.getElem?_eq_some_iff.mp hq).1

theorem Linked.lt_of_ticket {w : PooledNode σ ε} (h : Linked w) {t : Ticket}
    (ht : t ∈ w.pipeline.unjudged) :
    t.call < w.pipeline.calls.length := by
  obtain ⟨-, p, hq, -⟩ := h.accounted.of_unjudged ht
  exact (List.getElem?_eq_some_iff.mp hq).1

theorem Linked.map_congr {w : PooledNode σ ε} (h : Linked w) {f g : Nat → Mail σ ε}
    (hfg : ∀ k < w.pipeline.calls.length, f k = g k) :
    w.calls.map (Invocation.map f) = w.calls.map (Invocation.map g) := by
  refine List.map_congr_left fun c hc => ?_
  obtain ⟨n, hn⟩ := List.getElem?_of_mem hc
  have hphase : c.phase.map f = c.phase.map g := by
    cases hk : c.phase with
    | proposing k =>
        have hlt := h.lt_of_proposing (proposing_eq_some.mpr ⟨c, hn, hk⟩)
        exact congrArg TxPhase.proposing (hfg k hlt)
    | _ => rfl
  rw [Invocation.map, Invocation.map, hphase]

section Propose

variable {w : PooledNode σ ε} (h : Linked w) (s : Submission σ ε)

include h

/-- The submissions there were keep their places. -/
theorem Linked.asks_of_lt {k : Nat} (hk : k < w.pipeline.calls.length) :
    (w.asks ++ [s])[k]? = w.asks[k]? :=
  List.getElem?_append_left (h.length_asks ▸ hk)

theorem Linked.asks_length : (w.asks ++ [s])[w.pipeline.calls.length]? = some s := by
  rw [← h.length_asks]
  exact List.getElem?_concat_length

theorem Linked.callers_propose {n : Nat} {c : Invocation σ ε Nat} (hc : w.calls[n]? = some c)
    (hplace : c.phase.place = none) (hs : s.call = n) {q : ProposeCall}
    (hq : ∀ r, q.phase ≠ .returned r) (m k : Nat) :
    (w.put n { c with phase := .proposing w.pipeline.calls.length }).proposing m = some k ↔
      ActiveIn (w.pipeline.calls ++ [q]) k ∧
        ((w.asks ++ [s])[k]?).map Submission.call = some m := by
  have hn : w.proposing n = none := by rw [proposing, hc]; exact hplace
  -- a submission that was there is its caller's, as before
  have hold : ActiveIn w.pipeline.calls k →
      (((w.asks ++ [s])[k]?).map Submission.call = some m ↔ w.proposing m = some k) := by
    intro hactive
    obtain ⟨x, hx, -⟩ := id hactive
    rw [h.asks_of_lt s (List.getElem?_eq_some_iff.mp hx).1, h.callers m k]
    exact (and_iff_right hactive).symm
  rw [proposing_put hc, activeIn_concat hq]
  constructor
  · intro hk
    split at hk
    · rename_i hm
      cases hk
      exact ⟨Or.inl rfl, by rw [h.asks_length, hm, ← hs]; rfl⟩
    · have hactive := ((h.callers m k).mp hk).1
      exact ⟨Or.inr hactive, (hold hactive).mpr hk⟩
  · rintro ⟨rfl | hactive, hcall⟩
    · rw [h.asks_length, Option.map_some, hs] at hcall
      rw [if_pos (Option.some.inj hcall).symm]
      rfl
    · have hk := (hold hactive).mp hcall
      split
      · rename_i hm
        rw [hm, hn] at hk
        cases hk
      · exact hk

/-- A new call of `ProposeDirect` changes nothing for the others, and has an entry to send. -/
theorem Linked.view_get {d : Pipeline σ} (hd : Pipeline.Beside w.pipeline d) {p : Proposal}
    {e : Nat} (hcalls : d.calls = w.pipeline.calls ++ [⟨p, .holding e⟩]) :
    view { w with pipeline := d, asks := w.asks ++ [s] } = w.view ∧
      mail { w with pipeline := d, asks := w.asks ++ [s] } w.pipeline.calls.length = .ready s := by
  have hmail : ∀ k < w.pipeline.calls.length,
      mail { w with pipeline := d, asks := w.asks ++ [s] } k = w.mail k := by
    intro k hk
    simp only [mail, hd.computed_eq, h.asks_of_lt s hk, hcalls, List.getElem?_append_left hk]
  have hqueue : submissions { w with pipeline := d, asks := w.asks ++ [s] }
      (d.applier.batch ++ d.submitCh) = w.view.submitCh := by
    rw [hd.batch_eq, hd.submitCh_eq]
    refine List.filterMap_congr fun t ht => h.asks_of_lt s (h.lt_of_ticket ?_)
    exact List.mem_append.mpr (List.mem_append.mp ht).symm
  constructor
  · rw [view, view, h.map_congr hmail, hd.proposer_eq]
    exact congrArg (fun q => { w.view with submitCh := q }) hqueue
  · have hnone := h.unjudged w.pipeline.calls.length
      (Or.inl (List.getElem?_eq_none (Nat.le_refl _)))
    simp only [mail, hd.computed_eq, hnone, h.asks_length, hcalls, List.getElem?_concat_length]
    rfl

end Propose

/-! ## Steps of the pipeline -/

variable [StorageEngine σ]

theorem Linked.beside {w : PooledNode σ ε} (h : Linked w) {ev : PipelineEvent}
    (hrel : w.pipeline.Released ev) (hbeside : Pipeline.Beside w.pipeline (w.pipeline.step ev))
    (hcalls : (w.pipeline.step ev).calls = w.pipeline.calls) :
    Linked { w with pipeline := w.pipeline.step ev } ∧
      view { w with pipeline := w.pipeline.step ev } = w.view := by
  refine ⟨h.of_calls_eq (h.accounted.step hrel) hcalls (fun k hk => ?_) w.log,
    view_of_calls_eq hbeside.proposer_eq hcalls hbeside.computed_eq ?_⟩
  · rw [Pipeline.Unjudged, Entries.unjudged, hcalls, hbeside.submitCh_eq, hbeside.batch_eq] at hk
    rw [hbeside.computed_eq]
    exact h.unjudged k hk
  · rw [hbeside.batch_eq, hbeside.submitCh_eq]

theorem Linked.take {w : PooledNode σ ε} (h : Linked w) :
    Linked { w with pipeline := w.pipeline.step .take } ∧
      view { w with pipeline := w.pipeline.step .take } = w.view := by
  have hacc : (w.pipeline.step .take).Accounted := h.accounted.step trivial
  rcases w.pipeline.take_cases with hidle | ⟨batch, t, rest, ha, hs, heq⟩
  · rw [hidle]
    exact ⟨h, rfl⟩
  · rw [heq] at hacc ⊢
    refine ⟨h.of_calls_eq hacc rfl (fun k hk => ?_) w.log, view_of_calls_eq rfl rfl rfl ?_⟩
    · exact h.unjudged k (hk.of_take ha hs)
    · rw [ha, hs]
      exact List.append_assoc _ _ _

theorem Linked.submit {w : PooledNode σ ε} (h : Linked w) {n k : Nat}
    (hk : w.proposing n = some k) (hrel : w.pipeline.Released (.submit k)) :
    let w' := { w with pipeline := w.pipeline.step (.submit k) }
    Linked w' ∧ (w'.view = w.view ∨ w'.view = w.view.submit n) := by
  intro w'
  have hacc := h.accounted.step hrel
  obtain ⟨c, hc, hphase⟩ := proposing_eq_some.mp hk
  rcases w.pipeline.submit_cases k with hidle | ⟨p, e, hq, heq⟩
  · have hsame : w' = w := by
      show { w with pipeline := w.pipeline.step (.submit k) } = w
      rw [hidle]
    rw [hsame]
    exact ⟨h, Or.inl rfl⟩
  · have hw' : w' = { w with pipeline := { w.pipeline with
        submitCh := w.pipeline.submitCh ++ [⟨e, k⟩]
        calls := w.pipeline.calls.set k ⟨p, .waiting e⟩ } } := by
      show { w with pipeline := w.pipeline.step (.submit k) } = _
      rw [heq]
    rw [heq] at hacc
    rw [hw']
    refine ⟨⟨hacc, ?_, fun m j => ?_, fun j hj => ?_⟩, Or.inr (h.view_submit hc hphase hq)⟩
    · refine h.asks_eq.trans (Runs.map_set_of_eq hq ?_).symm
      rfl
    · refine (h.callers m j).trans (and_congr_left' ?_)
      exact (activeIn_set hq (fun _ hr => by cases hr) (fun _ hr => by cases hr) j).symm
    · by_cases hjk : j = k
      · rw [hjk]
        exact h.unjudged k (Or.inr (Or.inl ⟨p, e, hq⟩))
      · exact h.unjudged j (hj.of_submit hjk)

theorem Linked.receive {w : PooledNode σ ε} (h : Linked w) (n : Nat) :
    Linked (w.receive n) ∧ ((w.receive n).view = w.view ∨
      (w.receive n).view = w.view.move n w.view.receive) := by
  rw [PooledNode.receive]
  split
  · rename_i c k hc hk
    obtain ⟨d, hd, hphase⟩ := proposing_eq_some.mp hk
    cases hc.symm.trans hd
    have hacc : (w.pipeline.step (.receive k)).Accounted := h.accounted.step trivial
    rcases w.pipeline.receive_cases k with hidle | ⟨p, e, m, r, hq, hch, heq⟩
    · simp only [hidle]
      split
      · rename_i r hr
        obtain ⟨q, hq, hqr⟩ := Option.map_eq_some_iff.mp hr
        obtain ⟨⟨q', hq', hopen⟩, -⟩ := (h.callers n k).mp hk
        cases hq.symm.trans hq'
        exact absurd hqr (hopen r)
      · exact ⟨h, Or.inl rfl⟩
    · have hown := h.accounted.own_result hq hch
      rw [heq] at hacc
      have hself : (w.pipeline.calls.set k ⟨p, .returned r⟩)[k]? = some ⟨p, .returned r⟩ :=
        List.getElem?_set_self (List.getElem?_eq_some_iff.mp hq).1
      simp only [heq, hself, Option.map_some]
      have hplace : (c.conclude w.log.length (.ofResult r)).phase.place = none := by
        cases Ending.ofResult (ε := ε) r <;> rfl
      have hasks : w.asks.map Submission.proposal =
          (w.pipeline.calls.set k ⟨p, .returned r⟩).map ProposeCall.proposal := by
        refine h.asks_eq.trans (Runs.map_set_of_eq hq ?_).symm
        rfl
      refine ⟨⟨hacc, hasks, h.callers_receive hc hk hplace rfl, fun j hj => ?_⟩,
        Or.inr (view_receive hc hphase hown _ _)⟩
      exact h.unjudged j (hj.of_receive fun _ hp => by cases hp)
  · exact ⟨h, Or.inl rfl⟩

theorem Linked.propose {w : PooledNode σ ε} (h : Linked w) {n : Nat} {c : Invocation σ ε Nat}
    (hc : w.calls[n]? = some c) (hplace : c.phase.place = none) {s : Submission σ ε}
    (hs : s.call = n) (slot : Option Nat) :
    Linked (w.propose n c s slot) ∧ (w.propose n c s slot).view =
      w.view.put n { c.map w.mail with phase := .proposing (.ready s) } := by
  have hslot : ∀ i ∈ slot.filter (· < w.pipeline.pool.length), i < w.pipeline.pool.length := by
    intro i hi
    exact of_decide_eq_true (Option.mem_filter_iff.mp hi).2
  obtain ⟨hbeside, e, hcalls⟩ := w.pipeline.get_spec s.proposal hslot
  have hacc := h.accounted.get s.proposal (slot.filter (· < w.pipeline.pool.length))
  rw [PooledNode.propose]
  generalize w.pipeline.step (.get s.proposal _) = d at hbeside hcalls hacc
  obtain ⟨hview, hready⟩ := h.view_get s hbeside hcalls
  refine ⟨⟨hacc, ?_, fun m k => ?_, fun k hk => ?_⟩, ?_⟩
  · show (w.asks ++ [s]).map _ = d.calls.map _
    rw [hcalls, List.map_append, List.map_append, h.asks_eq]
    rfl
  · show _ ↔ ActiveIn d.calls k ∧ _
    rw [hcalls]
    exact h.callers_propose s hc hplace hs (fun _ hr => by cases hr) m k
  · exact (congrFun hbeside.computed_eq k).trans (h.unjudged k (hk.of_get hbeside hcalls))
  · rw [view_put, hview]
    congr 1
    simp only [Invocation.map, TxPhase.map, hready]

end PooledNode

/-! ## The answers of a batch -/

section Updates

variable {A B : Type} {key : A → Nat} {val : A → B}

theorem foldl_update_of_not_mem {l : List A} {k : Nat} (h : ∀ x ∈ l, key x ≠ k) :
    ∀ f : Nat → B, l.foldl (fun f x => Function.update f (key x) (val x)) f k = f k := by
  induction l with
  | nil => exact fun _ => rfl
  | cons x l ih =>
      intro f
      rw [List.forall_mem_cons] at h
      exact (ih h.2 _).trans (Function.update_of_ne (Ne.symm h.1) _ _)

theorem foldl_update_of_mem {l : List A} (h : ∀ x ∈ l, ∀ y ∈ l, key x = key y → x = y) {x : A}
    (hx : x ∈ l) : ∀ f : Nat → B,
      l.foldl (fun f x => Function.update f (key x) (val x)) f (key x) = val x := by
  induction l using List.reverseRecOn with
  | nil => exact absurd hx List.not_mem_nil
  | append_singleton l y ih =>
      intro f
      rw [List.foldl_append, List.foldl_cons, List.foldl_nil]
      by_cases hxy : key x = key y
      · have heq := h x hx y (List.mem_append_right _ (List.mem_singleton_self y)) hxy
        rw [hxy, Function.update_self, heq]
      · have hmem : x ∈ l := by
          rcases List.mem_append.mp hx with hx | hx
          · exact hx
          · exact absurd (congrArg key (List.mem_singleton.mp hx)) hxy
        rw [Function.update_of_ne hxy]
        exact ih (fun a ha b hb => h a (List.mem_append_left _ ha) b (List.mem_append_left _ hb))
          hmem f

end Updates

namespace PooledNode

variable {σ ε : Type}

/-- The answers of a batch, as the calls find them. -/
def deliveredTo (f : Nat → Mail σ ε) (out : List (Ticket × ApplyResult)) : Nat → Mail σ ε :=
  out.foldl (fun f x => Function.update f x.1.call (.answered x.2)) f

theorem Linked.settleAll {w : PooledNode σ ε} (h : Linked w) (batch : List Ticket) :
    ∀ {as : List Answered} {f : Nat → Mail σ ε} {v : TxNode σ ε} {rest : List (Submission σ ε)},
      as.length = batch.length → (∀ t ∈ batch, ActiveIn w.pipeline.calls t.call) →
      v.calls = w.calls.map (Invocation.map f) →
      v.submitCh = w.submissions batch ++ rest →
      as.foldl TxNode.settle v = { v with
        calls := w.calls.map (Invocation.map (deliveredTo f (batch.zip (as.map Answered.result))))
        submitCh := rest
        log := v.log ++ (w.submissions batch).zip as } := by
  induction batch with
  | nil =>
      intro as f v rest hlen _ hcalls hqueue
      rw [List.length_eq_zero_iff.mp hlen]
      show v = { v with calls := _, submitCh := _, log := v.log ++ [] }
      rw [List.append_nil]
      show v = { v with calls := w.calls.map (Invocation.map f), submitCh := rest }
      rw [← hcalls, ← show v.submitCh = rest from hqueue]
  | cons t batch ih =>
      intro as f v rest hlen hactive hcalls hqueue
      cases as with
      | nil => cases hlen
      | cons a as =>
          rw [List.forall_mem_cons] at hactive
          obtain ⟨q, hq, -⟩ := id hactive.1
          obtain ⟨s, hs, -⟩ := h.asked hq
          have hk : w.proposing s.call = some t.call :=
            (h.callers s.call t.call).mpr ⟨hactive.1, by rw [hs]; rfl⟩
          obtain ⟨c, hc, hphase⟩ := proposing_eq_some.mp hk
          rw [submissions_cons hs] at hqueue
          have hv : v.calls[s.call]? = some (c.map f) := by
            rw [hcalls, List.getElem?_map, hc]
            rfl
          have hsettle : v.settle a = { v with
              calls := w.calls.map (Invocation.map (Function.update f t.call (.answered a.result)))
              submitCh := w.submissions batch ++ rest
              log := v.log ++ [(s, a)] } := by
            rw [TxNode.settle_eq hqueue hv, h.map_update hc hphase, ← hcalls]
            rfl
          rw [List.foldl_cons, hsettle, ih (Nat.succ.inj hlen) hactive.2 rfl rfl,
            submissions_cons hs, List.zip_cons_cons, List.append_assoc]
          rfl

theorem Linked.mapM_batch {w : PooledNode σ ε} (h : Linked w) {ts : List Ticket}
    (hts : ∀ t ∈ ts, t ∈ w.pipeline.unjudged) :
    ts.mapM (fun t => w.pipeline.p t.entry) = some ((w.submissions ts).map Submission.proposal) ∧
      (w.submissions ts).length = ts.length := by
  induction ts with
  | nil => exact ⟨rfl, rfl⟩
  | cons t ts ih =>
      rw [List.forall_mem_cons] at hts
      obtain ⟨hrest, hlen⟩ := ih hts.2
      obtain ⟨-, p, hq, hp⟩ := h.accounted.of_unjudged hts.1
      obtain ⟨s, hs, hprop⟩ := h.asked hq
      rw [List.mapM_cons, hp, hrest, submissions_cons hs, List.map_cons, hprop]
      exact ⟨rfl, congrArg (· + 1) hlen⟩

theorem Linked.unjudged_judged {w : PooledNode σ ε} (h : Linked w) {batch : List Ticket}
    (ha : w.pipeline.applier = .select batch) (results : List ApplyResult) {k : Nat}
    (hk : w.pipeline.calls[k]? = none ∨
      (∃ p e, w.pipeline.calls[k]? = some ⟨p, .holding e⟩) ∨
      ∃ t ∈ w.pipeline.submitCh, t.call = k) :
    (batch.zip results).find? (fun x => x.1.call = k) = none ∧ w.pipeline.computed k = none := by
  rcases hk with hk | ⟨p, e, hk⟩ | ⟨t, ht, rfl⟩
  · refine ⟨List.find?_eq_none.mpr fun x hx hcall => ?_, h.unjudged k (Or.inl hk)⟩
    obtain ⟨-, q, hq, -⟩ := h.accounted.of_batch ha (List.of_mem_zip hx).1
    rw [of_decide_eq_true hcall, hk] at hq
    cases hq
  · exact ⟨h.accounted.find_other ha hk fun _ _ heq => (by cases heq),
      h.unjudged k (Or.inr (Or.inl ⟨p, e, hk⟩))⟩
  · have hmem : t ∈ w.pipeline.unjudged := List.mem_append_left _ ht
    obtain ⟨-, q, hq, -⟩ := h.accounted.of_unjudged hmem
    refine ⟨h.accounted.find_other ha hq fun u hu heq => ?_,
      h.unjudged _ (Or.inr (Or.inr ⟨t, hmem, rfl⟩))⟩
    -- entries under way are different entries
    have hnodup := (List.nodup_append.mp h.accounted.custody.nodup).2.1
    rw [Entries.tickets, ha, List.map_append, List.nodup_append] at hnodup
    exact hnodup.2.2 _ (List.mem_map_of_mem ht) _ (List.mem_map_of_mem hu) (Phase.waiting.inj heq)

variable [StorageEngine σ]

theorem Linked.mail_judgeBatch {w : PooledNode σ ε} (h : Linked w) {batch : List Ticket}
    (ha : w.pipeline.applier = .select batch) (ps : List Proposal)
    (log : List (Submission σ ε × Answered)) :
    mail { w with pipeline := w.pipeline.judgeBatch batch ps, log := log } =
      deliveredTo w.mail (batch.zip (w.pipeline.proposer.applyBatchDirect ps).1) := by
  funext k
  cases hk : (batch.zip (w.pipeline.proposer.applyBatchDirect ps).1).find?
      (fun x => x.1.call = k) with
  | none =>
      have hnot : ∀ x ∈ batch.zip (w.pipeline.proposer.applyBatchDirect ps).1, x.1.call ≠ k :=
        fun x hx heq => List.find?_eq_none.mp hk x hx (decide_eq_true heq)
      rw [deliveredTo, foldl_update_of_not_mem hnot, mail, mail,
        w.pipeline.computed_of_find_none hk]
      rfl
  | some x =>
      have hx := List.mem_of_find?_eq_some hk
      have hcall := List.find?_some hk
      rw [decide_eq_true_eq] at hcall
      obtain ⟨-, p, -, hp⟩ := h.accounted.of_batch ha (List.of_mem_zip hx).1
      have huniq : ∀ x ∈ batch.zip (w.pipeline.proposer.applyBatchDirect ps).1,
          ∀ y ∈ batch.zip (w.pipeline.proposer.applyBatchDirect ps).1,
          x.1.call = y.1.call → x = y := by
        intro x hx y hy hxy
        have hfind := h.accounted.find_ticket ha hx
        rw [hxy, h.accounted.find_ticket ha hy] at hfind
        exact (Option.some.inj hfind).symm
      rw [← hcall, deliveredTo, foldl_update_of_mem huniq hx, hcall, mail,
        w.pipeline.computed_of_find hk, hp]
      rfl

theorem Linked.judgeBatch {w : PooledNode σ ε} (h : Linked w) {batch : List Ticket}
    (ha : w.pipeline.applier = .select batch) {ps : List Proposal}
    (hps : ps = (w.submissions batch).map Submission.proposal) :
    let new := (w.submissions batch).zip (w.pipeline.proposer.answered ps)
    let w' := { w with pipeline := w.pipeline.judgeBatch batch ps, log := w.log ++ new }
    Linked w' ∧ w'.view = w.view.apply (w.submissions batch).length := by
  intro new w'
  have hmem : ∀ t ∈ batch, t ∈ w.pipeline.unjudged :=
    fun t ht => Pipeline.mem_unjudged_of_select ha ht
  refine ⟨h.of_calls_eq (h.accounted.judgeBatch ha ps) rfl (fun k hk => ?_) _, ?_⟩
  · have hk' := h.unjudged_judged ha (w.pipeline.proposer.applyBatchDirect ps).1 (k := k) ?_
    · exact (w.pipeline.computed_of_find_none hk'.1).trans hk'.2
    · refine Or.imp_right (Or.imp_right ?_) hk
      rintro ⟨t, ht, hcall⟩
      refine ⟨t, ?_, hcall⟩
      change t ∈ w.pipeline.submitCh ++ (Applier.next _ _).batch at ht
      rwa [Applier.batch_next, List.append_nil] at ht
  · have hlen : (w.pipeline.proposer.answered ps).length = batch.length := by
      rw [DirectProposer.length_answered, hps, List.length_map, (h.mapM_batch hmem).2]
    have hactive : ∀ t ∈ batch, ActiveIn w.pipeline.calls t.call := by
      intro t ht
      obtain ⟨-, p, hq, -⟩ := h.accounted.of_unjudged (hmem t ht)
      exact ⟨_, hq, fun _ hr => by cases hr⟩
    have hqueue : w.view.submitCh = w.submissions batch ++ w.submissions w.pipeline.submitCh := by
      rw [view, ha, ← submissions_append]
      rfl
    have htake : w.view.submitCh.take (w.submissions batch).length = w.submissions batch := by
      rw [hqueue, List.take_left]
    have hsettle := h.settleAll batch (f := w.mail)
      (v := { w.view with proposer := (w.pipeline.proposer.applyBatchDirect ps).2 }) hlen hactive
      rfl hqueue
    have hleft : w'.submissions (w'.pipeline.applier.batch ++ w'.pipeline.submitCh) =
        w.submissions w.pipeline.submitCh := by
      show w.submissions ((Applier.next _ _).batch ++ w.pipeline.submitCh) = _
      rw [Applier.batch_next, List.nil_append]
    rw [TxNode.apply, htake, ← hps]
    refine Eq.trans ?_ hsettle.symm
    rw [view, h.mail_judgeBatch ha ps, w.pipeline.proposer.map_answered_result ps, hleft]
    rfl

theorem Linked.flush {w : PooledNode σ ε} (h : Linked w) :
    let w' := { w with pipeline := w.pipeline.step .flush, log := w.log ++ w.answers }
    Linked w' ∧ (w'.view = w.view ∨ ∃ m, w'.view = w.view.apply m) := by
  intro w'
  rcases w.pipeline.flush_cases with ⟨hidle, hnone⟩ | ⟨batch, ps, ha, hps, heq⟩
  · have hempty : w.answers = [] := by
      rw [answers]
      split
      · rename_i batch ha
        rcases hnone batch ha with rfl | hnone
        · rfl
        · rw [hnone]
      · rfl
    have hsame : w' = w := by
      show { w with pipeline := w.pipeline.step .flush, log := w.log ++ w.answers } = w
      rw [hidle, hempty, List.append_nil]
    rw [hsame]
    exact ⟨h, Or.inl rfl⟩
  · have hmem : ∀ t ∈ batch, t ∈ w.pipeline.unjudged :=
      fun t ht => Pipeline.mem_unjudged_of_select ha ht
    have hps' : ps = (w.submissions batch).map Submission.proposal :=
      Option.some.inj (hps.symm.trans (h.mapM_batch hmem).1)
    have hw' : w' = { w with
        pipeline := w.pipeline.judgeBatch batch ps
        log := w.log ++ (w.submissions batch).zip (w.pipeline.proposer.answered ps) } := by
      show { w with pipeline := w.pipeline.step .flush, log := w.log ++ w.answers } = _
      simp only [heq, answers, ha, hps]
    obtain ⟨hlinked, hview⟩ := h.judgeBatch ha hps'
    rw [hw']
    exact ⟨hlinked, Or.inr ⟨_, hview⟩⟩

/-! ## Every event -/

variable [Snapshot σ] [RangeSnapshot σ]

omit [StorageEngine σ] [RangeSnapshot σ] in
theorem finish_spec {c : Invocation σ ε Nat} {n : Nat} {wall : UInt64} {counter : UInt16}
    {r : Except (Ending ε) (Submission σ ε)} (h : c.finish n wall counter = some r) :
    c.phase.place = none ∧ ∀ s, r = .ok s → s.call = n := by
  revert h
  fun_cases Invocation.finish n wall counter c with
  | case1 _ _ hphase | case2 _ _ _ hphase | case3 _ _ hphase | case4 _ _ hphase =>
      rintro ⟨⟩
      rw [hphase]
      exact ⟨rfl, fun s hs => by cases hs⟩
  | case5 _ _ hphase =>
      rintro ⟨⟩
      rw [hphase]
      exact ⟨rfl, fun s hs => by cases hs; rfl⟩
  | case6 => exact fun h => by cases h

omit [RangeSnapshot σ] in
theorem Linked.finish {w : PooledNode σ ε} (h : Linked w) (n : Nat) (wall : UInt64)
    (counter : UInt16) (slot : Option Nat) :
    Linked (w.finish n wall counter slot) ∧ (w.finish n wall counter slot).view =
      w.view.move n (w.view.finish n wall counter) := by
  rw [PooledNode.finish, TxNode.move, getElem?_view]
  cases hc : w.calls[n]? with
  | none => exact ⟨h, rfl⟩
  | some c =>
      simp only [Option.map_some, Option.bind_some, TxNode.finish, Invocation.map_finish]
      cases hfinish : c.finish n wall counter with
      | none => exact ⟨h, rfl⟩
      | some r =>
          obtain ⟨hplace, hcall⟩ := finish_spec hfinish
          cases r with
          | error e =>
              refine ⟨h.put hc hplace ?_, ?_⟩
              · cases e <;> rfl
              · exact (w.view_put n _).trans (congrArg (w.view.put n) (c.map_conclude w.mail _ e))
          | ok s => exact h.propose hc hplace (hcall s rfl) slot

/-- Every event of the node is an event of the view, or none. -/
theorem Linked.step {w : PooledNode σ ε} (h : Linked w) {ev : PooledEvent ε}
    (hrel : Released w ev) :
    Linked (w.step ev) ∧
      ((w.step ev).view = w.view ∨ ∃ ev', (w.step ev).view = w.view.step ev') := by
  cases ev with
  | runInTx f =>
      refine ⟨⟨h.accounted, h.asks_eq, fun n k => ?_, h.unjudged⟩, Or.inr ⟨.runInTx f, ?_⟩⟩
      · refine Iff.trans ?_ (h.callers n k)
        show ((w.calls ++ [_])[n]?).bind _ = some k ↔ (w.calls[n]?).bind _ = some k
        rw [Runs.getElem?_concat]
        split
        · rename_i hn
          rw [hn, List.getElem?_eq_none (Nat.le_refl _)]
          rfl
        · rfl
      · exact congrArg (fun calls => { w.view with calls := calls }) List.map_append
  | begin n =>
      have haside := h.aside n (aside_begin w.log.length w.pipeline.proposer.fsm.engine)
      exact haside.imp_right fun hview => Or.inr ⟨.begin n, hview⟩
  | request n => exact (h.aside n aside_request).imp_right fun hview => Or.inr ⟨.request n, hview⟩
  | finish n wall counter slot =>
      obtain ⟨hlinked, hview⟩ := h.finish n wall counter slot
      exact ⟨hlinked, Or.inr ⟨.finish n wall counter, hview⟩⟩
  | submit n =>
      rw [PooledNode.step]
      cases hk : w.proposing n with
      | none => exact ⟨h, Or.inl rfl⟩
      | some k =>
          obtain ⟨hlinked, hview⟩ := h.submit hk (hrel k hk)
          exact ⟨hlinked, hview.imp_right fun hview => ⟨.submit n, hview⟩⟩
  | receive n =>
      obtain ⟨hlinked, hview⟩ := h.receive n
      exact ⟨hlinked, hview.imp_right fun hview => ⟨.receive n, hview⟩⟩
  | again n => exact (h.aside n aside_again).imp_right fun hview => Or.inr ⟨.again n, hview⟩
  | exhaust n =>
      have haside := h.aside n (aside_exhaust w.log.length)
      exact haside.imp_right fun hview => Or.inr ⟨.exhaust n, hview⟩
  | cancel n =>
      have haside := h.aside n (aside_cancel w.log.length)
      exact haside.imp_right fun hview => Or.inr ⟨.cancel n, hview⟩
  | take => exact h.take.imp_right Or.inl
  | flush =>
      obtain ⟨hlinked, hview⟩ := h.flush
      refine ⟨hlinked, hview.imp_right ?_⟩
      rintro ⟨m, hview⟩
      exact ⟨.apply m, hview⟩
  | deliver =>
      have hrel : w.pipeline.Released .deliver := trivial
      obtain ⟨hbeside, hcalls⟩ := w.pipeline.deliver_spec
      exact (h.beside hrel hbeside hcalls).imp_right Or.inl
  | collect slot =>
      have hrel : w.pipeline.Released (.collect slot) := trivial
      exact (h.beside hrel ⟨rfl, rfl, rfl, rfl⟩ rfl).imp_right Or.inl

/-! ## Runs -/

omit [StorageEngine σ] [Snapshot σ] [RangeSnapshot σ] in
/-- The call has written: it returned so, or `ProposeDirect` is going to. -/
def wrote (w : PooledNode σ ε) (c : Invocation σ ε Nat) : Bool :=
  match c.phase with
  | .returned (.done true) _ => true
  | .proposing k => (w.pipeline.computed k).any fun x => x.2 = .ok
  | _ => false

/-- The key is set; a call sets it again, and before it has received its answer a third, which
read the first value, is handed the entry, submits it and receives. -/
def overtaking : List (PooledEvent Empty) :=
  [.runInTx (setting 1), .begin 0, .request 0, .finish 0 0 0 none, .submit 0, .take, .flush,
    .deliver, .deliver, .deliver, .receive 0, .runInTx (setting 2), .runInTx bumping, .begin 1,
    .begin 2, .request 1, .request 2, .request 2, .finish 1 0 0 (some 0), .submit 1, .take, .flush,
    .deliver, .deliver, .deliver, .finish 2 0 0 (some 0), .submit 2, .receive 2, .take, .flush]

/-- Without the premise the third call returns `nil`, and its proposal met a conflict. -/
theorem answer_of_another :
    let w := after (DirectProposer.opened : DirectProposer State) overtaking
    (w.calls[2]?).map (·.phase.succeeded) = some true ∧ (commitsOf w.log 2).length = 0 ∧
      w.log.map (fun e => (e.1.call, e.2.committed)) = [(0, true), (1, true), (2, false)] := by
  decide +kernel

variable [LawfulEngine σ] [TxView σ]

/-- A callback that sets its key if there is no other. -/
def claiming (k : UInt8) : Callback Empty :=
  .ask (.getRange [] [] 0) fun pairs =>
    if (show List KVPair from pairs) = [] then .ask (.call (.set [k] [1])) fun _ => .ret none
    else .ret none

/-- A scan is not protected: two such callbacks commit side by side, where the second would have
seen the first. -/
theorem phantom :
    let w := after (DirectProposer.opened : DirectProposer State)
      [.runInTx (claiming 1), .runInTx (claiming 2), .begin 0, .begin 1, .request 0, .request 1,
        .request 0, .request 1, .finish 0 0 0 none, .finish 1 0 0 none, .submit 0, .submit 1,
        .take, .take, .flush]
    w.pipeline.proposer.fsm.engine.get [2] = some [1] ∧
      (Callback.serial (committedIn w.log))[([2] : Key)]? = none := by
  decide +kernel

/-- `k` is set, read, and set again before the reader is through. -/
def overtaken : List (PooledEvent Empty) :=
  [.runInTx (setting 1), .begin 0, .request 0, .finish 0 0 0 none, .submit 0, .take, .flush,
    .deliver, .deliver, .deliver, .receive 0, .runInTx bumping, .runInTx (setting 2), .begin 1,
    .begin 2, .request 1, .request 1, .request 2, .finish 2 0 0 none, .finish 1 0 0 (some 0),
    .submit 2, .submit 1, .take, .take, .flush, .deliver, .deliver, .deliver, .deliver, .deliver,
    .receive 1, .exhaust 1]

end PooledNode

end Dpx
