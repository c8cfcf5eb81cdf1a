/-
# `Dpx.Conductor.Pipeline` — callers, the applier and the recycled entries

The concurrent part of `conductor/direct.go`, over the entries of `Dpx.Conductor.Entries`: any
number of `ProposeDirect` calls and one applier.

The entry goes back to the pool right after the buffered send, which does not wait for the
caller to receive.  The next caller may be handed the entry and submit it while the first
still waits on its slot: then two callers wait on one slot, either may take the other's
result, and the applier's drain may throw one away (`result_swapped`).  If no entry is
submitted while a caller still waits on it (`Released`), every result reaches its own
caller (`results_reach_callers`).

`computed` and `discarded` are for the statement only: no step reads them.  The ticker may fire
at any time, so a flush may follow any receive of the applier.  There is no shutdown here.
-/
import Dpx.Conductor.Entries
import Dpx.Conductor.History

namespace Dpx

structure Pipeline (σ : Type) extends Entries where
  proposer : DirectProposer σ
  computed : Nat → Option (Proposal × ApplyResult)
  discarded : List Nat

inductive PipelineEvent where
  | get (p : Proposal) (slot : Option Nat)
  | submit (n : Nat)
  | receive (n : Nat)
  | take
  | flush
  | deliver
  | collect (slot : Nat)

namespace Pipeline

variable {σ : Type}

def new (d : DirectProposer σ) : Pipeline σ := ⟨.new, d, fun _ => none, []⟩

/-- `applyBatchDirect` on the collected batch. -/
def judgeBatch [StorageEngine σ] (w : Pipeline σ) (batch : List Ticket) (ps : List Proposal) :
    Pipeline σ :=
  let (results, d) := w.proposer.applyBatchDirect ps
  let out := batch.zip results
  { w with
    proposer := d
    applier := .next false (out.map fun x => ⟨x.1, x.2⟩)
    computed := fun n =>
      match out.find? fun x => x.1.call = n with
      | some x => (w.p x.1.entry).map fun p => (p, x.2)
      | none => w.computed n }

/-- Whose result the delivery loop throws away next. -/
def lost (w : Pipeline σ) : List Nat :=
  match w.applier with
  | .deliver .drain now _ _ => ((w.resultCh now.ticket.entry).map (·.1)).toList
  | _ => []

/-- One atomic step; an event that is not enabled does nothing. -/
def step [StorageEngine σ] (w : Pipeline σ) : PipelineEvent → Pipeline σ
  | .get p slot =>
      match (w.call p .checked).get slot with
      | some (e, s) => { w with toEntries := s.hold w.calls.length p e }
      | none => w
  | .submit n => { w with toEntries := w.toEntries.submit n }
  | .receive n => { w with toEntries := w.toEntries.receive n }
  | .take =>
      match w.applier, w.submitCh with
      | .select batch, t :: rest =>
          if batch.length < maxBatchSize then
            { w with submitCh := rest, applier := .select (batch ++ [t]) }
          else w
      | _, _ => w
  | .flush =>
      match w.applier with
      | .select batch =>
          match batch.mapM fun t => w.p t.entry with
          | some ps => if batch = [] then w else w.judgeBatch batch ps
          | none => w
      | _ => w
  | .deliver => { w with toEntries := w.toEntries.deliver, discarded := w.lost ++ w.discarded }
  | .collect slot => { w with toEntries := w.toEntries.collect slot }

/-- A call that has returned returned the result computed for its own proposal, and no
result was drained. -/
def Delivered (w : Pipeline σ) : Prop :=
  (∀ (n : Nat) (p : Proposal) (r : ApplyResult), w.calls[n]? = some ⟨p, .returned r⟩ →
    w.computed n = some (p, r)) ∧ w.discarded = []

/-- No entry is submitted while a call still waits on it. -/
def Released (w : Pipeline σ) : PipelineEvent → Prop
  | .submit n => ∀ c ∈ w.calls[n]?, ∀ e ∈ c.phase.held, ∀ d ∈ w.calls, d.phase ≠ .waiting e
  | .get _ _ | .receive _ | .take | .flush | .deliver | .collect _ => True

instance (w : Pipeline σ) : ∀ ev, Decidable (Released w ev)
  | .submit n => inferInstanceAs (Decidable (∀ c ∈ w.calls[n]?, ∀ e ∈ c.phase.held,
      ∀ d ∈ w.calls, d.phase ≠ .waiting e))
  | .get _ _ | .receive _ | .take | .flush | .deliver | .collect _ =>
      inferInstanceAs (Decidable True)

/-! ## What a step can do -/

section Steps

variable [StorageEngine σ] (w : Pipeline σ)

/-- What the applier has, what it is to take and what has been computed. -/
structure Beside (w w' : Pipeline σ) : Prop where
  proposer_eq : w'.proposer = w.proposer
  submitCh_eq : w'.submitCh = w.submitCh
  batch_eq : w'.applier.batch = w.applier.batch
  computed_eq : w'.computed = w.computed

theorem get_cases (p : Proposal) (slot : Option Nat) :
    ((w.call p .checked).get slot = none ∧ w.step (.get p slot) = w) ∨
    ∃ e s pool fresh, (w.call p .checked).get slot = some (e, s) ∧
      w.step (.get p slot) = { w with toEntries := s.hold w.calls.length p e } ∧
      w.step (.get p slot) = { w with
        p := Function.update w.p e (some p)
        fresh := fresh
        pool := pool
        calls := w.calls ++ [⟨p, .holding e⟩] } := by
  rw [step]
  cases hget : (w.call p .checked).get slot with
  | none => exact Or.inl ⟨rfl, rfl⟩
  | some x =>
      obtain ⟨e, s⟩ := x
      obtain ⟨pool, fresh, rfl⟩ := Entries.get_eq hget
      refine Or.inr ⟨e, _, pool, fresh, rfl, rfl, ?_⟩
      have hcalls : (w.calls ++ [(⟨p, .checked⟩ : ProposeCall)]).set w.calls.length
          ⟨p, .holding e⟩ = w.calls ++ [⟨p, .holding e⟩] := by
        rw [List.set_append_right _ _ (Nat.le_refl _), Nat.sub_self]
        rfl
      rw [← hcalls]
      rfl

theorem get_spec (p : Proposal) {slot : Option Nat} (hslot : ∀ i ∈ slot, i < w.pool.length) :
    Beside w (w.step (.get p slot)) ∧
      ∃ e, (w.step (.get p slot)).calls = w.calls ++ [⟨p, .holding e⟩] := by
  rcases w.get_cases p slot with ⟨hnone, -⟩ | ⟨e, s, pool, fresh, -, -, heq⟩
  · cases slot with
    | none => cases hnone
    | some i =>
        have hi : w.pool[i]? = none := Option.map_eq_none_iff.mp hnone
        exact absurd (hslot i rfl) (Nat.not_lt.mpr (List.getElem?_eq_none_iff.mp hi))
  · rw [heq]
    exact ⟨⟨rfl, rfl, rfl, rfl⟩, e, rfl⟩

theorem submit_cases (n : Nat) : w.step (.submit n) = w ∨
    ∃ p e, w.calls[n]? = some ⟨p, .holding e⟩ ∧ w.step (.submit n) = { w with
      submitCh := w.submitCh ++ [⟨e, n⟩], calls := w.calls.set n ⟨p, .waiting e⟩ } := by
  rw [step]
  rcases w.toEntries.submit_cases n with heq | ⟨p, e, hc, heq⟩
  · exact Or.inl (by rw [heq])
  · exact Or.inr ⟨p, e, hc, by rw [heq]; rfl⟩

theorem receive_cases (n : Nat) : w.step (.receive n) = w ∨
    ∃ p e m r, w.calls[n]? = some ⟨p, .waiting e⟩ ∧ w.resultCh e = some (m, r) ∧
      w.step (.receive n) = { w with
        resultCh := Function.update w.resultCh e none
        calls := w.calls.set n ⟨p, .returned r⟩ } := by
  rw [step]
  rcases w.toEntries.receive_cases n with heq | ⟨p, e, m, r, hc, hch, heq⟩
  · exact Or.inl (by rw [heq])
  · exact Or.inr ⟨p, e, m, r, hc, hch, by rw [heq]; rfl⟩

theorem take_cases : w.step .take = w ∨
    ∃ batch t rest, w.applier = .select batch ∧ w.submitCh = t :: rest ∧
      w.step .take = { w with submitCh := rest, applier := .select (batch ++ [t]) } := by
  rw [step]
  split
  · rename_i batch t rest ha hs
    split
    · exact Or.inr ⟨batch, t, rest, ha, hs, rfl⟩
    · exact Or.inl rfl
  · exact Or.inl rfl

theorem flush_cases :
    (w.step .flush = w ∧ ∀ batch, w.applier = .select batch →
      batch = [] ∨ batch.mapM (fun t => w.p t.entry) = none) ∨
    ∃ batch ps, w.applier = .select batch ∧ batch.mapM (fun t => w.p t.entry) = some ps ∧
      w.step .flush = w.judgeBatch batch ps := by
  rw [step]
  split
  · rename_i batch ha
    have hbatch : ∀ {batch'}, w.applier = .select batch' → batch = batch' :=
      fun ha' => Applier.select.inj (ha.symm.trans ha')
    split
    · rename_i ps hps
      split
      · rename_i hnil
        exact Or.inl ⟨rfl, fun batch' ha' => Or.inl (hbatch ha' ▸ hnil)⟩
      · exact Or.inr ⟨batch, ps, ha, hps, rfl⟩
    · rename_i hnone
      exact Or.inl ⟨rfl, fun batch' ha' => Or.inr (hbatch ha' ▸ hnone)⟩
  · rename_i hnot
    exact Or.inl ⟨rfl, fun batch ha => absurd ha (hnot batch)⟩

theorem computed_of_find {batch : List Ticket} {ps : List Proposal} {n : Nat}
    {x : Ticket × ApplyResult}
    (hx : (batch.zip (w.proposer.applyBatchDirect ps).1).find? (fun x => x.1.call = n) = some x) :
    (w.judgeBatch batch ps).computed n = (w.p x.1.entry).map fun p => (p, x.2) := by
  simp only [judgeBatch, hx]

theorem computed_of_find_none {batch : List Ticket} {ps : List Proposal} {n : Nat}
    (hn : (batch.zip (w.proposer.applyBatchDirect ps).1).find? (fun x => x.1.call = n) = none) :
    (w.judgeBatch batch ps).computed n = w.computed n := by
  simp only [judgeBatch, hn]

theorem deliver_spec : Beside w (w.step .deliver) ∧ (w.step .deliver).calls = w.calls := by
  have hspec : w.deliver.submitCh = w.submitCh ∧ w.deliver.applier.batch = w.applier.batch ∧
      w.deliver.calls = w.calls := by
    have hdelivers := w.toEntries.delivers
    generalize w.toEntries.deliver = s at hdelivers
    cases hdelivers with
    | idle => exact ⟨rfl, rfl, rfl⟩
    | drain ha | send ha => exact ⟨rfl, by rw [ha]; rfl, rfl⟩
    | put ha => exact ⟨rfl, by rw [ha]; exact Applier.batch_next _ _, rfl⟩
  exact ⟨⟨rfl, hspec.1, hspec.2.1, rfl⟩, hspec.2.2⟩

end Steps

/-! ## Every entry has one user -/

/-- A ticket not yet judged belongs to the one call that waits on its entry, with an empty slot; a
result not yet sent, or in the slot, belongs to the call that waits for it. -/
structure Accounted (w : Pipeline σ) : Prop where
  custody : w.toEntries.Custody
  waiter : ∀ (m n : Nat) (p q : Proposal) (e : Nat), w.calls[m]? = some ⟨p, .waiting e⟩ →
    w.calls[n]? = some ⟨q, .waiting e⟩ → m = n
  queued : ∀ t ∈ w.unjudged, w.resultCh t.entry = none ∧
    ∃ p, w.calls[t.call]? = some ⟨p, .waiting t.entry⟩
  unsent : ∀ u ∈ w.applier.unsent, w.resultCh u.ticket.entry = none ∧
    ∃ p, w.calls[u.ticket.call]? = some ⟨p, .waiting u.ticket.entry⟩ ∧
      w.computed u.ticket.call = some (p, u.result)
  inChannel : ∀ (e n : Nat) (r : ApplyResult), w.resultCh e = some (n, r) →
    ∃ p, w.calls[n]? = some ⟨p, .waiting e⟩ ∧ w.computed n = some (p, r)
  delivered : Delivered w

theorem accounted_new (d : DirectProposer σ) : Accounted (new d) where
  custody := Entries.custody_new
  waiter := fun _ _ _ _ _ hc => by cases hc
  queued := fun _ ht => absurd ht List.not_mem_nil
  unsent := fun _ hu => absurd hu List.not_mem_nil
  inChannel := fun _ _ _ h => by cases h
  delivered := ⟨(fun _ _ _ h => by cases h), rfl⟩

theorem Accounted.of_unjudged {w : Pipeline σ} (h : Accounted w) {t : Ticket}
    (ht : t ∈ w.unjudged) : w.resultCh t.entry = none ∧
      ∃ p, w.calls[t.call]? = some ⟨p, .waiting t.entry⟩ ∧ w.p t.entry = some p := by
  obtain ⟨hch, p, hc⟩ := h.queued t ht
  obtain ⟨c, hc', hp⟩ := h.custody.queued t ht
  rw [hc] at hc'
  cases hc'
  exact ⟨hch, p, hc, hp⟩

theorem Accounted.slot_empty {w : Pipeline σ} (h : Accounted w) {e : Nat}
    (hun : ∀ c ∈ w.calls, c.phase ≠ .waiting e) : w.resultCh e = none := by
  cases hch : w.resultCh e with
  | none => rfl
  | some x =>
      obtain ⟨p, hc, -⟩ := h.inChannel e x.1 x.2 hch
      exact absurd rfl (hun _ (List.mem_of_getElem? hc))

theorem Accounted.get [StorageEngine σ] {w : Pipeline σ} (h : Accounted w) (p : Proposal)
    (slot : Option Nat) : Accounted (w.step (.get p slot)) := by
  rcases w.get_cases p slot with ⟨-, heq⟩ | ⟨e, s, pool, fresh, hget, heq, heq'⟩
  · rw [heq]
    exact h
  · have hcustody : (w.step (.get p slot)).toEntries.Custody := by
      rw [heq]
      exact (h.custody.call p (fun _ hp => by cases hp)).hold hget List.getElem?_concat_length
    rw [heq'] at hcustody ⊢
    have hold : ∀ {n : Nat} {c : ProposeCall}, w.calls[n]? = some c →
        (w.calls ++ [⟨p, .holding e⟩])[n]? = some c := fun hc =>
      (List.getElem?_append_left (List.getElem?_eq_some_iff.mp hc).1).trans hc
    refine ⟨hcustody, ?_, ?_, ?_, ?_, ?_, h.delivered.2⟩
    · intro m n q q' x
      refine Runs.unique_concat (fun m n q q' => h.waiter m n q q' x) (fun q q' hq => ?_) m n q q'
      cases hq
    · intro t ht
      obtain ⟨hch, q, hc⟩ := h.queued t ht
      exact ⟨hch, q, hold hc⟩
    · intro u hu
      obtain ⟨hch, q, hc, hcomp⟩ := h.unsent u hu
      exact ⟨hch, q, hold hc, hcomp⟩
    · intro x n r hx
      obtain ⟨q, hc, hcomp⟩ := h.inChannel x n r hx
      exact ⟨q, hold hc, hcomp⟩
    · intro n q r hc
      rcases Runs.getElem?_concat_cases hc with ⟨-, hq⟩ | ⟨-, hc⟩
      · cases hq
      · exact h.delivered.1 n q r hc

theorem Accounted.submit {w : Pipeline σ} (h : Accounted w) {n : Nat} {p : Proposal} {e : Nat}
    (hc : w.calls[n]? = some ⟨p, .holding e⟩) (hun : ∀ d ∈ w.calls, d.phase ≠ .waiting e) :
    Accounted { w with
      submitCh := w.submitCh ++ [⟨e, n⟩], calls := w.calls.set n ⟨p, .waiting e⟩ } := by
  have hwait : ∀ {m : Nat} {q : Proposal} {x : Nat}, w.calls[m]? = some ⟨q, .waiting x⟩ →
      (w.calls.set n ⟨p, .waiting e⟩)[m]? = some ⟨q, .waiting x⟩ :=
    fun hm => Runs.getElem?_set_of_ne hc hm fun heq => by cases heq
  have hset : (w.calls.set n ⟨p, .waiting e⟩)[n]? = some ⟨p, .waiting e⟩ :=
    List.getElem?_set_self (List.getElem?_eq_some_iff.mp hc).1
  refine ⟨h.custody.submit hc, ?_, ?_, ?_, ?_, ?_, h.delivered.2⟩
  · intro m m' q q' x
    refine Runs.unique_set (fun m n q q' => h.waiter m n q q' x) (fun q q' heq => ?_) m m' q q'
    cases heq
    exact fun hmem => hun _ hmem rfl
  · intro t ht
    rcases List.mem_cons.mp ((Entries.perm_submit _ _ _).mem_iff.mp ht) with rfl | ht
    · exact ⟨h.slot_empty hun, p, hset⟩
    · obtain ⟨hch, q, hcall⟩ := h.queued t ht
      exact ⟨hch, q, hwait hcall⟩
  · intro u hu
    obtain ⟨hch, q, hcall, hcomp⟩ := h.unsent u hu
    exact ⟨hch, q, hwait hcall, hcomp⟩
  · intro x m r hx
    obtain ⟨q, hcall, hcomp⟩ := h.inChannel x m r hx
    exact ⟨q, hwait hcall, hcomp⟩
  · intro m q r hm
    rcases Runs.getElem?_set_cases hm with ⟨-, heq⟩ | ⟨-, hold⟩
    · cases heq
    · exact h.delivered.1 m q r hold

/-- What a call finds in the slot it waits on is its own result. -/
theorem Accounted.own_result {w : Pipeline σ} (h : Accounted w) {n m : Nat} {p : Proposal} {e : Nat}
    {r : ApplyResult} (hc : w.calls[n]? = some ⟨p, .waiting e⟩) (hch : w.resultCh e = some (m, r)) :
    w.computed n = some (p, r) := by
  obtain ⟨q, hcall, hcomp⟩ := h.inChannel e m r hch
  have hmn : m = n := h.waiter m n q p e hcall hc
  subst hmn
  have hq : q = p := congrArg ProposeCall.proposal (Option.some.inj (hcall.symm.trans hc))
  rw [hcomp, hq]

theorem Accounted.receive {w : Pipeline σ} (h : Accounted w) {n m : Nat} {p : Proposal} {e : Nat}
    {r : ApplyResult} (hc : w.calls[n]? = some ⟨p, .waiting e⟩) (hch : w.resultCh e = some (m, r)) :
    Accounted { w with
      resultCh := Function.update w.resultCh e none
      calls := w.calls.set n ⟨p, .returned r⟩ } := by
  -- an empty slot stays empty, and belongs to another entry than `e`
  have hempty : ∀ {x : Nat}, w.resultCh x = none → x ≠ e ∧
      Function.update w.resultCh e none x = none := by
    intro x hx
    have hne : x ≠ e := by
      rintro rfl
      rw [hch] at hx
      cases hx
    exact ⟨hne, by rw [Function.update_of_ne hne]; exact hx⟩
  have hwait : ∀ {k : Nat} {q : Proposal} {x : Nat}, x ≠ e →
      w.calls[k]? = some ⟨q, .waiting x⟩ →
      (w.calls.set n ⟨p, .returned r⟩)[k]? = some ⟨q, .waiting x⟩ := by
    intro k q x hne hk
    refine Runs.getElem?_set_of_ne hc hk fun heq => hne ?_
    exact Phase.waiting.inj (congrArg ProposeCall.phase heq)
  have hcustody : (Entries.setPhase { w.toEntries with
      resultCh := Function.update w.resultCh e none } n p (.returned r)).Custody :=
    (h.custody.resultCh _).setPhase hc fun _ hp => by cases hp
  refine ⟨hcustody, ?_, ?_, ?_, ?_, ?_, h.delivered.2⟩
  · intro k k' q q' x
    refine Runs.unique_set (fun m n q q' => h.waiter m n q q' x) (fun q q' heq => ?_) k k' q q'
    cases heq
  · intro t ht
    obtain ⟨hch', q, hcall⟩ := h.queued t ht
    exact ⟨(hempty hch').2, q, hwait (hempty hch').1 hcall⟩
  · intro u hu
    obtain ⟨hch', q, hcall, hcomp⟩ := h.unsent u hu
    exact ⟨(hempty hch').2, q, hwait (hempty hch').1 hcall, hcomp⟩
  · intro x k r' hx
    change Function.update w.resultCh e none x = _ at hx
    have hne : x ≠ e := by
      rintro rfl
      rw [Function.update_self] at hx
      cases hx
    rw [Function.update_of_ne hne] at hx
    obtain ⟨q, hcall, hcomp⟩ := h.inChannel x k r' hx
    exact ⟨q, hwait hne hcall, hcomp⟩
  · intro k q r' hk
    rcases Runs.getElem?_set_cases hk with ⟨rfl, heq⟩ | ⟨-, hold⟩
    · cases heq
      exact h.own_result hc hch
    · exact h.delivered.1 k q r' hold

theorem Accounted.move {w : Pipeline σ} (h : Accounted w) {s : Entries} (hcustody : s.Custody)
    (hcalls : s.calls = w.calls) (hresultCh : s.resultCh = w.resultCh)
    (hqueued : s.unjudged ⊆ w.unjudged) (hunsent : s.applier.unsent ⊆ w.applier.unsent) :
    Accounted { w with toEntries := s } := by
  obtain ⟨hdelivered, hnone⟩ := h.delivered
  refine ⟨hcustody, ?_, fun t ht => ?_, fun u hu => ?_, ?_, ?_, hnone⟩
  · rw [hcalls]
    exact h.waiter
  · rw [hcalls, hresultCh]
    exact h.queued t (hqueued ht)
  · rw [hcalls, hresultCh]
    exact h.unsent u (hunsent hu)
  · rw [hcalls, hresultCh]
    exact h.inChannel
  · rw [hcalls]
    exact hdelivered

theorem Accounted.take {w : Pipeline σ} (h : Accounted w) {batch rest : List Ticket} {t : Ticket}
    (ha : w.applier = .select batch) (hs : w.submitCh = t :: rest) :
    Accounted { w with submitCh := rest, applier := .select (batch ++ [t]) } := by
  refine h.move (h.custody.take hs (Or.inl ha) (Or.inl rfl)) rfl rfl (fun u hu => ?_)
    (fun u hu => absurd hu List.not_mem_nil)
  rw [Entries.unjudged, ha]
  exact (Entries.perm_take batch hs).subset hu

/-! ## The applier's steps -/

theorem mem_unjudged_of_select {w : Pipeline σ} {batch : List Ticket}
    (ha : w.applier = .select batch) {t : Ticket} (ht : t ∈ batch) : t ∈ w.unjudged := by
  rw [Entries.unjudged, ha]
  exact List.mem_append_right _ ht

theorem Accounted.of_batch {w : Pipeline σ} (h : Accounted w) {batch : List Ticket}
    (ha : w.applier = .select batch) {t : Ticket} (ht : t ∈ batch) :
    w.resultCh t.entry = none ∧
      ∃ p, w.calls[t.call]? = some ⟨p, .waiting t.entry⟩ ∧ w.p t.entry = some p :=
  h.of_unjudged (mem_unjudged_of_select ha ht)

/-- A call in the batch has one ticket there: its calls wait on distinct entries. -/
theorem Accounted.find_ticket {w : Pipeline σ} (h : Accounted w) {batch : List Ticket}
    (ha : w.applier = .select batch) {results : List ApplyResult} {x : Ticket × ApplyResult}
    (hx : x ∈ batch.zip results) :
    (batch.zip results).find? (fun y => y.1.call = x.1.call) = some x := by
  have hsome : ((batch.zip results).find? fun y => y.1.call = x.1.call).isSome = true :=
    List.find?_isSome.mpr ⟨x, hx, decide_eq_true rfl⟩
  obtain ⟨y, hy⟩ := Option.isSome_iff_exists.mp hsome
  have hcall := List.find?_some hy
  rw [decide_eq_true_eq] at hcall
  have hymem := List.mem_of_find?_eq_some hy
  obtain ⟨-, p, hp, -⟩ := h.of_batch ha (List.of_mem_zip hx).1
  obtain ⟨-, q, hq, -⟩ := h.of_batch ha (List.of_mem_zip hymem).1
  rw [hcall, hp] at hq
  have hentry : x.1.entry = y.1.entry :=
    Phase.waiting.inj (congrArg ProposeCall.phase (Option.some.inj hq))
  have hnd : ((batch.zip results).map fun z => z.1.entry).Nodup := by
    have hall := (List.nodup_append.mp h.custody.nodup).2.1
    rw [Entries.tickets, ha, List.map_append] at hall
    have hzip := ((Entries.map_fst_zip_sublist batch results).map Ticket.entry).nodup
      (List.nodup_append.mp hall).2.1
    rwa [List.map_map] at hzip
  rw [hy, List.inj_on_of_nodup_map hnd hymem hx hentry.symm]

theorem Accounted.find_other {w : Pipeline σ} (h : Accounted w) {batch : List Ticket}
    (ha : w.applier = .select batch) {results : List ApplyResult} {n : Nat} {c : ProposeCall}
    (hc : w.calls[n]? = some c) (hnot : ∀ t ∈ batch, c.phase ≠ .waiting t.entry) :
    (batch.zip results).find? (fun y => y.1.call = n) = none := by
  refine List.find?_eq_none.mpr fun y hy hcall => ?_
  have hmem := (List.of_mem_zip hy).1
  obtain ⟨-, q, hq, -⟩ := h.of_batch ha hmem
  rw [of_decide_eq_true hcall, hc] at hq
  exact hnot y.1 hmem (congrArg ProposeCall.phase (Option.some.inj hq))

theorem Accounted.judgeBatch [StorageEngine σ] {w : Pipeline σ} (h : Accounted w)
    {batch : List Ticket} (ha : w.applier = .select batch) (ps : List Proposal) :
    Accounted (w.judgeBatch batch ps) := by
  rw [Pipeline.judgeBatch]
  generalize w.proposer.applyBatchDirect ps = answer
  obtain ⟨results, d⟩ := answer
  refine ⟨h.custody.judge (Or.inl ha) false results, h.waiter, ?_, ?_, ?_, ?_, h.delivered.2⟩
  · intro t ht
    change t ∈ w.submitCh ++ (Applier.next _ _).batch at ht
    rw [Applier.batch_next, List.append_nil] at ht
    exact h.queued t (List.mem_append_left _ ht)
  · intro u hu
    change u ∈ (Applier.next _ _).unsent at hu
    rw [Applier.unsent_next] at hu
    obtain ⟨x, hx, rfl⟩ := List.mem_map.mp hu
    obtain ⟨hch, p, hc, hp⟩ := h.of_batch ha (List.of_mem_zip hx).1
    refine ⟨hch, p, hc, ?_⟩
    simp only [h.find_ticket ha hx, hp, Option.map_some]
  · intro e n r hch
    obtain ⟨p, hc, hcomp⟩ := h.inChannel e n r hch
    refine ⟨p, hc, ?_⟩
    -- its slot is full, those of the batch are empty
    have hnone : (batch.zip results).find? (fun y => y.1.call = n) = none := by
      refine h.find_other ha hc fun t ht heq => ?_
      cases heq
      rw [(h.of_batch ha ht).1] at hch
      cases hch
    simp only [hnone]
    exact hcomp
  · intro n p r hc
    have hnone : (batch.zip results).find? (fun y => y.1.call = n) = none :=
      h.find_other ha hc fun t ht heq => by cases heq
    simp only [hnone]
    exact h.delivered.1 n p r hc

theorem Accounted.send {w : Pipeline σ} (h : Accounted w) {now : Delivery} {rest : List Delivery}
    {last : Bool} (ha : w.applier = .deliver .send now rest last) {s : Entries}
    (hs : s = { w.toEntries with
      resultCh := Function.update w.resultCh now.ticket.entry (some (now.ticket.call, now.result))
      applier := .deliver .put now rest last }) (hcustody : s.Custody) :
    Accounted { w with toEntries := s } := by
  subst hs
  have hother := h.custody.delivering_ne ha
  have hslot : ∀ {x : Nat}, x ≠ now.ticket.entry → Function.update w.resultCh now.ticket.entry
      (some (now.ticket.call, now.result)) x = w.resultCh x :=
    fun hne => Function.update_of_ne hne ..
  obtain ⟨-, p, hcall, hcomp⟩ := h.unsent now (by rw [ha]; exact List.mem_cons_self)
  refine ⟨hcustody, h.waiter, ?_, ?_, ?_, h.delivered⟩
  · intro t ht
    change t ∈ w.submitCh ++ [] at ht
    rw [List.append_nil] at ht
    obtain ⟨hch, hrest⟩ := h.queued t (List.mem_append_left _ ht)
    exact ⟨(hslot (hother t (List.mem_append_left _ ht))).trans hch, hrest⟩
  · intro u hu
    obtain ⟨hch, hrest⟩ := h.unsent u (by rw [ha]; exact List.mem_cons_of_mem _ hu)
    have hne := hother u.ticket (List.mem_append_right _ (List.mem_map_of_mem hu))
    exact ⟨(hslot hne).trans hch, hrest⟩
  · intro x n r hx
    by_cases hne : x = now.ticket.entry
    · subst hne
      change Function.update _ _ _ _ = _ at hx
      rw [Function.update_self] at hx
      cases hx
      exact ⟨p, hcall, hcomp⟩
    · exact h.inChannel x n r ((hslot hne).symm.trans hx)

theorem Accounted.deliver [StorageEngine σ] {w : Pipeline σ} (h : Accounted w) :
    Accounted (w.step .deliver) := by
  -- the slot is empty when it comes to the drain
  have hlost : w.lost = [] := by
    rw [lost]
    split
    · rename_i now rest last ha
      rw [(h.unsent now (by rw [ha]; exact List.mem_cons_self)).1]
      rfl
    · rfl
  have hdelivers := w.toEntries.delivers
  have hcustody := h.custody.deliver hdelivers
  rw [Pipeline.step, hlost, List.nil_append]
  generalize w.toEntries.deliver = s at hdelivers hcustody ⊢
  cases hdelivers with
  | idle => exact h
  | @drain now rest last ha =>
      have hslot : w.resultCh now.ticket.entry = none :=
        (h.unsent now (by rw [ha]; exact List.mem_cons_self)).1
      refine h.move hcustody rfl (Function.update_eq_self_iff.mpr hslot.symm) (fun t ht => ?_)
        fun u hu => ?_
      · rw [Entries.unjudged, ha]
        exact ht
      · rw [ha]
        exact hu
  | send ha hslot => exact h.send ha rfl hcustody
  | @put now rest last ha =>
      refine h.move hcustody rfl rfl (fun t ht => ?_) fun u hu => ?_
      · change t ∈ w.submitCh ++ (Applier.next last rest).batch at ht
        rw [Applier.batch_next, List.append_nil] at ht
        exact List.mem_append_left _ ht
      · change u ∈ (Applier.next last rest).unsent at hu
        rw [Applier.unsent_next] at hu
        rw [ha]
        exact hu

/-! ## Every result reaches its caller -/

theorem Accounted.step [StorageEngine σ] {w : Pipeline σ} (h : Accounted w) {ev : PipelineEvent}
    (hrel : Released w ev) : Accounted (w.step ev) := by
  cases ev with
  | get p slot => exact h.get p slot
  | submit n =>
      rcases w.submit_cases n with heq | ⟨p, e, hc, heq⟩
      · rw [heq]
        exact h
      · rw [heq]
        exact h.submit hc (hrel _ hc e rfl)
  | receive n =>
      rcases w.receive_cases n with heq | ⟨p, e, m, r, hc, hch, heq⟩
      · rw [heq]
        exact h
      · rw [heq]
        exact h.receive hc hch
  | take =>
      rcases w.take_cases with heq | ⟨batch, t, rest, ha, hs, heq⟩
      · rw [heq]
        exact h
      · rw [heq]
        exact h.take ha hs
  | flush =>
      rcases w.flush_cases with ⟨heq, -⟩ | ⟨batch, ps, ha, -, heq⟩
      · rw [heq]
        exact h
      · rw [heq]
        exact h.judgeBatch ha ps
  | deliver => exact h.deliver
  | collect slot =>
      exact h.move (h.custody.collect slot) rfl rfl (List.Subset.refl _) (List.Subset.refl _)

/-- **Results reach their callers**, where they do.  In every interleaving of calls and
applier, a call that has returned returned the result computed for its own proposal and no
result was drained, if no entry is submitted while another call still waits on it. -/
theorem results_reach_callers [StorageEngine σ] (d : DirectProposer σ) (events : List PipelineEvent)
    (h : ∀ m ∈ Runs.moves step (new d) events, Released m.1 m.2) :
    ∀ w ∈ Runs.states step (new d) events, Delivered w := by
  have hstep : ∀ (w : Pipeline σ) ev, Accounted w → Released w ev → Accounted (w.step ev) :=
    fun _ _ hw hrel => hw.step hrel
  intro w hw
  have hacc : Accounted w := Runs.invariant hstep (accounted_new d) h w hw
  exact hacc.delivered

/-! ## Two callers on one slot -/

/-- Writes `a`. -/
def firstWrite : Proposal := ⟨[], [⟨.set, [0x61], [1]⟩], 0, 0⟩

/-- Writes `a` after a read of it that the first write has overtaken. -/
def lateWrite : Proposal := ⟨[⟨[0x61], 0, false⟩], [⟨.set, [0x61], [2]⟩], 0, 0⟩

/-- The first call's result is in its slot and its entry back in the pool. -/
def firstAnswered : List PipelineEvent :=
  [.get firstWrite none, .submit 0, .take, .flush, .deliver, .deliver, .deliver]

/-- The second call gets the entry early and submits it after the first has received. -/
def reused : List PipelineEvent :=
  firstAnswered ++ [.get lateWrite (some 0), .receive 0, .submit 1, .take, .flush, .deliver,
    .deliver, .deliver, .receive 1]

theorem reused_delivered : Delivered (reused.foldl (@step State _) (new DirectProposer.opened)) :=
  results_reach_callers DirectProposer.opened reused (by decide +kernel) _
    (Runs.foldl_mem_states _ _)

/-- The second call submits the entry while the first still waits, and receives at once. -/
def swapped : List PipelineEvent :=
  firstAnswered ++ [.get lateWrite (some 0), .submit 1, .receive 1, .take, .flush, .deliver,
    .deliver, .receive 0]

/-- The second call submits the entry while the first still waits, and is judged before
anyone receives. -/
def drained : List PipelineEvent :=
  firstAnswered ++ [.get lateWrite (some 0), .submit 1, .take, .flush, .deliver]

/-- The first call returns the conflict of the second; and the first call's result is
thrown away before it was received. -/
theorem result_swapped :
    (¬ ∀ w ∈ Runs.states (@step State _) (new DirectProposer.opened) swapped, Delivered w) ∧
      ¬ ∀ w ∈ Runs.states (@step State _) (new DirectProposer.opened) drained, Delivered w := by
  constructor
  · intro h
    have hend : Delivered (swapped.foldl (@step State _) (new DirectProposer.opened)) :=
      h _ (Runs.foldl_mem_states _ _)
    have hcomp := hend.1 0 firstWrite .conflicted (by decide +kernel)
    revert hcomp
    decide +kernel
  · intro h
    have hend : Delivered (drained.foldl (@step State _) (new DirectProposer.opened)) :=
      h _ (Runs.foldl_mem_states _ _)
    have hnone := hend.2
    revert hnone
    decide +kernel

end Pipeline

end Dpx
