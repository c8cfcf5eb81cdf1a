/-
# `Dpx.Conductor.Entries` — the recycled entries of a direct proposer

In `conductor/direct.go` the calls of `ProposeDirect` and the applier meet at entries.  A call
takes one from `entryPool`, sets `p`, sends it on `submitCh` and waits on its `resultCh`, a slot
for one result.  The applier collects entries into a batch, applies the batch and then, entry by
entry, drains the slot, sends the result and puts the entry back.

This is what `Dpx.Conductor.Pipeline`, which follows the results, and `Dpx.Conductor.Lifecycle`,
which follows `Shutdown`, have in common: the parties, their steps on an entry, and who has it
(`Custody`).  An entry is in the pool, under way or held by one call, and from the call that fills
it to the batch that is judged its `p` is that call's proposal.

An entry is a number; `p` and `resultCh` are its fields.  `Ticket.call` and the caller's number
beside a result are for the statements only: no step reads them.  `sync.Pool` may return any
pooled entry or make a new one, and may drop pooled entries.
-/
import Mathlib.Data.List.Nodup
import Mathlib.Data.List.Perm.Subperm
import Dpx.Lib.Runs
import Dpx.Shared.Proposal

namespace Dpx

/-! ## The parties -/

def submitBufSize : Nat := 16384

def maxBatchSize : Nat := 2048

/-- An entry under way, and the call that submitted it. -/
structure Ticket where
  entry : Nat
  call : Nat
  deriving DecidableEq, Repr

/-- Where a call found out that the proposer is closed: the check at the start, the
submission select, the select on the result. -/
inductive Exit where
  | check
  | submit
  | wait
  deriving DecidableEq, Repr

/-- Where a call of `ProposeDirect` is. -/
inductive Phase where
  | checked
  | holding (entry : Nat)
  | waiting (entry : Nat)
  | returned (r : ApplyResult)
  | closed (place : Exit)
  deriving DecidableEq, Repr

namespace Phase

def held : Phase → Option Nat
  | .holding e => some e
  | .checked | .waiting _ | .returned _ | .closed _ => none

/-- The entry has been sent. -/
def submitted : Phase → Bool
  | .waiting _ | .returned _ | .closed .wait => true
  | .checked | .holding _ | .closed .check | .closed .submit => false

end Phase

structure ProposeCall where
  proposal : Proposal
  phase : Phase
  deriving DecidableEq, Repr

structure Delivery where
  ticket : Ticket
  result : ApplyResult
  deriving DecidableEq, Repr

/-- The three steps of the delivery loop. -/
inductive Stage where
  | drain
  | send
  | put
  deriving DecidableEq, Repr

/-- Where the applier is: at the select of its loop, in the drain loop, at the delivery of
results, for the last time or not, or gone. -/
inductive Applier where
  | select (batch : List Ticket)
  | drain (batch : List Ticket)
  | deliver (stage : Stage) (now : Delivery) (rest : List Delivery) (last : Bool)
  | exited
  deriving DecidableEq, Repr

namespace Applier

/-- Entries received and not yet judged. -/
def batch : Applier → List Ticket
  | .select batch | .drain batch => batch
  | .deliver _ _ _ _ | .exited => []

/-- Results computed and not yet sent. -/
def unsent : Applier → List Delivery
  | .select _ | .drain _ | .exited => []
  | .deliver .drain now rest _ | .deliver .send now rest _ => now :: rest
  | .deliver .put _ rest _ => rest

/-- Entries in the applier's hands. -/
def tickets : Applier → List Ticket
  | .select batch | .drain batch => batch
  | .deliver _ now rest _ => now.ticket :: rest.map Delivery.ticket
  | .exited => []

theorem batch_sublist_tickets (a : Applier) : a.batch.Sublist a.tickets := by
  cases a with
  | deliver stage now rest last => exact List.nil_sublist _
  | _ => exact List.Sublist.refl _

/-- The delivery goes on, or the flush is over. -/
def next (last : Bool) : List Delivery → Applier
  | [] => if last then .exited else .select []
  | now :: rest => .deliver .drain now rest last

section Next

variable (last : Bool) (ds : List Delivery)

theorem tickets_next : (next last ds).tickets = ds.map Delivery.ticket := by
  cases ds with
  | nil => cases last <;> rfl
  | cons d ds => rfl

theorem batch_next : (next last ds).batch = [] := by
  cases ds with
  | nil => cases last <;> rfl
  | cons d ds => rfl

theorem unsent_next : (next last ds).unsent = ds := by
  cases ds with
  | nil => cases last <;> rfl
  | cons d ds => rfl

end Next

/-- The applier is filling `ts`. -/
def Collecting (a : Applier) (ts : List Ticket) : Prop := a = .select ts ∨ a = .drain ts

theorem Collecting.batch {a : Applier} {ts : List Ticket} (h : a.Collecting ts) :
    a.batch = ts := by
  rcases h with rfl | rfl <;> rfl

theorem Collecting.tickets {a : Applier} {ts : List Ticket} (h : a.Collecting ts) :
    a.tickets = ts := by
  rcases h with rfl | rfl <;> rfl

end Applier

/-! ## The entries -/

structure Entries where
  p : Nat → Option Proposal
  resultCh : Nat → Option (Nat × ApplyResult)
  fresh : Nat
  pool : List Nat
  submitCh : List Ticket
  applier : Applier
  calls : List ProposeCall

namespace Entries

def new : Entries := ⟨fun _ => none, fun _ => none, 0, [], [], .select [], []⟩

def call (s : Entries) (p : Proposal) (phase : Phase) : Entries :=
  { s with calls := s.calls ++ [⟨p, phase⟩] }

def setPhase (s : Entries) (n : Nat) (p : Proposal) (phase : Phase) : Entries :=
  { s with calls := s.calls.set n ⟨p, phase⟩ }

/-- `entryPool.Get`: a new entry, or the pooled one at `slot`. -/
def get (s : Entries) : Option Nat → Option (Nat × Entries)
  | none => some (s.fresh, { s with fresh := s.fresh + 1 })
  | some slot => (s.pool[slot]?).map fun e => (e, { s with pool := s.pool.eraseIdx slot })

/-- Call `n` has entry `e`, and sets its `p`. -/
def hold (s : Entries) (n : Nat) (p : Proposal) (e : Nat) : Entries :=
  setPhase { s with p := Function.update s.p e (some p) } n p (.holding e)

/-- `entryPool.Put`, of an entry without a proposal. -/
def put (s : Entries) (e : Nat) : Entries :=
  { s with p := Function.update s.p e none, pool := e :: s.pool }

/-- The send on `submitCh`. -/
def submit (s : Entries) (n : Nat) : Entries :=
  match s.calls[n]? with
  | some ⟨p, .holding e⟩ =>
      if s.submitCh.length < submitBufSize then
        setPhase { s with submitCh := s.submitCh ++ [⟨e, n⟩] } n p (.waiting e)
      else s
  | _ => s

/-- The receive from `resultCh`. -/
def receive (s : Entries) (n : Nat) : Entries :=
  match s.calls[n]? with
  | some ⟨p, .waiting e⟩ =>
      match s.resultCh e with
      | some (_, r) =>
          setPhase { s with resultCh := Function.update s.resultCh e none } n p (.returned r)
      | none => s
  | _ => s

/-- One step of the delivery loop. -/
def deliver (s : Entries) : Entries :=
  match s.applier with
  | .deliver .drain now rest last =>
      { s with
        resultCh := Function.update s.resultCh now.ticket.entry none
        applier := .deliver .send now rest last }
  | .deliver .send now rest last =>
      match s.resultCh now.ticket.entry with
      | some _ => s
      | none =>
          { s with
            resultCh := Function.update s.resultCh now.ticket.entry
              (some (now.ticket.call, now.result))
            applier := .deliver .put now rest last }
  | .deliver .put now rest last => { s.put now.ticket.entry with applier := .next last rest }
  | _ => s

/-- The pool drops an entry. -/
def collect (s : Entries) (slot : Nat) : Entries := { s with pool := s.pool.eraseIdx slot }

/-! ### What the steps can do -/

section Cases

variable (s : Entries)

theorem get_eq {slot : Option Nat} {e : Nat} {s s' : Entries} (h : s.get slot = some (e, s')) :
    ∃ pool fresh, s' = { s with pool := pool, fresh := fresh } := by
  cases slot with
  | none =>
      cases h
      exact ⟨_, _, rfl⟩
  | some slot =>
      obtain ⟨x, -, heq⟩ := Option.map_eq_some_iff.mp h
      cases heq
      exact ⟨_, _, rfl⟩

theorem submit_cases (n : Nat) : s.submit n = s ∨
    ∃ p e, s.calls[n]? = some ⟨p, .holding e⟩ ∧ s.submit n =
      setPhase { s with submitCh := s.submitCh ++ [⟨e, n⟩] } n p (.waiting e) := by
  rw [submit]
  split
  · rename_i p e hc
    split
    · exact Or.inr ⟨p, e, hc, rfl⟩
    · exact Or.inl rfl
  · exact Or.inl rfl

theorem receive_cases (n : Nat) : s.receive n = s ∨
    ∃ p e m r, s.calls[n]? = some ⟨p, .waiting e⟩ ∧ s.resultCh e = some (m, r) ∧ s.receive n =
      setPhase { s with resultCh := Function.update s.resultCh e none } n p (.returned r) := by
  rw [receive]
  split
  · rename_i p e hc
    split
    · rename_i m r hch
      exact Or.inr ⟨p, e, m, r, hc, hch, rfl⟩
    · exact Or.inl rfl
  · exact Or.inl rfl

/-- What a step of the delivery loop makes of `s`. -/
inductive Delivers (s : Entries) : Entries → Prop where
  | idle : Delivers s s
  | drain {now : Delivery} {rest : List Delivery} {last : Bool} :
      s.applier = .deliver .drain now rest last → Delivers s { s with
        resultCh := Function.update s.resultCh now.ticket.entry none
        applier := .deliver .send now rest last }
  | send {now : Delivery} {rest : List Delivery} {last : Bool} :
      s.applier = .deliver .send now rest last → s.resultCh now.ticket.entry = none →
      Delivers s { s with
        resultCh := Function.update s.resultCh now.ticket.entry
          (some (now.ticket.call, now.result))
        applier := .deliver .put now rest last }
  | put {now : Delivery} {rest : List Delivery} {last : Bool} :
      s.applier = .deliver .put now rest last →
      Delivers s { s.put now.ticket.entry with applier := .next last rest }

theorem delivers : Delivers s s.deliver := by
  rw [deliver]
  split
  · rename_i ha
    exact .drain ha
  · rename_i ha
    split
    · exact .idle
    · rename_i hch
      exact .send ha hch
  · rename_i ha
    exact .put ha
  · exact .idle

end Cases

/-! ## Who has an entry -/

/-- Entries sent and not yet judged. -/
def unjudged (s : Entries) : List Ticket := s.submitCh ++ s.applier.batch

/-- Entries under way. -/
def tickets (s : Entries) : List Ticket := s.submitCh ++ s.applier.tickets

/-- Entries in the pool and entries under way. -/
def listed (s : Entries) : List Nat := s.pool ++ s.tickets.map Ticket.entry

variable {s : Entries}

theorem unjudged_subset : s.unjudged ⊆ s.tickets :=
  ((Applier.batch_sublist_tickets _).append_left _).subset

theorem entry_mem_listed {t : Ticket} (ht : t ∈ s.unjudged) : t.entry ∈ s.listed :=
  List.mem_append_right _ (List.mem_map_of_mem (unjudged_subset ht))

theorem perm_submit (queue batch : List Ticket) (t : Ticket) :
    ((queue ++ [t]) ++ batch).Perm (t :: (queue ++ batch)) := by
  rw [List.append_assoc]
  exact List.perm_middle

theorem perm_take {queue rest : List Ticket} (batch : List Ticket) {t : Ticket}
    (hs : queue = t :: rest) : (rest ++ (batch ++ [t])).Perm (queue ++ batch) := by
  rw [hs, ← List.append_assoc]
  exact List.perm_append_singleton t _

structure Custody (s : Entries) : Prop where
  nodup : s.listed.Nodup
  below : ∀ e ∈ s.listed, e < s.fresh
  holder : ∀ (m n : Nat) (p q : Proposal) (e : Nat), s.calls[m]? = some ⟨p, .holding e⟩ →
    s.calls[n]? = some ⟨q, .holding e⟩ → m = n
  held : ∀ (n : Nat) (p : Proposal) (e : Nat), s.calls[n]? = some ⟨p, .holding e⟩ →
    e < s.fresh ∧ e ∉ s.listed ∧ s.p e = some p
  queued : ∀ t ∈ s.unjudged, ∃ c, s.calls[t.call]? = some c ∧ s.p t.entry = some c.proposal

theorem custody_new : Custody new where
  nodup := List.Pairwise.nil
  below := fun _ he => absurd he List.not_mem_nil
  holder := fun _ _ _ _ _ hc => by cases hc
  held := fun _ _ _ hc => by cases hc
  queued := fun _ ht => absurd ht List.not_mem_nil

/-! ### The calls' steps -/

section Calls

variable {calls : List ProposeCall} {m n : Nat} {p q : Proposal} {a b : Phase} {e : Nat}

theorem holding_set (hb : ∀ e, b ≠ .holding e)
    (hm : (calls.set n ⟨p, b⟩)[m]? = some ⟨q, .holding e⟩) :
    m ≠ n ∧ calls[m]? = some ⟨q, .holding e⟩ := by
  rcases Runs.getElem?_set_cases hm with ⟨-, heq⟩ | ⟨hne, hm⟩
  · exact absurd (congrArg ProposeCall.phase heq).symm (hb e)
  · exact ⟨hne, hm⟩

theorem exists_proposal_set (hn : calls[n]? = some ⟨p, a⟩) {c : ProposeCall}
    (hc : calls[m]? = some c) :
    ∃ c', (calls.set n ⟨p, b⟩)[m]? = some c' ∧ c'.proposal = c.proposal := by
  by_cases hm : m = n
  · subst hm
    rw [hn] at hc
    cases hc
    exact ⟨_, List.getElem?_set_self (List.getElem?_eq_some_iff.mp hn).1, rfl⟩
  · exact ⟨c, (List.getElem?_set_ne (Ne.symm hm)).trans hc, rfl⟩

theorem Custody.resultCh (h : Custody s) (resultCh : Nat → Option (Nat × ApplyResult)) :
    Custody { s with resultCh := resultCh } :=
  ⟨h.nodup, h.below, h.holder, h.held, h.queued⟩

theorem Custody.call (h : Custody s) (p : Proposal) (ha : ∀ e, a ≠ .holding e) :
    Custody (s.call p a) := by
  have hholding : ∀ {m : Nat} {q : Proposal} {e : Nat},
      (s.calls ++ [⟨p, a⟩])[m]? = some ⟨q, .holding e⟩ → s.calls[m]? = some ⟨q, .holding e⟩ := by
    intro m q e hm
    rcases Runs.getElem?_concat_cases hm with ⟨-, heq⟩ | ⟨-, hm⟩
    · exact absurd (congrArg ProposeCall.phase heq).symm (ha e)
    · exact hm
  refine ⟨h.nodup, h.below, fun m n q q' e hm hn => ?_, fun n q e hn => ?_, fun t ht => ?_⟩
  · exact h.holder m n q q' e (hholding hm) (hholding hn)
  · exact h.held n q e (hholding hn)
  · obtain ⟨c, hc, hp⟩ := h.queued t ht
    exact ⟨c, (List.getElem?_append_left (List.getElem?_eq_some_iff.mp hc).1).trans hc, hp⟩

theorem Custody.queued_set (h : Custody s) (hn : s.calls[n]? = some ⟨p, a⟩) {t : Ticket}
    (ht : t ∈ s.unjudged) {o : Option Proposal} (ho : o = s.p t.entry) :
    ∃ c, (s.calls.set n ⟨p, b⟩)[t.call]? = some c ∧ o = some c.proposal := by
  obtain ⟨c, hc, hp⟩ := h.queued t ht
  obtain ⟨c', hc', heq⟩ := exists_proposal_set hn hc
  exact ⟨c', hc', by rw [ho, heq, hp]⟩

theorem Custody.setPhase (h : Custody s) (hn : s.calls[n]? = some ⟨p, a⟩)
    (hb : ∀ e, b ≠ .holding e) : Custody (s.setPhase n p b) := by
  refine ⟨h.nodup, h.below, fun m m' q q' e hm hm' => ?_, fun m q e hm => ?_, fun t ht => ?_⟩
  · exact h.holder m m' q q' e (holding_set hb hm).2 (holding_set hb hm').2
  · exact h.held m q e (holding_set hb hm).2
  · exact h.queued_set hn ht rfl

theorem perm_entries (pool : List Nat) (before after : List Ticket) (t : Ticket) :
    (pool ++ (before ++ t :: after).map Ticket.entry).Perm
      (t.entry :: (pool ++ (before ++ after).map Ticket.entry)) := by
  simp only [List.map_append, List.map_cons]
  rw [← List.append_assoc, ← List.append_assoc]
  exact List.perm_middle

/-- An entry that is listed once, in the pool, is not listed when it is taken out. -/
theorem not_mem_eraseIdx_append {pool rest : List Nat} {slot e : Nat}
    (h : (pool ++ rest).Nodup) (he : pool[slot]? = some e) :
    e ∉ pool.eraseIdx slot ++ rest := by
  obtain ⟨hlt, rfl⟩ := List.getElem?_eq_some_iff.mp he
  have hsplit : pool ++ rest =
      pool.take slot ++ pool[slot] :: (pool.drop (slot + 1) ++ rest) := by
    rw [← List.cons_append, List.getElem_cons_drop, ← List.append_assoc, List.take_append_drop]
  rw [hsplit] at h
  rw [List.eraseIdx_eq_take_drop_succ, List.append_assoc]
  exact (List.nodup_cons.mp (List.nodup_middle.mp h)).1

theorem Custody.move (h : Custody s) {pool : List Nat} {submitCh : List Ticket} {applier : Applier}
    (hlisted : List.Subperm (pool ++ (submitCh ++ applier.tickets).map Ticket.entry) s.listed)
    (hqueue : submitCh ++ applier.batch ⊆ s.unjudged) :
    Custody { s with pool := pool, submitCh := submitCh, applier := applier } := by
  refine ⟨?_, fun e he => h.below e (hlisted.subset he), h.holder, fun n p e hn => ?_,
    fun t ht => h.queued t (hqueue ht)⟩
  · obtain ⟨l, hl, hsub⟩ := hlisted
    exact hl.nodup_iff.mp (hsub.nodup h.nodup)
  · obtain ⟨hlt, hnot, hp⟩ := h.held n p e hn
    exact ⟨hlt, fun he => hnot (hlisted.subset he), hp⟩

theorem Custody.collect (h : Custody s) (slot : Nat) : Custody (s.collect slot) := by
  have hsub : (s.pool.eraseIdx slot ++ s.tickets.map Ticket.entry).Sublist s.listed :=
    (List.eraseIdx_sublist _ _).append_right _
  exact h.move hsub.subperm (List.Subset.refl _)

/-- What `entryPool.Get` returns, nobody has. -/
theorem Custody.get (h : Custody s) {slot : Option Nat} {s' : Entries}
    (hget : s.get slot = some (e, s')) :
    Custody s' ∧ s'.calls = s.calls ∧ e < s'.fresh ∧ e ∉ s'.listed ∧
      ∀ (n : Nat) (p : Proposal), s.calls[n]? ≠ some ⟨p, .holding e⟩ := by
  cases slot with
  | none =>
      cases hget
      refine ⟨⟨h.nodup, fun x hx => Nat.lt_succ_of_lt (h.below x hx), h.holder, ?_, h.queued⟩, rfl,
        Nat.lt_succ_self _, fun hx => absurd (h.below _ hx) (Nat.lt_irrefl _), fun n p hn => ?_⟩
      · intro n p x hn
        obtain ⟨hlt, hrest⟩ := h.held n p x hn
        exact ⟨Nat.lt_succ_of_lt hlt, hrest⟩
      · exact absurd (h.held n p _ hn).1 (Nat.lt_irrefl _)
  | some slot =>
      obtain ⟨x, hx, heq⟩ := Option.map_eq_some_iff.mp hget
      cases heq
      have hmem : e ∈ s.listed := List.mem_append_left _ (List.mem_of_getElem? hx)
      refine ⟨h.collect slot, rfl, h.below e hmem, not_mem_eraseIdx_append h.nodup hx,
        fun n p hn => ?_⟩
      exact (h.held n p e hn).2.1 hmem

theorem Custody.hold (h : Custody s) {slot : Option Nat} {s' : Entries}
    (hget : s.get slot = some (e, s')) (hn : s.calls[n]? = some ⟨p, a⟩) :
    Custody (s'.hold n p e) := by
  obtain ⟨h', hcalls, hlt, hfree, hun⟩ := h.get hget
  rw [← hcalls] at hn hun
  have hp : ∀ {x : Nat}, x ≠ e → Function.update s'.p e (some p) x = s'.p x :=
    fun hne => Function.update_of_ne hne ..
  refine ⟨h'.nodup, h'.below, fun m m' q q' x => ?_, fun m q x hm => ?_, fun t ht => ?_⟩
  · refine Runs.unique_set (fun m n q q' => h'.holder m n q q' x) (fun q q' heq hmem => ?_)
      m m' q q'
    cases heq
    obtain ⟨k, hk⟩ := List.getElem?_of_mem hmem
    exact hun k q' hk
  · rcases Runs.getElem?_set_cases hm with ⟨-, heq⟩ | ⟨-, hm⟩
    · cases heq
      exact ⟨hlt, hfree, Function.update_self ..⟩
    · obtain ⟨hltx, hnot, hpx⟩ := h'.held m q x hm
      have hne : x ≠ e := by
        rintro rfl
        exact hun m q hm
      exact ⟨hltx, hnot, (hp hne).trans hpx⟩
  · have hne : t.entry ≠ e := by
      rintro rfl
      exact hfree (entry_mem_listed ht)
    exact h'.queued_set hn ht (hp hne)

theorem Custody.submit (h : Custody s) (hn : s.calls[n]? = some ⟨p, .holding e⟩) :
    Custody (Entries.setPhase { s with submitCh := s.submitCh ++ [⟨e, n⟩] } n p (.waiting e)) := by
  obtain ⟨hlt, hnot, hp⟩ := h.held n p e hn
  have hperm : (s.pool ++ ((s.submitCh ++ [(⟨e, n⟩ : Ticket)]) ++ s.applier.tickets).map
      Ticket.entry).Perm (e :: s.listed) := by
    rw [List.append_assoc, List.singleton_append]
    exact perm_entries _ _ _ ⟨e, n⟩
  have hwaiting : ∀ x, Phase.waiting e ≠ .holding x := fun x heq => by cases heq
  refine ⟨?_, fun x hx => ?_, fun m m' q q' x hm hm' => ?_, fun m q x hm => ?_, fun t ht => ?_⟩
  · exact hperm.nodup_iff.mpr (List.nodup_cons.mpr ⟨hnot, h.nodup⟩)
  · rcases List.mem_cons.mp (hperm.mem_iff.mp hx) with rfl | hx
    · exact hlt
    · exact h.below x hx
  · exact h.holder m m' q q' x (holding_set hwaiting hm).2 (holding_set hwaiting hm').2
  · obtain ⟨hne, hm⟩ := holding_set hwaiting hm
    obtain ⟨hltx, hx, hpx⟩ := h.held m q x hm
    refine ⟨hltx, fun hin => ?_, hpx⟩
    rcases List.mem_cons.mp (hperm.mem_iff.mp hin) with rfl | hin
    · exact hne (h.holder m n q p x hm hn)
    · exact hx hin
  · rcases List.mem_cons.mp ((perm_submit _ _ _).mem_iff.mp ht) with rfl | ht
    · exact ⟨_, List.getElem?_set_self (List.getElem?_eq_some_iff.mp hn).1, hp⟩
    · exact h.queued_set hn ht rfl

theorem Custody.giveBack (h : Custody s) (hn : s.calls[n]? = some ⟨p, .holding e⟩)
    (hb : ∀ x, b ≠ .holding x) : Custody ((s.put e).setPhase n p b) := by
  obtain ⟨hlt, hnot, -⟩ := h.held n p e hn
  have hp : ∀ {x : Nat}, x ≠ e → Function.update s.p e none x = s.p x :=
    fun hne => Function.update_of_ne hne ..
  refine ⟨List.nodup_cons.mpr ⟨hnot, h.nodup⟩, List.forall_mem_cons.mpr ⟨hlt, h.below⟩,
    fun m m' q q' x hm hm' => ?_, fun m q x hm => ?_, fun t ht => ?_⟩
  · exact h.holder m m' q q' x (holding_set hb hm).2 (holding_set hb hm').2
  · obtain ⟨hne, hm⟩ := holding_set hb hm
    obtain ⟨hltx, hx, hpx⟩ := h.held m q x hm
    have hxe : x ≠ e := by
      rintro rfl
      exact hne (h.holder m n q p x hm hn)
    exact ⟨hltx, fun hin => (List.mem_cons.mp hin).elim hxe hx, (hp hxe).trans hpx⟩
  · have hne : t.entry ≠ e := by
      rintro rfl
      exact hnot (entry_mem_listed ht)
    exact h.queued_set hn ht (hp hne)

end Calls

/-! ### The applier's steps -/

theorem Custody.take (h : Custody s) {batch rest : List Ticket} {t : Ticket} {a : Applier}
    (hs : s.submitCh = t :: rest) (ha : s.applier.Collecting batch)
    (ha' : a.Collecting (batch ++ [t])) : Custody { s with submitCh := rest, applier := a } := by
  have hperm := perm_take batch hs
  refine h.move (List.Perm.subperm ?_) ?_
  · rw [listed, tickets, ha.tickets, ha'.tickets]
    exact (hperm.map _).append_left _
  · rw [unjudged, ha.batch, ha'.batch]
    exact hperm.subset

theorem Custody.turn (h : Custody s) {a : Applier} (hbatch : a.batch = s.applier.batch)
    (htickets : a.tickets = s.applier.tickets) : Custody { s with applier := a } := by
  refine h.move ?_ ?_
  · rw [listed, tickets, htickets]
  · rw [unjudged, hbatch]
    exact List.Subset.refl _

theorem map_fst_zip_sublist {A B : Type} (as : List A) :
    ∀ bs : List B, ((as.zip bs).map (·.1)).Sublist as := by
  induction as with
  | nil => exact fun bs => List.Sublist.refl _
  | cons a as ih =>
      intro bs
      cases bs with
      | nil => exact List.nil_sublist _
      | cons b bs => exact (ih bs).cons_cons a

theorem tickets_judged {batch : List Ticket} (last : Bool) (results : List ApplyResult) :
    (Applier.next last ((batch.zip results).map fun x => ⟨x.1, x.2⟩)).tickets =
      (batch.zip results).map (·.1) := by
  rw [Applier.tickets_next, List.map_map]
  rfl

theorem Custody.judge (h : Custody s) {batch : List Ticket} (ha : s.applier.Collecting batch)
    (last : Bool) (results : List ApplyResult) :
    Custody { s with applier := .next last ((batch.zip results).map fun x => ⟨x.1, x.2⟩) } := by
  refine h.move (List.Sublist.subperm ?_) ?_
  · rw [tickets_judged, listed, tickets, ha.tickets]
    exact (((map_fst_zip_sublist batch results).append_left _).map _).append_left _
  · rw [Applier.batch_next, List.append_nil]
    exact List.subset_append_left _ _

theorem listed_delivering {stage : Stage} {now : Delivery} {rest : List Delivery} {last : Bool}
    (ha : s.applier = .deliver stage now rest last) :
    s.listed.Perm (now.ticket.entry ::
      (s.pool ++ (s.submitCh ++ rest.map Delivery.ticket).map Ticket.entry)) := by
  rw [listed, tickets, ha]
  exact perm_entries _ _ _ now.ticket

theorem Custody.delivering_ne (h : Custody s) {stage : Stage} {now : Delivery}
    {rest : List Delivery} {last : Bool} (ha : s.applier = .deliver stage now rest last) :
    ∀ t ∈ s.submitCh ++ rest.map Delivery.ticket, t.entry ≠ now.ticket.entry := by
  intro t ht heq
  obtain ⟨hnot, -⟩ := List.nodup_cons.mp ((listed_delivering ha).nodup_iff.mp h.nodup)
  exact hnot (List.mem_append_right _ (List.mem_map.mpr ⟨t, ht, heq⟩))

theorem Custody.put (h : Custody s) {stage : Stage} {now : Delivery} {rest : List Delivery}
    {last : Bool} (ha : s.applier = .deliver stage now rest last) :
    Custody { s.put now.ticket.entry with applier := .next last rest } := by
  have hperm := listed_delivering ha
  have hlisted : s.listed.Perm ((now.ticket.entry :: s.pool) ++
      (s.submitCh ++ (Applier.next last rest).tickets).map Ticket.entry) := by
    rw [Applier.tickets_next]
    exact hperm
  have hp : ∀ {x : Nat}, x ≠ now.ticket.entry →
      Function.update s.p now.ticket.entry none x = s.p x :=
    fun hne => Function.update_of_ne hne ..
  refine ⟨hlisted.nodup_iff.mp h.nodup, fun e he => h.below e (hlisted.mem_iff.mpr he), h.holder,
    fun n q x hn => ?_, fun t ht => ?_⟩
  · obtain ⟨hlt, hx, hpx⟩ := h.held n q x hn
    have hne : x ≠ now.ticket.entry := by
      rintro rfl
      exact hx (hperm.mem_iff.mpr List.mem_cons_self)
    exact ⟨hlt, fun hin => hx (hlisted.mem_iff.mpr hin), (hp hne).trans hpx⟩
  · change t ∈ s.submitCh ++ (Applier.next last rest).batch at ht
    rw [Applier.batch_next, List.append_nil] at ht
    obtain ⟨c, hc, hpt⟩ := h.queued t (List.mem_append_left _ ht)
    exact ⟨c, hc, (hp (h.delivering_ne ha t (List.mem_append_left _ ht))).trans hpt⟩

theorem Custody.deliver (h : Custody s) {s' : Entries} (hs : Delivers s s') : Custody s' := by
  cases hs with
  | idle => exact h
  | @drain now rest last ha =>
      have hturn : Custody { s with applier := .deliver .send now rest last } :=
        h.turn (by rw [ha]; rfl) (by rw [ha]; rfl)
      exact hturn.resultCh _
  | @send now rest last ha =>
      have hturn : Custody { s with applier := .deliver .put now rest last } :=
        h.turn (by rw [ha]; rfl) (by rw [ha]; rfl)
      exact hturn.resultCh _
  | put ha => exact h.put ha

end Entries

end Dpx
