/-
# `Dpx.Conductor.Lifecycle` — a direct proposer and its Shutdown

`ProposeDirect`, `applierLoop` and `Shutdown` of `conductor/direct.go`, from the closed check
of a call to the return of `wg.Wait`, over the entries of `Dpx.Conductor.Entries`.  A call that
finds the proposer closed leaves at one of three places (`Exit`); at the second it gives its entry
back, at the third the entry is the applier's.  The applier leaves its loop after a last flush
when it finds `done` closed, and whatever is still in `submitCh` stays there.

What a step can do is said once (`Effect`); what is kept or final is read off it.  Results may
reach the wrong caller here, as in `Dpx.Conductor.Pipeline`, but nothing is applied for the
wrong caller or twice: while an entry is under way its `p` is the proposal of the call that
submitted it (`Owned`).  From there, in every interleaving (`shutdown_safe`): a proposal is
applied at most once, a call that left at the first or second place is never applied, and once
the `Shutdown` that closed `done` has returned, nothing is applied any more.

Other proposers use the same pool: what they take is dropped here, and what they put back is a
new entry, which loses only whose results a call may get.  `applied`, the batches given to
`applyBatchDirect` with the call each proposal came from, is for the statement only: no step reads
it.
-/
import Dpx.Conductor.Entries
import Dpx.Conductor.History

namespace Dpx

/-- Where a call of `Shutdown` is; `closer` is the one whose swap succeeded. -/
inductive ShutdownPhase where
  | swapped
  | joining
  | returned (closer : Bool)
  deriving DecidableEq, Repr

structure Lifecycle (σ : Type) extends Entries where
  proposer : DirectProposer σ
  closed : Bool
  done : Bool
  shutdowns : List ShutdownPhase
  applied : List (List (Nat × Proposal))

inductive LifeEvent where
  | call (p : Proposal)
  | get (n : Nat) (slot : Option Nat)
  | submit (n : Nat)
  | submitDone (n : Nat)
  | receive (n : Nat)
  | waitDone (n : Nat)
  | take
  | drained
  | tick
  | stop
  | deliver
  | collect (slot : Nat)
  | shutdown
  | closeDone (n : Nat)
  | join (n : Nat)

namespace Lifecycle

variable {σ : Type}

def new (d : DirectProposer σ) : Lifecycle σ := ⟨.new, d, false, false, [], []⟩

/-- `applyBatchDirect` on the proposals `ps` of the batch. -/
def judge [StorageEngine σ] (w : Lifecycle σ) (batch : List Ticket) (last : Bool)
    (ps : List Proposal) : Lifecycle σ :=
  let (results, d) := w.proposer.applyBatchDirect ps
  { w with
    proposer := d
    applier := .next last ((batch.zip results).map fun x => ⟨x.1, x.2⟩)
    applied := w.applied ++ [(batch.zip ps).map fun x => (x.1.call, x.2)] }

/-- The closure `flush` of the loop. -/
def flush [StorageEngine σ] (w : Lifecycle σ) (batch : List Ticket) (last : Bool) : Lifecycle σ :=
  if batch = [] then { w with applier := .next last [] }
  else
    match batch.mapM fun t => w.p t.entry with
    | some ps => w.judge batch last ps
    | none => w

/-- One atomic step; an event that is not enabled does nothing. -/
def step [StorageEngine σ] (w : Lifecycle σ) : LifeEvent → Lifecycle σ
  | .call p => { w with toEntries := w.call p (if w.closed then .closed .check else .checked) }
  | .get n slot =>
      match w.calls[n]? with
      | some ⟨p, .checked⟩ =>
          match w.toEntries.get slot with
          | some (e, s) => { w with toEntries := s.hold n p e }
          | none => w
      | _ => w
  | .submit n => { w with toEntries := w.toEntries.submit n }
  | .submitDone n =>
      match w.calls[n]? with
      | some ⟨p, .holding e⟩ =>
          if w.done then { w with toEntries := (w.put e).setPhase n p (.closed .submit) } else w
      | _ => w
  | .receive n => { w with toEntries := w.toEntries.receive n }
  | .waitDone n =>
      match w.calls[n]? with
      | some ⟨p, .waiting _⟩ =>
          if w.done then { w with toEntries := w.setPhase n p (.closed .wait) } else w
      | _ => w
  | .take =>
      match w.applier, w.submitCh with
      | .select batch, t :: rest => { w with submitCh := rest, applier := .drain (batch ++ [t]) }
      | .drain batch, t :: rest =>
          if batch.length < maxBatchSize then
            { w with submitCh := rest, applier := .drain (batch ++ [t]) }
          else w
      | _, _ => w
  | .drained =>
      match w.applier with
      | .drain batch =>
          if maxBatchSize ≤ batch.length then w.flush batch false
          else if w.submitCh = [] then { w with applier := .select batch }
          else w
      | _ => w
  | .tick =>
      match w.applier with
      | .select batch => w.flush batch false
      | _ => w
  | .stop =>
      match w.applier with
      | .select batch => if w.done then w.flush batch true else w
      | _ => w
  | .deliver => { w with toEntries := w.toEntries.deliver }
  | .collect slot => { w with toEntries := w.toEntries.collect slot }
  | .shutdown =>
      if w.closed then { w with shutdowns := w.shutdowns ++ [.returned false] }
      else { w with closed := true, shutdowns := w.shutdowns ++ [.swapped] }
  | .closeDone n =>
      match w.shutdowns[n]? with
      | some .swapped => { w with done := true, shutdowns := w.shutdowns.set n .joining }
      | _ => w
  | .join n =>
      match w.shutdowns[n]?, w.applier with
      | some .joining, .exited => { w with shutdowns := w.shutdowns.set n (.returned true) }
      | _, _ => w

def run [StorageEngine σ] (w : Lifecycle σ) (evs : List LifeEvent) : Lifecycle σ :=
  evs.foldl step w

/-! ## What a step can do -/

inductive Effect [StorageEngine σ] (w : Lifecycle σ) : Lifecycle σ → Prop where
  | idle : Effect w w
  | call (p : Proposal) {phase : Phase} (hphase : ∀ e, phase ≠ .holding e) :
      Effect w { w with toEntries := w.call p phase }
  | hold {n e : Nat} {slot : Option Nat} {p : Proposal} {s : Entries}
      (hn : w.calls[n]? = some ⟨p, .checked⟩) (hget : w.get slot = some (e, s)) :
      Effect w { w with toEntries := s.hold n p e }
  | submit {n e : Nat} {p : Proposal} (hn : w.calls[n]? = some ⟨p, .holding e⟩) :
      Effect w { w with
        submitCh := w.submitCh ++ [⟨e, n⟩], calls := w.calls.set n ⟨p, .waiting e⟩ }
  | giveBack {n e : Nat} {p : Proposal} (hn : w.calls[n]? = some ⟨p, .holding e⟩) :
      Effect w { w with toEntries := (w.put e).setPhase n p (.closed .submit) }
  /-- with a result or without -/
  | leave {n e : Nat} {p : Proposal} (hn : w.calls[n]? = some ⟨p, .waiting e⟩)
      (resultCh : Nat → Option (Nat × ApplyResult)) {phase : Phase}
      (hphase : ∀ e, phase ≠ .holding e) (hsent : phase.submitted = true) :
      Effect w { w with resultCh := resultCh, calls := w.calls.set n ⟨p, phase⟩ }
  | take {batch rest : List Ticket} {t : Ticket} (ha : w.applier.Collecting batch)
      (hs : w.submitCh = t :: rest) :
      Effect w { w with submitCh := rest, applier := .drain (batch ++ [t]) }
  | collected {batch : List Ticket} (ha : w.applier.Collecting batch) :
      Effect w { w with applier := .select batch }
  | flush {batch : List Ticket} (ha : w.applier.Collecting batch) (last : Bool) :
      Effect w (w.flush batch last)
  | deliver {s : Entries} (hs : w.toEntries.Delivers s) : Effect w { w with toEntries := s }
  | collect (slot : Nat) : Effect w { w with toEntries := w.toEntries.collect slot }
  | shutdown (closed : Bool) {phase : ShutdownPhase} (hphase : phase ≠ .returned true) :
      Effect w { w with closed := closed, shutdowns := w.shutdowns ++ [phase] }
  | closeDone (n : Nat) : Effect w { w with done := true, shutdowns := w.shutdowns.set n .joining }
  | join (n : Nat) (ha : w.applier = .exited) :
      Effect w { w with shutdowns := w.shutdowns.set n (.returned true) }

theorem effect_step [StorageEngine σ] (w : Lifecycle σ) (ev : LifeEvent) :
    Effect w (w.step ev) := by
  cases ev with
  | call p =>
      refine .call p fun e heq => ?_
      split at heq <;> cases heq
  | get n slot =>
      rw [step]
      split
      · rename_i p hn
        split
        · rename_i e s hget
          exact .hold hn hget
        · exact .idle
      · exact .idle
  | submit n =>
      rw [step]
      rcases w.toEntries.submit_cases n with heq | ⟨p, e, hn, heq⟩
      · rw [heq]
        exact .idle
      · rw [heq]
        exact .submit hn
  | submitDone n =>
      rw [step]
      split
      · rename_i p e hn
        split
        · exact .giveBack hn
        · exact .idle
      · exact .idle
  | receive n =>
      rw [step]
      rcases w.toEntries.receive_cases n with heq | ⟨p, e, m, r, hn, -, heq⟩
      · rw [heq]
        exact .idle
      · rw [heq]
        exact .leave hn _ (fun e hp => by cases hp) rfl
  | waitDone n =>
      rw [step]
      split
      · rename_i p e hn
        split
        · exact .leave hn w.resultCh (fun e hp => by cases hp) rfl
        · exact .idle
      · exact .idle
  | take =>
      rw [step]
      split
      · rename_i batch t rest ha hs
        exact .take (Or.inl ha) hs
      · rename_i batch t rest ha hs
        split
        · exact .take (Or.inr ha) hs
        · exact .idle
      · exact .idle
  | drained =>
      rw [step]
      split
      · rename_i batch ha
        split
        · exact .flush (Or.inr ha) false
        · split
          · exact .collected (Or.inr ha)
          · exact .idle
      · exact .idle
  | tick =>
      rw [step]
      split
      · rename_i batch ha
        exact .flush (Or.inl ha) false
      · exact .idle
  | stop =>
      rw [step]
      split
      · rename_i batch ha
        split
        · exact .flush (Or.inl ha) true
        · exact .idle
      · exact .idle
  | deliver => exact .deliver w.toEntries.delivers
  | collect slot => exact .collect slot
  | shutdown =>
      rw [step]
      split
      · exact .shutdown w.closed (fun h => by cases h)
      · exact .shutdown true (fun h => by cases h)
  | closeDone n =>
      rw [step]
      split
      · exact .closeDone n
      · exact .idle
  | join n =>
      rw [step]
      split
      · rename_i ha
        exact .join n ha
      · exact .idle

/-! ## What is under way and what is applied -/

/-- Call `n` is for `p`, and its entry has been sent. -/
def Sent (calls : List ProposeCall) (n : Nat) (p : Proposal) : Prop :=
  ∃ phase, calls[n]? = some ⟨p, phase⟩ ∧ phase.submitted = true

structure Owned (w : Lifecycle σ) : Prop where
  custody : w.toEntries.Custody
  queued : ∀ t ∈ w.unjudged, ∃ p, Sent w.calls t.call p
  sent : ∀ x ∈ w.applied.flatten, Sent w.calls x.1 x.2
  once : (w.applied.flatten.map Prod.fst ++ w.unjudged.map Ticket.call).Nodup

theorem owned_new (d : DirectProposer σ) : Owned (new d) where
  custody := Entries.custody_new
  queued := fun _ ht => absurd ht List.not_mem_nil
  sent := fun _ hx => absurd hx List.not_mem_nil
  once := List.Pairwise.nil

theorem Sent.concat {calls : List ProposeCall} {n : Nat} {p : Proposal} (h : Sent calls n p)
    (c : ProposeCall) : Sent (calls ++ [c]) n p := by
  obtain ⟨phase, hc, hs⟩ := h
  obtain ⟨hn, -⟩ := List.getElem?_eq_some_iff.mp hc
  exact ⟨phase, by rw [List.getElem?_append_left hn]; exact hc, hs⟩

theorem Sent.set {calls : List ProposeCall} {n m : Nat} {p q : Proposal} {a b : Phase}
    (h : Sent calls n p) (hm : calls[m]? = some ⟨q, a⟩)
    (hab : a.submitted = true → b.submitted = true) : Sent (calls.set m ⟨q, b⟩) n p := by
  obtain ⟨phase, hc, hs⟩ := h
  by_cases hmn : m = n
  · subst hmn
    cases hm.symm.trans hc
    obtain ⟨hlt, -⟩ := List.getElem?_eq_some_iff.mp hm
    exact ⟨b, List.getElem?_set_self hlt, hab hs⟩
  · exact ⟨phase, by rw [List.getElem?_set_ne hmn]; exact hc, hs⟩

theorem Owned.move {w : Lifecycle σ} (h : Owned w) {s : Entries} (hcustody : s.Custody)
    (hqueue : s.unjudged.Perm w.unjudged)
    (hsent : ∀ {n p}, Sent w.calls n p → Sent s.calls n p) : Owned { w with toEntries := s } where
  custody := hcustody
  queued := by
    intro t ht
    obtain ⟨p, hp⟩ := h.queued t (hqueue.subset ht)
    exact ⟨p, hsent hp⟩
  sent := fun x hx => hsent (h.sent x hx)
  once := ((hqueue.map Ticket.call).append_left _).nodup_iff.mpr h.once

theorem Owned.hold {w : Lifecycle σ} (h : Owned w) {n e : Nat} {slot : Option Nat} {p : Proposal}
    {s : Entries} (hn : w.calls[n]? = some ⟨p, .checked⟩) (hget : w.get slot = some (e, s)) :
    Owned { w with toEntries := s.hold n p e } := by
  have hcustody := h.custody.hold hget hn
  obtain ⟨pool, fresh, rfl⟩ := Entries.get_eq hget
  exact h.move hcustody (List.Perm.refl _) fun hs => hs.set hn fun hchecked => by cases hchecked

theorem Owned.submit {w : Lifecycle σ} (h : Owned w) {n : Nat} {p : Proposal} {e : Nat}
    (hn : w.calls[n]? = some ⟨p, .holding e⟩) :
    Owned { w with
      submitCh := w.submitCh ++ [⟨e, n⟩], calls := w.calls.set n ⟨p, .waiting e⟩ } := by
  have hqueue := Entries.perm_submit w.submitCh w.applier.batch ⟨e, n⟩
  have hset : (w.calls.set n ⟨p, .waiting e⟩)[n]? = some ⟨p, .waiting e⟩ :=
    List.getElem?_set_self (List.getElem?_eq_some_iff.mp hn).1
  have hkeep : ∀ {m q}, Sent w.calls m q → Sent (w.calls.set n ⟨p, .waiting e⟩) m q :=
    fun hs => hs.set hn fun _ => rfl
  -- the call has not sent anything before
  have hunsent : ∀ q, ¬ Sent w.calls n q := by
    rintro q ⟨phase, hc, hs⟩
    cases hn.symm.trans hc
    exact Bool.noConfusion hs
  refine ⟨h.custody.submit hn, ?_, fun x hx => hkeep (h.sent x hx), ?_⟩
  · intro t ht
    rcases List.mem_cons.mp (hqueue.mem_iff.mp ht) with rfl | ht
    · exact ⟨p, .waiting e, hset, rfl⟩
    · obtain ⟨q, hsent⟩ := h.queued t ht
      exact ⟨q, hkeep hsent⟩
  · have hcalls := ((hqueue.map Ticket.call).append_left (w.applied.flatten.map Prod.fst)).trans
      List.perm_middle
    refine hcalls.nodup_iff.mpr (List.nodup_cons.mpr ⟨fun hmem => ?_, h.once⟩)
    rcases List.mem_append.mp hmem with happlied | hqueued
    · obtain ⟨x, hx, hxn⟩ := List.mem_map.mp happlied
      have hxn : x.1 = n := hxn
      exact hunsent x.2 (hxn ▸ h.sent x hx)
    · obtain ⟨t, ht, htn⟩ := List.mem_map.mp hqueued
      have htn : t.call = n := htn
      obtain ⟨q, hsent⟩ := h.queued t ht
      exact hunsent q (htn ▸ hsent)

/-! ### The applier's steps -/

theorem Owned.take {w : Lifecycle σ} (h : Owned w) {batch rest : List Ticket} {t : Ticket}
    (ha : w.applier.Collecting batch) (hs : w.submitCh = t :: rest) :
    Owned { w with submitCh := rest, applier := .drain (batch ++ [t]) } := by
  refine h.move (h.custody.take hs ha (Or.inr rfl)) ?_ fun hsent => hsent
  rw [Entries.unjudged, Entries.unjudged, ha.batch]
  exact Entries.perm_take batch hs

theorem Owned.turn {w : Lifecycle σ} (h : Owned w) {a : Applier}
    (hbatch : a.batch = w.applier.batch) (htickets : a.tickets = w.applier.tickets) :
    Owned { w with applier := a } := by
  refine h.move (h.custody.turn hbatch htickets) ?_ fun hsent => hsent
  rw [Entries.unjudged, Entries.unjudged, hbatch]

theorem Owned.deliver {w : Lifecycle σ} (h : Owned w) {s : Entries} (hs : w.toEntries.Delivers s) :
    Owned { w with toEntries := s } := by
  have hcustody := h.custody.deliver hs
  cases hs with
  | idle => exact h
  | drain ha | send ha =>
      refine h.move hcustody ?_ fun hsent => hsent
      rw [Entries.unjudged, Entries.unjudged, ha]
      exact List.Perm.refl _
  | put ha =>
      refine h.move hcustody ?_ fun hsent => hsent
      rw [Entries.unjudged, Entries.unjudged, Applier.batch_next, ha]
      exact List.Perm.refl _

theorem of_mem_zip_mapM {A B : Type} {f : A → Option B} : ∀ {as : List A} {bs : List B},
    as.mapM f = some bs → ∀ x ∈ as.zip bs, f x.1 = some x.2
  | [], _, _, _, hx => absurd hx List.not_mem_nil
  | a :: as, bs, h, x, hx => by
      rw [List.mapM_cons] at h
      obtain ⟨b, hb, h⟩ := Option.bind_eq_some_iff.mp h
      obtain ⟨bs', hbs, h⟩ := Option.bind_eq_some_iff.mp h
      cases h
      rcases List.mem_cons.mp hx with rfl | hx
      · exact hb
      · exact of_mem_zip_mapM hbs x hx

theorem Owned.sent_zip {w : Lifecycle σ} (h : Owned w) {batch : List Ticket}
    (ha : w.applier.Collecting batch) {ps : List Proposal}
    (hps : batch.mapM (fun t => w.p t.entry) = some ps) :
    ∀ x ∈ batch.zip ps, Sent w.calls x.1.call x.2 := by
  intro x hx
  have hmem : x.1 ∈ w.unjudged := by
    rw [Entries.unjudged, ha.batch]
    exact List.mem_append_right _ (List.of_mem_zip hx).1
  obtain ⟨q, hq⟩ := h.queued x.1 hmem
  obtain ⟨phase, hc, hsub⟩ := id hq
  obtain ⟨c, hc', hp⟩ := h.custody.queued x.1 hmem
  cases hc.symm.trans hc'
  cases hp.symm.trans (of_mem_zip_mapM hps x hx)
  exact hq

theorem Owned.once_zip {w : Lifecycle σ} (h : Owned w) {batch : List Ticket}
    (ha : w.applier.Collecting batch) (ps : List Proposal) :
    ((w.applied.flatten.map Prod.fst ++ (batch.zip ps).map fun x => x.1.call) ++
      w.submitCh.map Ticket.call).Nodup := by
  have hcalls : ((batch.zip ps).map fun x => x.1.call).Sublist (batch.map Ticket.call) := by
    have hmap := (Entries.map_fst_zip_sublist batch ps).map Ticket.call
    rw [List.map_map] at hmap
    exact hmap
  have honce := h.once
  rw [Entries.unjudged, ha.batch, List.map_append] at honce
  have hjudged := ((hcalls.append_left (w.submitCh.map Ticket.call)).append_left
    (w.applied.flatten.map Prod.fst)).nodup honce
  rw [List.append_assoc]
  exact (List.perm_append_comm.append_left _).nodup_iff.mpr hjudged

/-- The batch is judged: its entries leave the queue, and its calls are applied, each with its
own proposal. -/
theorem Owned.judge [StorageEngine σ] {w : Lifecycle σ} (h : Owned w) {batch : List Ticket}
    (ha : w.applier.Collecting batch) (last : Bool)
    {ps : List Proposal} (hps : batch.mapM (fun t => w.p t.entry) = some ps) :
    Owned (w.judge batch last ps) := by
  rw [Lifecycle.judge]
  generalize w.proposer.applyBatchDirect ps = answer
  obtain ⟨results, d⟩ := answer
  have hqueue : w.submitCh ++ (Applier.next last
      ((batch.zip results).map fun x => ⟨x.1, x.2⟩)).batch = w.submitCh := by
    rw [Applier.batch_next, List.append_nil]
  refine ⟨h.custody.judge ha last results, ?_, ?_, ?_⟩
  · intro t ht
    exact h.queued t (List.mem_append_left _ (hqueue ▸ ht))
  · intro x hx
    rw [List.flatten_append, List.flatten_singleton] at hx
    rcases List.mem_append.mp hx with hx | hx
    · exact h.sent x hx
    · obtain ⟨y, hy, rfl⟩ := List.mem_map.mp hx
      exact h.sent_zip ha hps y hy
  · show (((w.applied ++ [(batch.zip ps).map fun x => (x.1.call, x.2)]).flatten.map Prod.fst) ++
      (w.submitCh ++ (Applier.next last _).batch).map Ticket.call).Nodup
    rw [hqueue, List.flatten_append, List.flatten_singleton, List.map_append, List.map_map]
    exact h.once_zip ha ps

theorem Owned.flush [StorageEngine σ] {w : Lifecycle σ} (h : Owned w) {batch : List Ticket}
    (ha : w.applier.Collecting batch) (last : Bool) : Owned (w.flush batch last) := by
  rw [Lifecycle.flush]
  split
  · rename_i hnil
    refine h.turn ?_ ?_
    · rw [ha.batch, hnil, Applier.batch_next]
    · rw [ha.tickets, hnil, Applier.tickets_next, List.map_nil]
  · split
    · rename_i ps hps
      exact h.judge ha last hps
    · exact h

theorem Owned.effect [StorageEngine σ] {w w' : Lifecycle σ} (h : Owned w) (he : Effect w w') :
    Owned w' := by
  cases he with
  | idle => exact h
  | call p hphase =>
      exact h.move (h.custody.call p hphase) (List.Perm.refl _) fun hsent => hsent.concat _
  | hold hn hget => exact h.hold hn hget
  | submit hn => exact h.submit hn
  | giveBack hn =>
      exact h.move (h.custody.giveBack hn fun _ hp => by cases hp) (List.Perm.refl _)
        fun hsent => hsent.set hn fun hheld => by cases hheld
  | leave hn resultCh hphase hsubmitted =>
      exact h.move ((h.custody.resultCh resultCh).setPhase hn hphase) (List.Perm.refl _)
        fun hsent => hsent.set hn fun _ => hsubmitted
  | take ha hs => exact h.take ha hs
  | collected ha => exact h.turn ha.batch.symm ha.tickets.symm
  | flush ha last => exact h.flush ha last
  | deliver hs => exact h.deliver hs
  | collect slot => exact h.move (h.custody.collect slot) (List.Perm.refl _) fun hsent => hsent
  | shutdown | closeDone | join => exact ⟨h.custody, h.queued, h.sent, h.once⟩

theorem Owned.run [StorageEngine σ] {w : Lifecycle σ} (h : Owned w) (evs : List LifeEvent) :
    Owned (w.run evs) :=
  evs.foldlRecOn Lifecycle.step h fun v hv ev _ => hv.effect (effect_step v ev)

/-! ## What is final -/

theorem flush_frame [StorageEngine σ] (w : Lifecycle σ) (batch : List Ticket) (last : Bool) :
    (w.flush batch last).calls = w.calls ∧ (w.flush batch last).shutdowns = w.shutdowns := by
  rw [flush]
  split
  · exact ⟨rfl, rfl⟩
  · split <;> exact ⟨rfl, rfl⟩

section

variable [StorageEngine σ] {w w' : Lifecycle σ} (he : Effect w w')

include he

theorem Effect.closed {n : Nat} {p : Proposal} {place : Exit}
    (h : w.calls[n]? = some ⟨p, .closed place⟩) : w'.calls[n]? = some ⟨p, .closed place⟩ := by
  have hset : ∀ {m : Nat} {q : Proposal} {a : Phase} (b : Phase),
      w.calls[m]? = some ⟨q, a⟩ → .closed place ≠ a →
      (w.calls.set m ⟨q, b⟩)[n]? = some ⟨p, .closed place⟩ := by
    intro m q a b hm hne
    exact Runs.getElem?_set_of_ne hm h fun heq => hne (congrArg ProposeCall.phase heq)
  cases he with
  | call q hphase =>
      obtain ⟨hlt, -⟩ := List.getElem?_eq_some_iff.mp h
      exact (List.getElem?_append_left hlt).trans h
  | hold hm hget =>
      obtain ⟨pool, fresh, rfl⟩ := Entries.get_eq hget
      exact hset _ hm fun heq => by cases heq
  | submit hm | giveBack hm | leave hm => exact hset _ hm fun heq => by cases heq
  | @flush batch ha last =>
      rw [(flush_frame w batch last).1]
      exact h
  | deliver hs => cases hs <;> exact h
  | idle | take | collected | collect | shutdown | closeDone | join => exact h

/-- Without the applier nothing is applied. -/
theorem Effect.exited (h : w.applier = .exited) :
    w'.applier = .exited ∧ w'.applied = w.applied ∧ w'.proposer = w.proposer := by
  have hfull : ∀ batch, ¬ w.applier.Collecting batch := by
    rintro batch (ha | ha) <;> exact Applier.noConfusion (h.symm.trans ha)
  cases he with
  | take ha | collected ha | flush ha => exact absurd ha (hfull _)
  | hold hm hget =>
      obtain ⟨pool, fresh, rfl⟩ := Entries.get_eq hget
      exact ⟨h, rfl, rfl⟩
  | deliver hs =>
      cases hs with
      | idle => exact ⟨h, rfl, rfl⟩
      | drain ha | send ha | put ha => exact Applier.noConfusion (h.symm.trans ha)
  | idle | call | submit | giveBack | leave | collect | shutdown | closeDone | join =>
      exact ⟨h, rfl, rfl⟩

theorem Effect.returned (h : .returned true ∈ w'.shutdowns) :
    .returned true ∈ w.shutdowns ∨ w.applier = .exited := by
  cases he with
  | shutdown closed hphase =>
      rcases List.mem_append.mp h with h | h
      · exact Or.inl h
      · exact absurd (List.mem_singleton.mp h).symm hphase
  | closeDone n =>
      rcases List.mem_or_eq_of_mem_set h with h | h
      · exact Or.inl h
      · cases h
  | join n ha => exact Or.inr ha
  | @flush batch ha last =>
      rw [(flush_frame w batch last).2] at h
      exact Or.inl h
  | idle | call | hold | submit | giveBack | leave | take | collected | deliver | collect =>
      exact Or.inl h

end

theorem closed_run [StorageEngine σ] {w : Lifecycle σ} {n : Nat} {p : Proposal} {place : Exit}
    (h : w.calls[n]? = some ⟨p, .closed place⟩) (evs : List LifeEvent) :
    (w.run evs).calls[n]? = some ⟨p, .closed place⟩ :=
  evs.foldlRecOn (motive := fun v : Lifecycle σ => v.calls[n]? = some ⟨p, .closed place⟩)
    step h fun v hv ev _ => (effect_step v ev).closed hv

theorem exited_run [StorageEngine σ] {w : Lifecycle σ} (h : w.applier = .exited)
    (evs : List LifeEvent) : (w.run evs).applied = w.applied ∧
      (w.run evs).proposer = w.proposer := by
  have hrun : (w.run evs).applier = .exited ∧ (w.run evs).applied = w.applied ∧
      (w.run evs).proposer = w.proposer := by
    refine evs.foldlRecOn (motive := fun v => v.applier = .exited ∧ v.applied = w.applied ∧
      v.proposer = w.proposer) step ⟨h, rfl, rfl⟩ fun v hv ev _ => ?_
    obtain ⟨hexit, happlied, hproposer⟩ := (effect_step v ev).exited hv.1
    exact ⟨hexit, happlied.trans hv.2.1, hproposer.trans hv.2.2⟩
  exact hrun.2

theorem exited_of_returned [StorageEngine σ] (d : DirectProposer σ) (evs : List LifeEvent) :
    .returned true ∈ ((new d).run evs).shutdowns → ((new d).run evs).applier = .exited := by
  have hnew : .returned true ∈ (new d).shutdowns → (new d).applier = .exited :=
    fun h => absurd h List.not_mem_nil
  refine evs.foldlRecOn
    (motive := fun v : Lifecycle σ => .returned true ∈ v.shutdowns → v.applier = .exited)
    step hnew fun v hv ev _ h => ?_
  rcases (effect_step v ev).returned h with hold | hexit
  · exact ((effect_step v ev).exited (hv hold)).1
  · exact ((effect_step v ev).exited hexit).1

/-! ## Shutdown -/

/-- What `Shutdown` promises to callers and to whoever closes the engine next. -/
structure Safe [StorageEngine σ] (w : Lifecycle σ) : Prop where
  /-- A call is applied at most once. -/
  once : (w.applied.flatten.map Prod.fst).Nodup
  /-- What is applied is a proposal that was submitted, under its own call. -/
  own : ∀ x ∈ w.applied.flatten, Sent w.calls x.1 x.2
  /-- A call that was turned away before its submission is never applied. -/
  turnedAway : ∀ (n : Nat) (p : Proposal) (place : Exit),
    w.calls[n]? = some ⟨p, .closed place⟩ → place = .check ∨ place = .submit →
    ∀ later : List LifeEvent, n ∉ (w.run later).applied.flatten.map Prod.fst
  /-- Nothing is applied after the return of the `Shutdown` that closed `done`. -/
  stopped : .returned true ∈ w.shutdowns → ∀ later : List LifeEvent,
    (w.run later).applied = w.applied ∧ (w.run later).proposer = w.proposer

/-- **Shutdown is safe** in every interleaving of calls, applier and `Shutdown`s. -/
theorem shutdown_safe [StorageEngine σ] (d : DirectProposer σ) (evs : List LifeEvent) :
    Safe ((new d).run evs) := by
  have hown := (owned_new d).run evs
  refine ⟨?_, hown.sent, ?_, ?_⟩
  · exact (List.sublist_append_left _ _).nodup hown.once
  · intro n p place hclosed hplace later hmem
    obtain ⟨x, hx, rfl⟩ := List.mem_map.mp hmem
    obtain ⟨phase, hphase, hsent⟩ := (hown.run later).sent x hx
    cases (closed_run hclosed later).symm.trans hphase
    rcases hplace with rfl | rfl <;> exact Bool.noConfusion hsent
  · intro hreturned later
    exact exited_run (exited_of_returned d evs hreturned) later

/-- A proposal is in the applier's batch when `Shutdown` starts: its caller is told that the
proposer is closed, and the last flush applies it. -/
example :
    let p : Proposal := ⟨[], [⟨.set, [0x61], [1]⟩], 0, 0⟩
    let w := (new DirectProposer.opened).run
      [.call p, .get 0 none, .submit 0, .take, .drained, .shutdown, .closeDone 0, .waitDone 0,
        .stop, .deliver, .deliver, .deliver, .join 0]
    w.shutdowns = [.returned true] ∧ w.calls = [⟨p, .closed .wait⟩] ∧
      w.applied = [[(0, p)]] := by
  decide +kernel

end Lifecycle

end Dpx
