/-
# `Dpx.Notify` — what watchers are told about a run

`conductor/direct.go` and `watch.go` together.  When a batch has been applied,
`applyBatchDirect` goes through its entries and calls `NotifyBatch` with the writes of those
that were answered with a zero result; `NotifyBatch` calls `notify` for each write, unless
nothing is watched.  A `notify` offers a token to every channel under every prefix of the key,
and counts the tokens that found a full channel.

`NotifyingProposer` is the commit loop at that grain: one load or one send at a time, prefixes
in any order, and receives from the channels in between.  Nothing that a run is still going to
offer depends on the receives, so it can be counted in advance (`toOffer`), and tokens sent,
tokens dropped and tokens still to offer add up to the same number all along
(`Balanced.balance`).  When the loop has gone through its batches nothing is left to offer.

What `Told` says of a finished loop is said of something every run comes to: a send never waits,
so from every state the loop can go through its batches by steps of its own, whatever the watchers
do (`exists_finished`).
-/
import Mathlib.Algebra.BigOperators.Group.List.Lemmas
import Dpx.Lib.MapSum
import Dpx.Conductor.Store
import Dpx.Watch

namespace Dpx

open Slices

/-! ## Pairs of a write and a watcher -/

/-- The pairs of a write and a watcher whose prefix the key has. -/
def pairs (pfxs : List Key) (ws : List WriteEntry) : Nat :=
  (ws ×ˢ pfxs).countP fun wp => wp.2.isPrefixOf wp.1.key

theorem pairs_cons (pfxs : List Key) (w : WriteEntry) (ws : List WriteEntry) :
    pairs pfxs (w :: ws) = (pfxs.countP fun p => p.isPrefixOf w.key) + pairs pfxs ws := by
  rw [pairs, pairs, List.product_cons, List.countP_append, List.countP_map]
  rfl

theorem pairs_append (pfxs : List Key) (xs ys : List WriteEntry) :
    pairs pfxs (xs ++ ys) = pairs pfxs xs + pairs pfxs ys := by
  induction xs with
  | nil => exact (Nat.zero_add _).symm
  | cons w xs ih => rw [List.cons_append, pairs_cons, ih, pairs_cons, Nat.add_assoc]

theorem pairs_nil_left (ws : List WriteEntry) : pairs [] ws = 0 := by
  induction ws with
  | nil => rfl
  | cons w ws ih => rw [pairs_cons, ih, List.countP_nil]

/-! ## A `notify` -/

/-- The call has metrics to count with. -/
def NotifyPhase.metered : NotifyPhase → Bool
  | .ranging _ metrics _ | .sending _ metrics _ _ _ => metrics
  | .returned => true

/-- The tokens it is still going to offer under the prefixes in `todo`. -/
def NotifyPhase.ahead (r : Registry) (key : Key) (todo : List Key) : Nat :=
  ((todo.filter fun p => p.isPrefixOf key).map fun p => (r.shown p).length).sum

def NotifyPhase.toOffer (r : Registry) : NotifyPhase → Nat
  | .ranging key _ todo => ahead r key todo
  | .sending key _ todo chans i => ((elems r.heap chans).length - i) + ahead r key todo
  | .returned => 0

namespace WatcherMap

/-- The tokens in the channels. -/
def tokens (w : WatcherMap) : Nat := (w.watchers.map Watch.buffered).sum

/-- The watchers are there, with these prefixes; nobody leaves and the map is open. -/
structure Quiet (pfxs : List Key) (w : WatcherMap) : Prop where
  watched : Watched w
  isOpen : w.closed = false
  pfxs_eq : w.watchers.map Watch.pfx = pfxs
  waiting : ∀ x ∈ w.watchers, x.phase = .waiting
  room : ∀ x ∈ w.watchers, x.buffered ≤ watchChanBuf
  metered : ∀ ph ∈ w.notifiers, ph.metered = true

variable {pfxs : List Key} {w : WatcherMap}

theorem Quiet.length_shown (h : Quiet pfxs w) (p : Key) :
    (w.registry.shown p).length = pfxs.count p := by
  have hlisted : ∀ xs : List Watch, (∀ x ∈ xs, x.phase = .waiting) →
      (listed xs p).length = (xs.map Watch.pfx).count p := by
    intro xs
    induction xs using List.reverseRecOn with
    | nil => exact fun _ => rfl
    | append_singleton xs x ih =>
        intro hxs
        have hx := hxs x (by simp)
        rw [listed_concat, List.length_append, ih fun y hy => hxs y (by simp [hy]), hx]
        by_cases hp : x.pfx = p <;> simp [WatchPhase.registered, hp]
  rw [h.watched.shown, hlisted _ h.waiting, h.pfxs_eq]

theorem Quiet.mem_keys_iff (h : Quiet pfxs w) {p : Key} :
    p ∈ w.registry.watches.keys ↔ p ∈ pfxs := by
  rw [Std.ExtTreeMap.mem_keys, Std.ExtTreeMap.mem_iff_isSome_getElem?, ← List.count_pos_iff,
    ← h.length_shown p, Registry.shown, (h.watched.ok.fits_slice p).length_elems, Registry.slice]
  cases hs : w.registry.watches[p]? with
  | none => simp [Slice.nil]
  | some s => simp [h.watched.full p s hs]

theorem Quiet.keys_perm (h : Quiet pfxs w) : w.registry.watches.keys.Perm pfxs.dedup := by
  have hkeys : w.registry.watches.keys.Nodup := by
    refine (Std.ExtTreeMap.distinct_keys (t := w.registry.watches)).imp fun hne heq => hne ?_
    rw [heq]
    exact Std.ReflCmp.compare_self
  refine (List.perm_ext_iff_of_nodup hkeys pfxs.nodup_dedup).mpr fun p => ?_
  rw [h.mem_keys_iff, List.mem_dedup]

/-- **What a `notify` is going to offer** when it begins. -/
theorem Quiet.ahead_keys (h : Quiet pfxs w) (key : Key) :
    NotifyPhase.ahead w.registry key w.registry.watches.keys =
      pfxs.countP fun p => p.isPrefixOf key := by
  have hshown : (fun p => (w.registry.shown p).length) = fun p => pfxs.count p :=
    funext h.length_shown
  have hperm := (h.keys_perm.filter fun p => p.isPrefixOf key).map fun p => pfxs.count p
  have hcount := List.sum_map_count_dedup_filter_eq_countP (fun p : Key => p.isPrefixOf key) pfxs
  rw [lawful_beq_subsingleton instBEqOfDecidableEq List.instBEq] at hcount
  rw [NotifyPhase.ahead, hshown]
  exact hperm.sum_nat.trans hcount

theorem Quiet.eq_nil_of_size (h : Quiet pfxs w) (hsize : w.registry.watches.size = 0) :
    pfxs = [] := by
  refine List.eq_nil_iff_forall_not_mem.mpr fun p hp => ?_
  have hkeys : w.registry.watches.keys = [] := by
    rw [← List.length_eq_zero_iff, Std.ExtTreeMap.length_keys]
    exact hsize
  rw [← h.mem_keys_iff, hkeys] at hp
  exact absurd hp List.not_mem_nil

/-! ### What keeps the watchers quiet -/

theorem Quiet.setBuffered (h : Quiet pfxs w) {n b : Nat} {x : Watch}
    (hx : w.watchers[n]? = some x) (hb : b ≤ watchChanBuf) :
    Quiet pfxs (w.setWatch n { x with buffered := b }) where
  watched := h.watched.setWatch hx rfl rfl (h.watched.closes x (List.mem_of_getElem? hx))
  isOpen := h.isOpen
  pfxs_eq := by
    rw [← h.pfxs_eq]
    exact Runs.map_set_of_eq hx rfl
  waiting := Runs.forall_mem_set h.waiting (h.waiting x (List.mem_of_getElem? hx))
  room := Runs.forall_mem_set h.room hb
  metered := h.metered

theorem Quiet.setNotify (h : Quiet pfxs w) (n : Nat) {ph : NotifyPhase}
    (hph : ∀ key metrics todo chans i, ph = .sending key metrics todo chans i →
      ∃ p, chans = w.registry.slice p) (hmetered : ph.metered = true) :
    Quiet pfxs (w.setNotify n ph) where
  watched := h.watched.setNotify n hph
  isOpen := h.isOpen
  pfxs_eq := h.pfxs_eq
  waiting := h.waiting
  room := h.room
  metered := Runs.forall_mem_set h.metered hmetered

theorem Quiet.setDropped (h : Quiet pfxs w) (dropped : Nat) :
    Quiet pfxs { w with watchDropped := dropped } where
  watched := ⟨h.watched.ok, h.watched.full, h.watched.shown, h.watched.closes, h.watched.sending,
    h.watched.closing, h.watched.calm⟩
  isOpen := h.isOpen
  pfxs_eq := h.pfxs_eq
  waiting := h.waiting
  room := h.room
  metered := h.metered

theorem Quiet.receive (h : Quiet pfxs w) (ch : Nat) : Quiet pfxs (w.step (.receive ch)) := by
  rw [step]
  split
  · rename_i x hx
    refine h.setBuffered hx (Nat.le_trans (Nat.sub_le _ _) ?_)
    exact h.room x (List.mem_of_getElem? hx)
  · exact h

theorem Quiet.notify (h : Quiet pfxs w) (key : Key) :
    Quiet pfxs (w.step (.notify key true)) ∧
      (w.step (.notify key true)).notifiers =
        w.notifiers ++ [.ranging key true w.registry.watches.keys] ∧
      (w.step (.notify key true)).registry = w.registry ∧
      (w.step (.notify key true)).watchDropped = w.watchDropped := by
  have hw := h.watched.step (.notify key true)
  rw [step, if_neg (by rw [h.isOpen]; exact Bool.false_ne_true)] at hw ⊢
  refine ⟨⟨hw, h.isOpen, h.pfxs_eq, h.waiting, h.room, ?_⟩, rfl, rfl, rfl⟩
  exact List.forall_mem_append.mpr ⟨h.metered, by simp [NotifyPhase.metered]⟩

/-! ### The steps of a `notify` -/

/-- What the call `n` is still going to offer. -/
def offering (w : WatcherMap) (n : Nat) : Nat :=
  (w.notifiers[n]?.map (NotifyPhase.toOffer w.registry)).getD 0

/-- Tokens are sent, dropped, or still to be offered by the call `n`. -/
structure Accounts (n : Nat) (w w' : WatcherMap) : Prop where
  le : w.tokens ≤ w'.tokens
  balance : w'.tokens + w'.watchDropped + w'.offering n = w.tokens + w.watchDropped + w.offering n

theorem offering_setNotify {n : Nat} {ph : NotifyPhase} (hn : w.notifiers[n]? = some ph)
    (ph' : NotifyPhase) : (w.setNotify n ph').offering n = ph'.toOffer w.registry := by
  obtain ⟨hlt, -⟩ := List.getElem?_eq_some_iff.mp hn
  rw [offering, setNotify, List.getElem?_set_self hlt]
  rfl

theorem offering_eq {n : Nat} {ph : NotifyPhase} (hn : w.notifiers[n]? = some ph) :
    w.offering n = ph.toOffer w.registry := by
  rw [offering, hn]
  rfl

theorem accounts_setNotify {n : Nat} {ph ph' : NotifyPhase} (hn : w.notifiers[n]? = some ph)
    (hoffer : ph'.toOffer w.registry = ph.toOffer w.registry) :
    Accounts n w (w.setNotify n ph') := by
  refine ⟨Nat.le_refl _, ?_⟩
  rw [offering_setNotify hn, offering_eq hn, hoffer]
  rfl

theorem ahead_eraseIdx {todo : List Key} {i : Nat} {p : Key} (hp : todo[i]? = some p)
    (r : Registry) (key : Key) :
    NotifyPhase.ahead r key todo =
      (if p.isPrefixOf key then (r.shown p).length else 0) +
        NotifyPhase.ahead r key (todo.eraseIdx i) := by
  obtain ⟨hlt, rfl⟩ := List.getElem?_eq_some_iff.mp hp
  have hperm := ((List.getElem_cons_eraseIdx_perm hlt).filter fun p => p.isPrefixOf key).map
    fun p => (r.shown p).length
  rw [NotifyPhase.ahead, ← hperm.sum_nat, List.filter_cons]
  split
  · rw [List.map_cons, List.sum_cons]
    rfl
  · exact (Nat.zero_add _).symm

theorem Quiet.range (h : Quiet pfxs w) (n i : Nat) :
    Quiet pfxs (w.step (.range n i)) ∧ Accounts n w (w.step (.range n i)) := by
  rw [step]
  split
  · rename_i key metrics todo hn
    have hmetrics : metrics = true := h.metered _ (List.mem_of_getElem? hn)
    split
    · rename_i p hp
      have hahead := ahead_eraseIdx hp w.registry key
      split
      · rename_i hprefix
        rw [if_pos hprefix] at hahead
        refine ⟨h.setNotify n (fun _ _ _ _ _ heq => ⟨p, ?_⟩) hmetrics, accounts_setNotify hn ?_⟩
        · cases heq
          rfl
        · exact hahead.symm
      · rename_i hprefix
        rw [if_neg hprefix, Nat.zero_add] at hahead
        exact ⟨h.setNotify n (fun _ _ _ _ _ heq => by cases heq) hmetrics,
          accounts_setNotify hn hahead.symm⟩
    · exact ⟨h, Nat.le_refl _, rfl⟩
  · exact ⟨h, Nat.le_refl _, rfl⟩

theorem Quiet.unlock (h : Quiet pfxs w) (n : Nat) :
    Quiet pfxs (w.step (.unlock n)) ∧ Accounts n w (w.step (.unlock n)) := by
  rw [step]
  split
  · rename_i hn
    exact ⟨h.setNotify n (fun _ _ _ _ _ heq => by cases heq) rfl, accounts_setNotify hn rfl⟩
  · exact ⟨h, Nat.le_refl _, rfl⟩

theorem notifiers_trySend (w : WatcherMap) (ch : Nat) (metrics : Bool) :
    (w.trySend ch metrics).notifiers = w.notifiers := by
  rw [WatcherMap.trySend]
  split
  · rfl
  · split
    · rfl
    · split
      · rfl
      · split <;> rfl

theorem Quiet.trySend (h : Quiet pfxs w) {p : Key} {ch : Nat} (hch : ch ∈ w.registry.shown p) :
    Quiet pfxs (w.trySend ch true) ∧ w.tokens ≤ (w.trySend ch true).tokens ∧
      (w.trySend ch true).tokens + (w.trySend ch true).watchDropped =
        w.tokens + w.watchDropped + 1 := by
  obtain ⟨x, hx, hopen⟩ := h.watched.isOpen hch
  rw [WatcherMap.trySend, hx]
  simp only
  rw [if_neg (not_not_intro hopen)]
  split
  · rename_i hroom
    have hsum := MapSum.sum_map_set Watch.buffered { x with buffered := x.buffered + 1 } hx
    simp only at hsum
    refine ⟨h.setBuffered hx hroom, ?_, ?_⟩
    · simp only [tokens, setWatch]
      omega
    · simp only [tokens, setWatch]
      omega
  · exact ⟨h.setDropped _, Nat.le_refl _, rfl⟩

theorem Quiet.send (h : Quiet pfxs w) (n : Nat) :
    Quiet pfxs (w.step (.send n)) ∧ Accounts n w (w.step (.send n)) := by
  rw [step]
  split
  · rename_i key metrics todo chans i hn
    have hmetrics : metrics = true := h.metered _ (List.mem_of_getElem? hn)
    subst hmetrics
    obtain ⟨p, hchans⟩ := h.watched.sending _ _ _ _ _ (List.mem_of_getElem? hn)
    split
    · rename_i ch hch
      have hshown : ch ∈ w.registry.shown p := by
        rw [Registry.shown, ← hchans]
        exact List.mem_of_getElem? hch
      obtain ⟨hquiet, hle, hone⟩ := h.trySend hshown
      have hregistry := registry_trySend w ch true
      have hn' : (w.trySend ch true).notifiers[n]? = some (.sending key true todo chans i) := by
        rw [notifiers_trySend, hn]
      obtain ⟨hlt, -⟩ := List.getElem?_eq_some_iff.mp hch
      refine ⟨hquiet.setNotify n (fun _ _ _ _ _ heq => ⟨p, ?_⟩) rfl, hle, ?_⟩
      · cases heq
        rw [hregistry, hchans]
      · rw [offering_setNotify hn', offering_eq hn, hregistry]
        show (w.trySend ch true).tokens + (w.trySend ch true).watchDropped + _ = _
        rw [hone]
        simp only [NotifyPhase.toOffer]
        omega
    · rename_i hend
      have hlen : (elems w.registry.heap chans).length ≤ i := List.getElem?_eq_none_iff.mp hend
      refine ⟨h.setNotify n (fun _ _ _ _ _ heq => by cases heq) rfl, accounts_setNotify hn ?_⟩
      simp only [NotifyPhase.toOffer]
      omega
  · exact ⟨h, Nat.le_refl _, rfl⟩

/-! ### Registering -/

theorem Quiet.register (h : Quiet pfxs w) (hidle : w.notifiers = []) (ctx : Nat) (p : Key)
    (room : Nat) :
    Quiet (pfxs ++ [p]) (w.step (.register ctx p room)) ∧
      (w.step (.register ctx p room)).notifiers = [] := by
  have hw := h.watched.step (.register ctx p room)
  have hlock : w.readLocked ≠ true := by simp [readLocked, hidle]
  rw [step, if_neg hlock, if_neg (by rw [h.isOpen]; exact Bool.false_ne_true)] at hw ⊢
  refine ⟨⟨hw, h.isOpen, ?_, ?_, ?_, h.metered⟩, hidle⟩
  · rw [List.map_append, h.pfxs_eq]
    rfl
  · exact List.forall_mem_append.mpr ⟨h.waiting, by simp⟩
  · exact List.forall_mem_append.mpr ⟨h.room, by simp⟩

end WatcherMap

/-! ## The commit loop -/

/-- A call of `register` before the run: `room` is what its slice has to spare. -/
structure Registration where
  ctx : Nat
  pfx : Key
  room : Nat
  deriving DecidableEq, Repr

/-- The writes of the proposals that were answered with a zero result. -/
def written (tr : List Answered) : List WriteEntry := (committed tr).flatMap Proposal.writes

/-- `results[i].Err == nil && !results[i].Conflict` -/
def ApplyResult.passed (r : ApplyResult) : Bool := r.err = none ∧ r.conflict = false

/-- The commit loop in the last part of `applyBatchDirect`, and what it has told the watchers. -/
structure NotifyingProposer (σ : Type) where
  proposer : DirectProposer σ
  batches : List (List Proposal)
  /-- of the batch that was applied last, the entries still to be answered -/
  entries : List (Proposal × ApplyResult)
  /-- of the `NotifyBatch` that is running, the writes still to be notified -/
  writes : List WriteEntry
  /-- the `notify` that is running -/
  call : Option Nat
  watchers : WatcherMap
  /-- the tokens that went into a channel -/
  sent : Nat

inductive NotifyEvent where
  | batch
  | entry
  | notify
  | range (i : Nat)
  | send
  | unlock
  | receive (ch : Nat)
  deriving DecidableEq, Repr

namespace NotifyingProposer

variable {σ : Type} [StorageEngine σ]

/-- The watchers are registered, and `WatchDropped` stands at some number. -/
def start (d : DirectProposer σ) (batches : List (List Proposal)) (regs : List Registration)
    (dropped : Nat) : NotifyingProposer σ :=
  let w := WatcherMap.new.run (regs.map fun r => .register r.ctx r.pfx r.room)
  ⟨d, batches, [], [], none, { w with watchDropped := dropped }, 0⟩

/-- A step of the running `notify`. -/
def onCall (s : NotifyingProposer σ) (ev : Nat → WatchEvent) : NotifyingProposer σ :=
  match s.call with
  | some n =>
      let w := s.watchers.step (ev n)
      { s with watchers := w, sent := s.sent + (w.tokens - s.watchers.tokens) }
  | none => s

/-- One step; an event that is not enabled does nothing. -/
def step (s : NotifyingProposer σ) : NotifyEvent → NotifyingProposer σ
  | .batch =>
      if s.call = none ∧ s.writes = [] ∧ s.entries = [] then
        match s.batches with
        | batch :: batches =>
            let (results, d) := s.proposer.applyBatchDirect batch
            { s with proposer := d, batches := batches, entries := batch.zip results }
        | [] => s
      else s
  | .entry =>
      if s.call = none ∧ s.writes = [] then
        match s.entries with
        | (p, r) :: entries =>
            -- a `NotifyBatch` of nothing where nothing is watched
            let writes := if r.passed ∧ s.watchers.registry.watches.size ≠ 0 then p.writes else []
            { s with entries := entries, writes := writes }
        | [] => s
      else s
  | .notify =>
      if s.call = none then
        match s.writes with
        | w :: writes =>
            { s with
              watchers := s.watchers.step (.notify w.key true)
              call := some s.watchers.notifiers.length
              writes := writes }
        | [] => s
      else s
  | .range i => s.onCall fun n => .range n i
  | .send => s.onCall .send
  | .unlock =>
      let s := s.onCall .unlock
      match s.call with
      | some n => if s.watchers.notifiers[n]? = some .returned then { s with call := none } else s
      | none => s
  | .receive ch => { s with watchers := s.watchers.step (.receive ch) }

def run (s : NotifyingProposer σ) (evs : List NotifyEvent) : NotifyingProposer σ := evs.foldl step s

/-- Everything has been applied, answered and notified. -/
def finished (s : NotifyingProposer σ) : Prop :=
  s.batches = [] ∧ s.entries = [] ∧ s.writes = [] ∧ s.call = none

/-! ### The account -/

/-- The writes among the entries that are going to be notified. -/
def passing (entries : List (Proposal × ApplyResult)) : List WriteEntry :=
  (entries.filter fun e => e.2.passed).flatMap fun e => e.1.writes

/-- The tokens still to be offered, up to the end of the run. -/
def toOffer (pfxs : List Key) (s : NotifyingProposer σ) : Nat :=
  (s.call.map s.watchers.offering).getD 0 + pairs pfxs s.writes + pairs pfxs (passing s.entries) +
    pairs pfxs (written (s.proposer.trace s.batches))

theorem passed_iff {r : ApplyResult} : r.passed = true ↔ r = .ok := by
  obtain ⟨conflict, err⟩ := r
  simp [ApplyResult.passed, ApplyResult.ok, and_comm]

theorem passing_zip (ps : List Proposal) : ∀ (i : UInt64) (rs : List ApplyResult),
    passing (ps.zip rs) = written (answers i ps rs) := by
  induction ps with
  | nil => exact fun _ _ => rfl
  | cons p ps ih =>
      intro i rs
      cases rs with
      | nil => rfl
      | cons r rs =>
          have hrest := ih (i + 1) rs
          simp only [passing, written, committed, answers, List.zip_cons_cons,
            List.filter_cons] at hrest ⊢
          have hpassed : Answered.committed ⟨i + 1, p, r⟩ = r.passed := by
            rw [Bool.eq_iff_iff, passed_iff, Answered.committed, decide_eq_true_eq]
          rw [hpassed]
          split
          · simp only [List.flatMap_cons, List.map_cons, hrest]
          · exact hrest

theorem written_append (xs ys : List Answered) : written (xs ++ ys) = written xs ++ written ys := by
  simp only [written, committed, List.filter_append, List.map_append, List.flatMap_append]

/-- The watchers are quiet, and the account comes to `total`. -/
structure Balanced (pfxs : List Key) (total : Nat) (s : NotifyingProposer σ) : Prop where
  quiet : s.watchers.Quiet pfxs
  balance : s.sent + s.watchers.watchDropped + s.toOffer pfxs = total

section Steps
variable {pfxs : List Key} {total : Nat} {s : NotifyingProposer σ}

theorem Balanced.batch (h : Balanced pfxs total s) : Balanced pfxs total (s.step .batch) := by
  rw [step]
  split
  · rename_i hidle
    split
    · rename_i batch batches hbatches
      refine ⟨h.quiet, ?_⟩
      have hbalance := h.balance
      rw [toOffer, hidle.2.2, hbatches, DirectProposer.trace, written_append, pairs_append,
        DirectProposer.answered, ← passing_zip] at hbalance
      simp only [toOffer, ← hbalance]
      have hnone : pairs pfxs (passing []) = 0 := rfl
      omega
    · exact h
  · exact h

theorem pairs_passing_cons (pfxs : List Key) (p : Proposal) (r : ApplyResult)
    (entries : List (Proposal × ApplyResult)) : pairs pfxs (passing ((p, r) :: entries)) =
      (if r.passed then pairs pfxs p.writes else 0) + pairs pfxs (passing entries) := by
  rw [passing, List.filter_cons]
  split
  · rw [List.flatMap_cons, pairs_append]
    rfl
  · exact (Nat.zero_add _).symm

theorem Balanced.entry (h : Balanced pfxs total s) : Balanced pfxs total (s.step .entry) := by
  rw [step]
  split
  · rename_i hidle
    split
    · rename_i p r entries hentries
      refine ⟨h.quiet, ?_⟩
      have hbalance := h.balance
      have hnone : pairs pfxs [] = 0 := rfl
      rw [toOffer, hidle.2, hentries, pairs_passing_cons] at hbalance
      have hwrites : pairs pfxs
          (if r.passed = true ∧ s.watchers.registry.watches.size ≠ 0 then p.writes else []) =
          if r.passed then pairs pfxs p.writes else 0 := by
        cases hr : r.passed with
        | false => simp [hnone]
        | true =>
            by_cases hsize : s.watchers.registry.watches.size = 0
            · simp [hsize, h.quiet.eq_nil_of_size hsize, pairs_nil_left]
            · simp [hsize]
      simp only [toOffer, hwrites]
      omega
    · exact h
  · exact h

theorem Balanced.notify (h : Balanced pfxs total s) : Balanced pfxs total (s.step .notify) := by
  rw [step]
  split
  · rename_i hidle
    split
    · rename_i w writes hwrites
      obtain ⟨hquiet, hnotifiers, hregistry, hdropped⟩ := h.quiet.notify w.key
      have hbalance := h.balance
      rw [toOffer, hidle, hwrites, pairs_cons, ← h.quiet.ahead_keys w.key] at hbalance
      have hoffering : (s.watchers.step (.notify w.key true)).offering s.watchers.notifiers.length =
          NotifyPhase.ahead s.watchers.registry w.key s.watchers.registry.watches.keys := by
        rw [WatcherMap.offering, hnotifiers, List.getElem?_concat_length, hregistry]
        rfl
      refine ⟨hquiet, ?_⟩
      simp only [toOffer, Option.map_some, Option.getD_some, hoffering, hdropped]
      simp only [Option.map_none, Option.getD_none] at hbalance
      omega
    · exact h
  · exact h

theorem Balanced.onCall (h : Balanced pfxs total s) {ev : Nat → WatchEvent}
    (hev : ∀ n, (s.watchers.step (ev n)).Quiet pfxs ∧
      s.watchers.Accounts n (s.watchers.step (ev n))) : Balanced pfxs total (s.onCall ev) := by
  rw [NotifyingProposer.onCall]
  split
  · rename_i n hcall
    obtain ⟨hquiet, hle, haccount⟩ := hev n
    have hbalance := h.balance
    refine ⟨hquiet, ?_⟩
    simp only [toOffer, hcall, Option.map_some, Option.getD_some] at hbalance ⊢
    omega
  · exact h

theorem Balanced.unlock (h : Balanced pfxs total s) : Balanced pfxs total (s.step .unlock) := by
  have hcall := h.onCall h.quiet.unlock
  rw [step]
  generalize s.onCall .unlock = t at hcall ⊢
  split
  · rename_i n hn
    split
    · rename_i hreturned
      refine ⟨hcall.quiet, ?_⟩
      have hbalance := hcall.balance
      have hoffering : t.watchers.offering n = 0 := WatcherMap.offering_eq hreturned
      simp only [toOffer, hn, Option.map_some, Option.getD_some, hoffering, Option.map_none,
        Option.getD_none] at hbalance ⊢
      exact hbalance
    · exact hcall
  · exact hcall

theorem Balanced.receive (h : Balanced pfxs total s) (ch : Nat) :
    Balanced pfxs total (s.step (.receive ch)) := by
  have hsame : (s.watchers.step (.receive ch)).watchDropped = s.watchers.watchDropped ∧
      (s.watchers.step (.receive ch)).offering = s.watchers.offering := by
    rw [WatcherMap.step]
    split <;> exact ⟨rfl, rfl⟩
  refine ⟨h.quiet.receive ch, ?_⟩
  have hbalance := h.balance
  simp only [step, toOffer, hsame.1, hsame.2] at hbalance ⊢
  exact hbalance

theorem Balanced.step (h : Balanced pfxs total s) (ev : NotifyEvent) :
    Balanced pfxs total (s.step ev) := by
  cases ev with
  | batch => exact h.batch
  | entry => exact h.entry
  | notify => exact h.notify
  | range i => exact h.onCall fun n => h.quiet.range n i
  | send => exact h.onCall h.quiet.send
  | unlock => exact h.unlock
  | receive ch => exact h.receive ch

theorem Balanced.run (h : Balanced pfxs total s) (evs : List NotifyEvent) :
    Balanced pfxs total (s.run evs) :=
  evs.foldlRecOn NotifyingProposer.step h fun _ hs ev _ => hs.step ev

end Steps

/-! ### The start -/

theorem quiet_registered (regs : List Registration) :
    (WatcherMap.new.run (regs.map fun r => .register r.ctx r.pfx r.room)).Quiet
      (regs.map Registration.pfx) := by
  have hreg : ∀ (regs : List Registration) {pfxs : List Key} {w : WatcherMap}, w.Quiet pfxs →
      w.notifiers = [] → (w.run (regs.map fun r => .register r.ctx r.pfx r.room)).Quiet
        (pfxs ++ regs.map Registration.pfx) := by
    intro regs
    induction regs with
    | nil =>
        intro pfxs w h _
        rw [List.map_nil, List.append_nil]
        exact h
    | cons r regs ih =>
        intro pfxs w h hidle
        obtain ⟨hquiet, hidle⟩ := h.register hidle r.ctx r.pfx r.room
        have hrest := ih hquiet hidle
        rw [List.append_assoc] at hrest
        exact hrest
  refine hreg regs ⟨WatcherMap.watched_new, rfl, rfl, ?_, ?_, ?_⟩ rfl
  · exact fun _ hx => absurd hx List.not_mem_nil
  · exact fun _ hx => absurd hx List.not_mem_nil
  · exact fun _ hx => absurd hx List.not_mem_nil

theorem balanced_start (d : DirectProposer σ) (batches : List (List Proposal))
    (regs : List Registration) (dropped : Nat) :
    Balanced (regs.map Registration.pfx)
      (dropped + pairs (regs.map Registration.pfx) (written (d.trace batches)))
      (start d batches regs dropped) := by
  refine ⟨(quiet_registered regs).setDropped dropped, ?_⟩
  have hnone : pairs (regs.map Registration.pfx) [] = 0 := rfl
  have hpassing : passing [] = [] := rfl
  simp only [start, toOffer, Option.map_none, Option.getD_none, hpassing, hnone]
  omega

/-- What the watchers have been told, at some moment of a run. -/
structure Told (pfxs : List Key) (dropped total : Nat) (s : NotifyingProposer σ) : Prop where
  /-- No channel holds more than it has room for. -/
  room : ∀ x ∈ s.watchers.watchers, x.buffered ≤ watchChanBuf
  /-- Tokens are sent, dropped or still to be offered. -/
  balance : s.sent + s.watchers.watchDropped + s.toOffer pfxs = dropped + total
  /-- In the end there is none to be offered. -/
  done : s.finished → s.sent + s.watchers.watchDropped = dropped + total

/-- **Notifications match commits**, however receives fall in between. -/
theorem notifications_match_commits (d : DirectProposer σ) (batches : List (List Proposal))
    (regs : List Registration) (dropped : Nat) (evs : List NotifyEvent) :
    Told (regs.map Registration.pfx) dropped
      (pairs (regs.map Registration.pfx) (written (d.trace batches)))
      ((start d batches regs dropped).run evs) := by
  have h := (balanced_start d batches regs dropped).run evs
  refine ⟨h.quiet.room, h.balance, ?_⟩
  rintro ⟨hbatches, hentries, hwrites, hcall⟩
  have hbalance := h.balance
  rw [toOffer, hbatches, hentries, hwrites, hcall] at hbalance
  exact hbalance

/-! ## The loop does not wait -/

/-- The loop gets from one state to another, and nobody receives on the way. -/
def Reaches (s t : NotifyingProposer σ) : Prop :=
  ∃ evs : List NotifyEvent, (∀ ch, .receive ch ∉ evs) ∧ s.run evs = t

theorem Reaches.refl (s : NotifyingProposer σ) : Reaches s s :=
  ⟨[], fun _ => List.not_mem_nil, rfl⟩

theorem Reaches.trans {s t u : NotifyingProposer σ} (h : Reaches s t) (h' : Reaches t u) :
    Reaches s u := by
  obtain ⟨evs, hevs, rfl⟩ := h
  obtain ⟨evs', hevs', rfl⟩ := h'
  refine ⟨evs ++ evs', fun ch hmem => ?_, List.foldl_append⟩
  rcases List.mem_append.mp hmem with hmem | hmem
  · exact hevs ch hmem
  · exact hevs' ch hmem

theorem reaches_step (s : NotifyingProposer σ) {ev : NotifyEvent} (hev : ∀ ch, ev ≠ .receive ch) :
    Reaches s (s.step ev) :=
  ⟨[ev], fun ch hmem => hev ch (List.mem_singleton.mp hmem).symm, rfl⟩

/-- What a `notify` leaves alone. -/
def rest (s : NotifyingProposer σ) :
    DirectProposer σ × List (List Proposal) × List (Proposal × ApplyResult) × List WriteEntry :=
  (s.proposer, s.batches, s.entries, s.writes)

/-- A `notify` that is running comes to its end. -/
def Returns (s : NotifyingProposer σ) : Prop :=
  ∃ t, Reaches s t ∧ t.call = none ∧ t.rest = s.rest

theorem Returns.of_step {s : NotifyingProposer σ} (ev : NotifyEvent)
    (hev : ∀ ch, ev ≠ .receive ch) (hrest : (s.step ev).rest = s.rest)
    (h : Returns (s.step ev)) : Returns s := by
  obtain ⟨t, hreach, hcall, hsame⟩ := h
  exact ⟨t, (reaches_step s hev).trans hreach, hcall, hsame.trans hrest⟩

section Call
variable {s : NotifyingProposer σ} {n : Nat}

omit [StorageEngine σ] in
theorem onCall_some (hcall : s.call = some n) (ev : Nat → WatchEvent) :
    (s.onCall ev).watchers = s.watchers.step (ev n) ∧ (s.onCall ev).call = some n ∧
      (s.onCall ev).rest = s.rest := by
  rw [onCall, hcall]
  exact ⟨rfl, rfl, rfl⟩

theorem getElem?_setNotify {w : WatcherMap} {ph : NotifyPhase} (hn : w.notifiers[n]? = some ph)
    (ph' : NotifyPhase) : (w.setNotify n ph').notifiers[n]? = some ph' :=
  List.getElem?_set_self (List.getElem?_eq_some_iff.mp hn).1

theorem returns_of_returned (hcall : s.call = some n)
    (hn : (s.watchers.step (.unlock n)).notifiers[n]? = some .returned) : Returns s := by
  obtain ⟨hwatchers, hcall', hrest⟩ := onCall_some hcall WatchEvent.unlock
  refine ⟨s.step .unlock, reaches_step s (by simp), ?_, ?_⟩
  · simp only [step, hcall', hwatchers, hn, if_true]
  · simp only [step, hcall', hwatchers, hn, if_true]
    exact hrest

theorem returns_of_sending {key : Key} {metrics : Bool} {todo : List Key}
    (hranging : ∀ t : NotifyingProposer σ, t.call = some n →
      t.watchers.notifiers[n]? = some (.ranging key metrics todo) → Returns t) (k : Nat) :
    ∀ {s : NotifyingProposer σ} {chans : Slice} {i : Nat}, s.call = some n →
      s.watchers.notifiers[n]? = some (.sending key metrics todo chans i) →
      (elems s.watchers.registry.heap chans).length - i = k → Returns s := by
  induction k with
  | zero =>
      intro s chans i hcall hn hk
      obtain ⟨hwatchers, hcall', hrest⟩ := onCall_some hcall WatchEvent.send
      refine Returns.of_step .send (by simp) hrest (hranging _ hcall' ?_)
      show (s.onCall .send).watchers.notifiers[n]? = _
      have hend : (elems s.watchers.registry.heap chans)[i]? = none :=
        List.getElem?_eq_none (by omega)
      rw [hwatchers, WatcherMap.step, hn]
      simp only [hend]
      exact getElem?_setNotify hn _
  | succ k ih =>
      intro s chans i hcall hn hk
      obtain ⟨hwatchers, hcall', hrest⟩ := onCall_some hcall WatchEvent.send
      obtain ⟨ch, hch⟩ : ∃ ch, (elems s.watchers.registry.heap chans)[i]? = some ch :=
        ⟨_, List.getElem?_eq_getElem (by omega)⟩
      have hnext : (s.step .send).watchers = (s.watchers.trySend ch metrics).setNotify n
          (.sending key metrics todo chans (i + 1)) := by
        show (s.onCall .send).watchers = _
        rw [hwatchers, WatcherMap.step, hn]
        simp only [hch]
      have hn' : (s.watchers.trySend ch metrics).notifiers[n]? =
          some (.sending key metrics todo chans i) := by
        rw [WatcherMap.notifiers_trySend, hn]
      have hsending : (s.step .send).watchers.notifiers[n]? =
          some (.sending key metrics todo chans (i + 1)) := by
        rw [hnext]
        exact getElem?_setNotify hn' _
      have hleft : (elems (s.step .send).watchers.registry.heap chans).length - (i + 1) = k := by
        rw [hnext]
        show (elems (s.watchers.trySend ch metrics).registry.heap chans).length - (i + 1) = k
        rw [WatcherMap.registry_trySend]
        omega
      exact Returns.of_step .send (by simp) hrest (ih hcall' hsending hleft)

theorem returns_of_ranging {key : Key} {metrics : Bool} (todo : List Key) :
    ∀ s : NotifyingProposer σ, s.call = some n →
      s.watchers.notifiers[n]? = some (.ranging key metrics todo) → Returns s := by
  induction todo with
  | nil =>
      intro s hcall hn
      refine returns_of_returned hcall ?_
      rw [WatcherMap.step, hn]
      exact getElem?_setNotify hn _
  | cons p todo ih =>
      intro s hcall hn
      obtain ⟨hwatchers, hcall', hrest⟩ := onCall_some hcall fun n => .range n 0
      refine Returns.of_step (.range 0) (by simp) hrest ?_
      have hnext : (s.step (.range 0)).watchers = s.watchers.setNotify n
          (if p.isPrefixOf key then .sending key metrics todo (s.watchers.registry.slice p) 0
          else .ranging key metrics todo) := by
        show (s.onCall fun n => .range n 0).watchers = _
        rw [hwatchers, WatcherMap.step, hn]
        simp only [List.getElem?_cons_zero, List.eraseIdx_cons_zero]
        split <;> rfl
      have hn' := congrArg (fun w => w.notifiers[n]?) hnext
      simp only [getElem?_setNotify hn] at hn'
      split at hn'
      · exact returns_of_sending ih _ hcall' hn' rfl
      · exact ih _ hcall' hn'

/-- **A `notify` returns**, full channels or not. -/
theorem returns_of_call (hcall : s.call = some n) (hn : n < s.watchers.notifiers.length) :
    Returns s := by
  obtain ⟨ph, hph⟩ : ∃ ph, s.watchers.notifiers[n]? = some ph :=
    ⟨_, List.getElem?_eq_getElem hn⟩
  cases ph with
  | ranging key metrics todo => exact returns_of_ranging todo s hcall hph
  | sending key metrics todo chans i =>
      exact returns_of_sending (returns_of_ranging todo) _ hcall hph rfl
  | returned =>
      refine returns_of_returned hcall ?_
      rw [WatcherMap.step, hph]
      exact hph

end Call

/-- The loop is at most inside a `notify` that has begun. -/
def Running (s : NotifyingProposer σ) : Prop :=
  ∀ n, s.call = some n → n < s.watchers.notifiers.length

theorem length_notifiers_notify (w : WatcherMap) (key : Key) (metrics : Bool) :
    (w.step (.notify key metrics)).notifiers.length = w.notifiers.length + 1 := by
  rw [WatcherMap.step]
  split <;> exact List.length_append

omit [StorageEngine σ] in
theorem Running.onCall {s : NotifyingProposer σ} (h : Running s) (ev : Nat → WatchEvent)
    (hev : ∀ n, (s.watchers.step (ev n)).notifiers.length = s.watchers.notifiers.length) :
    Running (s.onCall ev) := by
  rw [NotifyingProposer.onCall]
  split
  · rename_i m hcall
    intro n hn
    rw [hev m]
    exact h n hn
  · exact h

theorem length_notifiers_range (w : WatcherMap) (n i : Nat) :
    (w.step (.range n i)).notifiers.length = w.notifiers.length := by
  rw [WatcherMap.step]
  split
  · split
    · split <;> exact List.length_set
    · rfl
  · rfl

theorem length_notifiers_send (w : WatcherMap) (n : Nat) :
    (w.step (.send n)).notifiers.length = w.notifiers.length := by
  rw [WatcherMap.step]
  split
  · split
    · exact List.length_set.trans (congrArg List.length (w.notifiers_trySend _ _))
    · exact List.length_set
  · rfl

theorem length_notifiers_unlock (w : WatcherMap) (n : Nat) :
    (w.step (.unlock n)).notifiers.length = w.notifiers.length := by
  rw [WatcherMap.step]
  split
  · exact List.length_set
  · rfl

theorem Running.step {s : NotifyingProposer σ} (h : Running s) (ev : NotifyEvent) :
    Running (s.step ev) := by
  cases ev with
  | batch | entry =>
      rw [NotifyingProposer.step]
      split
      · split <;> exact h
      · exact h
  | notify =>
      rw [NotifyingProposer.step]
      split
      · split
        · rename_i w writes _
          intro n hn
          cases hn
          rw [length_notifiers_notify]
          exact Nat.lt_succ_self _
        · exact h
      · exact h
  | range i => exact h.onCall (fun n => .range n i) fun n => length_notifiers_range _ n i
  | send => exact h.onCall .send fun n => length_notifiers_send _ n
  | unlock =>
      have hcall := h.onCall .unlock fun n => length_notifiers_unlock _ n
      rw [NotifyingProposer.step]
      generalize s.onCall .unlock = t at hcall ⊢
      split
      · split
        · exact fun n hn => by cases hn
        · exact hcall
      · exact hcall
  | receive ch =>
      intro n hn
      rw [NotifyingProposer.step, WatcherMap.step]
      split <;> exact h n hn

theorem exists_notified (writes : List WriteEntry) : ∀ {s : NotifyingProposer σ}, s.call = none →
    s.writes = writes → ∃ t, Reaches s t ∧ t.call = none ∧ t.writes = [] ∧
      t.entries = s.entries ∧ t.batches = s.batches := by
  induction writes with
  | nil => exact fun {s} hcall hwrites => ⟨s, .refl s, hcall, hwrites, rfl, rfl⟩
  | cons w writes ih =>
      intro s hcall hwrites
      have hnext : s.step .notify =
          { s with
            watchers := s.watchers.step (.notify w.key true)
            call := some s.watchers.notifiers.length
            writes := writes } := by
        rw [NotifyingProposer.step, if_pos hcall, hwrites]
      have hbegun : s.watchers.notifiers.length < (s.step .notify).watchers.notifiers.length := by
        rw [hnext]
        simp only [length_notifiers_notify]
        exact Nat.lt_succ_self _
      obtain ⟨t, hreturn, hcall, hrest⟩ := returns_of_call (by rw [hnext]) hbegun
      rw [hnext] at hrest
      simp only [rest, Prod.mk.injEq] at hrest
      obtain ⟨-, hbatches, hentries, hwrites⟩ := hrest
      obtain ⟨u, hrun, hcall, hnone, hentries', hbatches'⟩ := ih hcall hwrites
      exact ⟨u, ((reaches_step s (by simp)).trans hreturn).trans hrun, hcall, hnone,
        hentries'.trans hentries, hbatches'.trans hbatches⟩

theorem exists_answered (entries : List (Proposal × ApplyResult)) :
    ∀ {s : NotifyingProposer σ}, s.call = none → s.writes = [] → s.entries = entries →
      ∃ t, Reaches s t ∧ t.call = none ∧ t.writes = [] ∧ t.entries = [] ∧
        t.batches = s.batches := by
  induction entries with
  | nil => exact fun {s} hcall hwrites hentries => ⟨s, .refl s, hcall, hwrites, hentries, rfl⟩
  | cons e entries ih =>
      intro s hcall hwrites hentries
      obtain ⟨p, r⟩ := e
      obtain ⟨hcall, hentries, hbatches⟩ : (s.step .entry).call = none ∧
          (s.step .entry).entries = entries ∧ (s.step .entry).batches = s.batches := by
        rw [NotifyingProposer.step, if_pos ⟨hcall, hwrites⟩, hentries]
        exact ⟨hcall, rfl, rfl⟩
      obtain ⟨t, hnotify, hcall, hwrites, hentries', hbatches'⟩ := exists_notified _ hcall rfl
      obtain ⟨u, hrun, hcall, hwrites, hdone, hbatches''⟩ :=
        ih hcall hwrites (hentries'.trans hentries)
      exact ⟨u, ((reaches_step s (by simp)).trans hnotify).trans hrun, hcall, hwrites, hdone,
        (hbatches''.trans hbatches').trans hbatches⟩

theorem exists_applied (batches : List (List Proposal)) :
    ∀ {s : NotifyingProposer σ}, s.call = none → s.writes = [] → s.entries = [] →
      s.batches = batches → ∃ t, Reaches s t ∧ t.finished := by
  induction batches with
  | nil =>
      exact fun {s} hcall hwrites hentries hbatches =>
        ⟨s, .refl s, hbatches, hentries, hwrites, hcall⟩
  | cons batch batches ih =>
      intro s hcall hwrites hentries hbatches
      obtain ⟨hcall, hwrites, hbatches⟩ : (s.step .batch).call = none ∧
          (s.step .batch).writes = [] ∧ (s.step .batch).batches = batches := by
        rw [NotifyingProposer.step, if_pos ⟨hcall, hwrites, hentries⟩, hbatches]
        exact ⟨hcall, hwrites, rfl⟩
      obtain ⟨t, hanswer, hcall, hwrites, hentries, hsame⟩ := exists_answered _ hcall hwrites rfl
      obtain ⟨u, hrun, hdone⟩ := ih hcall hwrites hentries (hsame.trans hbatches)
      exact ⟨u, ((reaches_step s (by simp)).trans hanswer).trans hrun, hdone⟩

/-- **The loop can always finish**, whether or not anybody receives. -/
theorem exists_finished (d : DirectProposer σ) (batches : List (List Proposal))
    (regs : List Registration) (dropped : Nat) (evs : List NotifyEvent) :
    ∃ t, Reaches ((start d batches regs dropped).run evs) t ∧ t.finished := by
  have hrunning : Running ((start d batches regs dropped).run evs) := by
    refine evs.foldlRecOn NotifyingProposer.step ?_ fun _ hs ev _ => Running.step hs ev
    exact fun n hn => by cases hn
  generalize (start d batches regs dropped).run evs = s at hrunning ⊢
  -- the call that is running, then its entry's writes, its batch's entries, the batches
  obtain ⟨t, hreturn, hcall⟩ : ∃ t, Reaches s t ∧ t.call = none := by
    cases hcall : s.call with
    | none => exact ⟨s, .refl s, hcall⟩
    | some n =>
        obtain ⟨t, hreturn, hcall, -⟩ := returns_of_call hcall (hrunning n hcall)
        exact ⟨t, hreturn, hcall⟩
  obtain ⟨u, hnotify, hcall, hwrites, -, -⟩ := exists_notified _ hcall rfl
  obtain ⟨v, hanswer, hcall, hwrites, hentries, -⟩ := exists_answered _ hcall hwrites rfl
  obtain ⟨x, happly, hdone⟩ := exists_applied _ hcall hwrites hentries rfl
  exact ⟨x, ((hreturn.trans hnotify).trans hanswer).trans happly, hdone⟩

end NotifyingProposer

end Dpx
