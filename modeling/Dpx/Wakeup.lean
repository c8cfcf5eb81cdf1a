/-
# `Dpx.Wakeup` — a consumer that reads after every token misses nothing

A watch channel holds 256 tokens, and a token that finds it full is dropped.  So tokens do not
say how often a key was written, nor are they meant to: a consumer registers, reads, and then
reads again whenever it has received.  `conductor/direct.go` notifies after it has applied a
batch, one write after the other, while other watchers come and go and the consumer receives and
reads as it likes.

`no_change_missed`: whenever the channel is empty, the consumer has read since it last received
and the commit loop has nothing left to notify, what the consumer has read is what the store
holds, for every key with its prefix.  This is so as long as the consumer's context lives and the
map of watchers is open.

The invariant is `Kept.told`: a consumer that has not read the latest is awake, or has a token, or
a token is on its way.  A dropped token is no loss, because the channel is then full.
-/
import Dpx.Notify

namespace Dpx

open Slices

/-! ## A channel, step by step -/

/-- A watcher keeps its prefix, does not come back to the map, and loses no token. -/
structure Watch.Onward (x y : Watch) : Prop where
  pfx : y.pfx = x.pfx
  registered : y.phase.registered = true → x.phase.registered = true
  buffered : x.buffered ≤ y.buffered

namespace WatcherMap

variable {w : WatcherMap}

theorem watcher_step {ch : Nat} {x : Watch} (hx : w.watchers[ch]? = some x) {ev : WatchEvent}
    (hev : ev ≠ .receive ch) : ∃ y, (w.step ev).watchers[ch]? = some y ∧ x.Onward y := by
  have hsame : ∃ y, w.watchers[ch]? = some y ∧ x.Onward y := ⟨x, hx, rfl, id, Nat.le_refl _⟩
  have hlt : ch < w.watchers.length := (List.getElem?_eq_some_iff.mp hx).1
  have hset : ∀ {n : Nat} {z y : Watch}, w.watchers[n]? = some z → z.Onward y →
      ∃ y', (w.watchers.set n y)[ch]? = some y' ∧ x.Onward y' := by
    intro n z y hz honward
    by_cases hn : n = ch
    · subst hn
      rw [hx] at hz
      cases hz
      exact ⟨y, List.getElem?_set_self hlt, honward⟩
    · rw [List.getElem?_set_ne hn]
      exact hsame
  have hclose : ∀ {n : Nat} {z : Watch} {phase : WatchPhase}, w.watchers[n]? = some z →
      phase.registered = false →
      ∃ y, (w.closeChan n z phase).watchers[ch]? = some y ∧ x.Onward y := by
    intro n z phase hz hphase
    rw [closeChan]
    split
    · refine hset hz ⟨rfl, fun h => ?_, Nat.le_refl _⟩
      rw [show phase.registered = true from h] at hphase
      cases hphase
    · exact hsame
  have hnew : ∀ y : Watch, ∃ y', (w.watchers ++ [y])[ch]? = some y' ∧ x.Onward y' := by
    intro y
    rw [List.getElem?_append_left hlt]
    exact hsame
  cases ev with
  | register ctx pfx room =>
      rw [step]
      split
      · exact hsame
      · split
        · exact hnew _
        · exact hnew _
  | refuse n =>
      rw [step]
      split
      · rename_i z hz
        split
        · exact hclose hz rfl
        · exact hsame
      · exact hsame
  | cancel ctx => exact hsame
  | wake n =>
      rw [step]
      split
      · rename_i z hz
        split
        · rename_i hphase
          exact hset hz ⟨rfl, fun _ => by rw [hphase.1]; rfl, Nat.le_refl _⟩
        · exact hsame
      · exact hsame
  | remove n room =>
      rw [step]
      split
      · rename_i z hz
        split
        · exact hset hz ⟨rfl, fun h => (by cases h), Nat.le_refl _⟩
        · exact hsame
      · exact hsame
  | close n =>
      rw [step]
      split
      · rename_i z hz
        split
        · exact hclose hz rfl
        · exact hsame
      · exact hsame
  | closeAll =>
      rw [step]
      split
      · exact hsame
      · split <;> exact hsame
  | closeDone n =>
      rw [step]
      split
      · split <;> exact hsame
      · exact hsame
  | notify key metrics =>
      rw [step]
      split <;> exact hsame
  | range n i =>
      rw [step]
      split
      · split
        · split <;> exact hsame
        · exact hsame
      · exact hsame
  | send n =>
      rw [step]
      split
      · split
        · rw [trySend]
          split
          · exact hsame
          · rename_i z hz
            split
            · exact hsame
            · split
              · exact hset hz ⟨rfl, id, Nat.le_succ _⟩
              · split <;> exact hsame
        · exact hsame
      · exact hsame
  | unlock n =>
      rw [step]
      split <;> exact hsame
  | receive c =>
      rw [step]
      split
      · rename_i z hz
        have hne : c ≠ ch := fun heq => hev (by rw [heq])
        show ∃ y, (w.watchers.set c _)[ch]? = some y ∧ _
        rw [List.getElem?_set_ne hne]
        exact hsame
      · exact hsame

theorem Watched.shown_back (h : Watched w) {ev : WatchEvent} {ch : Nat}
    (hev : ev ≠ .receive ch) {x : Watch} (hx : w.watchers[ch]? = some x) {pfx : Key}
    (hch : ch ∈ (w.step ev).registry.shown pfx) : ch ∈ w.registry.shown pfx := by
  rw [(h.step ev).shown, mem_listed] at hch
  obtain ⟨y, hy, hreg, hpfx⟩ := hch
  obtain ⟨y', hy', honward⟩ := watcher_step hx hev
  rw [hy] at hy'
  cases hy'
  rw [h.shown, mem_listed]
  exact ⟨x, hx, honward.registered hreg, honward.pfx.symm.trans hpfx⟩

theorem closed_step {ev : WatchEvent} (h : (w.step ev).closed = false) : w.closed = false := by
  have hclose : ∀ n x phase, (w.closeChan n x phase).closed = w.closed := by
    intro n x phase
    rw [closeChan]
    split <;> rfl
  have hsend : ∀ ch metrics, (w.trySend ch metrics).closed = w.closed := by
    intro ch metrics
    rw [trySend]
    split
    · rfl
    · split
      · rfl
      · split
        · rfl
        · split <;> rfl
  cases ev with
  | register ctx pfx room =>
      rw [step] at h
      split at h
      · exact h
      · split at h <;> exact h
  | refuse n | close n =>
      rw [step] at h
      split at h
      · split at h
        · rwa [hclose] at h
        · exact h
      · exact h
  | cancel ctx => exact h
  | wake n | remove n room =>
      rw [step] at h
      split at h
      · split at h <;> exact h
      · exact h
  | closeAll =>
      rw [step] at h
      split at h
      · exact h
      · split at h
        · exact h
        · cases h
  | closeDone n =>
      rw [step] at h
      split at h
      · split at h <;> exact h
      · exact h
  | notify key metrics =>
      rw [step] at h
      split at h <;> exact h
  | range n i =>
      rw [step] at h
      split at h
      · split at h
        · split at h <;> exact h
        · exact h
      · exact h
  | send n =>
      rw [step] at h
      split at h
      · split at h
        · rwa [setNotify, hsend] at h
        · exact h
      · exact h
  | unlock n | receive ch =>
      rw [step] at h
      split at h <;> exact h

end WatcherMap

/-! ## A token on its way -/

/-- A running `notify` is still going to offer a token to channel `ch` under the prefix. -/
def NotifyPhase.Reaches (r : Registry) (pfx : Key) (ch : Nat) : NotifyPhase → Prop
  | .ranging key _ todo => pfx <+: key ∧ pfx ∈ todo
  | .sending key _ todo chans i =>
      (pfx <+: key ∧ pfx ∈ todo) ∨ ch ∈ (elems r.heap chans).drop i
  | .returned => False

theorem NotifyPhase.Reaches.reading {r : Registry} {pfx : Key} {ch : Nat} {ph : NotifyPhase}
    (h : ph.Reaches r pfx ch) : ph.reading = true := by
  cases ph with
  | ranging key metrics todo => rfl
  | sending key metrics todo chans i => rfl
  | returned => exact h.elim

namespace WatcherMap

variable {w : WatcherMap} {pfx : Key} {ch n : Nat} {ph : NotifyPhase}

/-- The token is on its way in call `n`. -/
def Offering (w : WatcherMap) (n : Nat) (pfx : Key) (ch : Nat) : Prop :=
  ∃ ph, w.notifiers[n]? = some ph ∧ ph.Reaches w.registry pfx ch

def HasToken (w : WatcherMap) (ch : Nat) : Prop := ∃ x, w.watchers[ch]? = some x ∧ 0 < x.buffered

theorem offering_set (hn : w.notifiers[n]? = some ph) {ph' : NotifyPhase} {w' : WatcherMap}
    (hw : w'.notifiers = w.notifiers) (hr : ph'.Reaches w'.registry pfx ch) :
    (w'.setNotify n ph').Offering n pfx ch := by
  refine ⟨ph', ?_, hr⟩
  show (w'.notifiers.set n ph')[n]? = some ph'
  rw [hw]
  exact List.getElem?_set_self (List.getElem?_eq_some_iff.mp hn).1

theorem mem_watches_of_shown {r : Registry} (h : ch ∈ r.shown pfx) : pfx ∈ r.watches := by
  rw [Std.ExtTreeMap.mem_iff_isSome_getElem?]
  rw [Registry.shown, Registry.slice] at h
  cases hs : r.watches[pfx]? with
  | none =>
      rw [hs, Option.getD_none, Slices.elems_nil] at h
      exact absurd h List.not_mem_nil
  | some s => rfl

theorem offering_notify (hch : ch ∈ w.registry.shown pfx) (hopen : w.closed = false) {key : Key}
    (hkey : pfx <+: key) (metrics : Bool) :
    (w.step (.notify key metrics)).Offering w.notifiers.length pfx ch := by
  rw [step, hopen]
  exact ⟨_, List.getElem?_concat_length, hkey,
    Std.ExtTreeMap.mem_keys.mpr (mem_watches_of_shown hch)⟩

theorem Offering.range (h : w.Offering n pfx ch) (hch : ch ∈ w.registry.shown pfx) (i : Nat) :
    (w.step (.range n i)).Offering n pfx ch := by
  obtain ⟨ph, hn, hr⟩ := h
  have hstay : w.Offering n pfx ch := ⟨ph, hn, hr⟩
  rw [step]
  split
  · rename_i key metrics todo hph
    rw [hn] at hph
    cases hph
    obtain ⟨hkey, hmem⟩ := hr
    split
    · rename_i q hq
      have hrest : q ≠ pfx → pfx ∈ todo.eraseIdx i := by
        intro hne
        obtain ⟨j, hj⟩ := List.getElem?_of_mem hmem
        refine List.mem_eraseIdx_iff_getElem?.mpr ⟨j, fun hji => hne ?_, hj⟩
        rw [hji, hq] at hj
        exact Option.some.inj hj
      split
      · rename_i hprefix
        refine offering_set hn rfl ?_
        by_cases hqp : q = pfx
        · subst hqp
          exact Or.inr (by rw [List.drop_zero]; exact hch)
        · exact Or.inl ⟨hkey, hrest hqp⟩
      · rename_i hprefix
        refine offering_set hn rfl ⟨hkey, hrest fun hqp => hprefix ?_⟩
        rw [hqp]
        exact List.isPrefixOf_iff_prefix.mpr hkey
    · exact hstay
  · exact hstay

theorem Offering.unlock (h : w.Offering n pfx ch) : (w.step (.unlock n)).Offering n pfx ch := by
  obtain ⟨ph, hn, hr⟩ := h
  rw [step]
  split
  · rename_i hph
    rw [hn] at hph
    cases hph
    exact absurd hr.2 List.not_mem_nil
  · exact ⟨ph, hn, hr⟩

theorem Watched.hasToken_trySend (h : Watched w) (hch : ch ∈ w.registry.shown pfx)
    (metrics : Bool) : (w.trySend ch metrics).HasToken ch := by
  obtain ⟨x, hx, hcloses⟩ := h.isOpen hch
  have hfull : ¬ x.buffered < watchChanBuf → 0 < x.buffered := fun hlt =>
    Nat.lt_of_lt_of_le (by decide : 0 < watchChanBuf) (Nat.le_of_not_lt hlt)
  rw [WatcherMap.trySend, hx]
  simp only [hcloses, ne_eq, not_true_eq_false, if_false]
  split
  · refine ⟨_, List.getElem?_set_self (List.getElem?_eq_some_iff.mp hx).1, Nat.succ_pos _⟩
  · rename_i hlt
    split
    · exact ⟨x, hx, hfull hlt⟩
    · exact ⟨x, hx, hfull hlt⟩

theorem Offering.send (h : w.Offering n pfx ch) (hw : Watched w)
    (hch : ch ∈ w.registry.shown pfx) :
    (w.step (.send n)).Offering n pfx ch ∨ (w.step (.send n)).HasToken ch := by
  obtain ⟨ph, hn, hr⟩ := h
  rw [step]
  split
  · rename_i key metrics todo chans i hph
    rw [hn] at hph
    cases hph
    split
    · rename_i c hc
      have hreg := registry_trySend w c metrics
      have hnot := notifiers_trySend w c metrics
      rcases hr with htodo | hmem
      · exact Or.inl (offering_set hn hnot (Or.inl htodo))
      · rw [List.drop_eq_getElem?_toList_append, hc] at hmem
        rcases List.mem_append.mp hmem with hhead | hrest
        · obtain rfl : ch = c := List.mem_singleton.mp hhead
          exact Or.inr (hw.hasToken_trySend hch metrics)
        · refine Or.inl (offering_set hn hnot (Or.inr ?_))
          rw [hreg]
          exact hrest
    · rename_i hc
      refine Or.inl (offering_set hn rfl (hr.resolve_right ?_))
      rw [List.drop_eq_nil_of_le (List.getElem?_eq_none_iff.mp hc)]
      exact List.not_mem_nil
  · exact Or.inl ⟨ph, hn, hr⟩

theorem HasToken.step (h : w.HasToken ch) {ev : WatchEvent} (hev : ev ≠ .receive ch) :
    (w.step ev).HasToken ch := by
  obtain ⟨x, hx, hpos⟩ := h
  obtain ⟨y, hy, honward⟩ := watcher_step hx hev
  exact ⟨y, hy, Nat.lt_of_lt_of_le hpos honward.buffered⟩

end WatcherMap

/-- Neither a step of `notify` nor a receive from the channel. -/
def WatchEvent.foreign (ch : Option Nat) : WatchEvent → Bool
  | .notify _ _ | .range _ _ | .send _ | .unlock _ => false
  | .receive c => ch != some c
  | _ => true

/-- What others do waits for a `notify`, or leaves the map alone. -/
theorem WatcherMap.Offering.foreign {w : WatcherMap} {n ch : Nat} {pfx : Key} {o : Option Nat}
    (h : w.Offering n pfx ch) {ev : WatchEvent} (hev : ev.foreign o = true) :
    (w.step ev).Offering n pfx ch := by
  have hlock : w.readLocked = true := by
    obtain ⟨ph, hn, hr⟩ := h
    exact List.any_eq_true.mpr ⟨ph, List.mem_of_getElem? hn, hr.reading⟩
  have hclose : ∀ m x phase, (w.closeChan m x phase).Offering n pfx ch := by
    intro m x phase
    rw [closeChan]
    split <;> exact h
  cases ev with
  | register ctx q room =>
      rw [step, if_pos hlock]
      exact h
  | refuse m | close m =>
      rw [step]
      split
      · split
        · exact hclose _ _ _
        · exact h
      · exact h
  | cancel ctx => exact h
  | wake m =>
      rw [step]
      split
      · split <;> exact h
      · exact h
  | remove m room =>
      rw [step]
      split
      · rw [if_neg (fun hand => Bool.false_ne_true (hand.2.symm.trans hlock))]
        exact h
      · exact h
  | closeAll =>
      rw [step, if_pos hlock]
      exact h
  | closeDone m =>
      rw [step]
      split
      · split <;> exact h
      · exact h
  | receive c =>
      rw [step]
      split <;> exact h
  | notify key metrics => cases hev
  | range m i => cases hev
  | send m => cases hev
  | unlock m => cases hev

/-! ## The store and a consumer -/

/-- Who has the channel `ch` of a watch: has it received and not read since, and what was there
when it read. -/
structure Consumer (σ : Type) where
  ch : Nat
  pfx : Key
  awake : Bool
  seen : σ

structure WatchedStore (σ : Type) where
  loop : NotifyingProposer σ
  consumer : Option (Consumer σ)

inductive StoreEvent where
  /-- The commit loop takes its next batch and applies it. -/
  | batch (ps : List Proposal)
  | entry
  | notify
  | range (i : Nat)
  | send
  | unlock
  /-- Other watchers, and the end of any. -/
  | others (ev : WatchEvent)
  /-- The consumer's `WatchKey`. -/
  | watchKey (ctx : Nat) (pfx : Key) (room : Nat)
  | receive
  | read

namespace WatchedStore

variable {σ : Type} [StorageEngine σ]

def start (d : DirectProposer σ) : WatchedStore σ := ⟨⟨d, [], [], [], none, .new, 0⟩, none⟩

def watchKey (s : WatchedStore σ) (ctx : Nat) (pfx : Key) (room : Nat) : WatchedStore σ :=
  let w := s.loop.watchers
  if s.consumer.isSome ∨ w.readLocked then s
  else
    { loop := { s.loop with watchers := w.step (.register ctx pfx room) }
      consumer := some ⟨w.watchers.length, pfx, true, s.loop.proposer.fsm.engine⟩ }

/-- A receive waits for a token. -/
def receive (s : WatchedStore σ) (c : Consumer σ) : WatchedStore σ :=
  match s.loop.watchers.watchers[c.ch]? with
  | none => s
  | some x =>
      if x.buffered = 0 then s
      else
        { loop := { s.loop with watchers := s.loop.watchers.step (.receive c.ch) }
          consumer := some { c with awake := true } }

def step (s : WatchedStore σ) : StoreEvent → WatchedStore σ
  | .batch ps => { s with loop := { s.loop with batches := [ps] }.step .batch }
  | .entry => { s with loop := s.loop.step .entry }
  | .notify => { s with loop := s.loop.step .notify }
  | .range i => { s with loop := s.loop.step (.range i) }
  | .send => { s with loop := s.loop.step .send }
  | .unlock => { s with loop := s.loop.step .unlock }
  | .others ev =>
      if ev.foreign (s.consumer.map Consumer.ch) then
        { s with loop := { s.loop with watchers := s.loop.watchers.step ev } }
      else s
  | .watchKey ctx pfx room => s.watchKey ctx pfx room
  | .receive => s.consumer.elim s s.receive
  | .read =>
      { s with consumer := s.consumer.map fun c =>
          { c with awake := false, seen := s.loop.proposer.fsm.engine } }

def run (s : WatchedStore σ) (evs : List StoreEvent) : WatchedStore σ := evs.foldl step s

/-- Batches hold what a transaction can build. -/
def Proper : StoreEvent → Prop
  | .batch ps => ∀ p ∈ ps, p.WellFormed
  | _ => True

end WatchedStore

/-! ## The invariant -/

namespace NotifyingProposer

variable {σ : Type} [StorageEngine σ] {l l' : NotifyingProposer σ} {c : Consumer σ}

/-- A token for the channel is on its way. -/
def Coming (l : NotifyingProposer σ) (pfx : Key) (ch : Nat) : Prop :=
  (∃ w ∈ l.writes ++ passing l.entries, pfx <+: w.key) ∨
    ∃ n, l.call = some n ∧ l.watchers.Offering n pfx ch

/-- What is there under the prefix is what the consumer has read. -/
def UpToDate (l : NotifyingProposer σ) (c : Consumer σ) : Prop :=
  ∀ k, c.pfx <+: k → isReserved k = false →
    StorageEngine.get l.proposer.fsm.engine k = StorageEngine.get c.seen k

/-- The consumer knows, or is going to learn, that it is not up to date. -/
def Aware (l : NotifyingProposer σ) (c : Consumer σ) : Prop :=
  c.ch ∈ l.watchers.registry.shown c.pfx → l.watchers.closed = false →
    c.awake = true ∨ l.watchers.HasToken c.ch ∨ l.Coming c.pfx c.ch ∨ l.UpToDate c

theorem Aware.watchers (h : l.Aware c) (hw : l.watchers.Watched) {x : Watch}
    (hx : l.watchers.watchers[c.ch]? = some x) {ev : WatchEvent} (hev : ev ≠ .receive c.ch)
    (hwatchers : l'.watchers = l.watchers.step ev) (hproposer : l'.proposer = l.proposer)
    (hcoming : c.ch ∈ l.watchers.registry.shown c.pfx → l.watchers.closed = false →
      l.Coming c.pfx c.ch → l'.watchers.HasToken c.ch ∨ l'.Coming c.pfx c.ch) : l'.Aware c := by
  intro hch hopen
  rw [hwatchers] at hch hopen
  have hch := hw.shown_back hev hx hch
  have hopen := WatcherMap.closed_step hopen
  rcases h hch hopen with hawake | htoken | hcome | hsame
  · exact Or.inl hawake
  · refine Or.inr (Or.inl ?_)
    rw [hwatchers]
    exact htoken.step hev
  · rcases hcoming hch hopen hcome with htoken | hcome
    · exact Or.inr (Or.inl htoken)
    · exact Or.inr (Or.inr (Or.inl hcome))
  · refine Or.inr (Or.inr (Or.inr ?_))
    rw [UpToDate, hproposer]
    exact hsame

theorem Aware.onCall (h : l.Aware c) (hw : l.watchers.Watched) {x : Watch}
    (hx : l.watchers.watchers[c.ch]? = some x) {ev : Nat → WatchEvent}
    (hev : ∀ n, ev n ≠ .receive c.ch)
    (hoffer : ∀ n, c.ch ∈ l.watchers.registry.shown c.pfx → l.watchers.Offering n c.pfx c.ch →
      (l.watchers.step (ev n)).Offering n c.pfx c.ch ∨
        (l.watchers.step (ev n)).HasToken c.ch) : (l.onCall ev).Aware c := by
  rw [NotifyingProposer.onCall]
  split
  · rename_i n hcall
    refine h.watchers hw hx (hev n) rfl rfl fun hch _ hcome => ?_
    rcases hcome with hwrite | ⟨m, hm, hoffering⟩
    · exact Or.inr (Or.inl hwrite)
    · rw [hcall] at hm
      cases hm
      rcases hoffer n hch hoffering with hoffering | htoken
      · exact Or.inr (Or.inr ⟨n, hcall, hoffering⟩)
      · exact Or.inl htoken
  · exact h

theorem Aware.unlock (h : l.Aware c) (hw : l.watchers.Watched) {x : Watch}
    (hx : l.watchers.watchers[c.ch]? = some x) : (l.step .unlock).Aware c := by
  have hcalled : (l.onCall .unlock).Aware c :=
    h.onCall hw hx (fun _ => by simp) fun n _ hoffering => Or.inl hoffering.unlock
  rw [NotifyingProposer.step]
  split
  · rename_i n hcall
    split
    · rename_i hreturned
      -- a call that has returned offers nothing
      intro hch hopen
      rcases hcalled hch hopen with hawake | htoken | hcome | hsame
      · exact Or.inl hawake
      · exact Or.inr (Or.inl htoken)
      · rcases hcome with hwrite | ⟨m, hm, ph, hn, hr⟩
        · exact Or.inr (Or.inr (Or.inl (Or.inl hwrite)))
        · rw [hcall] at hm
          cases hm
          rw [hreturned] at hn
          cases hn
          exact hr.elim
      · exact Or.inr (Or.inr (Or.inr hsame))
    · exact hcalled
  · exact hcalled

theorem Aware.notify (h : l.Aware c) (hw : l.watchers.Watched) {x : Watch}
    (hx : l.watchers.watchers[c.ch]? = some x) : (l.step .notify).Aware c := by
  rw [NotifyingProposer.step]
  split
  · rename_i hnone
    split
    · rename_i write writes hwrites
      have hev : WatchEvent.notify write.key true ≠ .receive c.ch := by simp
      refine h.watchers hw hx hev rfl rfl fun hch hopen hcome => Or.inr ?_
      rcases hcome with ⟨w, hmem, hkey⟩ | ⟨n, hn, -⟩
      · rw [hwrites] at hmem
        rcases List.mem_cons.mp hmem with rfl | hmem
        · exact Or.inr ⟨_, rfl, WatcherMap.offering_notify hch hopen hkey true⟩
        · exact Or.inl ⟨w, hmem, hkey⟩
      · rw [hnone] at hn
        cases hn
    · exact h
  · exact h

theorem mem_passing_cons {p : Proposal} {r : ApplyResult} {entries : List (Proposal × ApplyResult)}
    {w : WriteEntry} (h : w ∈ passing ((p, r) :: entries)) :
    (r.passed = true ∧ w ∈ p.writes) ∨ w ∈ passing entries := by
  rw [passing, List.filter_cons] at h
  split at h
  · rename_i hpassed
    rw [List.flatMap_cons] at h
    exact (List.mem_append.mp h).imp (fun hw => ⟨hpassed, hw⟩) id
  · exact Or.inr h

theorem Aware.entry (h : l.Aware c) : (l.step .entry).Aware c := by
  rw [NotifyingProposer.step]
  split
  · rename_i hidle
    split
    · rename_i p r entries hentries
      intro hch hopen
      rcases h hch hopen with hawake | htoken | hcome | hsame
      · exact Or.inl hawake
      · exact Or.inr (Or.inl htoken)
      · refine Or.inr (Or.inr (Or.inl ?_))
        rcases hcome with ⟨w, hmem, hkey⟩ | hcall
        · refine Or.inl ⟨w, ?_, hkey⟩
          rw [hidle.2, hentries, List.nil_append] at hmem
          refine List.mem_append.mpr ((mem_passing_cons hmem).imp (fun hhead => ?_) id)
          have hsize : l.watchers.registry.watches.size ≠ 0 := by
            intro hzero
            have hmem := WatcherMap.mem_watches_of_shown hch
            rw [Std.ExtTreeMap.eq_empty_iff_size_eq_zero.mpr hzero] at hmem
            exact Std.ExtTreeMap.not_mem_empty hmem
          show w ∈ if _ then p.writes else []
          rw [if_pos ⟨hhead.1, hsize⟩]
          exact hhead.2
        · exact Or.inr hcall
      · exact Or.inr (Or.inr (Or.inr hsame))
    · exact h
  · exact h

theorem mem_written {tr : List Answered} {a : Answered} (ha : a ∈ tr) {k : Key}
    (hwrote : a.wrote k = true) : ∃ w ∈ written tr, w.key = k := by
  rw [Answered.wrote, Bool.and_eq_true, Proposal.writesKey, List.any_eq_true] at hwrote
  obtain ⟨hcommitted, w, hw, hkey⟩ := hwrote
  refine ⟨w, List.mem_flatMap.mpr ⟨a.proposal, ?_, hw⟩, by simpa using hkey⟩
  exact List.mem_map.mpr ⟨a, List.mem_filter.mpr ⟨ha, hcommitted⟩, rfl⟩

/-- A batch that writes below the prefix has its tokens to come, and another one changes nothing
there. -/
theorem Aware.batch [LawfulEngine σ] (h : l.Aware c) {ps : List Proposal}
    (hps : ∀ p ∈ ps, p.WellFormed) : ({ l with batches := [ps] }.step .batch).Aware c := by
  rw [NotifyingProposer.step]
  split
  · rename_i hidle
    intro hch hopen
    rcases h hch hopen with hawake | htoken | hcome | hsame
    · exact Or.inl hawake
    · exact Or.inr (Or.inl htoken)
    · rcases hcome with ⟨w, hmem, -⟩ | ⟨n, hn, -⟩
      · rw [hidle.2.1, hidle.2.2] at hmem
        cases hmem
      · rw [hidle.1] at hn
        cases hn
    · refine Or.inr (Or.inr ?_)
      by_cases hwrite : ∃ w ∈ written (l.proposer.answered ps), c.pfx <+: w.key
      · obtain ⟨w, hmem, hkey⟩ := hwrite
        refine Or.inl (Or.inl ⟨w, List.mem_append_right _ ?_, hkey⟩)
        rw [DirectProposer.answered, ← passing_zip] at hmem
        exact hmem
      · refine Or.inr fun k hk hres => ?_
        refine (l.proposer.batch_values hres hps).trans ?_
        rw [valueSince_of_unwritten, hsame k hk hres]
        intro a ha
        refine Bool.eq_false_iff.mpr fun hwrote => hwrite ?_
        obtain ⟨w, hw, rfl⟩ := mem_written ha hwrote
        exact ⟨w, hw, hk⟩
  · exact h

theorem watchers_step (l : NotifyingProposer σ) {ev : NotifyEvent} (hev : ∀ ch, ev ≠ .receive ch) :
    (l.step ev).watchers = l.watchers ∨
      ∃ e : WatchEvent, (∀ ch, e ≠ .receive ch) ∧ (l.step ev).watchers = l.watchers.step e := by
  have hcall : ∀ e : Nat → WatchEvent, (∀ n ch, e n ≠ .receive ch) →
      (l.onCall e).watchers = l.watchers ∨ ∃ e' : WatchEvent, (∀ ch, e' ≠ .receive ch) ∧
        (l.onCall e).watchers = l.watchers.step e' := by
    intro e he
    rw [NotifyingProposer.onCall]
    split
    · exact Or.inr ⟨_, he _, rfl⟩
    · exact Or.inl rfl
  cases ev with
  | batch =>
      rw [NotifyingProposer.step]
      split
      · split <;> exact Or.inl rfl
      · exact Or.inl rfl
  | entry =>
      rw [NotifyingProposer.step]
      split
      · split <;> exact Or.inl rfl
      · exact Or.inl rfl
  | notify =>
      rw [NotifyingProposer.step]
      split
      · split
        · rename_i w _ _
          exact Or.inr ⟨.notify w.key true, fun _ => by simp, rfl⟩
        · exact Or.inl rfl
      · exact Or.inl rfl
  | range i => exact hcall _ fun _ _ => by simp
  | send => exact hcall _ fun _ _ => by simp
  | unlock =>
      have hunlock := hcall .unlock fun _ _ => by simp
      rw [NotifyingProposer.step]
      split
      · split <;> exact hunlock
      · exact hunlock
  | receive ch => exact absurd rfl (hev ch)

end NotifyingProposer

namespace WatchedStore

variable {σ : Type} [StorageEngine σ] {s : WatchedStore σ}

structure Kept (s : WatchedStore σ) : Prop where
  watched : s.loop.watchers.Watched
  known : ∀ c, s.consumer = some c →
    ∃ x, s.loop.watchers.watchers[c.ch]? = some x ∧ x.pfx = c.pfx
  told : ∀ c, s.consumer = some c → s.loop.Aware c

theorem kept_start (d : DirectProposer σ) : Kept (start d) where
  watched := WatcherMap.watched_new
  known := fun _ hc => by cases hc
  told := fun _ hc => by cases hc

theorem Kept.loop (h : Kept s) {l : NotifyingProposer σ}
    (hl : l.watchers = s.loop.watchers ∨ ∃ ev, (∀ c, s.consumer = some c → ev ≠ .receive c.ch) ∧
      l.watchers = s.loop.watchers.step ev)
    (htold : ∀ c x, s.consumer = some c → s.loop.watchers.watchers[c.ch]? = some x → l.Aware c) :
    Kept { s with loop := l } where
  watched := by
    rcases hl with hl | ⟨ev, -, hl⟩
    · exact hl ▸ h.watched
    · exact hl ▸ h.watched.step ev
  known c hc := by
    obtain ⟨x, hx, hpfx⟩ := h.known c hc
    rcases hl with hl | ⟨ev, hev, hl⟩
    · exact ⟨x, hl ▸ hx, hpfx⟩
    · obtain ⟨y, hy, honward⟩ := WatcherMap.watcher_step hx (hev c hc)
      exact ⟨y, hl ▸ hy, honward.pfx.trans hpfx⟩
  told c hc := by
    obtain ⟨x, hx, -⟩ := h.known c hc
    exact htold c x hc hx

theorem Kept.onEvent (h : Kept s) {ev : NotifyEvent} (hev : ∀ ch, ev ≠ .receive ch)
    (htold : ∀ c x, s.consumer = some c → s.loop.watchers.watchers[c.ch]? = some x →
      (s.loop.step ev).Aware c) : Kept { s with loop := s.loop.step ev } := by
  refine h.loop ?_ htold
  rcases s.loop.watchers_step hev with hl | ⟨e, he, hl⟩
  · exact Or.inl hl
  · exact Or.inr ⟨e, fun c _ => he c.ch, hl⟩

theorem Kept.watchKey (h : Kept s) (ctx : Nat) (pfx : Key) (room : Nat) :
    Kept (s.watchKey ctx pfx room) := by
  rw [WatchedStore.watchKey]
  split
  · exact h
  · rename_i hfree
    refine ⟨h.watched.step (.register ctx pfx room), fun c hc => ?_, fun c hc _ _ => ?_⟩
    · cases hc
      show ∃ x, (s.loop.watchers.step (.register ctx pfx room)).watchers[_]? = some x ∧ _
      rw [WatcherMap.step, if_neg fun hlock => hfree (Or.inr hlock)]
      split <;> exact ⟨_, List.getElem?_concat_length, rfl⟩
    · cases hc
      exact Or.inl rfl

theorem Kept.receive (h : Kept s) {c : Consumer σ} (hc : s.consumer = some c) :
    Kept (s.receive c) := by
  rw [WatchedStore.receive]
  split
  · exact h
  · rename_i x hx
    split
    · exact h
    · refine ⟨h.watched.step (.receive c.ch), fun d hd => ?_, fun d hd _ _ => ?_⟩
      · cases hd
        obtain ⟨y, hy, hpfx⟩ := h.known c hc
        rw [hx] at hy
        cases hy
        show ∃ y, (s.loop.watchers.step (.receive c.ch)).watchers[c.ch]? = some y ∧ _
        rw [WatcherMap.step, hx]
        exact ⟨_, List.getElem?_set_self (List.getElem?_eq_some_iff.mp hx).1, hpfx⟩
      · cases hd
        exact Or.inl rfl

theorem Kept.read (h : Kept s) : Kept (s.step .read) where
  watched := h.watched
  known d hd := by
    obtain ⟨c, hc, rfl⟩ := Option.map_eq_some_iff.mp hd
    exact h.known c hc
  told d hd _ _ := by
    obtain ⟨c, hc, rfl⟩ := Option.map_eq_some_iff.mp hd
    exact Or.inr (Or.inr (Or.inr fun _ _ _ => rfl))

theorem Kept.others (h : Kept s) (ev : WatchEvent) : Kept (s.step (.others ev)) := by
  rw [WatchedStore.step]
  split
  · rename_i hforeign
    have hev : ∀ c, s.consumer = some c → ev ≠ .receive c.ch := by
      rintro c hc rfl
      rw [hc] at hforeign
      simp [WatchEvent.foreign] at hforeign
    refine h.loop (Or.inr ⟨ev, hev, rfl⟩) fun c x hc hx => ?_
    refine (h.told c hc).watchers h.watched hx (hev c hc) rfl rfl fun _ _ hcome => Or.inr ?_
    rcases hcome with hwrite | ⟨n, hn, hoffering⟩
    · exact Or.inl hwrite
    · exact Or.inr ⟨n, hn, hoffering.foreign hforeign⟩
  · exact h

theorem Kept.step [LawfulEngine σ] (h : Kept s) {ev : StoreEvent} (hev : Proper ev) :
    Kept (s.step ev) := by
  cases ev with
  | batch ps =>
      refine h.loop (Or.inl ?_) fun c x hc _ => (h.told c hc).batch hev
      rw [NotifyingProposer.step]
      split <;> rfl
  | entry => exact h.onEvent (by simp) fun c x hc _ => (h.told c hc).entry
  | notify => exact h.onEvent (by simp) fun c x hc hx => (h.told c hc).notify h.watched hx
  | range i =>
      refine h.onEvent (by simp) fun c x hc hx => ?_
      exact (h.told c hc).onCall h.watched hx (fun _ => by simp) fun n hch hoffering =>
        Or.inl (hoffering.range hch i)
  | send =>
      refine h.onEvent (by simp) fun c x hc hx => ?_
      exact (h.told c hc).onCall h.watched hx (fun _ => by simp) fun n hch hoffering =>
        hoffering.send h.watched hch
  | unlock => exact h.onEvent (by simp) fun c x hc hx => (h.told c hc).unlock h.watched hx
  | others ev => exact h.others ev
  | watchKey ctx pfx room => exact h.watchKey ctx pfx room
  | receive =>
      rw [WatchedStore.step]
      cases hc : s.consumer with
      | none => exact h
      | some c => exact h.receive hc
  | read => exact h.read

theorem kept_run [LawfulEngine σ] (d : DirectProposer σ) {evs : List StoreEvent}
    (hevs : ∀ ev ∈ evs, Proper ev) : Kept ((start d).run evs) :=
  evs.foldlRecOn WatchedStore.step (kept_start d) fun _ h ev hev => h.step (hevs ev hev)

/-! ## Nothing is missed -/

/-- Nothing has been applied that is not yet notified. -/
def Idle (s : WatchedStore σ) : Prop :=
  s.loop.call = none ∧ s.loop.writes = [] ∧ s.loop.entries = []

/-- The consumer waits: its watch is in place, its channel is empty, and it has read since it
received. -/
structure Settled (s : WatchedStore σ) (c : Consumer σ) : Prop where
  here : s.consumer = some c
  isOpen : s.loop.watchers.closed = false
  waiting : ∃ x, s.loop.watchers.watchers[c.ch]? = some x ∧ x.phase = .waiting ∧ x.buffered = 0
  read : c.awake = false

theorem no_change_missed [LawfulEngine σ] (d : DirectProposer σ) {evs : List StoreEvent}
    (hevs : ∀ ev ∈ evs, Proper ev) {c : Consumer σ} (hsettled : Settled ((start d).run evs) c)
    (hidle : Idle ((start d).run evs)) {k : Key} (hk : c.pfx <+: k) (hres : isReserved k = false) :
    StorageEngine.get ((start d).run evs).loop.proposer.fsm.engine k =
      StorageEngine.get c.seen k := by
  have h := kept_run d hevs
  generalize (start d).run evs = s at h hsettled hidle
  obtain ⟨x, hx, hphase, hempty⟩ := hsettled.waiting
  obtain ⟨y, hy, hpfx⟩ := h.known c hsettled.here
  rw [hx] at hy
  cases hy
  have hshown : c.ch ∈ s.loop.watchers.registry.shown c.pfx := by
    rw [h.watched.shown, WatcherMap.mem_listed]
    exact ⟨x, hx, by rw [hphase]; rfl, hpfx⟩
  rcases h.told c hsettled.here hshown hsettled.isOpen with hawake | htoken | hcome | hsame
  · rw [hsettled.read] at hawake
    cases hawake
  · obtain ⟨y, hy, hpos⟩ := htoken
    rw [hx] at hy
    cases hy
    rw [hempty] at hpos
    cases hpos
  · obtain ⟨hcall, hwrites, hentries⟩ := hidle
    rcases hcome with ⟨w, hmem, -⟩ | ⟨n, hn, -⟩
    · rw [hwrites, hentries] at hmem
      cases hmem
    · rw [hcall] at hn
      cases hn
  · exact hsame k hk hres

/-- One watches `k`, another one everything; a proposal writes `k` and `k1`, and the first has
received once, and read, before the second token comes. -/
def woken : List StoreEvent :=
  [.watchKey 0 [0x6b] 0, .read, .others (.register 1 [] 0),
    .batch [⟨[], [⟨.set, [0x6b], [1]⟩, ⟨.set, [0x6b, 0x31], [2]⟩], 0, 0⟩], .entry,
    .notify, .range 0, .send, .send, .range 0, .send, .send, .unlock, .receive, .read,
    .notify, .range 0, .send, .send, .range 0, .send, .send, .unlock, .receive, .read]

theorem woken_up_to_date : ∃ c, Settled ((start DirectProposer.opened).run woken) c ∧
    Idle ((start DirectProposer.opened).run woken) ∧
    StorageEngine.get c.seen [0x6b, 0x31] = some [2] := by
  obtain ⟨c, hc⟩ := Option.isSome_iff_exists.mp
    (show ((start DirectProposer.opened).run woken).consumer.isSome = true by decide +kernel)
  have hfields : (((start DirectProposer.opened).run woken).consumer.map fun c =>
      (c.ch, c.pfx, c.awake)) = some (0, [0x6b], false) := by decide +kernel
  rw [hc] at hfields
  obtain ⟨hch, hpfx, hawake⟩ : c.ch = 0 ∧ c.pfx = [0x6b] ∧ c.awake = false := by
    simpa using hfields
  have hsettled : Settled ((start DirectProposer.opened).run woken) c := by
    refine ⟨hc, by decide +kernel, ?_, hawake⟩
    rw [hch]
    exact ⟨⟨0, [0x6b], .waiting, 0, 0⟩, by decide +kernel⟩
  have hidle : Idle ((start DirectProposer.opened).run woken) :=
    ⟨by decide +kernel, by decide +kernel, List.isEmpty_iff.mp (by decide +kernel)⟩
  have hproper : ∀ ev ∈ woken, Proper ev := by
    simp only [woken, List.forall_mem_cons, List.not_mem_nil, IsEmpty.forall_iff, Proper,
      true_and, implies_true, and_true]
    decide
  have hkey : c.pfx <+: [0x6b, 0x31] := by
    rw [hpfx]
    decide
  refine ⟨c, hsettled, hidle, ?_⟩
  rw [← no_change_missed DirectProposer.opened hproper hsettled hidle hkey (by decide)]
  decide +kernel

end WatchedStore

end Dpx
