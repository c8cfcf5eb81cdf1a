/-
# `Dpx.Engine.PebbleSnapshots` — the shared snapshot of the Pebble engine

`engine/pebble/pebble.go`: `Open` and then a loop replace the snapshot that readers share.  The
one that was replaced goes to a timer, which closes it two intervals later.  `Close` stops the
loop, waits for it, closes the snapshot that is shared at that moment, and closes the database.
It does not stop the timers, nor wait for them.

The parties are the goroutine that refreshes (`Refresher`: `Open` first, then the loop), the
caller of `Close` (`Closer`), and the timers.  A snapshot is at all times with exactly one of
them, in the shared pointer, or closed: `Held` counts its closes and its holders, and together
they are one.  So nothing is closed twice, and when `db.Close` is called the snapshots that are
open are those of the timers (`Held.timers_eq_nil_iff`).  The lifecycle is clean exactly if
there are none (`clean_iff`).

A timer does not fire early.  A `Close` that gets to the database within two intervals of a
refresh is never clean (`not_clean_of_recent`), and the loop refreshes at every interval.

`Close` is called once, after `Open` has returned; a second call panics at `close(snapshotStop)`
and touches no snapshot.
-/
import Mathlib.Data.List.Perm.Basic
import Dpx.Lib.Runs

namespace Dpx

namespace Pebble

/-- A millisecond, in nanoseconds. -/
def snapshotRefreshInterval : Nat := 1000000

/-- How often a snapshot has been closed, and how often of that after `db.Close` was called. -/
structure Snap where
  closes : Nat
  late : Nat
  deriving DecidableEq, Repr

/-- Where the goroutine that refreshes is. -/
inductive Refresher where
  /-- about to take a snapshot -/
  | calling
  /-- `NewSnapshot` has returned -/
  | created (snap : Nat)
  /-- `Swap` has returned -/
  | swapped (old : Option Nat)
  /-- at the select of the loop -/
  | waiting
  | exited
  deriving DecidableEq, Repr

/-- Where the engine's owner is. -/
inductive Closer where
  | opening
  | running
  /-- `snapshotStop` is closed -/
  | stopping
  /-- the loop has exited -/
  | waited
  /-- `Swap(nil)` has returned -/
  | holding (ss : Option Nat)
  | released
  /-- `db.Close` has been called -/
  | closed
  deriving DecidableEq, Repr

/-- A delayed close. -/
structure Timer where
  snap : Nat
  due : Nat
  deriving DecidableEq, Repr

structure SharedSnaps where
  snaps : List Snap
  sharedSnap : Option Nat
  timers : List Timer
  refresher : Refresher
  closer : Closer
  now : Nat
  deriving DecidableEq, Repr

inductive SnapEvent where
  /-- time passes -/
  | elapse (d : Nat)
  | tick
  | newSnapshot
  | swap
  | afterFunc
  | stop
  | fire (i : Nat)
  | close
  | wait
  | swapNil
  | closeCurrent
  | dbClose
  deriving DecidableEq, Repr

namespace SharedSnaps

/-- `Open` has the database and is about to refresh. -/
def opening : SharedSnaps := ⟨[], none, [], .calling, .opening, 0⟩

/-- `snap.Close()` -/
def closeSnap (s : SharedSnaps) (n : Nat) : SharedSnaps :=
  { s with
    snaps := s.snaps.modify n fun x =>
      ⟨x.closes + 1, x.late + if s.closer = .closed then 1 else 0⟩ }

/-- `time.AfterFunc` for the snapshot that was replaced, if there was one. -/
def schedule (s : SharedSnaps) : Option Nat → List Timer
  | some old => s.timers ++ [⟨old, s.now + snapshotRefreshInterval * 2⟩]
  | none => s.timers

/-- One step of one party; an event that is not enabled does nothing. -/
def step (s : SharedSnaps) : SnapEvent → SharedSnaps
  | .elapse d => { s with now := s.now + d }
  | .tick => if s.refresher = .waiting then { s with refresher := .calling } else s
  | .newSnapshot =>
      if s.refresher = .calling then
        { s with snaps := s.snaps ++ [⟨0, 0⟩], refresher := .created s.snaps.length }
      else s
  | .swap =>
      match s.refresher with
      | .created n => { s with refresher := .swapped s.sharedSnap, sharedSnap := some n }
      | _ => s
  | .afterFunc =>
      match s.refresher with
      | .swapped old =>
          { s with
            timers := s.schedule old
            refresher := .waiting
            -- the first refresh is the one of `Open`, which returns
            closer := if s.closer = .opening then .running else s.closer }
      | _ => s
  | .stop =>
      if s.refresher = .waiting ∧ s.closer = .stopping then { s with refresher := .exited } else s
  | .fire i =>
      match s.timers[i]? with
      | some t =>
          if t.due ≤ s.now then { s.closeSnap t.snap with timers := s.timers.eraseIdx i } else s
      | none => s
  | .close => if s.closer = .running then { s with closer := .stopping } else s
  | .wait =>
      if s.closer = .stopping ∧ s.refresher = .exited then { s with closer := .waited } else s
  | .swapNil =>
      if s.closer = .waited then { s with closer := .holding s.sharedSnap, sharedSnap := none }
      else s
  | .closeCurrent =>
      match s.closer with
      | .holding (some n) => { s.closeSnap n with closer := .released }
      | .holding none => { s with closer := .released }
      | _ => s
  | .dbClose => if s.closer = .released then { s with closer := .closed } else s

end SharedSnaps

/-! ## Who holds a snapshot -/

def Refresher.held : Refresher → List Nat
  | .created n => [n]
  | .swapped old => old.toList
  | .calling | .waiting | .exited => []

def Closer.held : Closer → List Nat
  | .holding ss => ss.toList
  | .opening | .running | .stopping | .waited | .released | .closed => []

/-- `Close` is past waiting for the loop. -/
def Closer.past : Closer → Bool
  | .waited | .holding _ | .released | .closed => true
  | .opening | .running | .stopping => false

/-- `Close` has emptied the pointer. -/
def Closer.emptied : Closer → Bool
  | .holding _ | .released | .closed => true
  | .opening | .running | .stopping | .waited => false

namespace SharedSnaps

/-- How often snapshot `n` is held. -/
def holders (s : SharedSnaps) (n : Nat) : Nat :=
  s.refresher.held.count n + s.sharedSnap.toList.count n + (s.timers.map Timer.snap).count n +
    s.closer.held.count n

/-- How often it was closed. -/
def closesOf (s : SharedSnaps) (n : Nat) : Nat := (s.snaps[n]?.map Snap.closes).getD 0

/-- The steps, each with what enables it. -/
inductive Took (s : SharedSnaps) : SnapEvent → SharedSnaps → Prop
  | idle (ev : SnapEvent) : Took s ev s
  | elapse (d : Nat) : Took s (.elapse d) { s with now := s.now + d }
  | tick (h : s.refresher = .waiting) : Took s .tick { s with refresher := .calling }
  | newSnapshot (h : s.refresher = .calling) : Took s .newSnapshot
      { s with snaps := s.snaps ++ [⟨0, 0⟩], refresher := .created s.snaps.length }
  | swap {n : Nat} (h : s.refresher = .created n) : Took s .swap
      { s with refresher := .swapped s.sharedSnap, sharedSnap := some n }
  | afterFunc {old : Option Nat} (h : s.refresher = .swapped old) : Took s .afterFunc
      { s with
        timers := s.schedule old
        refresher := .waiting
        closer := if s.closer = .opening then .running else s.closer }
  | stop (h : s.refresher = .waiting) (hstop : s.closer = .stopping) :
      Took s .stop { s with refresher := .exited }
  | fire {i : Nat} {t : Timer} (h : s.timers[i]? = some t) (hdue : t.due ≤ s.now) :
      Took s (.fire i) { s.closeSnap t.snap with timers := s.timers.eraseIdx i }
  | close (h : s.closer = .running) : Took s .close { s with closer := .stopping }
  | wait (h : s.closer = .stopping) (hexit : s.refresher = .exited) :
      Took s .wait { s with closer := .waited }
  | swapNil (h : s.closer = .waited) : Took s .swapNil
      { s with closer := .holding s.sharedSnap, sharedSnap := none }
  | closeCurrent {n : Nat} (h : s.closer = .holding (some n)) :
      Took s .closeCurrent { s.closeSnap n with closer := .released }
  | closeNone (h : s.closer = .holding none) : Took s .closeCurrent { s with closer := .released }
  | dbClose (h : s.closer = .released) : Took s .dbClose { s with closer := .closed }

theorem took_step (s : SharedSnaps) (ev : SnapEvent) : Took s ev (s.step ev) := by
  cases ev with
  | elapse d => exact .elapse d
  | tick | newSnapshot | close | swapNil | dbClose =>
      rw [step]
      split
      · rename_i h
        constructor
        exact h
      · exact .idle _
  | stop | wait =>
      rw [step]
      split
      · rename_i h
        constructor
        · exact h.1
        · exact h.2
      · exact .idle _
  | swap =>
      rw [step]
      split
      · rename_i h
        exact .swap h
      · exact .idle _
  | afterFunc =>
      rw [step]
      split
      · rename_i h
        exact .afterFunc h
      · exact .idle _
  | fire i =>
      rw [step]
      split
      · rename_i h
        split
        · rename_i hdue
          exact .fire h hdue
        · exact .idle _
      · exact .idle _
  | closeCurrent =>
      rw [step]
      split
      · rename_i h
        exact .closeCurrent h
      · rename_i h
        exact .closeNone h
      · exact .idle _

/-- What a step does to the snapshots: it hands one on, makes one, or closes one. -/
inductive Effect (s t : SharedSnaps) : Prop
  | handed (hsnaps : t.snaps = s.snaps) (hheld : ∀ n, t.holders n = s.holders n)
  | made (hsnaps : t.snaps = s.snaps ++ [⟨0, 0⟩])
      (hheld : ∀ n, t.holders n = s.holders n + if s.snaps.length = n then 1 else 0)
  | closed (m : Nat) (hsnaps : t.snaps = (s.closeSnap m).snaps)
      (hheld : ∀ n, s.holders n = t.holders n + if m = n then 1 else 0)

theorem count_schedule (s : SharedSnaps) (old : Option Nat) (n : Nat) :
    ((s.schedule old).map Timer.snap).count n =
      (s.timers.map Timer.snap).count n + old.toList.count n := by
  cases old with
  | none => rfl
  | some m => rw [schedule, List.map_append, List.count_append]; rfl

theorem count_eraseIdx {timers : List Timer} {i : Nat} {t : Timer} (h : timers[i]? = some t)
    (n : Nat) : (timers.map Timer.snap).count n =
      ((timers.eraseIdx i).map Timer.snap).count n + if t.snap = n then 1 else 0 := by
  obtain ⟨hlt, rfl⟩ := List.getElem?_eq_some_iff.mp h
  have hperm := (List.getElem_cons_eraseIdx_perm hlt).map Timer.snap
  rw [← hperm.count_eq n, List.map_cons, List.count_cons]
  simp only [beq_iff_eq]

theorem Took.effect {s t : SharedSnaps} {ev : SnapEvent} (h : Took s ev t) : Effect s t := by
  cases h with
  | idle => exact .handed rfl fun _ => rfl
  | elapse d => exact .handed rfl fun _ => rfl
  | tick h | stop h _ =>
      refine .handed rfl fun n => ?_
      simp only [holders, h, Refresher.held]
  | newSnapshot h =>
      refine .made rfl fun n => ?_
      simp only [holders, h, Refresher.held, List.count_singleton, List.count_nil, beq_iff_eq]
      omega
  | swap h =>
      refine .handed rfl fun n => ?_
      simp only [holders, h, Refresher.held, Option.toList_some]
      omega
  | @afterFunc old h =>
      refine .handed rfl fun n => ?_
      have hcloser : (if s.closer = .opening then .running else s.closer).held = s.closer.held := by
        split
        · rename_i hopening
          rw [hopening]
          rfl
        · rfl
      simp only [holders, h, Refresher.held, List.count_nil, count_schedule, hcloser]
      omega
  | @fire i t h hdue =>
      refine .closed t.snap rfl fun n => ?_
      have hcount := count_eraseIdx h n
      simp only [holders, closeSnap]
      omega
  | close h | wait h _ | closeNone h | dbClose h =>
      refine .handed rfl fun n => ?_
      simp [holders, h, Closer.held]
  | swapNil h =>
      refine .handed rfl fun n => ?_
      simp only [holders, h, Closer.held, List.count_nil, Option.toList_none]
      omega
  | @closeCurrent m h =>
      refine .closed m rfl fun n => ?_
      simp only [holders, closeSnap, h, Closer.held, Option.toList_some, List.count_nil,
        List.count_singleton, beq_iff_eq]
      omega

/-! ## The invariant -/

structure Held (s : SharedSnaps) : Prop where
  /-- A snapshot that exists is closed or held, and that once. -/
  one : ∀ n, s.closesOf n + s.holders n = if n < s.snaps.length then 1 else 0
  exited : s.closer.past = true → s.refresher = .exited
  emptied : s.closer.emptied = true → s.sharedSnap = none
  early : s.closer ≠ .closed → ∀ x ∈ s.snaps, x.late = 0

theorem held_opening : Held opening where
  one := fun _ => rfl
  exited := fun h => Bool.noConfusion h
  emptied := fun h => Bool.noConfusion h
  early := fun _ _ hx => absurd hx List.not_mem_nil

theorem closesOf_made {s t : SharedSnaps} (h : t.snaps = s.snaps ++ [⟨0, 0⟩]) (n : Nat) :
    t.closesOf n = s.closesOf n := by
  rw [closesOf, closesOf, h, Runs.getElem?_concat]
  split
  · rename_i hn
    rw [hn, List.getElem?_eq_none (Nat.le_refl _)]
    rfl
  · rfl

theorem closesOf_closed {s t : SharedSnaps} {m : Nat} (h : t.snaps = (s.closeSnap m).snaps)
    (hm : m < s.snaps.length) (n : Nat) :
    t.closesOf n = s.closesOf n + if m = n then 1 else 0 := by
  rw [closesOf, closesOf, h, closeSnap]
  simp only [List.getElem?_modify]
  split
  · rename_i hmn
    subst hmn
    rw [List.getElem?_eq_getElem hm]
    rfl
  · simp

theorem Held.lt_length {s : SharedSnaps} (h : Held s) {n : Nat} (hn : 0 < s.holders n) :
    n < s.snaps.length := by
  have hone := h.one n
  by_contra hlt
  rw [if_neg hlt] at hone
  omega

theorem Held.one_of_effect {s t : SharedSnaps} (h : Held s) (heff : Effect s t) (n : Nat) :
    t.closesOf n + t.holders n = if n < t.snaps.length then 1 else 0 := by
  have hone := h.one n
  cases heff with
  | handed hsnaps hheld =>
      rw [hheld, closesOf, hsnaps]
      exact hone
  | made hsnaps hheld =>
      rw [closesOf_made hsnaps, hheld, hsnaps, List.length_append, List.length_singleton]
      split_ifs at hone ⊢ <;> omega
  | closed m hsnaps hheld =>
      have hm : m < s.snaps.length := by
        refine h.lt_length ?_
        rw [hheld m, if_pos rfl]
        exact Nat.succ_pos _
      have hlen : t.snaps.length = s.snaps.length := by
        rw [hsnaps, closeSnap, List.length_modify]
      rw [closesOf_closed hsnaps hm, hlen]
      have hn := hheld n
      omega

theorem Took.exited {s t : SharedSnaps} {ev : SnapEvent} (h : Took s ev t)
    (hs : s.closer.past = true → s.refresher = .exited) (ht : t.closer.past = true) :
    t.refresher = .exited := by
  cases h with
  | idle | elapse d => exact hs ht
  | tick h | newSnapshot h | swap h =>
      rw [hs ht] at h
      cases h
  | afterFunc h =>
      split at ht
      · cases ht
      · rw [hs ht] at h
        cases h
  | stop h hstop => rfl
  | fire h hdue => exact hs ht
  | close h => cases ht
  | wait h hexit => exact hexit
  | swapNil h | closeCurrent h | closeNone h | dbClose h =>
      refine hs ?_
      rw [h]
      rfl

theorem Took.emptied {s t : SharedSnaps} {ev : SnapEvent} (h : Took s ev t)
    (hexited : s.closer.past = true → s.refresher = .exited)
    (hs : s.closer.emptied = true → s.sharedSnap = none) (ht : t.closer.emptied = true) :
    t.sharedSnap = none := by
  cases h with
  | idle | elapse d => exact hs ht
  | tick h | newSnapshot h | stop h _ | fire h hdue => exact hs ht
  | swap h =>
      have hpast : s.closer.past = true := by
        revert ht
        cases s.closer <;> simp [Closer.emptied, Closer.past]
      rw [hexited hpast] at h
      cases h
  | afterFunc h =>
      split at ht
      · cases ht
      · exact hs ht
  | close h | wait h _ => cases ht
  | swapNil h => rfl
  | closeCurrent h | closeNone h | dbClose h =>
      refine hs ?_
      rw [h]
      rfl

theorem Took.closer_ne {s t : SharedSnaps} {ev : SnapEvent} (h : Took s ev t)
    (hs : s.closer ≠ .closed) (hev : ¬ (ev = .dbClose ∧ s.closer = .released)) :
    t.closer ≠ .closed := by
  cases h with
  | idle | elapse d => exact hs
  | tick h | newSnapshot h | swap h | stop h _ | fire h hdue => exact hs
  | afterFunc h =>
      show (if s.closer = .opening then Closer.running else s.closer) ≠ .closed
      split
      · simp
      · exact hs
  | close h | wait h _ | swapNil h | closeCurrent h | closeNone h => simp
  | dbClose h => exact absurd ⟨rfl, h⟩ hev

theorem Took.closer_eq {s t : SharedSnaps} {ev : SnapEvent} (h : Took s ev t)
    (hs : s.closer = .closed) : t.closer = .closed := by
  cases h with
  | idle | elapse d => exact hs
  | tick h | newSnapshot h | swap h | stop h _ | fire h hdue => exact hs
  | afterFunc h =>
      show (if s.closer = .opening then Closer.running else s.closer) = .closed
      rw [hs, if_neg (by simp)]
  | close h | wait h _ | swapNil h | closeCurrent h | closeNone h =>
      rw [hs] at h
      cases h
  | dbClose h => rfl

theorem Effect.early {s t : SharedSnaps} (h : Effect s t) (hs : s.closer ≠ .closed)
    (hearly : ∀ x ∈ s.snaps, x.late = 0) : ∀ x ∈ t.snaps, x.late = 0 := by
  cases h with
  | handed hsnaps hheld => exact hsnaps ▸ hearly
  | made hsnaps hheld =>
      rw [hsnaps]
      exact List.forall_mem_append.mpr ⟨hearly, by simp⟩
  | closed m hsnaps hheld =>
      intro x hx
      rw [hsnaps, closeSnap] at hx
      obtain ⟨n, hn⟩ := List.mem_iff_getElem?.mp hx
      rw [List.getElem?_modify, Option.map_eq_map, Option.map_eq_some_iff] at hn
      obtain ⟨y, hy, rfl⟩ := hn
      have hlate := hearly y (List.mem_of_getElem? hy)
      rw [if_neg hs, Nat.add_zero]
      split <;> exact hlate

theorem Held.step {s : SharedSnaps} (h : Held s) (ev : SnapEvent) : Held (s.step ev) := by
  have htook := took_step s ev
  refine ⟨h.one_of_effect htook.effect, htook.exited h.exited, htook.emptied h.exited h.emptied, ?_⟩
  intro ht
  have hs : s.closer ≠ .closed := fun hs => ht (htook.closer_eq hs)
  exact htook.effect.early hs (h.early hs)

theorem Held.run {s : SharedSnaps} (h : Held s) (evs : List SnapEvent) :
    Held (evs.foldl SharedSnaps.step s) :=
  evs.foldlRecOn SharedSnaps.step h fun _ hs ev _ => hs.step ev

/-! ## A clean lifecycle -/

/-- No snapshot is closed twice; and when `db.Close` has been called, every snapshot has been
closed, and none after the call. -/
structure Clean (s : SharedSnaps) : Prop where
  once : ∀ x ∈ s.snaps, x.closes ≤ 1
  done : s.closer = .closed → ∀ x ∈ s.snaps, x.closes = 1 ∧ x.late = 0

theorem closesOf_eq {s : SharedSnaps} {n : Nat} {x : Snap} (hx : s.snaps[n]? = some x) :
    s.closesOf n = x.closes := by
  rw [closesOf, hx]
  rfl

theorem Held.once {s : SharedSnaps} (h : Held s) : ∀ x ∈ s.snaps, x.closes ≤ 1 := by
  intro x hx
  obtain ⟨n, hn⟩ := List.mem_iff_getElem?.mp hx
  have hone := h.one n
  rw [closesOf_eq hn, if_pos (List.getElem?_eq_some_iff.mp hn).1] at hone
  omega

/-- When `Close` is done with the shared snapshot, what is still open is with the timers. -/
theorem Held.timers_eq_nil_iff {s : SharedSnaps} (h : Held s)
    (hs : s.closer = .released ∨ s.closer = .closed) :
    s.timers = [] ↔ ∀ x ∈ s.snaps, x.closes = 1 := by
  have hpast : s.closer.past = true ∧ s.closer.emptied = true ∧ s.closer.held = [] := by
    rcases hs with hs | hs <;> rw [hs] <;> exact ⟨rfl, rfl, rfl⟩
  have hheld : ∀ n, s.holders n = (s.timers.map Timer.snap).count n := by
    intro n
    rw [holders, h.exited hpast.1, h.emptied hpast.2.1, hpast.2.2]
    simp [Refresher.held]
  constructor
  · intro htimers x hx
    obtain ⟨n, hn⟩ := List.mem_iff_getElem?.mp hx
    have hone := h.one n
    rw [closesOf_eq hn, if_pos (List.getElem?_eq_some_iff.mp hn).1, hheld, htimers] at hone
    exact hone
  · intro hall
    by_contra hne
    obtain ⟨t, ht⟩ := List.exists_mem_of_ne_nil _ hne
    have hpos : 0 < s.holders t.snap := by
      rw [hheld]
      exact List.count_pos_iff.mpr (List.mem_map_of_mem ht)
    have hlt := h.lt_length hpos
    have hcloses : s.closesOf t.snap = 1 := by
      rw [closesOf_eq (List.getElem?_eq_getElem hlt)]
      exact hall _ (List.getElem_mem hlt)
    have hone := h.one t.snap
    rw [if_pos hlt] at hone
    omega

theorem Took.snaps_eq {s t : SharedSnaps} {ev : SnapEvent} (h : Took s ev t) (hs : Held s)
    (hclosed : s.closer = .closed) (htimers : s.timers = []) : t.snaps = s.snaps := by
  have hexited : s.refresher = .exited := hs.exited (by rw [hclosed]; rfl)
  cases h with
  | newSnapshot h =>
      rw [hexited] at h
      cases h
  | fire h hdue =>
      rw [htimers] at h
      cases h
  | closeCurrent h =>
      rw [hclosed] at h
      cases h
  | _ => rfl

theorem Clean.step_iff {s : SharedSnaps} (hs : Held s) (h : Clean s) (ev : SnapEvent) :
    Clean (s.step ev) ↔ (ev = .dbClose → s.closer = .released → s.timers = []) := by
  have htook := took_step s ev
  by_cases hclosed : s.closer = .closed
  · have htimers := (hs.timers_eq_nil_iff (Or.inr hclosed)).mpr fun x hx => (h.done hclosed x hx).1
    have hsnaps := htook.snaps_eq hs hclosed htimers
    refine ⟨fun _ _ _ => htimers, fun _ => ⟨hsnaps ▸ h.once, fun _ => hsnaps ▸ h.done hclosed⟩⟩
  · by_cases hev : ev = .dbClose ∧ s.closer = .released
    · obtain ⟨rfl, hreleased⟩ := hev
      have hall := hs.timers_eq_nil_iff (Or.inl hreleased)
      rw [step, if_pos hreleased]
      constructor
      · intro hclean _ _
        exact hall.mpr fun x hx => (hclean.done rfl x hx).1
      · intro hok
        have hdone := hall.mp (hok rfl hreleased)
        exact ⟨h.once, fun _ x hx => ⟨hdone x hx, hs.early hclosed x hx⟩⟩
    · have hne := htook.closer_ne hclosed hev
      refine ⟨fun _ heq hreleased => absurd ⟨heq, hreleased⟩ hev, fun _ => ?_⟩
      exact ⟨(hs.step ev).once, fun hdone => absurd hdone hne⟩

/-- **The lifecycle is clean exactly if every delayed close has run when `db.Close` is called.** -/
theorem clean_iff (evs : List SnapEvent) :
    (∀ s ∈ Runs.states step opening evs, Clean s) ↔
      ∀ m ∈ Runs.moves step opening evs,
        m.2 = .dbClose → m.1.closer = .released → m.1.timers = [] := by
  have hinv : ∀ s ev, Held s → Held (s.step ev) := fun s ev h => h.step ev
  have hstep : ∀ s ev, Held s → Clean s →
      (Clean (s.step ev) ↔ (ev = .dbClose → s.closer = .released → s.timers = [])) :=
    fun s ev hs h => h.step_iff hs ev
  exact Runs.holds_iff hinv hstep held_opening
    ⟨held_opening.once, fun h => by cases h⟩

/-- `Open`, one refresh, and `Close` before the timer of the first snapshot. -/
def promptClose : List SnapEvent :=
  [.newSnapshot, .swap, .afterFunc, .tick, .newSnapshot, .swap, .afterFunc, .close, .stop, .wait,
    .swapNil, .closeCurrent, .dbClose]

/-- The first snapshot is open when `db.Close` is called, and is closed after that. -/
theorem first_snapshot_left :
    (promptClose.foldl step opening).closer = .closed ∧
    (promptClose.foldl step opening).snaps = [⟨0, 0⟩, ⟨1, 0⟩] ∧
    (((promptClose.foldl step opening).step (.elapse (snapshotRefreshInterval * 2))).step
      (.fire 0)).snaps = [⟨1, 1⟩, ⟨1, 0⟩] ∧
    ¬ ∀ s ∈ Runs.states step opening promptClose, Clean s := by
  refine ⟨by decide, by decide, by decide, fun h => ?_⟩
  have hclean := h _ (Runs.foldl_mem_states promptClose opening)
  have hclosed := (hclean.done (by decide) ⟨0, 0⟩ (by decide)).1
  cases hclosed

/-! ## Timers do not fire early -/

theorem Took.kept {s t : SharedSnaps} {ev : SnapEvent} (h : Took s ev t) {tm : Timer}
    (hs : tm ∈ s.timers ∨ tm.due ≤ s.now) : tm ∈ t.timers ∨ tm.due ≤ t.now := by
  cases h with
  | elapse d => exact hs.imp_right fun hdue => Nat.le_trans hdue (Nat.le_add_right _ _)
  | @afterFunc old h =>
      refine hs.imp_left fun hmem => ?_
      cases old with
      | none => exact hmem
      | some n => exact List.mem_append_left _ hmem
  | @fire i t h hdue =>
      rcases hs with hmem | hpassed
      · obtain ⟨j, hj⟩ := List.mem_iff_getElem?.mp hmem
        by_cases hij : j = i
        · subst hij
          cases hj.symm.trans h
          exact Or.inr hdue
        · exact Or.inl (List.mem_eraseIdx_iff_getElem?.mpr ⟨j, hij, hj⟩)
      · exact Or.inr hpassed
  | _ => exact hs

/-- **A `Close` soon after a refresh is not clean.**  In between anything may happen. -/
theorem not_clean_of_recent {before between : List SnapEvent} {s t : SharedSnaps} {old : Nat}
    (hs : s = before.foldl step opening) (hold : s.refresher = .swapped (some old))
    (ht : t = between.foldl step (s.step .afterFunc)) (hclose : t.closer = .released)
    (hsoon : t.now < s.now + snapshotRefreshInterval * 2) : ¬ Clean (t.step .dbClose) := by
  have hheldBefore : Held s := hs ▸ held_opening.run before
  have hheld : Held t := ht ▸ (hheldBefore.step .afterFunc).run between
  have hpending : ⟨old, s.now + snapshotRefreshInterval * 2⟩ ∈ t.timers ∨
      s.now + snapshotRefreshInterval * 2 ≤ t.now := by
    rw [ht]
    refine between.foldlRecOn step
      (motive := fun r => (⟨old, s.now + snapshotRefreshInterval * 2⟩ : Timer) ∈ r.timers ∨
        s.now + snapshotRefreshInterval * 2 ≤ r.now) ?_ fun r hr ev _ => (took_step r ev).kept hr
    rw [step, hold]
    exact Or.inl (List.mem_append_right _ List.mem_cons_self)
  have hmem := hpending.resolve_right (Nat.not_le_of_lt hsoon)
  intro hclean
  rw [step, if_pos hclose] at hclean
  have hnone := (hheld.timers_eq_nil_iff (Or.inl hclose)).mpr fun x hx => (hclean.done rfl x hx).1
  rw [hnone] at hmem
  exact absurd hmem List.not_mem_nil

end SharedSnaps

end Pebble

end Dpx
