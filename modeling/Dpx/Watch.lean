/-
# `Dpx.Watch` — watch channels

`watcherMap` of `watch.go`: `register`, the goroutine that removes a channel, `closeAll` and
`notify`.  A section under `mu.Lock` is one step and waits until no `notify` holds the read
lock; a `notify` reads the map once and then loads and sends to one channel after the other,
with the other parties in between.

The lists in the map are slices, and a removal shifts the later elements within the backing
array.  `Registry` has the map and the arrays: distinct prefixes have distinct arrays, so that
a section under the lock is a list operation on one prefix (`shown_add`, `shown_remove`).

The list of a prefix has, at any time, the channels of its registrations that were not removed
yet, in their order (`Watched`).  A goroutine closes its channel after it has removed it, and a
`notify` sends only to channels it finds in the map, which does not change while it runs; so a
channel is never used after it was closed, nor closed twice (`channels_safe`).

`NotifyBatch` is a `notify` for each write, or nothing at all.  The telemetry is left out.
-/
import Mathlib.Data.List.Nodup
import Dpx.Lib.Runs
import Dpx.Lib.Slices
import Dpx.Engine.Interface

namespace Dpx

open Slices (Heap Slice Fits elems)

/-! ## The map and its arrays -/

/-- A channel is known by its number. -/
structure Registry where
  heap : Heap Nat
  watches : GoMap Slice

namespace Registry

def empty : Registry := ⟨[], ∅⟩

/-- `w.watches[prefix]` -/
def slice (r : Registry) (pfx : Key) : Slice := (r.watches[pfx]?).getD .nil

/-- The channels of a prefix. -/
def shown (r : Registry) (pfx : Key) : List Nat := elems r.heap (r.slice pfx)

/-- The map after an `append` to `s` was stored under the prefix. -/
def store (r : Registry) (pfx : Key) (s : Slice) (vs : List Nat) (room : Nat) : Registry :=
  let (heap, s) := Slices.append r.heap s vs room
  ⟨heap, r.watches.insert pfx s⟩

/-- `w.watches[prefix] = append(w.watches[prefix], ch)` -/
def add (r : Registry) (pfx : Key) (ch room : Nat) : Registry :=
  r.store pfx (r.slice pfx) [ch] room

/-- `w.watches[prefix] = append(arr[:i], arr[i+1:]...)` where `ch` is at `i`. -/
def cut (r : Registry) (pfx : Key) (ch room : Nat) : Registry :=
  let arr := r.slice pfx
  match (elems r.heap arr).idxOf? ch with
  | some i => r.store pfx (arr.upTo i) (elems r.heap (arr.since (i + 1))) room
  | none => r

/-- The removal, under the lock. -/
def remove (r : Registry) (pfx : Key) (ch room : Nat) : Registry :=
  let r := r.cut pfx ch room
  if (r.slice pfx).len = 0 then { r with watches := r.watches.erase pfx } else r

structure Ok (r : Registry) : Prop where
  fits : ∀ (pfx : Key) (s : Slice), r.watches[pfx]? = some s → Fits r.heap s ∧ 0 < s.cap
  apart : ∀ (p q : Key) (s t : Slice), r.watches[p]? = some s → r.watches[q]? = some t →
    s.arr = t.arr → p = q

/-- No prefix maps to an empty list. -/
def Full (r : Registry) : Prop :=
  ∀ (pfx : Key) (s : Slice), r.watches[pfx]? = some s → 0 < s.len

theorem Ok.arr_lt {r : Registry} (h : Ok r) {pfx : Key} {s : Slice}
    (hs : r.watches[pfx]? = some s) : s.arr < r.heap.length := by
  obtain ⟨hfits, hcap⟩ := h.fits pfx s hs
  exact hfits.array.resolve_left (Nat.ne_of_gt hcap)

theorem Ok.fits_slice {r : Registry} (h : Ok r) (pfx : Key) : Fits r.heap (r.slice pfx) := by
  rw [slice]
  cases hs : r.watches[pfx]? with
  | none => exact Slices.fits_nil _
  | some s => exact (h.fits pfx s hs).1

theorem ok_empty : Ok empty where
  fits := fun pfx s hs => by
    rw [empty, Std.ExtTreeMap.getElem?_empty] at hs
    cases hs
  apart := fun p q s t hs => by
    rw [empty, Std.ExtTreeMap.getElem?_empty] at hs
    cases hs

/-! ### Storing a slice -/

theorem watches_store (r : Registry) (pfx q : Key) (s : Slice) (vs : List Nat) (room : Nat) :
    (r.store pfx s vs room).watches[q]? =
      if pfx = q then some (Slices.append r.heap s vs room).2 else r.watches[q]? := by
  simp only [store, Std.ExtTreeMap.getElem?_insert, Std.LawfulEqOrd.compare_eq_iff_eq]

section

variable {r : Registry} {pfx : Key} {s : Slice} {vs : List Nat}
  (h : Ok r) (hs : Fits r.heap s) (hpos : 0 < s.cap ∨ vs ≠ [])
  -- where the capacity lasts, the array is of no other prefix
  (hown : s.len + vs.length ≤ s.cap →
    ∀ (q : Key) (t : Slice), r.watches[q]? = some t → pfx ≠ q → s.arr ≠ t.arr)

include h hs hpos hown

theorem Ok.store (room : Nat) : Ok (r.store pfx s vs room) where
  fits := by
    intro q t ht
    rw [watches_store] at ht
    split at ht
    · cases ht
      exact ⟨hs.append vs room, Slices.cap_append_pos hpos r.heap room⟩
    · rename_i hne
      obtain ⟨hfits, hcap⟩ := h.fits q t ht
      exact ⟨hfits.append_of_ne (h.arr_lt ht) (fun hlast => hown hlast q t ht hne) room, hcap⟩
  apart := by
    have hnew : ∀ (q : Key) (t : Slice), r.watches[q]? = some t → pfx ≠ q →
        (Slices.append r.heap s vs room).2.arr ≠ t.arr := by
      intro q t ht hne
      rcases Slices.append_arr r.heap s vs room with ⟨hlast, harr⟩ | harr
      · rw [harr]
        exact hown hlast q t ht hne
      · rw [harr]
        exact Nat.ne_of_gt (h.arr_lt ht)
    intro p q t u ht hu harr
    rw [watches_store] at ht hu
    split at ht
    · rename_i hp
      split at hu
      · rename_i hq
        exact hp.symm.trans hq
      · rename_i hq
        cases ht
        exact absurd harr (hnew q u hu hq)
    · rename_i hp
      split at hu
      · cases hu
        exact absurd harr.symm (hnew p t ht hp)
      · exact h.apart p q t u ht hu harr

omit hpos in
theorem shown_store (q : Key) (room : Nat) : (r.store pfx s vs room).shown q =
    if pfx = q then elems r.heap s ++ vs else r.shown q := by
  rw [shown, slice, watches_store]
  split
  · exact Slices.elems_append hs vs room
  · rename_i hne
    rw [shown, slice]
    cases ht : r.watches[q]? with
    | none => rfl
    | some t =>
        exact Slices.elems_append_of_ne (h.arr_lt ht) (fun hlast => hown hlast q t ht hne) room

end

/-! ### Adding and removing -/

theorem Ok.slice_apart {r : Registry} (h : Ok r) {pfx q : Key} {t : Slice}
    (hcap : 0 < (r.slice pfx).cap) (ht : r.watches[q]? = some t) (hne : pfx ≠ q) :
    (r.slice pfx).arr ≠ t.arr := by
  rw [slice] at hcap ⊢
  cases hs : r.watches[pfx]? with
  | none =>
      rw [hs] at hcap
      exact absurd hcap (Nat.lt_irrefl 0)
  | some s => exact fun harr => hne (h.apart pfx q s t hs ht harr)

theorem Ok.add {r : Registry} (h : Ok r) (pfx : Key) (ch room : Nat) : Ok (r.add pfx ch room) := by
  refine h.store (h.fits_slice pfx) (Or.inr (List.cons_ne_nil ch [])) (fun hlast q t => ?_) room
  exact h.slice_apart (Nat.lt_of_lt_of_le (Nat.succ_pos _) hlast)

theorem shown_add {r : Registry} (h : Ok r) (pfx : Key) (ch room : Nat) (q : Key) :
    (r.add pfx ch room).shown q = if pfx = q then r.shown pfx ++ [ch] else r.shown q := by
  refine shown_store h (h.fits_slice pfx) (fun hlast q t => ?_) q room
  exact h.slice_apart (Nat.lt_of_lt_of_le (Nat.succ_pos _) hlast)

theorem Ok.lt_len {r : Registry} (h : Ok r) {pfx : Key} {ch i : Nat}
    (hi : (elems r.heap (r.slice pfx)).idxOf? ch = some i) : i < (r.slice pfx).len := by
  obtain ⟨hlt, -⟩ := List.idxOf?_eq_some_iff.mp hi
  rw [(h.fits_slice pfx).length_elems] at hlt
  exact hlt

theorem Ok.cut {r : Registry} (h : Ok r) (pfx : Key) (ch room : Nat) : Ok (r.cut pfx ch room) := by
  rw [Registry.cut]
  split
  · rename_i i hi
    have hlt := h.lt_len hi
    have hfits := h.fits_slice pfx
    have hcap : 0 < (r.slice pfx).cap :=
      Nat.lt_of_lt_of_le (Nat.zero_lt_of_lt hlt) hfits.len_le
    exact h.store (hfits.upTo (Nat.le_of_lt hlt)) (Or.inl hcap)
      (fun _ q t ht hne => h.slice_apart hcap ht hne) room
  · exact h

theorem shown_cut {r : Registry} (h : Ok r) (pfx : Key) (ch room : Nat) (q : Key) :
    (r.cut pfx ch room).shown q = if pfx = q then (r.shown pfx).erase ch else r.shown q := by
  rw [cut]
  cases hi : (elems r.heap (r.slice pfx)).idxOf? ch with
  | none =>
      have herase : (r.shown pfx).erase ch = r.shown pfx :=
        List.erase_of_not_mem (List.idxOf?_eq_none_iff.mp hi)
      rw [herase]
      simp only
      split
      · rename_i hpq
        rw [hpq]
      · rfl
  | some i =>
      have hlt := h.lt_len hi
      have hfits := h.fits_slice pfx
      have hcap : 0 < (r.slice pfx).cap :=
        Nat.lt_of_lt_of_le (Nat.zero_lt_of_lt hlt) hfits.len_le
      have herase : (r.shown pfx).erase ch = (r.shown pfx).eraseIdx i := by
        rw [List.erase_eq_eraseIdx, shown, hi]
      rw [herase]
      simp only
      rw [shown_store h (hfits.upTo (Nat.le_of_lt hlt))
        (fun _ q t ht hne => h.slice_apart hcap ht hne), Slices.elems_upTo_append_since r.heap hlt]
      rfl

theorem watches_erase (r : Registry) (pfx q : Key) :
    (r.watches.erase pfx)[q]? = if pfx = q then none else r.watches[q]? := by
  simp only [Std.ExtTreeMap.getElem?_erase, Std.LawfulEqOrd.compare_eq_iff_eq]

theorem shown_erase {r : Registry} {pfx : Key} (hlen : (r.slice pfx).len = 0) (q : Key) :
    shown { r with watches := r.watches.erase pfx } q = r.shown q := by
  have hnone : r.shown pfx = [] := by
    rw [shown, elems, hlen, List.take_zero]
  rw [shown, slice]
  simp only [watches_erase]
  split
  · rename_i hpq
    rw [← hpq, hnone]
    exact Slices.elems_nil r.heap
  · rfl

theorem Ok.remove {r : Registry} (h : Ok r) (pfx : Key) (ch room : Nat) :
    Ok (r.remove pfx ch room) := by
  have hcut := h.cut pfx ch room
  have hold : ∀ {q : Key} {s : Slice}, ((r.cut pfx ch room).watches.erase pfx)[q]? = some s →
      (r.cut pfx ch room).watches[q]? = some s := by
    intro q s hs
    rw [watches_erase] at hs
    split at hs
    · cases hs
    · exact hs
  rw [Registry.remove]
  split
  · exact ⟨fun q s hs => hcut.fits q s (hold hs),
      fun p q s t hs ht => hcut.apart p q s t (hold hs) (hold ht)⟩
  · exact hcut

theorem shown_remove {r : Registry} (h : Ok r) (pfx : Key) (ch room : Nat) (q : Key) :
    (r.remove pfx ch room).shown q = if pfx = q then (r.shown pfx).erase ch else r.shown q := by
  rw [← shown_cut h pfx ch room q, remove]
  split
  · rename_i hlen
    exact shown_erase hlen q
  · rfl

/-! ### No empty lists -/

theorem Full.add {r : Registry} (h : Full r) (hok : Ok r) (pfx : Key) (ch room : Nat) :
    Full (r.add pfx ch room) := by
  intro q s hs
  obtain ⟨hfits, -⟩ := (hok.add pfx ch room).fits q s hs
  rw [Registry.add, watches_store] at hs
  split at hs
  · cases hs
    rw [← hfits.length_elems]
    show 0 < (elems (Slices.append r.heap (r.slice pfx) [ch] room).1 _).length
    rw [Slices.elems_append (hok.fits_slice pfx), List.length_append]
    exact Nat.succ_pos _
  · exact h q s hs

theorem watches_cut_of_ne (r : Registry) {pfx q : Key} (hne : pfx ≠ q) (ch room : Nat) :
    (r.cut pfx ch room).watches[q]? = r.watches[q]? := by
  rw [cut]
  split
  · rw [watches_store, if_neg hne]
  · rfl

theorem Full.remove {r : Registry} (h : Full r) (pfx : Key) (ch room : Nat) :
    Full (r.remove pfx ch room) := by
  intro q s
  rw [Registry.remove]
  split
  · intro hs
    rw [watches_erase] at hs
    split at hs
    · cases hs
    · rename_i hne
      rw [watches_cut_of_ne r hne] at hs
      exact h q s hs
  · rename_i hlen
    intro hs
    by_cases hpq : pfx = q
    · subst hpq
      rw [slice, hs] at hlen
      exact Nat.pos_of_ne_zero hlen
    · rw [watches_cut_of_ne r hpq] at hs
      exact h q s hs

end Registry

/-! ## The parties -/

def watchChanBuf : Nat := 256

/-- Where a call of `register` is, and then the goroutine it starts. -/
inductive WatchPhase where
  /-- the map was closed, and the channel is about to be -/
  | refused
  | turnedAway
  /-- at the select of the goroutine -/
  | waiting
  /-- about to take the lock -/
  | woken
  /-- removed, and the channel is about to be closed -/
  | removed
  | ended
  deriving DecidableEq, Repr

/-- The channel is in the map. -/
def WatchPhase.registered : WatchPhase → Bool
  | .waiting | .woken => true
  | .refused | .turnedAway | .removed | .ended => false

/-- How often the channel has been closed. -/
def WatchPhase.closes : WatchPhase → Nat
  | .turnedAway | .ended => 1
  | .refused | .waiting | .woken | .removed => 0

/-- A call of `register` with the channel it made. -/
structure Watch where
  ctx : Nat
  pfx : Key
  phase : WatchPhase
  buffered : Nat
  closes : Nat
  deriving DecidableEq, Repr

/-- Where a call of `closeAll` is. -/
inductive ClosePhase where
  | marked
  | returned
  deriving DecidableEq, Repr

/-- Where a call of `notify` is: in the loop over the map, with the prefixes still to come, or
in the loop over the channels of one of them. -/
inductive NotifyPhase where
  | ranging (key : Key) (metrics : Bool) (todo : List Key)
  | sending (key : Key) (metrics : Bool) (todo : List Key) (chans : Slice) (i : Nat)
  | returned
  deriving DecidableEq, Repr

/-- The read lock is held. -/
def NotifyPhase.reading : NotifyPhase → Bool
  | .ranging _ _ _ | .sending _ _ _ _ _ => true
  | .returned => false

/-- `watchDropped` is the number of increments of the source's atomic counter; the word itself
starts over at `2^64`. -/
structure WatcherMap where
  registry : Registry
  done : Bool
  closed : Bool
  ctxDone : Nat → Bool
  watchers : List Watch
  closers : List ClosePhase
  notifiers : List NotifyPhase
  watchDropped : Nat
  panicked : Bool

/-- `room` is how much a grown slice has to spare; `range` picks the next prefix, as the order
of a map is anyone's. -/
inductive WatchEvent where
  | register (ctx : Nat) (pfx : Key) (room : Nat)
  | refuse (n : Nat)
  | cancel (ctx : Nat)
  | wake (n : Nat)
  | remove (n room : Nat)
  | close (n : Nat)
  | closeAll
  | closeDone (n : Nat)
  | notify (key : Key) (metrics : Bool)
  | range (n i : Nat)
  | send (n : Nat)
  | unlock (n : Nat)
  | receive (ch : Nat)

namespace WatcherMap

def new : WatcherMap := ⟨.empty, false, false, fun _ => false, [], [], [], 0, false⟩

/-- A `notify` holds the read lock. -/
def readLocked (w : WatcherMap) : Bool := w.notifiers.any NotifyPhase.reading

def setWatch (w : WatcherMap) (n : Nat) (x : Watch) : WatcherMap :=
  { w with watchers := w.watchers.set n x }

/-- `close(ch)` of the channel of watcher `n`, which then is at `phase`. -/
def closeChan (w : WatcherMap) (n : Nat) (x : Watch) (phase : WatchPhase) : WatcherMap :=
  if x.closes = 0 then w.setWatch n { x with phase := phase, closes := x.closes + 1 }
  else { w with panicked := true }

def setNotify (w : WatcherMap) (n : Nat) (phase : NotifyPhase) : WatcherMap :=
  { w with notifiers := w.notifiers.set n phase }

/-- The select with a send and a default. -/
def trySend (w : WatcherMap) (ch : Nat) (metrics : Bool) : WatcherMap :=
  match w.watchers[ch]? with
  | none => w
  | some x =>
      if x.closes ≠ 0 then { w with panicked := true }
      else if x.buffered < watchChanBuf then w.setWatch ch { x with buffered := x.buffered + 1 }
      else if metrics then { w with watchDropped := w.watchDropped + 1 }
      else w

/-- One atomic step; an event that is not enabled does nothing. -/
def step (w : WatcherMap) : WatchEvent → WatcherMap
  | .register ctx pfx room =>
      if w.readLocked then w
      else if w.closed then { w with watchers := w.watchers ++ [⟨ctx, pfx, .refused, 0, 0⟩] }
      else
        { w with
          registry := w.registry.add pfx w.watchers.length room
          watchers := w.watchers ++ [⟨ctx, pfx, .waiting, 0, 0⟩] }
  | .refuse n =>
      match w.watchers[n]? with
      | some x => if x.phase = .refused then w.closeChan n x .turnedAway else w
      | none => w
  | .cancel ctx => { w with ctxDone := Function.update w.ctxDone ctx true }
  | .wake n =>
      match w.watchers[n]? with
      | some x =>
          if x.phase = .waiting ∧ (w.ctxDone x.ctx ∨ w.done) then
            w.setWatch n { x with phase := .woken }
          else w
      | none => w
  | .remove n room =>
      match w.watchers[n]? with
      | some x =>
          if x.phase = .woken ∧ w.readLocked = false then
            setWatch { w with registry := w.registry.remove x.pfx n room } n
              { x with phase := .removed }
          else w
      | none => w
  | .close n =>
      match w.watchers[n]? with
      | some x => if x.phase = .removed then w.closeChan n x .ended else w
      | none => w
  | .closeAll =>
      if w.readLocked then w
      else if w.closed then { w with closers := w.closers ++ [.returned] }
      else { w with closed := true, closers := w.closers ++ [.marked] }
  | .closeDone n =>
      match w.closers[n]? with
      | some .marked =>
          if w.done then { w with panicked := true }
          else { w with done := true, closers := w.closers.set n .returned }
      | _ => w
  | .notify key metrics =>
      if w.closed then { w with notifiers := w.notifiers ++ [.returned] }
      else
        { w with notifiers := w.notifiers ++ [.ranging key metrics w.registry.watches.keys] }
  | .range n i =>
      match w.notifiers[n]? with
      | some (.ranging key metrics todo) =>
          match todo[i]? with
          | some pfx =>
              if pfx.isPrefixOf key then
                w.setNotify n (.sending key metrics (todo.eraseIdx i) (w.registry.slice pfx) 0)
              else w.setNotify n (.ranging key metrics (todo.eraseIdx i))
          | none => w
      | _ => w
  | .send n =>
      match w.notifiers[n]? with
      | some (.sending key metrics todo chans i) =>
          match (elems w.registry.heap chans)[i]? with
          | some ch =>
              (w.trySend ch metrics).setNotify n (.sending key metrics todo chans (i + 1))
          | none => w.setNotify n (.ranging key metrics todo)
      | _ => w
  | .unlock n =>
      match w.notifiers[n]? with
      | some (.ranging _ _ []) => w.setNotify n .returned
      | _ => w
  | .receive ch =>
      match w.watchers[ch]? with
      | some x => w.setWatch ch { x with buffered := x.buffered - 1 }
      | none => w

def run (w : WatcherMap) (evs : List WatchEvent) : WatcherMap := evs.foldl step w

/-! ## The channels that are registered -/

/-- The channels of a prefix that have been registered and not removed, oldest first. -/
def listed (watchers : List Watch) (pfx : Key) : List Nat :=
  (List.range watchers.length).filter fun n =>
    watchers[n]?.any fun x => x.phase.registered && x.pfx = pfx

theorem mem_listed {watchers : List Watch} {pfx : Key} {n : Nat} :
    n ∈ listed watchers pfx ↔
      ∃ x, watchers[n]? = some x ∧ x.phase.registered = true ∧ x.pfx = pfx := by
  rw [listed, List.mem_filter, List.mem_range, Option.any_eq_true]
  simp only [Bool.and_eq_true, decide_eq_true_eq]
  constructor
  · rintro ⟨-, x, hx, hreg⟩
    exact ⟨x, hx, hreg⟩
  · rintro ⟨x, hx, hreg⟩
    obtain ⟨hlt, -⟩ := List.getElem?_eq_some_iff.mp hx
    exact ⟨hlt, x, hx, hreg⟩

theorem nodup_listed (watchers : List Watch) (pfx : Key) : (listed watchers pfx).Nodup :=
  List.nodup_range.filter _

theorem listed_concat (watchers : List Watch) (x : Watch) (pfx : Key) :
    listed (watchers ++ [x]) pfx = listed watchers pfx ++
      if x.phase.registered && x.pfx = pfx then [watchers.length] else [] := by
  rw [listed, List.length_append, List.length_singleton, List.range_succ, List.filter_append]
  congr 1
  · refine List.filter_congr fun n hn => ?_
    rw [List.getElem?_append_left (List.mem_range.mp hn)]
  · rw [List.filter_singleton, List.getElem?_concat_length, Option.any_some, Bool.cond_eq_ite]

theorem listed_set {watchers : List Watch} {n : Nat} {x y : Watch} (hn : watchers[n]? = some x)
    (hpfx : y.pfx = x.pfx) (hreg : y.phase.registered = x.phase.registered) (pfx : Key) :
    listed (watchers.set n y) pfx = listed watchers pfx := by
  obtain ⟨hlt, -⟩ := List.getElem?_eq_some_iff.mp hn
  rw [listed, List.length_set]
  refine List.filter_congr fun m _ => ?_
  by_cases hnm : n = m
  · subst hnm
    rw [List.getElem?_set_self hlt, hn, Option.any_some, Option.any_some, hpfx, hreg]
  · rw [List.getElem?_set_ne hnm]

theorem listed_set_removed {watchers : List Watch} {n : Nat} {y : Watch}
    (hlt : n < watchers.length) (hreg : y.phase.registered = false) (pfx : Key) :
    listed (watchers.set n y) pfx = (listed watchers pfx).erase n := by
  rw [(nodup_listed watchers pfx).erase_eq_filter, listed, listed, List.filter_filter,
    List.length_set]
  refine List.filter_congr fun m _ => ?_
  by_cases hnm : n = m
  · subst hnm
    rw [List.getElem?_set_self hlt, Option.any_some, hreg, bne_self_eq_false]
    rfl
  · rw [List.getElem?_set_ne hnm, bne_iff_ne.mpr (Ne.symm hnm), Bool.true_and]

/-! ## The invariant -/

/-- `done` is closed by the one call that marked the map closed. -/
structure Closing (closers : List ClosePhase) (closed done : Bool) : Prop where
  one : ∀ m n : Nat, closers[m]? = some .marked → closers[n]? = some .marked → m = n
  marked : .marked ∈ closers → closed = true
  undone : closed = false ∨ .marked ∈ closers → done = false

structure Watched (w : WatcherMap) : Prop where
  ok : w.registry.Ok
  full : w.registry.Full
  shown : ∀ pfx, w.registry.shown pfx = listed w.watchers pfx
  closes : ∀ x ∈ w.watchers, x.closes = x.phase.closes
  sending : ∀ key metrics todo chans i, .sending key metrics todo chans i ∈ w.notifiers →
    ∃ pfx, chans = w.registry.slice pfx
  closing : Closing w.closers w.closed w.done
  calm : w.panicked = false

theorem watched_new : Watched new where
  ok := Registry.ok_empty
  full := fun pfx s hs => by
    rw [new, Registry.empty, Std.ExtTreeMap.getElem?_empty] at hs
    cases hs
  shown := fun pfx => Slices.elems_nil []
  closes := fun _ hx => absurd hx List.not_mem_nil
  sending := fun _ _ _ _ _ hc => absurd hc List.not_mem_nil
  closing := ⟨(fun _ _ hm => nomatch hm), fun hm => absurd hm List.not_mem_nil, fun _ => rfl⟩
  calm := rfl

theorem Watched.isOpen {w : WatcherMap} (h : Watched w) {pfx : Key} {ch : Nat}
    (hch : ch ∈ w.registry.shown pfx) : ∃ x, w.watchers[ch]? = some x ∧ x.closes = 0 := by
  rw [h.shown, mem_listed] at hch
  obtain ⟨x, hx, hreg, -⟩ := hch
  refine ⟨x, hx, ?_⟩
  rw [h.closes x (List.mem_of_getElem? hx)]
  revert hreg
  cases x.phase with
  | waiting | woken => exact fun _ => rfl
  | refused | turnedAway | removed | ended => exact fun hreg => Bool.noConfusion hreg

/-- Under the write lock no `notify` has a slice in its hands. -/
theorem not_sending {w : WatcherMap} (hlock : w.readLocked = false) {key : Key} {metrics : Bool}
    {todo : List Key} {chans : Slice} {i : Nat} :
    .sending key metrics todo chans i ∉ w.notifiers := by
  intro hmem
  exact absurd rfl (List.any_eq_false.mp hlock _ hmem)

/-! ### Steps of the watchers -/

theorem Watched.setWatch {w : WatcherMap} (h : Watched w) {n : Nat} {x y : Watch}
    (hn : w.watchers[n]? = some x) (hpfx : y.pfx = x.pfx)
    (hreg : y.phase.registered = x.phase.registered) (hcloses : y.closes = y.phase.closes) :
    Watched (w.setWatch n y) where
  ok := h.ok
  full := h.full
  shown := fun pfx => (h.shown pfx).trans (listed_set hn hpfx hreg pfx).symm
  closes := Runs.forall_mem_set h.closes hcloses
  sending := h.sending
  closing := h.closing
  calm := h.calm

theorem Watched.closeChan {w : WatcherMap} (h : Watched w) {n : Nat} {x : Watch}
    (hn : w.watchers[n]? = some x) {phase : WatchPhase} (hclosed : x.phase.closes = 0)
    (hreg : phase.registered = x.phase.registered) (hcloses : phase.closes = 1) :
    Watched (w.closeChan n x phase) := by
  have hzero : x.closes = 0 := (h.closes x (List.mem_of_getElem? hn)).trans hclosed
  rw [WatcherMap.closeChan, if_pos hzero]
  refine h.setWatch hn rfl hreg ?_
  rw [hzero, hcloses]

theorem Watched.refused {w : WatcherMap} (h : Watched w) (ctx : Nat) (pfx : Key) :
    Watched { w with watchers := w.watchers ++ [⟨ctx, pfx, .refused, 0, 0⟩] } where
  ok := h.ok
  full := h.full
  shown := by
    intro q
    rw [h.shown, listed_concat]
    exact (List.append_nil _).symm
  closes := by
    intro x hx
    rcases List.mem_append.mp hx with hx | hx
    · exact h.closes x hx
    · rw [List.mem_singleton.mp hx]
      rfl
  sending := h.sending
  closing := h.closing
  calm := h.calm

theorem Watched.register {w : WatcherMap} (h : Watched w) (hlock : w.readLocked = false)
    (ctx : Nat) (pfx : Key) (room : Nat) :
    Watched { w with
      registry := w.registry.add pfx w.watchers.length room
      watchers := w.watchers ++ [⟨ctx, pfx, .waiting, 0, 0⟩] } where
  ok := h.ok.add pfx _ room
  full := h.full.add h.ok pfx _ room
  shown := by
    intro q
    rw [Registry.shown_add h.ok, listed_concat, h.shown, h.shown]
    by_cases hpq : pfx = q
    · subst hpq
      simp [WatchPhase.registered]
    · simp [hpq]
  closes := by
    intro x hx
    rcases List.mem_append.mp hx with hx | hx
    · exact h.closes x hx
    · rw [List.mem_singleton.mp hx]
      rfl
  sending := fun _ _ _ _ _ hmem => absurd hmem (not_sending hlock)
  closing := h.closing
  calm := h.calm

theorem Watched.remove {w : WatcherMap} (h : Watched w) {n : Nat} {x : Watch}
    (hn : w.watchers[n]? = some x) (hphase : x.phase = .woken) (hlock : w.readLocked = false)
    (room : Nat) :
    Watched (WatcherMap.setWatch { w with registry := w.registry.remove x.pfx n room } n
      { x with phase := .removed }) where
  ok := h.ok.remove x.pfx n room
  full := h.full.remove x.pfx n room
  shown := by
    intro q
    obtain ⟨hlt, -⟩ := List.getElem?_eq_some_iff.mp hn
    show (w.registry.remove x.pfx n room).shown q = listed (w.watchers.set n _) q
    rw [Registry.shown_remove h.ok, listed_set_removed hlt rfl, h.shown, h.shown]
    split
    · rename_i hpq
      rw [hpq]
    · rename_i hpq
      -- the channel is under its own prefix only
      refine (List.erase_of_not_mem fun hmem => ?_).symm
      obtain ⟨y, hy, -, hpfx⟩ := mem_listed.mp hmem
      cases hn.symm.trans hy
      exact hpq hpfx
  closes := by
    refine Runs.forall_mem_set h.closes ?_
    exact (h.closes x (List.mem_of_getElem? hn)).trans (by rw [hphase]; rfl)
  sending := fun _ _ _ _ _ hmem => absurd hmem (not_sending hlock)
  closing := h.closing
  calm := h.calm

/-! ### Steps of the notifiers -/

theorem Watched.setNotify {w : WatcherMap} (h : Watched w) (n : Nat) {phase : NotifyPhase}
    (hphase : ∀ key metrics todo chans i, phase = .sending key metrics todo chans i →
      ∃ pfx, chans = w.registry.slice pfx) : Watched (w.setNotify n phase) where
  ok := h.ok
  full := h.full
  shown := h.shown
  closes := h.closes
  sending := by
    intro key metrics todo chans i hmem
    rcases List.mem_or_eq_of_mem_set hmem with hold | hnew
    · exact h.sending key metrics todo chans i hold
    · exact hphase key metrics todo chans i hnew.symm
  closing := h.closing
  calm := h.calm

theorem Watched.trySend {w : WatcherMap} (h : Watched w) {pfx : Key} {ch : Nat}
    (hch : ch ∈ w.registry.shown pfx) (metrics : Bool) : Watched (w.trySend ch metrics) := by
  obtain ⟨x, hx, hopen⟩ := h.isOpen hch
  rw [WatcherMap.trySend, hx]
  simp only
  rw [if_neg (not_not_intro hopen)]
  split
  · exact h.setWatch hx rfl rfl (h.closes x (List.mem_of_getElem? hx))
  · split
    · exact ⟨h.ok, h.full, h.shown, h.closes, h.sending, h.closing, h.calm⟩
    · exact h

theorem registry_trySend (w : WatcherMap) (ch : Nat) (metrics : Bool) :
    (w.trySend ch metrics).registry = w.registry := by
  rw [trySend]
  split
  · rfl
  · split
    · rfl
    · split
      · rfl
      · split <;> rfl

theorem Watched.send {w : WatcherMap} (h : Watched w) (n : Nat) : Watched (w.step (.send n)) := by
  rw [WatcherMap.step]
  split
  · rename_i key metrics todo chans i hn
    obtain ⟨pfx, hchans⟩ := h.sending key metrics todo chans i (List.mem_of_getElem? hn)
    split
    · rename_i ch hch
      have hshown : ch ∈ w.registry.shown pfx := by
        rw [Registry.shown, ← hchans]
        exact List.mem_of_getElem? hch
      refine (h.trySend hshown metrics).setNotify n fun _ _ _ chans' _ heq => ⟨pfx, ?_⟩
      cases heq
      rw [registry_trySend]
      exact hchans
    · exact h.setNotify n fun _ _ _ _ _ heq => nomatch heq
  · exact h

/-! ### Every step -/

theorem Watched.notify {w : WatcherMap} (h : Watched w) {phase : NotifyPhase}
    (hphase : ∀ key metrics todo chans i, phase ≠ .sending key metrics todo chans i) :
    Watched { w with notifiers := w.notifiers ++ [phase] } where
  ok := h.ok
  full := h.full
  shown := h.shown
  closes := h.closes
  sending := by
    intro key metrics todo chans i hmem
    rcases List.mem_append.mp hmem with hold | hnew
    · exact h.sending key metrics todo chans i hold
    · exact absurd (List.mem_singleton.mp hnew).symm (hphase key metrics todo chans i)
  closing := h.closing
  calm := h.calm

theorem Closing.mark {closers : List ClosePhase} {done : Bool} (h : Closing closers false done) :
    Closing (closers ++ [.marked]) true done where
  one := by
    have hnone : .marked ∉ closers := fun hmem => Bool.noConfusion (h.marked hmem)
    intro m n hm hn
    exact Runs.unique_concat (f := fun _ : Unit => ClosePhase.marked) (fun m n _ _ => h.one m n)
      (fun _ _ _ => hnone) m n () () hm hn
  marked := fun _ => rfl
  undone := fun _ => h.undone (Or.inl rfl)

theorem Closing.returned {closers : List ClosePhase} {closed done : Bool}
    (h : Closing closers closed done) : Closing (closers ++ [.returned]) closed done where
  one := by
    intro m n hm hn
    rcases Runs.getElem?_concat_cases hm with ⟨-, heq⟩ | ⟨-, hm⟩
    · cases heq
    · rcases Runs.getElem?_concat_cases hn with ⟨-, heq⟩ | ⟨-, hn⟩
      · cases heq
      · exact h.one m n hm hn
  marked := by
    intro hmem
    rcases List.mem_append.mp hmem with hmem | hmem
    · exact h.marked hmem
    · cases List.mem_singleton.mp hmem
  undone := by
    rintro (hclosed | hmem)
    · exact h.undone (Or.inl hclosed)
    · rcases List.mem_append.mp hmem with hmem | hmem
      · exact h.undone (Or.inr hmem)
      · cases List.mem_singleton.mp hmem

theorem Closing.close {closers : List ClosePhase} {closed done : Bool}
    (h : Closing closers closed done) {n : Nat} (hn : closers[n]? = some .marked) :
    Closing (closers.set n .returned) closed true := by
  have hnone : .marked ∉ closers.set n .returned := by
    intro hmem
    obtain ⟨m, hm⟩ := List.mem_iff_getElem?.mp hmem
    rcases Runs.getElem?_set_cases hm with ⟨-, heq⟩ | ⟨hne, hm⟩
    · cases heq
    · exact hne (h.one m n hm hn)
  refine ⟨fun m _ hm => absurd (List.mem_of_getElem? hm) hnone, fun hmem => absurd hmem hnone, ?_⟩
  rintro (hclosed | hmem)
  · rw [h.marked (List.mem_of_getElem? hn)] at hclosed
    exact Bool.noConfusion hclosed
  · exact absurd hmem hnone

theorem Watched.closeAll {w : WatcherMap} (h : Watched w) : Watched (w.step .closeAll) := by
  rw [WatcherMap.step]
  split
  · exact h
  · split
    · exact ⟨h.ok, h.full, h.shown, h.closes, h.sending, h.closing.returned, h.calm⟩
    · rename_i hclosed
      have hclosing := h.closing
      rw [Bool.eq_false_of_not_eq_true hclosed] at hclosing
      exact ⟨h.ok, h.full, h.shown, h.closes, h.sending, hclosing.mark, h.calm⟩

theorem Watched.closeDone {w : WatcherMap} (h : Watched w) (n : Nat) :
    Watched (w.step (.closeDone n)) := by
  rw [WatcherMap.step]
  split
  · rename_i hn
    have hdone := h.closing.undone (Or.inr (List.mem_of_getElem? hn))
    rw [if_neg (by rw [hdone]; exact Bool.false_ne_true)]
    exact ⟨h.ok, h.full, h.shown, h.closes, h.sending, h.closing.close hn, h.calm⟩
  · exact h

theorem Watched.step {w : WatcherMap} (h : Watched w) (ev : WatchEvent) : Watched (w.step ev) := by
  cases ev with
  | register ctx pfx room =>
      rw [WatcherMap.step]
      split
      · exact h
      · rename_i hlock
        split
        · exact h.refused ctx pfx
        · exact h.register (Bool.eq_false_of_not_eq_true hlock) ctx pfx room
  | refuse n =>
      rw [WatcherMap.step]
      split
      · rename_i x hn
        split
        · rename_i hphase
          refine h.closeChan hn ?_ ?_ rfl
          · rw [hphase]; rfl
          · rw [hphase]; rfl
        · exact h
      · exact h
  | cancel ctx => exact ⟨h.ok, h.full, h.shown, h.closes, h.sending, h.closing, h.calm⟩
  | wake n =>
      rw [WatcherMap.step]
      split
      · rename_i x hn
        split
        · rename_i hcond
          refine h.setWatch hn rfl ?_ ?_
          · rw [hcond.1]; rfl
          · exact (h.closes x (List.mem_of_getElem? hn)).trans (by rw [hcond.1]; rfl)
        · exact h
      · exact h
  | remove n room =>
      rw [WatcherMap.step]
      split
      · rename_i x hn
        split
        · rename_i hcond
          exact h.remove hn hcond.1 hcond.2 room
        · exact h
      · exact h
  | close n =>
      rw [WatcherMap.step]
      split
      · rename_i x hn
        split
        · rename_i hphase
          refine h.closeChan hn ?_ ?_ rfl
          · rw [hphase]; rfl
          · rw [hphase]; rfl
        · exact h
      · exact h
  | closeAll => exact h.closeAll
  | closeDone n => exact h.closeDone n
  | notify key metrics =>
      rw [WatcherMap.step]
      split
      · exact h.notify fun _ _ _ _ _ heq => nomatch heq
      · exact h.notify fun _ _ _ _ _ heq => nomatch heq
  | range n i =>
      rw [WatcherMap.step]
      split
      · split
        · rename_i pfx _
          split
          · refine h.setNotify n fun _ _ _ _ _ heq => ⟨pfx, ?_⟩
            cases heq
            rfl
          · exact h.setNotify n fun _ _ _ _ _ heq => nomatch heq
        · exact h
      · exact h
  | send n => exact h.send n
  | unlock n =>
      rw [WatcherMap.step]
      split
      · exact h.setNotify n fun _ _ _ _ _ heq => nomatch heq
      · exact h
  | receive ch =>
      rw [WatcherMap.step]
      split
      · rename_i x hx
        exact h.setWatch hx rfl rfl (h.closes x (List.mem_of_getElem? hx))
      · exact h

theorem Watched.run {w : WatcherMap} (h : Watched w) (evs : List WatchEvent) :
    Watched (w.run evs) :=
  evs.foldlRecOn WatcherMap.step h fun _ hw ev _ => hw.step ev

/-! ## Channels are not used after they are closed -/

theorem registry_step (w : WatcherMap) (ev : WatchEvent) :
    (w.step ev).registry = w.registry ∨
      (∃ pfx n room, (w.step ev).registry = w.registry.add pfx n room) ∨
      ∃ pfx n room, ev = .remove n room ∧
        (w.step ev).registry = w.registry.remove pfx n room := by
  have hclose : ∀ n x phase, (w.closeChan n x phase).registry = w.registry := by
    intro n x phase
    rw [closeChan]
    split <;> rfl
  cases ev with
  | register ctx pfx room =>
      rw [step]
      split
      · exact Or.inl rfl
      · split
        · exact Or.inl rfl
        · exact Or.inr (Or.inl ⟨pfx, w.watchers.length, room, rfl⟩)
  | refuse n | close n =>
      rw [step]
      split
      · split
        · exact Or.inl (hclose _ _ _)
        · exact Or.inl rfl
      · exact Or.inl rfl
  | cancel ctx => exact Or.inl rfl
  | wake n =>
      rw [step]
      split
      · split <;> exact Or.inl rfl
      · exact Or.inl rfl
  | remove n room =>
      rw [step]
      split
      · rename_i x _
        split
        · exact Or.inr (Or.inr ⟨x.pfx, n, room, rfl, rfl⟩)
        · exact Or.inl rfl
      · exact Or.inl rfl
  | closeAll =>
      rw [step]
      split
      · exact Or.inl rfl
      · split <;> exact Or.inl rfl
  | closeDone n =>
      rw [step]
      split
      · split <;> exact Or.inl rfl
      · exact Or.inl rfl
  | notify key metrics =>
      rw [step]
      split <;> exact Or.inl rfl
  | range n i =>
      rw [step]
      split
      · split
        · split <;> exact Or.inl rfl
        · exact Or.inl rfl
      · exact Or.inl rfl
  | send n =>
      rw [step]
      split
      · split
        · exact Or.inl (registry_trySend _ _ _)
        · exact Or.inl rfl
      · exact Or.inl rfl
  | unlock n | receive ch =>
      rw [step]
      split <;> exact Or.inl rfl

/-- A channel leaves the map by its own removal only. -/
theorem Watched.stays {w : WatcherMap} (h : Watched w) {ev : WatchEvent} {pfx : Key} {ch : Nat}
    (hch : ch ∈ w.registry.shown pfx) (hev : ∀ room, ev ≠ .remove ch room) :
    ch ∈ (w.step ev).registry.shown pfx := by
  rcases registry_step w ev with heq | ⟨q, n, room, heq⟩ | ⟨q, n, room, hremove, heq⟩
  · rw [heq]
    exact hch
  · rw [heq, Registry.shown_add h.ok]
    split
    · rename_i hq
      rw [hq]
      exact List.mem_append_left _ hch
    · exact hch
  · rw [heq, Registry.shown_remove h.ok]
    split
    · rename_i hq
      rw [hq]
      have hne : ch ≠ n := by
        rintro rfl
        exact hev room hremove
      exact (List.mem_erase_of_ne hne).mpr hch
    · exact hch

/-- What holds of the channels between any two steps. -/
structure Safe (w : WatcherMap) : Prop where
  /-- A channel is stored, under its prefix, from its registration to its removal. -/
  stored : ∀ (pfx : Key) (ch : Nat), ch ∈ w.registry.shown pfx ↔
    ∃ x, w.watchers[ch]? = some x ∧ x.phase.registered = true ∧ x.pfx = pfx
  /-- It is stored once. -/
  once : ∀ pfx : Key, (w.registry.shown pfx).Nodup
  /-- A stored channel is open. -/
  isOpen : ∀ (pfx : Key), ∀ ch ∈ w.registry.shown pfx,
    ∃ x, w.watchers[ch]? = some x ∧ x.closes = 0
  /-- A channel is closed at most once. -/
  closes : ∀ x ∈ w.watchers, x.closes ≤ 1
  /-- Whatever happens next, a stored channel stays unless it is its own removal. -/
  alone : ∀ (ev : WatchEvent) (pfx : Key), ∀ ch ∈ w.registry.shown pfx,
    (∀ room, ev ≠ .remove ch room) → ch ∈ (w.step ev).registry.shown pfx
  /-- The channel that a `notify` is about to send to is open. -/
  target : ∀ key metrics todo chans i, .sending key metrics todo chans i ∈ w.notifiers →
    ∀ ch, (elems w.registry.heap chans)[i]? = some ch →
      ∃ x, w.watchers[ch]? = some x ∧ x.closes = 0
  /-- No prefix maps to an empty list. -/
  full : ∀ (pfx : Key) (s : Slice), w.registry.watches[pfx]? = some s →
    0 < s.len ∧ w.registry.shown pfx ≠ []
  /-- No close of a closed channel and no send to one. -/
  calm : w.panicked = false

/-- **Watch channels are safe** in every interleaving of registrations, removals, `notify` and
`closeAll`. -/
theorem channels_safe (evs : List WatchEvent) : Safe (new.run evs) := by
  have h := watched_new.run evs
  refine ⟨fun pfx ch => ?_, fun pfx => ?_, fun pfx ch hch => h.isOpen hch, fun x hx => ?_,
    fun ev pfx ch hch hev => h.stays hch hev, ?_, fun pfx s hs => ?_, h.calm⟩
  · rw [h.shown, mem_listed]
  · rw [h.shown]
    exact nodup_listed _ _
  · rw [h.closes x hx]
    cases x.phase <;> decide
  · intro key metrics todo chans i hmem ch hch
    obtain ⟨pfx, hchans⟩ := h.sending key metrics todo chans i hmem
    rw [hchans] at hch
    exact h.isOpen (List.mem_of_getElem? hch)
  · have hlen := h.full pfx s hs
    have hslice : (new.run evs).registry.slice pfx = s := by
      rw [Registry.slice, hs, Option.getD_some]
    refine ⟨hlen, List.ne_nil_of_length_pos ?_⟩
    rw [Registry.shown, (h.ok.fits_slice pfx).length_elems, hslice]
    exact hlen

/-- The first of two watchers of a prefix leaves while a `notify` waits for its turn. -/
example :
    let w := new.run
      [.register 0 [0x6b] 0, .register 1 [0x6b] 3, .cancel 0, .wake 0, .notify [0x6b, 0x78] true,
        .range 0 0, .send 0, .remove 0 0, .send 0, .send 0, .unlock 0, .remove 0 0, .close 0]
    w.registry.shown [0x6b] = [1] ∧ w.watchers.map Watch.closes = [1, 0] ∧
      w.watchers.map Watch.buffered = [1, 1] := by
  decide +kernel

end WatcherMap

end Dpx
