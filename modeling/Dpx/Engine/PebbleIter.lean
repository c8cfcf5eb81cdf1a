/-
# `Dpx.Engine.PebbleIter` — iterators of the Pebble engine

`engine/pebble/pebble.go`: `pebbleConsumerIter` wraps an iterator of Pebble and hides the keys
of the engine itself.  Every move is a move of Pebble's iterator, then a loop that goes on in
the same direction while it stands on a reserved key.

Pebble's iterator is taken to be a cursor over the pairs between its bounds, in key order, with
a place in front of the first and one behind the last (`Dpx.Lib.Cursor`).  Then the wrapped
iterator is a cursor over the pairs of user keys: each of its moves is that move of the smaller
cursor (`ConsumerIter.move_refines`, and `run_refines` for any sequence of moves).  The loops
carry fuel; more fuel than there are pairs is enough wherever they start.
-/
import Dpx.Lib.Cursor
import Dpx.Engine.Interface

namespace Dpx

namespace Pebble

/-- What is assumed of `pebble.Iterator`. -/
abbrev Iterator := Cursor (Key × Bytes)

/-- `isReserved` of this package compares a slice of the key. -/
def isReserved (key : Key) : Bool :=
  dpxPrefix.length ≤ key.length && key.take dpxPrefix.length = dpxPrefix

theorem isReserved_eq (key : Key) : isReserved key = Dpx.isReserved key := by
  rw [Bool.eq_iff_iff, isReserved, Dpx.isReserved, List.isPrefixOf_iff_prefix, Bool.and_eq_true,
    decide_eq_true_eq, decide_eq_true_eq, List.prefix_iff_eq_take]
  constructor
  · exact fun h => h.2.symm
  · intro h
    refine ⟨?_, h.symm⟩
    rw [h, List.length_take]
    exact Nat.min_le_right _ _

namespace ConsumerIter

open Cursor

/-! ## The moves -/

/-- The condition of the loops, on the pair under the cursor. -/
def hidden (kv : Key × Bytes) : Bool := isReserved kv.1

def skipReserved : Nat → Iterator → Option Iterator := skip hidden Cursor.next

def skipReservedBackward : Nat → Iterator → Option Iterator := skip hidden Cursor.prev

/-- `First`, with what it returns. -/
def first : Nat → Iterator → Option (Bool × Iterator) := pass hidden Cursor.first Cursor.next

def next : Nat → Iterator → Option (Bool × Iterator) := pass hidden Cursor.next Cursor.next

def prev : Nat → Iterator → Option (Bool × Iterator) := pass hidden Cursor.prev Cursor.prev

/-! ## A cursor over the user keys -/

inductive Move where
  | first
  | next
  | prev
  deriving DecidableEq, Repr

def move (fuel : Nat) : Move → Iterator → Option (Bool × Iterator)
  | .first => first fuel
  | .next => next fuel
  | .prev => prev fuel

/-- The move of a cursor that hides nothing. -/
def plainMove : Move → Iterator → Iterator
  | .first => Cursor.first
  | .next => Cursor.next
  | .prev => Cursor.prev

/-- **One move** of the wrapped iterator is that move over the user keys. -/
theorem move_refines {it : Iterator} {fuel : Nat} (hfuel : it.items.length < fuel)
    (h : it.Settled hidden) (m : Move) :
    ∃ it', move fuel m it = some (it'.valid, it') ∧ it'.Settled hidden ∧
      it'.kept hidden = plainMove m (it.kept hidden) ∧ it'.items = it.items := by
  cases m with
  | first =>
      obtain ⟨it', hpass, hsettled, hkept, hitems⟩ := pass_first hfuel hidden
      refine ⟨it', hpass, hsettled, ?_, hitems⟩
      rw [hkept, plainMove, Cursor.first, items_kept h]
  | next => exact pass_next hfuel h
  | prev => exact pass_prev hfuel h

/-- What a caller sees: the answer of each move and the pair it arrives at. -/
def run (fuel : Nat) : List Move → Iterator → Option (List (Bool × Option (Key × Bytes)))
  | [], _ => some []
  | m :: ms, it => do
      let (ok, it) ← move fuel m it
      let seen ← run fuel ms it
      return (ok, it.current) :: seen

/-- The same of a cursor that hides nothing. -/
def plainRun : List Move → Iterator → List (Bool × Option (Key × Bytes))
  | [], _ => []
  | m :: ms, it =>
      ((plainMove m it).valid, (plainMove m it).current) :: plainRun ms (plainMove m it)

/-- **Any sequence of moves** sees the user keys and nothing else. -/
theorem run_refines {fuel : Nat} (ms : List Move) : ∀ {it : Iterator}, it.items.length < fuel →
    it.Settled hidden → run fuel ms it = some (plainRun ms (it.kept hidden)) := by
  induction ms with
  | nil => exact fun _ _ => rfl
  | cons m ms ih =>
      intro it hfuel h
      obtain ⟨it', hmove, hsettled, hkept, hitems⟩ := move_refines hfuel h m
      rw [← hitems] at hfuel
      have hrest := ih hfuel hsettled
      rw [hkept] at hrest
      rw [run, hmove, plainRun, ← hkept, valid_kept, current_kept, hkept]
      show (run fuel ms it').bind _ = _
      rw [hrest]
      rfl

/-! ## Scans -/

/-- The keys that are not reserved. -/
def userKeys (contents : List (Key × Bytes)) : List Key :=
  (contents.map Prod.fst).filter fun k => !Dpx.isReserved k

theorem map_filter_hidden (contents : List (Key × Bytes)) :
    (contents.filter fun kv => !hidden kv).map Prod.fst = userKeys contents := by
  rw [userKeys, List.filter_map]
  refine congrArg (List.map Prod.fst) (List.filter_congr fun kv _ => ?_)
  rw [hidden, isReserved_eq]
  rfl

/-- **A scan visits the user keys**, up and then down again, and its loops end. -/
theorem scan_hides_reserved (it : Iterator)
    (hsorted : it.items.Pairwise fun a b => less a.1 b.1 = true) {fuel : Nat}
    (hfuel : it.items.length < fuel) :
    ∃ up down exhausted it',
      (first fuel it).bind (visit (next fuel) Prod.fst fuel) = some (up, exhausted) ∧
      (prev fuel exhausted).bind (visit (prev fuel) Prod.fst fuel) = some (down, it') ∧
      up = userKeys it.items ∧ up.Pairwise (fun a b => less a b = true) ∧
      down = up.reverse ∧ down.Pairwise (fun a b => less b a = true) ∧
      ∀ it₀ : Iterator, it₀.items = it.items →
        (∃ it₁, skipReserved fuel it₀ = some it₁) ∧
        ∃ it₁, skipReservedBackward fuel it₀ = some it₁ := by
  obtain ⟨exhausted, hup, hsettled, hkept, hitems⟩ := visit_first Prod.fst hfuel hfuel hidden
  have hfuel' : exhausted.items.length < fuel := by rwa [hitems]
  obtain ⟨it', hdown, -⟩ := visit_last Prod.fst hfuel' hfuel' hsettled hkept
  rw [List.map_reverse, map_filter_hidden] at hdown
  rw [map_filter_hidden] at hup
  have hasc : (userKeys it.items).Pairwise fun a b => less a b = true :=
    (List.pairwise_map.mpr hsorted).filter _
  refine ⟨_, _, exhausted, it', hup, hdown, rfl, hasc, rfl, List.pairwise_reverse.mpr hasc, ?_⟩
  intro it₀ hit₀
  rw [← hit₀] at hfuel
  obtain ⟨it₁, honward, -⟩ := exists_skip_next hidden hfuel
  obtain ⟨it₂, hback, -⟩ := exists_skip_prev hidden hfuel
  exact ⟨⟨it₁, honward⟩, it₂, hback⟩

/-- A reserved key between two others. -/
def threeKeys : Iterator := .before [([0x41], [1]), (dpxPrefix ++ [0x78], [2]), ([0x61], [3])]

theorem threeKeys_scanned : ∃ up down exhausted it',
    (first 4 threeKeys).bind (visit (next 4) Prod.fst 4) = some (up, exhausted) ∧
    (prev 4 exhausted).bind (visit (prev 4) Prod.fst 4) = some (down, it') ∧
    up = [[0x41], [0x61]] ∧ down = [[0x61], [0x41]] := by
  obtain ⟨up, down, exhausted, it', hup, hdown, hkeys, -, hreverse, -⟩ :=
    scan_hides_reserved threeKeys (by decide) (by decide : _ < 4)
  have hvisited : userKeys threeKeys.items = [[0x41], [0x61]] := by decide
  rw [hvisited] at hkeys
  rw [hkeys] at hreverse
  exact ⟨up, down, exhausted, it', hup, hdown, hkeys, hreverse⟩

end ConsumerIter

end Pebble

end Dpx
