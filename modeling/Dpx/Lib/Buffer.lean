/-
# `Dpx.Lib.Buffer` — a buffer read and written by position, with its bounds

A slice expression or an index outside a buffer is a run-time panic.  Here it is one of the
two ways to end early, `Fault.outOfRange`; the other is an error of the function's own.  So
"reads no byte outside" is a statement about answers.

An encoder makes a buffer of the final size and writes its pieces one behind the other.  Its
invariant is `fill done n`: what has been written, which ends at the position, and then `n`
places that are still blank.  A piece that fits moves the boundary (`putAt_fill`,
`copyAt_fill`).
-/
import Mathlib.Data.List.Basic

namespace Buffer

variable {A B E : Type}

inductive Fault (E : Type) where
  | outOfRange
  | failed (e : E)
  deriving DecidableEq, Repr

/-! ## Reading -/

/-- `buf[pos:]` -/
def since (buf : List B) (pos : Nat) : Except (Fault E) (List B) :=
  if pos ≤ buf.length then .ok (buf.drop pos) else .error .outOfRange

/-- `buf[pos:fin]` -/
def slice (buf : List B) (pos fin : Nat) : Except (Fault E) (List B) :=
  if pos ≤ fin ∧ fin ≤ buf.length then .ok ((buf.drop pos).take (fin - pos))
  else .error .outOfRange

/-- A word of `n` bytes at the front of `buf[pos:]`; its last byte is looked at first. -/
def wordAt (n : Nat) (get : List B → A) (buf : List B) (pos : Nat) : Except (Fault E) A := do
  let b ← since buf pos
  if n ≤ b.length then .ok (get b) else .error .outOfRange

theorem wordAt_of_le {n pos : Nat} {buf : List B} (h : pos + n ≤ buf.length)
    (get : List B → A) : wordAt (E := E) n get buf pos = .ok (get (buf.drop pos)) := by
  have hpos : pos ≤ buf.length := by omega
  have hroom : n ≤ (buf.drop pos).length := by
    rw [List.length_drop]
    omega
  simp only [wordAt, since, if_pos hpos, bind, Except.bind, if_pos hroom]

theorem slice_of_le {n pos : Nat} {buf : List B} (h : pos + n ≤ buf.length) :
    slice (E := E) buf pos (pos + n) = .ok ((buf.drop pos).take n) := by
  have hin : pos ≤ pos + n ∧ pos + n ≤ buf.length := ⟨Nat.le_add_right pos n, h⟩
  rw [slice, if_pos hin, Nat.add_sub_cancel_left]

/-! ## Writing -/

/-- `PutUintN(buf[pos:], v)`: all the bytes of the word, or a panic. -/
def putAt (buf : List B) (pos : Nat) (src : List B) : Except (Fault E) (List B) :=
  if pos + src.length ≤ buf.length then
    .ok (buf.take pos ++ src ++ buf.drop (pos + src.length))
  else .error .outOfRange

/-- `copy(buf[pos:], src)`: as much as there is room for. -/
def copyAt (buf : List B) (pos : Nat) (src : List B) : Except (Fault E) (List B) :=
  if pos ≤ buf.length then
    .ok (buf.take pos ++ src.take (buf.length - pos) ++ buf.drop (pos + src.length))
  else .error .outOfRange

theorem copyAt_eq_putAt {buf src : List B} {pos : Nat} (h : pos + src.length ≤ buf.length) :
    copyAt (E := E) buf pos src = putAt buf pos src := by
  have hpos : pos ≤ buf.length := by omega
  have hall : src.take (buf.length - pos) = src := List.take_of_length_le (by omega)
  rw [copyAt, if_pos hpos, putAt, if_pos h, hall]

section Fill
variable [OfNat B 0]

/-- What has been written, and the places that have not. -/
def fill (done : List B) (n : Nat) : List B := done ++ List.replicate n 0

theorem length_fill (done : List B) (n : Nat) : (fill done n).length = done.length + n := by
  rw [fill, List.length_append, List.length_replicate]

theorem putAt_fill (done src : List B) (n : Nat) :
    putAt (E := E) (fill done (src.length + n)) done.length src = .ok (fill (done ++ src) n) := by
  have hroom : done.length + src.length ≤ (fill done (src.length + n)).length := by
    rw [length_fill]
    omega
  have hrest : (fill done (src.length + n)).drop (done.length + src.length) =
      List.replicate n 0 := by
    rw [fill, List.drop_append, List.drop_replicate, List.drop_of_length_le (by omega)]
    simp
  rw [putAt, if_pos hroom, hrest, fill, List.take_left, fill]

theorem copyAt_fill (done src : List B) (n : Nat) :
    copyAt (E := E) (fill done (src.length + n)) done.length src =
      .ok (fill (done ++ src) n) := by
  rw [copyAt_eq_putAt, putAt_fill]
  rw [length_fill]
  omega

end Fill

end Buffer
