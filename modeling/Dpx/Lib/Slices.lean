/-
# `Dpx.Lib.Slices` — slices over shared backing arrays

A slice is a header: a backing array, an offset, a length and a capacity.  `append` writes
into the backing array as long as the capacity lasts, and so changes what every other header
on that array shows; when it does not last, `append` copies the elements to a new array with
room to spare.

What is needed to use slices as lists is small: `append` shows the elements of both
(`elems_append`), so that `append(s[:i], s[i+1:]...)` takes out the element at `i`
(`elems_upTo_append_since`), and it does not change what a slice on another array shows
(`elems_append_of_ne`).
-/
import Mathlib.Data.List.Basic

namespace Slices

variable {α : Type}

/-- Backing arrays, in the order of their allocation; a cell that was never written is not
listed. -/
abbrev Heap (α : Type) := List (List α)

structure Slice where
  arr : Nat
  off : Nat
  len : Nat
  cap : Nat
  deriving DecidableEq, Repr

namespace Slice

/-- The slice that has no array yet. -/
def nil : Slice := ⟨0, 0, 0, 0⟩

/-- `s[:i]` -/
def upTo (s : Slice) (i : Nat) : Slice := { s with len := i }

/-- `s[i:]` -/
def since (s : Slice) (i : Nat) : Slice := ⟨s.arr, s.off + i, s.len - i, s.cap - i⟩

end Slice

def cells (h : Heap α) (a : Nat) : List α := (h[a]?).getD []

/-- What a slice shows. -/
def elems (h : Heap α) (s : Slice) : List α := ((cells h s.arr).drop s.off).take s.len

def overwrite (cs : List α) (i : Nat) (vs : List α) : List α :=
  cs.take i ++ vs ++ cs.drop (i + vs.length)

/-- `append(s, vs...)`; a new array has `room` cells more than it needs. -/
def append (h : Heap α) (s : Slice) (vs : List α) (room : Nat) : Heap α × Slice :=
  if s.len + vs.length ≤ s.cap then
    (h.set s.arr (overwrite (cells h s.arr) (s.off + s.len) vs),
      { s with len := s.len + vs.length })
  else
    (h ++ [elems h s ++ vs], ⟨h.length, 0, s.len + vs.length, s.len + vs.length + room⟩)

/-- The header fits its array. -/
structure Fits (h : Heap α) (s : Slice) : Prop where
  len_le : s.len ≤ s.cap
  written : s.off + s.len ≤ (cells h s.arr).length
  array : s.cap = 0 ∨ s.arr < h.length

theorem fits_nil (h : Heap α) : Fits h .nil := ⟨Nat.le_refl 0, Nat.zero_le _, Or.inl rfl⟩

theorem elems_nil (h : Heap α) : elems h .nil = [] := List.take_zero

theorem Fits.length_elems {h : Heap α} {s : Slice} (hs : Fits h s) :
    (elems h s).length = s.len := by
  have := hs.written
  rw [elems, List.length_take, List.length_drop]
  omega

/-! ## Parts of a slice -/

theorem Fits.upTo {h : Heap α} {s : Slice} (hs : Fits h s) {i : Nat} (hi : i ≤ s.len) :
    Fits h (s.upTo i) where
  len_le := Nat.le_trans hi hs.len_le
  written := Nat.le_trans (Nat.add_le_add_left hi s.off) hs.written
  array := hs.array

theorem elems_upTo (h : Heap α) {s : Slice} {i : Nat} (hi : i ≤ s.len) :
    elems h (s.upTo i) = (elems h s).take i := by
  rw [elems, elems, List.take_take, Nat.min_eq_left hi]
  rfl

theorem elems_since (h : Heap α) (s : Slice) (i : Nat) :
    elems h (s.since i) = (elems h s).drop i := by
  rw [elems, elems, List.drop_take, List.drop_drop]
  rfl

/-- What `append(s[:i], s[i+1:]...)` shows: the element at `i` is taken out. -/
theorem elems_upTo_append_since (h : Heap α) {s : Slice} {i : Nat} (hi : i < s.len) :
    elems h (s.upTo i) ++ elems h (s.since (i + 1)) = (elems h s).eraseIdx i := by
  rw [elems_upTo h (Nat.le_of_lt hi), elems_since, List.eraseIdx_eq_take_drop_succ]

/-! ## Appending -/

theorem cells_set {h : Heap α} {a : Nat} (ha : a < h.length) (cs : List α) :
    cells (h.set a cs) a = cs := by
  rw [cells, List.getElem?_set_self ha, Option.getD_some]

theorem cells_set_of_ne (h : Heap α) {a b : Nat} (hab : a ≠ b) (cs : List α) :
    cells (h.set a cs) b = cells h b := by
  rw [cells, cells, List.getElem?_set_ne hab]

theorem cells_concat (h : Heap α) (cs : List α) : cells (h ++ [cs]) h.length = cs := by
  rw [cells, List.getElem?_concat_length, Option.getD_some]

theorem cells_concat_of_lt {h : Heap α} {a : Nat} (ha : a < h.length) (cs : List α) :
    cells (h ++ [cs]) a = cells h a := by
  rw [cells, cells, List.getElem?_append_left ha]

theorem drop_take_overwrite {cs : List α} {off len : Nat} (h : off + len ≤ cs.length)
    (vs : List α) : ((overwrite cs (off + len) vs).drop off).take (len + vs.length) =
      (cs.drop off).take len ++ vs := by
  have hoff : off ≤ (cs.take (off + len)).length := by
    rw [List.length_take]
    omega
  have hlen : ((cs.take (off + len)).drop off ++ vs).length = len + vs.length := by
    rw [List.length_append, List.length_drop, List.length_take]
    omega
  rw [overwrite, List.append_assoc, List.drop_append_of_le_length hoff, ← List.append_assoc,
    ← hlen, List.take_left, List.drop_take, Nat.add_sub_cancel_left]

theorem length_overwrite_ge (cs : List α) {i : Nat} (hi : i ≤ cs.length) (vs : List α) :
    i + vs.length ≤ (overwrite cs i vs).length := by
  rw [overwrite, List.length_append, List.length_append, List.length_take]
  omega

theorem elems_append {h : Heap α} {s : Slice} (hs : Fits h s) (vs : List α) (room : Nat) :
    elems (append h s vs room).1 (append h s vs room).2 = elems h s ++ vs := by
  rw [append]
  split
  · rename_i hcap
    rcases hs.array with hzero | harr
    · -- there is no array, so there is nothing to write
      have hlen : s.len = 0 := by omega
      have hvs : vs = [] := List.eq_nil_of_length_eq_zero (by omega)
      simp only [elems, hlen, hvs, List.length_nil, Nat.add_zero, List.take_zero, List.append_nil]
    · simp only [elems]
      rw [cells_set harr, drop_take_overwrite hs.written]
  · have hlen : s.len + vs.length = (elems h s ++ vs).length := by
      rw [List.length_append, hs.length_elems]
    rw [elems, cells_concat, List.drop_zero, hlen, List.take_length]

theorem Fits.append {h : Heap α} {s : Slice} (hs : Fits h s) (vs : List α) (room : Nat) :
    Fits (append h s vs room).1 (append h s vs room).2 := by
  rw [Slices.append]
  split
  · rename_i hcap
    refine ⟨hcap, ?_, hs.array.imp_right fun harr => by rw [List.length_set]; exact harr⟩
    by_cases harr : s.arr < h.length
    · simp only
      rw [cells_set harr, ← Nat.add_assoc]
      exact length_overwrite_ge _ hs.written vs
    · have hzero : s.cap = 0 := hs.array.resolve_right harr
      have hvs : vs.length = 0 := by omega
      simp only
      rw [List.set_eq_of_length_le (Nat.le_of_not_lt harr), hvs]
      exact hs.written
  · refine ⟨Nat.le_add_right _ _, ?_, Or.inr ?_⟩
    · have hlen : (elems h s ++ vs).length = s.len + vs.length := by
        rw [List.length_append, hs.length_elems]
      simp only
      rw [cells_concat, Nat.zero_add]
      exact Nat.le_of_eq hlen.symm
    · rw [List.length_append]
      exact Nat.lt_succ_self _

theorem cap_append_pos {s : Slice} {vs : List α} (hpos : 0 < s.cap ∨ vs ≠ []) (h : Heap α)
    (room : Nat) : 0 < (append h s vs room).2.cap := by
  have hlen : 0 < s.cap ∨ 0 < vs.length := hpos.imp_right List.length_pos_of_ne_nil
  rw [append]
  split
  · simp only
    omega
  · simp only
    omega

theorem append_arr (h : Heap α) (s : Slice) (vs : List α) (room : Nat) :
    (s.len + vs.length ≤ s.cap ∧ (append h s vs room).2.arr = s.arr) ∨
      (append h s vs room).2.arr = h.length := by
  rw [append]
  split
  · rename_i hcap
    exact Or.inl ⟨hcap, rfl⟩
  · exact Or.inr rfl

/-- An array is left alone unless the slice is on it and its capacity lasts. -/
theorem cells_append_of_ne {h : Heap α} {s : Slice} {vs : List α} {a : Nat} (ha : a < h.length)
    (hne : s.len + vs.length ≤ s.cap → s.arr ≠ a) (room : Nat) :
    cells (append h s vs room).1 a = cells h a := by
  rw [append]
  split
  · rename_i hcap
    exact cells_set_of_ne h (hne hcap) _
  · exact cells_concat_of_lt ha _

theorem length_append_ge (h : Heap α) (s : Slice) (vs : List α) (room : Nat) :
    h.length ≤ (append h s vs room).1.length := by
  rw [append]
  split
  · exact Nat.le_of_eq List.length_set.symm
  · rw [List.length_append]
    exact Nat.le_add_right _ _

theorem elems_append_of_ne {h : Heap α} {s t : Slice} {vs : List α} (ht : t.arr < h.length)
    (hne : s.len + vs.length ≤ s.cap → s.arr ≠ t.arr) (room : Nat) :
    elems (append h s vs room).1 t = elems h t := by
  rw [elems, elems, cells_append_of_ne ht hne]

theorem Fits.append_of_ne {h : Heap α} {s t : Slice} {vs : List α} (hfits : Fits h t)
    (ht : t.arr < h.length) (hne : s.len + vs.length ≤ s.cap → s.arr ≠ t.arr) (room : Nat) :
    Fits (Slices.append h s vs room).1 t where
  len_le := hfits.len_le
  written := by
    rw [cells_append_of_ne ht hne]
    exact hfits.written
  array := Or.inr (Nat.lt_of_lt_of_le ht (length_append_ge h s vs room))

end Slices
