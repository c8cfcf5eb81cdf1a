/-
# `Dpx.Lib.LastWriter` — logs of records known only by their last entry

Optimistic validation keeps, for each item, the record of its last writer, and
compares the number on it with the number a reader saw.  Behind the one record
stands a log of all of them.  Here the log of ONE item is a list of records, oldest
first, each carrying a number; `top` is the number on the last one, zero for an
empty log.

If the numbers ascend, the one record decides whether anything was appended since
the reader looked (`top_lt_iff`): that is the whole argument for validation by last
writer.  It says nothing about what was appended besides the last entry.
-/
import Mathlib.Data.List.Basic
import Mathlib.Order.Basic

namespace LastWriter

variable {R : Type} (num : R → Nat)

/-- The number on the last record. -/
def top (l : List R) : Nat := (l.getLast?.map num).getD 0

/-- Positive numbers, ascending. -/
structure Ascending (l : List R) : Prop where
  sorted : l.Pairwise fun a b => num a < num b
  pos : ∀ r ∈ l, 0 < num r

variable {num}

theorem getLast?_append_of_ne_nil (old : List R) {new : List R} (h : new ≠ []) :
    (old ++ new).getLast? = new.getLast? := by
  rw [List.getLast?_append]
  cases hl : new.getLast? with
  | none => exact absurd (List.getLast?_eq_none_iff.mp hl) h
  | some r => rfl

theorem top_append (num : R → Nat) (old : List R) {new : List R} (h : new ≠ []) :
    ∃ r ∈ new, top num (old ++ new) = num r := by
  refine ⟨new.getLast h, List.getLast_mem h, ?_⟩
  rw [top, getLast?_append_of_ne_nil old h, List.getLast?_eq_some_getLast h]
  rfl

theorem Ascending.left {old new : List R} (h : Ascending num (old ++ new)) :
    Ascending num old :=
  ⟨(List.pairwise_append.mp h.sorted).1, fun r hr => h.pos r (List.mem_append_left _ hr)⟩

theorem Ascending.top_lt {old new : List R} (h : Ascending num (old ++ new)) {r : R}
    (hr : r ∈ new) : top num old < num r := by
  cases hl : old.getLast? with
  | none =>
      rw [top, hl]
      exact h.pos r (List.mem_append_right _ hr)
  | some o =>
      rw [top, hl]
      exact (List.pairwise_append.mp h.sorted).2.2 o (List.mem_of_getLast? hl) r hr

/-- **Validation by last writer.**  The last number moved if and only if something
was appended. -/
theorem Ascending.top_lt_iff {old new : List R} (h : Ascending num (old ++ new)) :
    top num old < top num (old ++ new) ↔ new ≠ [] := by
  constructor
  · rintro hlt rfl
    rw [List.append_nil] at hlt
    exact Nat.lt_irrefl _ hlt
  · intro hne
    obtain ⟨r, hr, htop⟩ := top_append num old hne
    rw [htop]
    exact h.top_lt hr

end LastWriter
