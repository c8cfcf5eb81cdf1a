/-
# `Dpx.Lib.Word` — machine words under wrapping addition

`Int64` addition wraps, so a sum of `Int64`s is a sum modulo `2^64`, in any order and
with any grouping: a commutative group.  The instance below takes zero, addition and
negation from the type itself, so that it speaks about the operations programs use.

Read as an integer, such a sum is the integer sum exactly if that one fits the word, whatever
the partial sums did on the way (`toInt_sum_eq_iff`).
-/
import Mathlib.Algebra.BigOperators.Group.List.Basic
import Mathlib.Algebra.Ring.Int.Defs

namespace Word

/-- The integers a word can hold. -/
def Fits (x : Int) : Prop := -2 ^ 63 ≤ x ∧ x < 2 ^ 63

instance (x : Int) : Decidable (Fits x) := inferInstanceAs (Decidable (_ ∧ _))

theorem fits_toInt (x : Int64) : Fits x.toInt := ⟨x.le_toInt, x.toInt_lt⟩

theorem toInt_sum (ds : List Int64) :
    ds.sum.toInt = ((ds.map Int64.toInt).sum).bmod (2 ^ 64) := by
  induction ds with
  | nil => rfl
  | cons d ds ih =>
      rw [List.sum_cons, Int64.toInt_add, ih, Int.add_bmod_bmod, List.map_cons, List.sum_cons]

theorem toInt_sum_eq_iff (ds : List Int64) :
    ds.sum.toInt = (ds.map Int64.toInt).sum ↔ Fits (ds.map Int64.toInt).sum := by
  constructor
  · intro h
    rw [← h]
    exact fits_toInt _
  · intro h
    rw [toInt_sum]
    exact Int.bmod_eq_of_le h.1 h.2

theorem toInt_add_sum {x : Int64} {ds : List Int64}
    (hlo : -2 ^ 63 ≤ x.toInt + (ds.map Int64.toInt).sum)
    (hhi : x.toInt + (ds.map Int64.toInt).sum < 2 ^ 63) :
    (x + ds.sum).toInt = x.toInt + (ds.map Int64.toInt).sum :=
  (toInt_sum_eq_iff (x :: ds)).mpr ⟨hlo, hhi⟩

scoped instance addCommGroup : AddCommGroup Int64 where
  add_assoc := Int64.add_assoc
  zero_add := Int64.zero_add
  add_zero := Int64.add_zero
  add_comm := Int64.add_comm
  neg_add_cancel := Int64.add_left_neg
  sub_eq_add_neg := Int64.sub_eq_add_neg
  nsmul := nsmulRec
  zsmul := zsmulRec

end Word
