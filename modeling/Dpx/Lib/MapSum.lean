/-
# `Dpx.Lib.MapSum` — adding up an ordered map

Every pair of a map weighs something in a commutative monoid; `sum` is the weight of the
map.  An update touches one key, so it moves the sum by what that key weighs: `share` is
the weight of one key, and `sum_insert` and `sum_erase` say that the rest stays put.
They are stated with the share on the other side, so that no subtraction is needed.

A family of weighed things behaves alike, whether it is indexed by a list
(`sum_map_update`) or is one (`sum_map_set`).  Things sorted into groups weigh what the
groups do (`sum_groups`).
-/
import Std.Data.ExtTreeMap
import Mathlib.Algebra.BigOperators.Group.List.Basic

namespace MapSum

variable {K V M : Type} [Ord K] [Std.TransOrd K] [Std.LawfulEqOrd K] [AddCommMonoid M]
  (weight : K → V → M)

/-- The weight of a map. -/
def sum (m : Std.ExtTreeMap K V) : M := (m.toList.map fun it => weight it.1 it.2).sum

/-- The weight of one key. -/
def share (m : Std.ExtTreeMap K V) (k : K) : M := (m[k]?).elim 0 (weight k)

theorem nodup_toList (m : Std.ExtTreeMap K V) : m.toList.Nodup := by
  refine List.Pairwise.imp ?_ m.distinct_keys_toList
  rintro a b hab rfl
  exact hab Std.ReflCmp.compare_self

theorem toList_perm_of_getElem? {m : Std.ExtTreeMap K V} {k : K} {v : V} (h : m[k]? = some v) :
    m.toList.Perm ((k, v) :: (m.erase k).toList) := by
  have hnot : (k, v) ∉ (m.erase k).toList := by
    rw [Std.ExtTreeMap.mem_toList_iff_getElem?_eq_some, Std.ExtTreeMap.getElem?_erase_self]
    simp
  refine (List.perm_ext_iff_of_nodup (nodup_toList m)
    (List.nodup_cons.mpr ⟨hnot, nodup_toList _⟩)).mpr ?_
  rintro ⟨j, w⟩
  rw [List.mem_cons, Std.ExtTreeMap.mem_toList_iff_getElem?_eq_some,
    Std.ExtTreeMap.mem_toList_iff_getElem?_eq_some, Std.ExtTreeMap.getElem?_erase]
  by_cases hj : k = j
  · subst hj
    simp [h, eq_comm]
  · have hcmp : compare k j ≠ .eq := fun e => hj (Std.LawfulEqOrd.compare_eq_iff_eq.mp e)
    simp [hcmp, Ne.symm hj]

theorem erase_of_getElem?_eq_none {m : Std.ExtTreeMap K V} {k : K} (h : m[k]? = none) :
    m.erase k = m := by
  refine Std.ExtTreeMap.ext_getElem? fun j => ?_
  rw [Std.ExtTreeMap.getElem?_erase]
  split
  · rename_i hj
    rw [← Std.LawfulEqOrd.compare_eq_iff_eq.mp hj, h]
  · rfl

theorem sum_erase (m : Std.ExtTreeMap K V) (k : K) :
    sum weight m = share weight m k + sum weight (m.erase k) := by
  cases h : m[k]? with
  | none => simp [share, h, erase_of_getElem?_eq_none h]
  | some v =>
      have hsum := ((toList_perm_of_getElem? h).map fun it => weight it.1 it.2).sum_eq
      simpa [sum, share, h] using hsum

theorem sum_insert (m : Std.ExtTreeMap K V) (k : K) (v : V) :
    share weight m k + sum weight (m.insert k v) = weight k v + sum weight m := by
  have hshare : share weight (m.insert k v) k = weight k v := by simp [share]
  have hrest : (m.insert k v).erase k = m.erase k := by
    refine Std.ExtTreeMap.ext_getElem? fun j => ?_
    rw [Std.ExtTreeMap.getElem?_erase, Std.ExtTreeMap.getElem?_erase,
      Std.ExtTreeMap.getElem?_insert]
    split <;> rfl
  rw [sum_erase weight (m.insert k v) k, hshare, hrest, sum_erase weight m k, add_left_comm]

/-! ## Families -/

theorem sum_map_update {I S : Type} [DecidableEq I] (w : S → M) (g : I → S) {i : I} {s : S} {x : M}
    (hs : w s = w (g i) + x) {is : List I} (hnodup : is.Nodup) (hi : i ∈ is) :
    (is.map fun j => w (Function.update g i s j)).sum = (is.map fun j => w (g j)).sum + x := by
  induction is with
  | nil => exact absurd hi List.not_mem_nil
  | cons j is ih =>
      obtain ⟨hj, hnodup⟩ := List.nodup_cons.mp hnodup
      by_cases hij : i = j
      · subst hij
        have hrest : (is.map fun j => w (Function.update g i s j)) = is.map fun j => w (g j) := by
          refine List.map_congr_left fun a ha => ?_
          have hne : a ≠ i := by
            rintro rfl
            exact hj ha
          rw [Function.update_of_ne hne]
        simp [hrest, hs, add_right_comm]
      · have hhead : Function.update g i s j = g j := Function.update_of_ne (Ne.symm hij) _ _
        simp [hhead, ih hnodup (List.mem_of_ne_of_mem hij hi), add_assoc]

theorem sum_map_set {S : Type} (w : S → M) {p : S} (q : S) {ps : List S} : ∀ {n : Nat},
    ps[n]? = some p → ((ps.set n q).map w).sum + w p = (ps.map w).sum + w q := by
  induction ps with
  | nil => intro n hp; cases hp
  | cons a ps ih =>
      intro n hp
      cases n with
      | zero =>
          cases hp
          simp [add_left_comm, add_comm]
      | succ n =>
          rw [List.getElem?_cons_succ] at hp
          rw [List.set_cons_succ, List.map_cons, List.sum_cons, List.map_cons, List.sum_cons,
            add_assoc, ih hp, add_assoc]

theorem sum_groups {X I : Type} [DecidableEq I] (f : X → M) (group : X → I) {is : List I}
    (hnodup : is.Nodup) {xs : List X} (h : ∀ x ∈ xs, group x ∈ is) :
    (is.map fun i => ((xs.filter fun x => group x = i).map f).sum).sum = (xs.map f).sum := by
  induction xs with
  | nil => simp
  | cons x xs ih =>
      simp only [List.forall_mem_cons] at h
      -- the groups of `x :: xs` are those of `xs` with `x` put into its own
      have hput : ∀ i, ((x :: xs).filter fun y => group y = i) =
          Function.update (fun i => xs.filter fun y => group y = i) (group x)
            (x :: xs.filter fun y => group y = group x) i := by
        intro i
        by_cases hi : i = group x
        · subst hi
          simp
        · simp [Ne.symm hi, Function.update_of_ne hi]
      have hgrow : ((x :: xs.filter fun y => group y = group x).map f).sum =
          ((xs.filter fun y => group y = group x).map f).sum + f x := by
        simp [add_comm]
      simp only [hput]
      rw [sum_map_update (fun l => (l.map f).sum) (fun i => xs.filter fun y => group y = i) hgrow
        hnodup h.1, ih h.2, List.map_cons, List.sum_cons, add_comm]

end MapSum
