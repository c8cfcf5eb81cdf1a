/-
# `Dpx.Lib.Turns` — processes that take turns at shared registers

A pool is a list of processes, and a turn replaces one of them.  What is added up or collected over
the pool changes by what that one contributes, and by nothing else (`Pool`).

A compare-and-swap loop loads a register, finds that it may stay as it is or computes what it should
hold, and stores that if the register has not changed meanwhile; otherwise it starts over.  A turn
that ends the loop is one update of what the register holds at that moment, and every other turn
leaves the register alone (`CasLoop.turn_cases`).  So whatever the interleaving, the register is the
fold of the updates of the loops that have ended, in the order in which they ended
(`CasLoop.Folds`).
-/
import Mathlib.Algebra.Order.BigOperators.Group.List
import Mathlib.Algebra.Order.Ring.Nat
import Mathlib.Data.List.Induction

/-! ## Pools -/

namespace Pool

variable {β γ : Type} {l : List γ} {n : Nat} {a b : γ} {g : γ → Option β}

theorem exists_split (ha : l[n]? = some a) :
    ∃ xs ys, l = xs ++ a :: ys ∧ l.set n b = xs ++ b :: ys := by
  obtain ⟨hn, rfl⟩ := List.getElem?_eq_some_iff.mp ha
  refine ⟨l.take n, l.drop (n + 1), ?_, List.set_eq_take_append_cons_drop .. |>.trans (if_pos hn)⟩
  rw [List.getElem_cons_drop, List.take_append_drop]

theorem sum_map_set (ha : l[n]? = some a) (f : γ → Nat) :
    ((l.set n b).map f).sum + f a = (l.map f).sum + f b := by
  obtain ⟨xs, ys, hl, hset⟩ := exists_split (b := b) ha
  rw [hset, hl]
  simp only [List.map_append, List.map_cons, List.sum_append, List.sum_cons]
  omega

theorem filterMap_set_same (ha : l[n]? = some a) (hg : g b = g a) :
    (l.set n b).filterMap g = l.filterMap g := by
  obtain ⟨xs, ys, hl, hset⟩ := exists_split (b := b) ha
  rw [hset, hl, List.filterMap_append, List.filterMap_append, List.filterMap_cons,
    List.filterMap_cons, hg]

theorem filterMap_set_new (ha : l[n]? = some a) {x : β} (hnone : g a = none)
    (hsome : g b = some x) :
    ((l.set n b).filterMap g).Perm (x :: l.filterMap g) := by
  obtain ⟨xs, ys, hl, hset⟩ := exists_split (b := b) ha
  rw [hset, hl, List.filterMap_append, List.filterMap_append, List.filterMap_cons,
    List.filterMap_cons, hnone, hsome]
  exact List.perm_middle

end Pool

/-! ## Compare-and-swap loops -/

namespace CasLoop

variable {α β : Type}

/-- What a register that holds `v` holds after an update with `x`. -/
def apply (upd : α → β → Option α) (v : α) (x : β) : α := (upd v x).getD v

/-- Where a loop stands: before its load, or with the value it has loaded. -/
inductive Pc (α : Type) where
  | load
  | swap (cur : α)
  deriving DecidableEq, Repr

/-- One turn: the register after it, and where the loop goes on; `none` if it ends here. -/
def turn [DecidableEq α] (upd : α → β → Option α) (x : β) (v : α) : Pc α → α × Option (Pc α)
  | .load =>
      match upd v x with
      | none => (v, none)
      | some _ => (v, some (.swap v))
  | .swap cur => if v = cur then (apply upd cur x, none) else (v, some .load)

/-- A turn that ends the loop is the update, of what the register holds then; any other turn leaves
the register alone. -/
theorem turn_cases [DecidableEq α] (upd : α → β → Option α) (x : β) (v : α) (pc : Pc α) :
    turn upd x v pc = (apply upd v x, none) ∨ ∃ pc', turn upd x v pc = (v, some pc') := by
  cases pc with
  | load =>
      rw [turn]
      cases h : upd v x with
      | none =>
          -- to find that nothing is to be done is an update too
          exact Or.inl (by rw [apply, h, Option.getD_none])
      | some w => exact Or.inr ⟨.swap v, rfl⟩
  | swap cur =>
      rw [turn]
      split
      · rename_i heq
        exact Or.inl (by rw [heq])
      · exact Or.inr ⟨.load, rfl⟩

/-- The register is what the updates with `xs` make of `v₀`, one after the other in some order. -/
def Folds (upd : α → β → Option α) (v₀ v : α) (xs : List β) : Prop :=
  ∃ order : List β, order.Perm xs ∧ order.foldl (apply upd) v₀ = v

namespace Folds

variable {upd : α → β → Option α} {v₀ v : α} {xs xs' : List β}

theorem nil : Folds upd v₀ v₀ [] := ⟨[], .refl _, rfl⟩

theorem update (h : Folds upd v₀ v xs) {x : β} (hxs : xs'.Perm (x :: xs)) :
    Folds upd v₀ (apply upd v x) xs' := by
  obtain ⟨order, hperm, hfold⟩ := h
  refine ⟨order ++ [x], ?_, ?_⟩
  · exact (List.perm_append_singleton x order).trans ((hperm.cons x).trans hxs.symm)
  · rw [List.foldl_append, hfold]
    rfl

theorem holds (h : Folds upd v₀ v xs) {P : α → List β → Prop} (hnil : P v₀ [])
    (hupd : ∀ w ys, ∀ x ∈ xs, P w ys → P (apply upd w x) (ys ++ [x])) :
    ∃ order : List β, order.Perm xs ∧ P v order := by
  obtain ⟨order, hperm, rfl⟩ := h
  refine ⟨order, hperm, ?_⟩
  have hmem : ∀ x ∈ order, x ∈ xs := fun x hx => hperm.mem_iff.mp hx
  clear hperm
  induction order using List.reverseRecOn with
  | nil => exact hnil
  | append_singleton order x ih =>
      rw [List.foldl_append]
      refine hupd _ _ x (hmem x (List.mem_append_right _ (List.mem_singleton.mpr rfl))) (ih ?_)
      exact fun y hy => hmem y (List.mem_append_left _ hy)

end Folds

end CasLoop
