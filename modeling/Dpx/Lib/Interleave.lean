/-
# `Dpx.Lib.Interleave` — actions taken out of turn

Processes act on a state one after another: `replay`.  What a process does may be split
over time, so that it acts on this part of the state now and on another part later, when
other processes have come in between.  Its late action counts as taken in its turn if it
commutes with the actions it comes after (`replay_late`).

Actions are arbitrary functions; commuting is `Function.Commute`.
-/
import Mathlib.Data.List.Basic
import Mathlib.Logic.Function.Conjugate

namespace Interleave

variable {N S : Type} (act : N → S → S)

/-- The actions of the listed processes, one after another. -/
def replay (ns : List N) (s : S) : S := ns.foldl (fun s n => act n s) s

@[simp] theorem replay_cons (n : N) (ns : List N) (s : S) :
    replay act (n :: ns) s = replay act ns (act n s) := rfl

@[simp] theorem replay_append (xs ys : List N) (s : S) :
    replay act (xs ++ ys) s = replay act ys (replay act xs s) :=
  List.foldl_append

theorem replay_congr {act' : N → S → S} {ns : List N} (h : ∀ n ∈ ns, act n = act' n) :
    ∀ s, replay act ns s = replay act' ns s := by
  induction ns with
  | nil => intro s; rfl
  | cons n ns ih =>
      intro s
      simp only [List.forall_mem_cons] at h
      rw [replay_cons, replay_cons, h.1]
      exact ih h.2 _

variable {act}

theorem commute_replay {f : S → S} {ns : List N} (h : ∀ n ∈ ns, Function.Commute f (act n)) :
    Function.Commute f (replay act ns) := by
  induction ns with
  | nil => intro s; rfl
  | cons n ns ih =>
      intro s
      simp only [List.forall_mem_cons] at h
      rw [replay_cons, replay_cons, ih h.2, h.1]

theorem replay_commute {xs ys : List N}
    (h : ∀ x ∈ xs, ∀ y ∈ ys, Function.Commute (act x) (act y)) :
    Function.Commute (replay act xs) (replay act ys) :=
  commute_replay fun y hy => (commute_replay fun x hx => (h x hx y hy).symm).symm

variable (act)

theorem replay_idle {ns : List N} (h : ∀ n ∈ ns, ∀ s, act n s = s) :
    ∀ s, replay act ns s = s := by
  induction ns with
  | nil => intro s; rfl
  | cons n ns ih =>
      intro s
      simp only [List.forall_mem_cons] at h
      rw [replay_cons, h.1, ih h.2]

theorem replay_filter (done : N → Bool) {ns : List N}
    (h : ∀ n ∈ ns, done n = false → ∀ s, act n s = s) :
    ∀ s, replay act (ns.filter done) s = replay act ns s := by
  induction ns with
  | nil => intro s; rfl
  | cons n ns ih =>
      intro s
      simp only [List.forall_mem_cons] at h
      cases hn : done n with
      | true => simp only [List.filter_cons, hn, if_true, replay_cons, ih h.2]
      | false =>
          simp only [List.filter_cons, hn, Bool.false_eq_true, if_false, replay_cons, h.1 hn,
            ih h.2]

/-- **A late action.**  Of the processes in order, those with `done` have acted.  Now `n`
acts too.  That is as if it had acted in its turn, if it commutes with the later ones that
have acted. -/
theorem replay_late {xs ys : List N} {n : N} {done done' : N → Bool} (hn : done n = false)
    (hn' : done' n = true) (hsame : ∀ m ∈ xs ++ ys, done' m = done m)
    (hcomm : ∀ m ∈ ys, done m = true → Function.Commute (act n) (act m)) (s : S) :
    replay act ((xs ++ n :: ys).filter done') s =
      act n (replay act ((xs ++ n :: ys).filter done) s) := by
  have hxs : xs.filter done' = xs.filter done :=
    List.filter_congr fun m hm => hsame m (List.mem_append_left _ hm)
  have hys : ys.filter done' = ys.filter done :=
    List.filter_congr fun m hm => hsame m (List.mem_append_right _ hm)
  have hpast : Function.Commute (act n) (replay act (ys.filter done)) := by
    refine commute_replay fun m hm => ?_
    obtain ⟨hmem, hdone⟩ := List.mem_filter.mp hm
    exact hcomm m hmem hdone
  simp only [List.filter_append, List.filter_cons, hn, hn', hxs, hys, replay_append, if_true,
    replay_cons, Bool.false_eq_true, if_false]
  exact (hpast _).symm

end Interleave
