/-
# `Dpx.Lib.PrefixRange` — scanning the strings that begin with a prefix

A store over an ordered alphabet scans ranges `[lo, hi)` of strings; to list the strings
that begin with `p` it is asked for the range from `p` to `p` followed by a run of the
greatest letter.  `mem_range_iff` says what that range holds: strings that begin with `p`
and nothing else, but not all of them.  Where the rest of a string itself begins with the
run, the string is at or above the bound.
-/
import Std.Data.ExtTreeMap
import Mathlib.Data.List.Infix

namespace PrefixRange

variable {A : Type} [Ord A]

theorem compare_append [Std.ReflOrd A] (p a b : List A) :
    compare (p ++ a) (p ++ b) = compare a b := by
  induction p with
  | nil => rfl
  | cons c p ih =>
      rw [List.cons_append, List.cons_append, List.compare_cons_cons, Std.ReflOrd.compare_self, ih]
      rfl

/-- What lies from `p` up to some continuation of `p` begins with `p`. -/
theorem isPrefix_of_range [Std.LawfulEqOrd A] {p q : List A} :
    ∀ {k : List A}, compare k p ≠ .lt → compare k (p ++ q) = .lt → p <+: k := by
  induction p with
  | nil => exact fun _ _ => List.nil_prefix
  | cons a p ih =>
      intro k hlo hhi
      cases k with
      | nil => exact absurd List.compare_nil_cons hlo
      | cons b k =>
          rw [List.cons_append, List.compare_cons_cons] at hhi
          rw [List.compare_cons_cons] at hlo
          cases hab : compare b a with
          | lt => exact absurd (by rw [hab]; rfl) hlo
          | gt => rw [hab] at hhi; cases hhi
          | eq =>
              rw [hab] at hlo hhi
              rw [Std.LawfulEqOrd.compare_eq_iff_eq.mp hab]
              exact List.cons_prefix_cons.mpr ⟨rfl, ih hlo hhi⟩

theorem lt_replicate_iff [Std.ReflOrd A] {top : A} (htop : ∀ a, a ≠ top → compare a top = .lt)
    (n : Nat) : ∀ k : List A,
      compare k (List.replicate n top) = .lt ↔ ¬ List.replicate n top <+: k := by
  induction n with
  | zero =>
      intro k
      cases k <;> simp [List.compare_cons_nil]
  | succ n ih =>
      intro k
      cases k with
      | nil => simp [List.replicate_succ, List.compare_nil_cons]
      | cons a k =>
          rw [List.replicate_succ, List.compare_cons_cons, List.cons_prefix_cons]
          by_cases ha : a = top
          · subst ha
            rw [Std.ReflOrd.compare_self]
            simpa using ih k
          · rw [htop a ha]
            simp [Ne.symm ha, Ordering.then]

theorem mem_range_iff [Std.LawfulEqOrd A] {top : A}
    (htop : ∀ a, a ≠ top → compare a top = .lt) {p k : List A} {n : Nat} :
    compare k p ≠ .lt ∧ compare k (p ++ List.replicate n top) = .lt ↔
      ∃ u, k = p ++ u ∧ ¬ List.replicate n top <+: u := by
  constructor
  · rintro ⟨hlo, hhi⟩
    obtain ⟨u, rfl⟩ := isPrefix_of_range hlo hhi
    rw [compare_append, lt_replicate_iff htop] at hhi
    exact ⟨u, rfl, hhi⟩
  · rintro ⟨u, rfl, hu⟩
    rw [compare_append, lt_replicate_iff htop]
    refine ⟨?_, hu⟩
    have hself := compare_append p u []
    rw [List.append_nil] at hself
    rw [hself]
    cases u <;> simp [List.compare_cons_nil]

end PrefixRange
