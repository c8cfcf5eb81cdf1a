/-
# `Dpx.Lib.Framing` — decoders that walk a buffer by position

A binary decoder of the usual kind keeps a position in a buffer: it checks that the next
field fits, takes it, and moves on.  What it should accept is a *layout*, a relation
between byte strings and the values they spell.  `Reads d R f` says that the decoder `f`
on the buffer `d` is exact for the layout `R`: it succeeds at a position if and only if
some spelling stands there, with the value spelled, and ends right behind the spelling.

"Stands there" is `e <+: d.drop pos`, so that what follows the spelling is free and the
pieces of a spelling can be looked at one by one (`append_isPrefix_iff`).  A counted list
is `Seq R`, the loop that reads it is `many`, and `reads_many` lifts exactness from an item
to the loop.  Encoders meet layouts in `seq_flatMap`.
-/
import Mathlib.Data.List.Infix

namespace Framing

variable {A B E : Type}

/-! ## Pieces of a string -/

theorem append_isPrefix_iff {a b l : List B} :
    a ++ b <+: l ↔ a <+: l ∧ b <+: l.drop a.length := by
  constructor
  · rintro ⟨t, rfl⟩
    simp
  · rintro ⟨⟨t, rfl⟩, hb⟩
    rw [List.drop_left] at hb
    obtain ⟨u, rfl⟩ := hb
    exact ⟨u, by simp⟩

theorem append_isPrefix_drop_iff {a b d : List B} {pos : Nat} :
    a ++ b <+: d.drop pos ↔ a <+: d.drop pos ∧ b <+: d.drop (pos + a.length) := by
  rw [append_isPrefix_iff, List.drop_drop]

theorem isPrefix_drop_iff {e d : List B} {pos n : Nat} (h : pos + n ≤ d.length) :
    e <+: d.drop pos ∧ e.length = n ↔ e = (d.drop pos).take n := by
  constructor
  · rintro ⟨he, rfl⟩
    exact List.prefix_iff_eq_take.mp he
  · rintro rfl
    refine ⟨ List.take_prefix _ _, ?_⟩
    rw [List.length_take, List.length_drop]
    omega

theorem singleton_isPrefix_drop_iff {b : B} {d : List B} {pos : Nat} :
    [b] <+: d.drop pos ↔ d[pos]? = some b := by
  have hhead : (d.drop pos).head? = d[pos]? := by simp
  rw [← hhead]
  cases d.drop pos with
  | nil => simp
  | cons c rest => simp [List.cons_prefix_cons, eq_comm]

/-! ## Counted lists -/

/-- A run of items, spelled one after the other. -/
inductive Seq (R : List B → A → Prop) : List B → List A → Prop
  | nil : Seq R [] []
  | cons {e es a as} (head : R e a) (tail : Seq R es as) : Seq R (e ++ es) (a :: as)

theorem seq_nil_iff {R : List B → A → Prop} {e : List B} : Seq R e [] ↔ e = [] := by
  constructor
  · intro h
    cases h
    rfl
  · rintro rfl
    exact .nil

theorem seq_flatMap {R : List B → A → Prop} {put : A → List B} {as : List A}
    (h : ∀ a ∈ as, R (put a) a) : Seq R (as.flatMap put) as := by
  induction as with
  | nil => exact .nil
  | cons a as ih =>
      rw [List.flatMap_cons]
      exact .cons (h a List.mem_cons_self) (ih fun x hx => h x (List.mem_cons_of_mem _ hx))

theorem Seq.forall_mem {R : List B → A → Prop} {P : A → Prop} (hR : ∀ {e a}, R e a → P a)
    {l : List B} {as : List A} (h : Seq R l as) : ∀ a ∈ as, P a := by
  induction h with
  | nil => exact fun a ha => absurd ha List.not_mem_nil
  | cons head tail ih => exact List.forall_mem_cons.mpr ⟨hR head, ih⟩

/-! ## Exact decoders -/

/-- The decoder answers at a position with what is spelled there, and ends behind it. -/
def Reads (d : List B) (R : List B → A → Prop) (f : Nat → Except E (A × Nat)) : Prop :=
  ∀ pos a fin, f pos = .ok (a, fin) ↔ ∃ e, R e a ∧ e <+: d.drop pos ∧ fin = pos + e.length

/-- At a position there is one spelling to be read. -/
theorem Reads.unique {d : List B} {R : List B → A → Prop} {f : Nat → Except E (A × Nat)}
    (h : Reads d R f) {pos : Nat} {e e' : List B} {a a' : A} (hR : R e a)
    (he : e <+: d.drop pos) (hR' : R e' a') (he' : e' <+: d.drop pos) :
    a = a' ∧ e.length = e'.length := by
  have hread := (h pos a _).mpr ⟨e, hR, he, rfl⟩
  have hread' := (h pos a' _).mpr ⟨e', hR', he', rfl⟩
  rw [hread] at hread'
  obtain ⟨ha, hlen⟩ := Prod.mk.inj (Except.ok.inj hread')
  exact ⟨ha, Nat.add_left_cancel hlen⟩

/-- The loop over `n` items; an item is told its number and its position. -/
def many (item : Nat → Nat → Except E (A × Nat)) :
    Nat → Nat → Nat → Except E (List A × Nat)
  | 0, _, pos => .ok ([], pos)
  | n + 1, i, pos => do
      let (a, pos) ← item i pos
      let (as, pos) ← many item n (i + 1) pos
      return (a :: as, pos)

theorem many_succ_ok_iff {item : Nat → Nat → Except E (A × Nat)} {n i pos fin : Nat}
    {as : List A} : many item (n + 1) i pos = .ok (as, fin) ↔
      ∃ a mid rest, item i pos = .ok (a, mid) ∧ many item n (i + 1) mid = .ok (rest, fin) ∧
        as = a :: rest := by
  rw [many]
  cases hi : item i pos with
  | error e => simp [bind, Except.bind]
  | ok r =>
      obtain ⟨a, mid⟩ := r
      cases hm : many item n (i + 1) mid with
      | error e => simp [bind, Except.bind, hm]
      | ok q =>
          obtain ⟨rest, fin'⟩ := q
          simp [bind, Except.bind, pure, Except.pure, hm, and_comm, eq_comm]

theorem exists_of_many_error {item : Nat → Nat → Except E (A × Nat)} {x : E} (n : Nat) :
    ∀ {i pos}, many item n i pos = .error x → ∃ j p, item j p = .error x := by
  induction n with
  | zero =>
      intro i pos h
      cases h
  | succ n ih =>
      intro i pos h
      rw [many] at h
      cases hi : item i pos with
      | error e =>
          rw [hi] at h
          cases h
          exact ⟨i, pos, hi⟩
      | ok r =>
          obtain ⟨a, mid⟩ := r
          rw [hi] at h
          cases hm : many item n (i + 1) mid with
          | error e =>
              simp only [bind, Except.bind, hm] at h
              cases h
              exact ih hm
          | ok q =>
              simp only [bind, Except.bind, hm] at h
              cases h

/-- **The loop is exact if its items are.** -/
theorem reads_many {d : List B} {R : List B → A → Prop} {item : Nat → Nat → Except E (A × Nat)}
    (h : ∀ i, Reads d R (item i)) (n : Nat) :
    ∀ i, Reads d (fun e as => Seq R e as ∧ as.length = n) (many item n i) := by
  induction n with
  | zero =>
      intro i pos as fin
      simp only [many, Except.ok.injEq, Prod.mk.injEq, List.length_eq_zero_iff]
      constructor
      · rintro ⟨rfl, rfl⟩
        exact ⟨[], ⟨.nil, rfl⟩, List.nil_prefix, rfl⟩
      · rintro ⟨e, ⟨hseq, rfl⟩, -, rfl⟩
        rw [seq_nil_iff.mp hseq]
        exact ⟨rfl, rfl⟩
  | succ n ih =>
      intro i pos as fin
      rw [many_succ_ok_iff]
      constructor
      · rintro ⟨a, mid, rest, hitem, hrest, rfl⟩
        obtain ⟨e, hR, hstand, rfl⟩ := (h i pos a mid).mp hitem
        obtain ⟨es, ⟨hseq, hlen⟩, hstands, rfl⟩ := (ih (i + 1) _ rest fin).mp hrest
        refine ⟨e ++ es, ⟨.cons hR hseq, congrArg (· + 1) hlen⟩, ?_, ?_⟩
        · exact append_isPrefix_drop_iff.mpr ⟨hstand, hstands⟩
        · rw [List.length_append, Nat.add_assoc]
      · rintro ⟨l, ⟨hseq, hlen⟩, hstand, rfl⟩
        cases hseq with
        | nil => cases hlen
        | @cons e es a rest hR htail =>
            obtain ⟨hhead, hrest⟩ := append_isPrefix_drop_iff.mp hstand
            refine ⟨a, pos + e.length, rest, (h i pos a _).mpr ⟨e, hR, hhead, rfl⟩, ?_, rfl⟩
            refine (ih (i + 1) _ rest _).mpr ⟨es, ⟨htail, Nat.succ.inj hlen⟩, hrest, ?_⟩
            rw [List.length_append, Nat.add_assoc]

end Framing
