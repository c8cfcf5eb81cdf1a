/-
# `Dpx.Lib.Cursor` — cursors over a list, and cursors that pass over items

A cursor stands in front of a list, on one of its items or behind it, and moves by one.  It is
kept as what it has passed, nearest first, and what is to come, so that no move needs an index
bound.  Turned around (`flip`) it is a cursor over the reversed list, and a move back is a move
on (`prev_eq`); what holds of one direction is carried to the other.

A cursor that passes over the items in `drop` moves and then goes on in the same direction
while it stands on one of them (`pass`).  The loop carries fuel and answers `none` when it runs
out, so that an answer says that the loop ends.  It behaves like a cursor over the list without
those items: `kept` is that cursor, and `pass_next`, `pass_prev` and `pass_first` say that each
move commutes with it.

`visit` is the usual loop: look, move, until a move answers false.
-/
import Mathlib.Data.List.Basic

inductive Cursor (A : Type) where
  | before (items : List A)
  | on (back : List A) (a : A) (fore : List A)
  | after (back : List A)
  deriving DecidableEq, Repr

namespace Cursor

variable {A K : Type}

/-! ## Moves -/

/-- On the first of the items to come, or behind the last. -/
def enter (back : List A) : List A → Cursor A
  | [] => .after back
  | a :: fore => .on back a fore

def items : Cursor A → List A
  | .before items => items
  | .on back a fore => back.reverse ++ a :: fore
  | .after back => back.reverse

def current : Cursor A → Option A
  | .on _ a _ => some a
  | .before _ | .after _ => none

def valid (c : Cursor A) : Bool := c.current.isSome

def first (c : Cursor A) : Cursor A := enter [] c.items

def next : Cursor A → Cursor A
  | .before items => enter [] items
  | .on back a fore => enter (a :: back) fore
  | .after back => .after back

def prev : Cursor A → Cursor A
  | .before items => .before items
  | .on [] a fore => .before (a :: fore)
  | .on (b :: back) a fore => .on back b (a :: fore)
  | .after [] => .before []
  | .after (b :: back) => .on back b []

/-- The same position, seen from the other end. -/
def flip : Cursor A → Cursor A
  | .before items => .after items
  | .on back a fore => .on fore a back
  | .after back => .before back

theorem items_enter (back fore : List A) : (enter back fore).items = back.reverse ++ fore := by
  cases fore with
  | nil => rw [enter, items, List.append_nil]
  | cons a fore => rfl

@[simp] theorem flip_flip (c : Cursor A) : c.flip.flip = c := by
  cases c <;> rfl

@[simp] theorem items_flip (c : Cursor A) : c.flip.items = c.items.reverse := by
  cases c with
  | before items => rfl
  | on back a fore => simp [flip, items]
  | after back => exact (List.reverse_reverse back).symm

@[simp] theorem current_flip (c : Cursor A) : c.flip.current = c.current := by
  cases c <;> rfl

@[simp] theorem valid_flip (c : Cursor A) : c.flip.valid = c.valid := by
  rw [valid, current_flip, valid]

theorem prev_eq (c : Cursor A) : c.prev = c.flip.next.flip := by
  cases c with
  | before items => rfl
  | on back a fore => cases back <;> rfl
  | after back => cases back <;> rfl

/-! ## Passing over items -/

variable (drop : A → Bool)

/-- `for c.Valid() && drop(c) { move(c) }` -/
def skip (move : Cursor A → Cursor A) : Nat → Cursor A → Option (Cursor A)
  | 0, _ => none
  | n + 1, c => if c.current.any drop then skip move n (move c) else some c

/-- A move that goes on while it meets items to drop; it answers whether it found one to keep. -/
def pass (start move : Cursor A → Cursor A) (fuel : Nat) (c : Cursor A) :
    Option (Bool × Cursor A) :=
  if (start c).valid then
    (skip drop move fuel (start c)).map fun c => (c.valid, c)
  else some (false, start c)

/-- The cursor over the items that are kept. -/
def kept : Cursor A → Cursor A
  | .before items => .before (items.filter fun a => !drop a)
  | .on back a fore => .on (back.filter fun a => !drop a) a (fore.filter fun a => !drop a)
  | .after back => .after (back.filter fun a => !drop a)

/-- It does not stand on an item to drop. -/
def Settled (c : Cursor A) : Prop := c.current.any drop = false

variable {drop}

@[simp] theorem kept_flip (c : Cursor A) : c.flip.kept drop = (c.kept drop).flip := by
  cases c <;> rfl

@[simp] theorem current_kept (c : Cursor A) : (c.kept drop).current = c.current := by
  cases c <;> rfl

@[simp] theorem valid_kept (c : Cursor A) : (c.kept drop).valid = c.valid := by
  rw [valid, current_kept, valid]

theorem items_kept {c : Cursor A} (h : c.Settled drop) :
    (c.kept drop).items = c.items.filter fun a => !drop a := by
  cases c with
  | before items => rfl
  | on back a fore =>
      have ha : drop a = false := h
      simp [kept, items, ha]
  | after back => simp [kept, items]

theorem Settled.flip {c : Cursor A} (h : c.Settled drop) : c.flip.Settled drop := by
  rw [Settled, current_flip]
  exact h

/-! ### Onward -/

/-- **The loop ends**, on the next item that is kept. -/
theorem skip_enter (fore : List A) : ∀ (back : List A) {n : Nat}, fore.length < n →
    ∃ c, skip drop next n (enter back fore) = some c ∧ c.Settled drop ∧
      c.kept drop = enter (back.filter fun a => !drop a) (fore.filter fun a => !drop a) ∧
      c.items = back.reverse ++ fore := by
  induction fore with
  | nil =>
      intro back n hn
      obtain ⟨n, rfl⟩ := Nat.exists_eq_succ_of_ne_zero (Nat.ne_of_gt hn)
      exact ⟨.after back, rfl, rfl, rfl, items_enter back []⟩
  | cons a fore ih =>
      intro back n hn
      obtain ⟨n, rfl⟩ := Nat.exists_eq_succ_of_ne_zero (Nat.ne_of_gt (Nat.zero_lt_of_lt hn))
      cases ha : drop a with
      | false =>
          refine ⟨.on back a fore, ?_, ha, ?_, rfl⟩
          · simp [skip, enter, current, ha]
          · simp [kept, enter, ha]
      | true =>
          obtain ⟨c, hskip, hsettled, hkept, hitems⟩ := ih (a :: back) (Nat.lt_of_succ_lt_succ hn)
          refine ⟨c, ?_, hsettled, ?_, ?_⟩
          · rw [skip, if_pos (by exact ha)]
            exact hskip
          · simpa [ha] using hkept
          · simpa using hitems

theorem exists_skip_next (drop : A → Bool) {c : Cursor A} {n : Nat} (hn : c.items.length < n) :
    ∃ c', skip drop next n c = some c' ∧ c'.Settled drop := by
  obtain ⟨k, rfl⟩ := Nat.exists_eq_succ_of_ne_zero (Nat.ne_of_gt (Nat.zero_lt_of_lt hn))
  cases c with
  | before items => exact ⟨.before items, rfl, rfl⟩
  | on back a fore =>
      have hfore : (a :: fore).length < k + 1 := by
        simp only [items, List.length_append] at hn
        omega
      obtain ⟨c', hskip, hsettled, -⟩ := skip_enter (a :: fore) back hfore
      exact ⟨c', hskip, hsettled⟩
  | after back => exact ⟨.after back, rfl, rfl⟩

theorem pass_enter (start : Cursor A → Cursor A) {c : Cursor A} (back : List A) {fore : List A}
    (hstart : start c = enter back fore) {n : Nat} (hn : fore.length < n) :
    ∃ c', pass drop start next n c = some (c'.valid, c') ∧ c'.Settled drop ∧
      c'.kept drop = enter (back.filter fun a => !drop a) (fore.filter fun a => !drop a) ∧
      c'.items = back.reverse ++ fore := by
  rw [pass, hstart]
  cases fore with
  | nil => exact ⟨.after back, rfl, rfl, rfl, items_enter back []⟩
  | cons a fore =>
      obtain ⟨c', hskip, hrest⟩ := skip_enter (a :: fore) back hn
      refine ⟨c', ?_, hrest⟩
      rw [hskip]
      rfl

section Moves
variable {c : Cursor A} {n : Nat} (hn : c.items.length < n)
include hn

theorem pass_first (drop : A → Bool) :
    ∃ c', pass drop first next n c = some (c'.valid, c') ∧ c'.Settled drop ∧
    c'.kept drop = enter [] (c.items.filter fun a => !drop a) ∧ c'.items = c.items :=
  pass_enter first [] rfl hn

/-- **A move on** of the cursor over the kept items. -/
theorem pass_next (h : c.Settled drop) :
    ∃ c', pass drop next next n c = some (c'.valid, c') ∧ c'.Settled drop ∧
      c'.kept drop = (c.kept drop).next ∧ c'.items = c.items := by
  cases c with
  | before items => exact pass_enter next [] rfl hn
  | on back a fore =>
      have ha : drop a = false := h
      have hfore : fore.length < n := by
        simp only [items, List.length_append, List.length_cons] at hn
        omega
      have hstart : next (.on back a fore) = enter (a :: back) fore := rfl
      obtain ⟨c', hpass, hsettled, hkept, hitems⟩ := pass_enter next (a :: back) hstart hfore
      refine ⟨c', hpass, hsettled, ?_, ?_⟩
      · simpa [kept, next, ha] using hkept
      · simpa [items] using hitems
  | after back => exact ⟨.after back, rfl, rfl, rfl, rfl⟩

end Moves

/-! ### Back -/

theorem skip_prev (n : Nat) : ∀ c : Cursor A,
    skip drop prev n c = (skip drop next n c.flip).map flip := by
  induction n with
  | zero => exact fun c => rfl
  | succ n ih =>
      intro c
      rw [skip, skip, current_flip]
      split
      · rw [ih, prev_eq, flip_flip]
      · rw [Option.map_some, flip_flip]

theorem exists_skip_prev (drop : A → Bool) {c : Cursor A} {n : Nat} (hn : c.items.length < n) :
    ∃ c', skip drop prev n c = some c' ∧ c'.Settled drop := by
  have hlen : c.flip.items.length < n := by rwa [items_flip, List.length_reverse]
  obtain ⟨c', hskip, hsettled⟩ := exists_skip_next drop hlen
  refine ⟨c'.flip, ?_, hsettled.flip⟩
  rw [skip_prev, hskip]
  rfl

theorem pass_prev_eq (n : Nat) (c : Cursor A) :
    pass drop prev prev n c = (pass drop next next n c.flip).map (Prod.map id flip) := by
  rw [pass, pass, skip_prev, prev_eq, flip_flip, valid_flip]
  split
  · rw [Option.map_map, Option.map_map]
    refine congrArg (Option.map · _) (funext fun c => ?_)
    simp
  · rfl

theorem pass_prev {c : Cursor A} {n : Nat} (hn : c.items.length < n) (h : c.Settled drop) :
    ∃ c', pass drop prev prev n c = some (c'.valid, c') ∧ c'.Settled drop ∧
      c'.kept drop = (c.kept drop).prev ∧ c'.items = c.items := by
  have hlen : c.flip.items.length < n := by rwa [items_flip, List.length_reverse]
  obtain ⟨c', hpass, hsettled, hkept, hitems⟩ := pass_next hlen h.flip
  refine ⟨c'.flip, ?_, hsettled.flip, ?_, ?_⟩
  · rw [pass_prev_eq, hpass]
    simp
  · rw [kept_flip, hkept, kept_flip, prev_eq]
  · rw [items_flip, hitems, items_flip, List.reverse_reverse]

/-! ## Visiting -/

/-- `for ok { look; ok = move() }` -/
def visit (move : Cursor A → Option (Bool × Cursor A)) (look : A → K) :
    Nat → Bool × Cursor A → Option (List K × Cursor A)
  | 0, _ => none
  | n + 1, (ok, c) =>
      if ok then do
        let (ks, c') ← visit move look n (← move c)
        return ((c.current.map look).toList ++ ks, c')
      else some ([], c)

theorem visit_next (look : A → K) {n : Nat} (fore : List A) : ∀ {c : Cursor A} {back : List A}
    {m : Nat}, c.items.length < n → fore.length < m → c.Settled drop →
      c.kept drop = enter back fore →
      ∃ c', visit (pass drop next next n) look m (c.valid, c) = some (fore.map look, c') ∧
        c'.Settled drop ∧ c'.kept drop = .after (fore.reverse ++ back) ∧ c'.items = c.items := by
  induction fore with
  | nil =>
      intro c back m hn hm hsettled hkept
      obtain ⟨m, rfl⟩ := Nat.exists_eq_succ_of_ne_zero (Nat.ne_of_gt hm)
      have hvalid : c.valid = false := by
        have hkeptValid := congrArg valid hkept
        rwa [valid_kept] at hkeptValid
      refine ⟨c, ?_, hsettled, hkept, rfl⟩
      rw [visit, hvalid]
      rfl
  | cons a fore ih =>
      intro c back m hn hm hsettled hkept
      obtain ⟨m, rfl⟩ := Nat.exists_eq_succ_of_ne_zero (Nat.ne_of_gt (Nat.zero_lt_of_lt hm))
      have hcurrent : c.current = some a := by
        have hkeptCurrent := congrArg current hkept
        rwa [current_kept] at hkeptCurrent
      obtain ⟨c₁, hpass, hsettled₁, hkept₁, hitems₁⟩ := pass_next hn hsettled
      rw [hkept] at hkept₁
      rw [← hitems₁] at hn
      obtain ⟨c₂, hvisit, hsettled₂, hkept₂, hitems₂⟩ :=
        ih hn (Nat.lt_of_succ_lt_succ hm) hsettled₁ hkept₁
      refine ⟨c₂, ?_, hsettled₂, ?_, hitems₂.trans hitems₁⟩
      · rw [visit, valid, hcurrent]
        simp [hpass, hvisit]
      · rw [hkept₂, List.reverse_cons, List.append_assoc]
        rfl

theorem visit_prev_eq (look : A → K) (n m : Nat) : ∀ (ok : Bool) (c : Cursor A),
    visit (pass drop prev prev n) look m (ok, c) =
      (visit (pass drop next next n) look m (ok, c.flip)).map (Prod.map id flip) := by
  induction m with
  | zero => exact fun ok c => rfl
  | succ m ih =>
      intro ok c
      rw [visit, visit]
      cases ok with
      | false => simp
      | true =>
          rw [pass_prev_eq, current_flip]
          cases pass drop next next n c.flip with
          | none => rfl
          | some r =>
              obtain ⟨ok, c₁⟩ := r
              simp only [Option.map_some, Prod.map_apply, id_eq, if_true, Option.bind_eq_bind,
                Option.bind_some, ih, flip_flip]
              cases visit (pass drop next next n) look m (ok, c₁) <;> rfl

section Traversal
variable (look : A → K) {c : Cursor A} {n m : Nat} (hn : c.items.length < n)
  (hm : c.items.length < m)
include hn hm

theorem visit_first (drop : A → Bool) :
    ∃ c', (pass drop first next n c).bind (visit (pass drop next next n) look m) =
      some ((c.items.filter fun a => !drop a).map look, c') ∧ c'.Settled drop ∧
    c'.kept drop = .after (c.items.filter fun a => !drop a).reverse ∧ c'.items = c.items := by
  obtain ⟨c₁, hpass, hsettled, hkept, hitems⟩ := pass_first hn drop
  rw [← hitems] at hn
  obtain ⟨c₂, hvisit, hsettled₂, hkept₂, hitems₂⟩ := visit_next look _ hn
    (Nat.lt_of_le_of_lt (List.length_filter_le _ _) hm) hsettled hkept
  refine ⟨c₂, ?_, hsettled₂, ?_, hitems₂.trans hitems⟩
  · rw [hpass]
    exact hvisit
  · rw [hkept₂, List.append_nil]

theorem visit_last (h : c.Settled drop) {back : List A} (hback : c.kept drop = .after back) :
    ∃ c', (pass drop prev prev n c).bind (visit (pass drop prev prev n) look m) =
        some (back.map look, c') ∧ c'.Settled drop ∧
      c'.kept drop = .before back.reverse ∧ c'.items = c.items := by
  have hlen : back.length < m := by
    have hkept := items_kept h
    rw [hback, items] at hkept
    rw [← List.length_reverse, hkept]
    exact Nat.lt_of_le_of_lt (List.length_filter_le _ _) hm
  obtain ⟨c₁, hpass, hsettled, hkept, hitems⟩ := pass_prev hn h
  have hflip : c₁.flip.kept drop = enter [] back := by
    rw [kept_flip, hkept, hback, prev_eq, flip_flip]
    rfl
  have hn₁ : c₁.flip.items.length < n := by
    rw [items_flip, List.length_reverse, hitems]
    exact hn
  obtain ⟨c₂, hvisit, hsettled₂, hkept₂, hitems₂⟩ :=
    visit_next look back hn₁ hlen hsettled.flip hflip
  refine ⟨c₂.flip, ?_, hsettled₂.flip, ?_, ?_⟩
  · rw [hpass, Option.bind_some, visit_prev_eq, ← valid_flip, hvisit]
    rfl
  · rw [kept_flip, hkept₂, List.append_nil]
    rfl
  · rw [items_flip, hitems₂, items_flip, List.reverse_reverse, hitems]

end Traversal

end Cursor
