/-
# `Dpx.Lib.Runs` — runs of a system that takes events

A system is a total step function on states and events; an event whose guard fails
leaves the state as it is, so every list of events is a run.  Quantifying over lists
of events is quantifying over all interleavings.

`states` lists what a run passes through and `moves` pairs each event with the state
it was taken in.  A safety property is one of all states, a condition on the run one
of all its moves.  The rules below reduce a statement about runs to one about a single
step: `invariant` derives safety from a condition, `last_of_mem_states` carries a property
from any state of a run to its end, and `holds_iff` says in addition to the first that the
condition cannot be spared.

Two systems are compared by a relation between their states; one follows the other if it can
keep the relation (`follows`).

Two step functions that agree while a counter stays below a bound have the same runs as long
as it does (`states_eq_of_bound`): what is shown with a counter that grows without end holds
with one that wraps, up to there.

A state often holds a list of processes, each known by its position: one is started at
the end, one is replaced where it stands.
-/
import Mathlib.Algebra.GroupWithZero.Nat
import Mathlib.Data.List.Basic

namespace Runs

variable {S E : Type} (step : S → E → S)

/-- The states of a run, the first one included. -/
def states : S → List E → List S
  | s, [] => [s]
  | s, e :: es => s :: states (step s e) es

/-- Each event of a run with the state it was taken in. -/
def moves : S → List E → List (S × E)
  | _, [] => []
  | s, e :: es => (s, e) :: moves (step s e) es

variable {step}

theorem foldl_mem_states (es : List E) : ∀ s : S, es.foldl step s ∈ states step s es := by
  induction es with
  | nil => exact fun s => List.mem_singleton_self s
  | cons e es ih => exact fun s => List.mem_cons_of_mem s (ih (step s e))

theorem moves_eq_zip (es : List E) : ∀ s : S, moves step s es = (states step s es).zip es := by
  induction es with
  | nil => exact fun s => rfl
  | cons e es ih => exact fun s => congrArg _ (ih (step s e))

theorem moves_eq_of_states_eq {step' : S → E → S} {es : List E} {s : S}
    (h : states step' s es = states step s es) : moves step' s es = moves step s es := by
  rw [moves_eq_zip, moves_eq_zip, h]

theorem mem_of_mem_moves {es : List E} {m : S × E} {s : S} (h : m ∈ moves step s es) :
    m.2 ∈ es := by
  rw [moves_eq_zip] at h
  exact (List.of_mem_zip h).2

theorem mem_states_of_mem_moves {es : List E} {m : S × E} {s : S} (h : m ∈ moves step s es) :
    m.1 ∈ states step s es := by
  rw [moves_eq_zip] at h
  exact (List.of_mem_zip h).1

/-- A run of events that all meet `ok` leads from the one state to the other. -/
def Reaches (step : S → E → S) (ok : E → Prop) (s t : S) : Prop :=
  ∃ es : List E, (∀ e ∈ es, ok e) ∧ es.foldl step s = t

namespace Reaches

variable {ok : E → Prop} {s t u : S}

theorem repeated (e : E) (he : ok e) (n : Nat) (s : S) :
    Reaches step ok s ((List.replicate n e).foldl step s) := by
  refine ⟨List.replicate n e, fun e' he' => ?_, rfl⟩
  rw [(List.mem_replicate.mp he').2]
  exact he

theorem one (e : E) (he : ok e) (h : step s e = t) : Reaches step ok s t := by
  subst h
  exact repeated e he 1 s

theorem trans (h : Reaches step ok s t) (h' : Reaches step ok t u) : Reaches step ok s u := by
  obtain ⟨es, hes, rfl⟩ := h
  obtain ⟨es', hes', rfl⟩ := h'
  exact ⟨es ++ es', List.forall_mem_append.mpr ⟨hes, hes'⟩, List.foldl_append⟩

end Reaches

/-- What holds at first and is kept by every step that meets `ok` holds all along a
run whose moves meet `ok`. -/
theorem invariant {Inv : S → Prop} {ok : S → E → Prop}
    (hstep : ∀ s e, Inv s → ok s e → Inv (step s e)) {es : List E} :
    ∀ {s : S}, Inv s → (∀ m ∈ moves step s es, ok m.1 m.2) →
      ∀ t ∈ states step s es, Inv t := by
  induction es with
  | nil =>
      intro s hs _ t ht
      rw [List.mem_singleton.mp ht]
      exact hs
  | cons e es ih =>
      intro s hs hok t ht
      rcases List.mem_cons.mp ht with rfl | ht
      · exact hs
      · have hhead : ok s e := hok (s, e) List.mem_cons_self
        exact ih (hstep s e hs hhead) (fun m hm => hok m (List.mem_cons_of_mem _ hm)) t ht

theorem always {Inv : S → Prop} (hstep : ∀ s e, Inv s → Inv (step s e)) {es : List E} {s : S}
    (hs : Inv s) : ∀ t ∈ states step s es, Inv t := by
  have hok : ∀ s e, Inv s → True → Inv (step s e) := fun s e h _ => hstep s e h
  exact invariant hok hs fun _ _ => trivial

theorem last_of_mem_states {Inv P : S → Prop} {ok : S → E → Prop}
    (hstep : ∀ s e, Inv s → ok s e → Inv (step s e) ∧ (P s → P (step s e))) {es : List E} :
    ∀ {s : S}, Inv s → (∀ m ∈ moves step s es, ok m.1 m.2) →
      ∀ t ∈ states step s es, P t → P (es.foldl step s) := by
  induction es with
  | nil =>
      intro s _ _ t ht hP
      rw [List.mem_singleton.mp ht] at hP
      exact hP
  | cons e es ih =>
      intro s hs hok t ht hP
      have hhead : ok s e := hok (s, e) List.mem_cons_self
      have hrest := ih (hstep s e hs hhead).1 fun m hm => hok m (List.mem_cons_of_mem _ hm)
      rcases List.mem_cons.mp ht with rfl | ht
      · have hnext : step t e ∈ states step (step t e) es := by
          cases es <;> exact List.mem_cons_self
        exact hrest _ hnext ((hstep t e hs hhead).2 hP)
      · exact hrest t ht hP

/-- If, among states with `Inv`, a step keeps `P` exactly when it meets `ok`, then `P`
holds all along a run exactly when all its moves meet `ok`. -/
theorem holds_iff {Inv P : S → Prop} {ok : S → E → Prop}
    (hinv : ∀ s e, Inv s → Inv (step s e))
    (hstep : ∀ s e, Inv s → P s → (P (step s e) ↔ ok s e)) {es : List E} :
    ∀ {s : S}, Inv s → P s →
      ((∀ t ∈ states step s es, P t) ↔ ∀ m ∈ moves step s es, ok m.1 m.2) := by
  induction es with
  | nil =>
      intro s _ hP
      refine ⟨fun _ m hm => absurd hm List.not_mem_nil, fun _ t ht => ?_⟩
      rw [List.mem_singleton.mp ht]
      exact hP
  | cons e es ih =>
      intro s hs hP
      have hnext : step s e ∈ states step (step s e) es := by
        cases es <;> exact List.mem_cons_self
      rw [states, moves, List.forall_mem_cons, List.forall_mem_cons]
      constructor
      · rintro ⟨-, hrest⟩
        have hP' := hrest _ hnext
        exact ⟨(hstep s e hs hP).mp hP', (ih (hinv s e hs) hP').mp hrest⟩
      · rintro ⟨hok, hrest⟩
        have hP' := (hstep s e hs hP).mpr hok
        exact ⟨hP, (ih (hinv s e hs) hP').mpr hrest⟩

/-- The second system follows the first: what relates their states is kept if it answers each
event with one of its own or with none.  Then it has, for every such run of the first, a run that
is no longer and ends in a related state. -/
theorem follows {S' E' : Type} {step' : S' → E' → S'} {Rel : S → S' → Prop} {ok : S → E → Prop}
    (hstep : ∀ s s' e, Rel s s' → ok s e →
      Rel (step s e) s' ∨ ∃ e', Rel (step s e) (step' s' e')) {es : List E} :
    ∀ {s : S} {s' : S'}, Rel s s' → (∀ m ∈ moves step s es, ok m.1 m.2) →
      ∃ es' : List E', es'.length ≤ es.length ∧ Rel (es.foldl step s) (es'.foldl step' s') := by
  induction es with
  | nil => exact fun h _ => ⟨[], Nat.le_refl _, h⟩
  | cons e es ih =>
      intro s s' h hok
      rw [moves, List.forall_mem_cons] at hok
      rcases hstep s s' e h hok.1 with hidle | ⟨e', hmove⟩
      · obtain ⟨es', hlen, hend⟩ := ih hidle hok.2
        exact ⟨es', Nat.le_succ_of_le hlen, hend⟩
      · obtain ⟨es', hlen, hend⟩ := ih hmove hok.2
        exact ⟨e' :: es', Nat.succ_le_succ hlen, hend⟩

/-! ## A counter with an end -/

section Bounded

variable {step' : S → E → S} {count : S → Nat} {cost : E → Nat} {bound : Nat}
  (hagree : ∀ s e, count s + cost e < bound → step' s e = step s e)
  (hcount : ∀ s e, count (step s e) ≤ count s + cost e)

include hagree hcount

/-- No event of the run takes the counter to the bound, so the two functions never differ. -/
theorem states_eq_of_bound (es : List E) : ∀ s : S, count s + (es.map cost).sum < bound →
    states step' s es = states step s es := by
  induction es with
  | nil => exact fun _ _ => rfl
  | cons e es ih =>
      intro s h
      rw [List.map_cons, List.sum_cons] at h
      have hle := hcount s e
      rw [states, states, hagree s e (by omega), ih (step s e) (by omega)]

end Bounded

/-! ## Processes by position -/

theorem getElem?_concat {P : Type} (ps : List P) (p : P) (m : Nat) :
    (ps ++ [p])[m]? = if m = ps.length then some p else ps[m]? := by
  rcases Nat.lt_trichotomy m ps.length with hm | rfl | hm
  · rw [List.getElem?_append_left hm, if_neg (by omega)]
  · simp
  · have hnone : (ps ++ [p])[m]? = none :=
      List.getElem?_eq_none (by rw [List.length_append, List.length_singleton]; omega)
    rw [hnone, if_neg (by omega), List.getElem?_eq_none (by omega)]

theorem getElem?_concat_cases {P : Type} {ps : List P} {p q : P} {m : Nat}
    (h : (ps ++ [p])[m]? = some q) :
    (m = ps.length ∧ q = p) ∨ (m < ps.length ∧ ps[m]? = some q) := by
  rw [getElem?_concat] at h
  split at h
  · rename_i hm
    exact Or.inl ⟨hm, (Option.some.inj h).symm⟩
  · exact Or.inr ⟨(List.getElem?_eq_some_iff.mp h).1, h⟩

theorem getElem?_set_cases {P : Type} {ps : List P} {p q : P} {m n : Nat}
    (h : (ps.set n p)[m]? = some q) : (m = n ∧ q = p) ∨ (m ≠ n ∧ ps[m]? = some q) := by
  rw [List.getElem?_set] at h
  split at h
  · rename_i hm
    split at h
    · exact Or.inl ⟨hm.symm, (Option.some.inj h).symm⟩
    · cases h
  · rename_i hm
    exact Or.inr ⟨fun heq => hm heq.symm, h⟩

theorem forall_mem_set {P : Type} {Q : P → Prop} {ps : List P} {p : P} {n : Nat}
    (h : ∀ q ∈ ps, Q q) (hp : Q p) : ∀ q ∈ ps.set n p, Q q := by
  intro q hq
  rcases List.mem_or_eq_of_mem_set hq with hq | rfl
  · exact h q hq
  · exact hp

/-! At most one process has the form `f`. -/

section Unique

variable {A P : Type} {f : A → P} {ps : List P} {p : P}
  (h : ∀ (m n : Nat) (a b : A), ps[m]? = some (f a) → ps[n]? = some (f b) → m = n)
  (hnew : ∀ a b, p = f a → f b ∉ ps)

include h hnew

theorem unique_concat (m n : Nat) (a b : A) (hm : (ps ++ [p])[m]? = some (f a))
    (hn : (ps ++ [p])[n]? = some (f b)) : m = n := by
  rcases getElem?_concat_cases hm with ⟨rfl, hpa⟩ | ⟨-, hm'⟩
  · rcases getElem?_concat_cases hn with ⟨rfl, -⟩ | ⟨-, hn'⟩
    · rfl
    · exact absurd (List.mem_of_getElem? hn') (hnew a b hpa.symm)
  · rcases getElem?_concat_cases hn with ⟨rfl, hpb⟩ | ⟨-, hn'⟩
    · exact absurd (List.mem_of_getElem? hm') (hnew b a hpb.symm)
    · exact h m n a b hm' hn'

theorem unique_set {i : Nat} (m n : Nat) (a b : A) (hm : (ps.set i p)[m]? = some (f a))
    (hn : (ps.set i p)[n]? = some (f b)) : m = n := by
  rcases getElem?_set_cases hm with ⟨rfl, hpa⟩ | ⟨-, hm'⟩
  · rcases getElem?_set_cases hn with ⟨rfl, -⟩ | ⟨-, hn'⟩
    · rfl
    · exact absurd (List.mem_of_getElem? hn') (hnew a b hpa.symm)
  · rcases getElem?_set_cases hn with ⟨rfl, hpb⟩ | ⟨-, hn'⟩
    · exact absurd (List.mem_of_getElem? hm') (hnew b a hpb.symm)
    · exact h m n a b hm' hn'

end Unique

theorem getElem?_set_of_ne {P : Type} {ps : List P} {p q r : P} {m n : Nat} (hn : ps[n]? = some p)
    (hm : ps[m]? = some r) (hne : r ≠ p) : (ps.set n q)[m]? = some r := by
  have hmn : n ≠ m := by
    rintro rfl
    exact hne (Option.some.inj (hm.symm.trans hn))
  rw [List.getElem?_set_ne hmn]
  exact hm

theorem map_set_of_eq {P B : Type} {f : P → B} {ps : List P} {n : Nat} {p q : P}
    (hn : ps[n]? = some p) (h : f q = f p) : (ps.set n q).map f = ps.map f := by
  obtain ⟨hlt, rfl⟩ := List.getElem?_eq_some_iff.mp hn
  rw [List.map_set, h, ← List.getElem_map f (h := by simpa using hlt), List.set_getElem_self]

theorem getD_map_set {P B : Type} (f : P → B) {ps : List P} {n : Nat} {p : P}
    (hn : ps[n]? = some p) (q : P) (m : Nat) (d : B) :
    (((ps.set n q).map f)[m]?).getD d = if m = n then f q else ((ps.map f)[m]?).getD d := by
  have hlt : n < ps.length := (List.getElem?_eq_some_iff.mp hn).1
  rw [List.getElem?_map, List.getElem?_set]
  by_cases hm : m = n
  · subst hm
    simp [hlt]
  · simp [hm, Ne.symm hm]

theorem getD_map_concat {P B : Type} (f : P → B) (ps : List P) {p : P} {d : B} (hp : f p = d)
    (m : Nat) : (((ps ++ [p]).map f)[m]?).getD d = ((ps.map f)[m]?).getD d := by
  rw [List.map_append, List.map_singleton, getElem?_concat]
  split
  · rename_i hm
    rw [hm, List.getElem?_eq_none (Nat.le_refl _), hp]
    rfl
  · rfl

theorem countP_set_of_not {P : Type} {f : P → Bool} {ps : List P} {n : Nat} {p : P}
    (hn : ps[n]? = some p) (hp : f p = false) (q : P) :
    (ps.set n q).countP f = ps.countP f + (f q).toNat := by
  obtain ⟨hlt, rfl⟩ := List.getElem?_eq_some_iff.mp hn
  rw [List.countP_set hlt, hp]
  cases f q <;> simp

end Runs
