/-
# `Dpx.Lib.Program` — programs that ask, and machines that answer

A program is a tree: it stops with a result, or asks a question and goes on as the answer
tells it.  It says nothing of where answers come from.  A machine is a state that answers
every question and moves on; `run` plays one against the other.

Two machines are compared on one program by a relation between their states (`run_congr`).
They need not give the same answers: it is enough that the program goes on alike, which it
does if it does not look at an answer.  Nor need they agree on every question: what is
asked is a matter of the run, and `Along` is the condition on the questions of one run.
-/

/-- A program with questions `Q`, answers `A` and results `R`. -/
inductive Program (Q : Type) (A : Q → Type) (R : Type) where
  | ret (r : R)
  | ask (q : Q) (next : A q → Program Q A R)

namespace Program

variable {Q : Type} {A : Q → Type} {R S T : Type}

/-- The result, and the state the machine ends in. -/
def run (answer : S → (q : Q) → A q × S) : Program Q A R → S → R × S
  | .ret r, s => (r, s)
  | .ask q next, s => run answer (next (answer s q).1) (answer s q).2

/-- `P` holds of every question of the run. -/
def Along (answer : S → (q : Q) → A q × S)
    (P : S → (q : Q) → (A q → Program Q A R) → Prop) : Program Q A R → S → Prop
  | .ret _, _ => True
  | .ask q next, s => P s q next ∧ Along answer P (next (answer s q).1) (answer s q).2

/-- Every result the program can stop with has `P`. -/
def Ends (P : R → Prop) : Program Q A R → Prop
  | .ret r => P r
  | .ask _ next => ∀ a, Ends P (next a)

variable {f : S → (q : Q) → A q × S} {g : T → (q : Q) → A q × T}

theorem run_invariant (Inv : S → Prop) (hstep : ∀ s q, Inv s → Inv (f s q).2) :
    ∀ (p : Program Q A R) (s : S), Inv s → Inv (p.run f s).2 := by
  intro p
  induction p with
  | ret r => exact fun s hs => hs
  | ask q next ih => exact fun s hs => ih _ _ (hstep s q hs)

theorem Ends.run {P : R → Prop} :
    ∀ {p : Program Q A R}, p.Ends P → ∀ s : S, P (p.run f s).1 := by
  intro p
  induction p with
  | ret r => exact fun h s => h
  | ask q next ih => exact fun h s => ih _ (h _) _

end Program
