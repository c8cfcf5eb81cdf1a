/-
# `Dpx.Lib.Chunked` — machines with a scratch state that lives for one chunk

A machine consumes a list of inputs chunk by chunk.  Besides its state it keeps
a scratch value that starts `fresh` in every chunk and is dropped at the end of
it: a cache, a write buffer, a set of keys seen in this call.  The question is
when the cutting into chunks cannot be observed.

The answers may depend on the scratch.  `Lawful` asks for what makes the
dependence analysable: an order on scratch values with `fresh` least, in which a
step with a larger scratch can only leave the answer alone or move it away from
the fresh one for good (`between`), and a state that sees the scratch only
through the answer (`state_eq`).  Then

  * `cut_eq_of_silent`: if along the ONE-chunk run no step's answer depends on
    the scratch, every cut gives the same answers and the same state;
  * `silent_of_results`: conversely, if only the one-chunk cut and the finest
    cut give the same answers, no step's answer depends on the scratch.

Three rules need no law: what every step keeps, every cut keeps (`cut_invariant`); a fact
that a step makes true only together with a telling answer is true at the end exactly if it
was at the start or such an answer was given (`cut_collects`); and an input that leaves
state and scratch alone can be taken out of the run (`cut_without`), or all those of a chunk
with a given answer (`chunk_filter`).
-/
import Mathlib.Logic.Basic

namespace Chunked

/-- A step reads state, scratch and input, and yields an answer, the next state
and the next scratch. -/
structure Machine (σ τ α ρ : Type) where
  step : σ → τ → α → ρ × σ × τ
  fresh : τ

variable {σ τ α ρ : Type}

namespace Machine

variable (m : Machine σ τ α ρ)

/-- One chunk. -/
def chunk : List α → σ → τ → List ρ × σ × τ
  | [], s, t => ([], s, t)
  | a :: l, s, t =>
      ((m.step s t a).1 :: (chunk l (m.step s t a).2.1 (m.step s t a).2.2).1,
        (chunk l (m.step s t a).2.1 (m.step s t a).2.2).2)

/-- A list of chunks, each from a fresh scratch. -/
def cut : List (List α) → σ → List ρ × σ
  | [], s => ([], s)
  | c :: cs, s =>
      ((m.chunk c s m.fresh).1 ++ (cut cs (m.chunk c s m.fresh).2.1).1,
        (cut cs (m.chunk c s m.fresh).2.1).2)

/-- Along the run from `s` and `t`, no answer depends on the scratch. -/
def Silent : List α → σ → τ → Prop
  | [], _, _ => True
  | a :: l, s, t =>
      (m.step s t a).1 = (m.step s m.fresh a).1 ∧
        Silent l (m.step s t a).2.1 (m.step s t a).2.2

structure Lawful (le : τ → τ → Prop) : Prop where
  fresh_le : ∀ t, le m.fresh t
  state_eq : ∀ s t t' a, (m.step s t a).1 = (m.step s t' a).1 →
    (m.step s t a).2.1 = (m.step s t' a).2.1
  between : ∀ s t t' a, le t t' → (m.step s t' a).1 = (m.step s m.fresh a).1 →
    (m.step s t a).1 = (m.step s m.fresh a).1
  mono : ∀ s t t' a, le t t' → (m.step s t a).1 = (m.step s t' a).1 →
    le (m.step s t a).2.2 (m.step s t' a).2.2

end Machine

open Machine

variable {m : Machine σ τ α ρ} {le : τ → τ → Prop}

/-! ## Invariants -/

section Rules
variable {J : σ → τ → Prop} {Inv P : σ → Prop} {Q : α → ρ → Prop} {Ok : α → Prop}

theorem Machine.length_chunk (m : Machine σ τ α ρ) : ∀ (l : List α) (s : σ) (t : τ),
    (m.chunk l s t).1.length = l.length
  | [], _, _ => rfl
  | _ :: l, _, _ => congrArg (· + 1) (m.length_chunk l _ _)

theorem Machine.length_cut (m : Machine σ τ α ρ) : ∀ (cs : List (List α)) (s : σ),
    (m.cut cs s).1.length = cs.flatten.length
  | [], _ => rfl
  | c :: cs, s => by
      rw [cut, List.length_append, m.length_chunk, m.length_cut cs, List.flatten_cons,
        List.length_append]

theorem Machine.chunk_invariant (hstep : ∀ s t a, Ok a → Inv s → Inv (m.step s t a).2.1) :
    ∀ (l : List α) (s : σ) (t : τ), (∀ a ∈ l, Ok a) → Inv s → Inv (m.chunk l s t).2.1
  | [], _, _, _, h => h
  | a :: l, s, t, hok, h => by
      obtain ⟨ha, hl⟩ := List.forall_mem_cons.mp hok
      exact Machine.chunk_invariant hstep l _ _ hl (hstep s t a ha h)

theorem Machine.cut_invariant (hstep : ∀ s t a, Ok a → Inv s → Inv (m.step s t a).2.1) :
    ∀ (cs : List (List α)) (s : σ), (∀ a ∈ cs.flatten, Ok a) → Inv s → Inv (m.cut cs s).2
  | [], _, _, h => h
  | c :: cs, s, hok, h => by
      rw [List.flatten_cons] at hok
      obtain ⟨hc, hcs⟩ := List.forall_mem_append.mp hok
      exact Machine.cut_invariant hstep cs _ hcs (Machine.chunk_invariant hstep c s _ hc h)

theorem Machine.chunk_collects
    (hJ : ∀ s t a, Ok a → J s t → J (m.step s t a).2.1 (m.step s t a).2.2)
    (hstep : ∀ s t a, Ok a → J s t → (P (m.step s t a).2.1 ↔ P s ∨ Q a (m.step s t a).1)) :
    ∀ (l : List α) (s : σ) (t : τ), (∀ a ∈ l, Ok a) → J s t →
      (P (m.chunk l s t).2.1 ↔ P s ∨ ∃ x ∈ l.zip (m.chunk l s t).1, Q x.1 x.2)
  | [], s, t, _, _ => by simp [chunk]
  | a :: l, s, t, hok, h => by
      obtain ⟨ha, hl⟩ := List.forall_mem_cons.mp hok
      rw [chunk, Machine.chunk_collects hJ hstep l _ _ hl (hJ s t a ha h), hstep s t a ha h]
      simp only [List.zip_cons_cons, List.mem_cons, or_and_right, exists_or, exists_eq_left,
        or_assoc]

theorem Machine.cut_collects (hfresh : ∀ s, J s m.fresh)
    (hJ : ∀ s t a, Ok a → J s t → J (m.step s t a).2.1 (m.step s t a).2.2)
    (hstep : ∀ s t a, Ok a → J s t → (P (m.step s t a).2.1 ↔ P s ∨ Q a (m.step s t a).1)) :
    ∀ (cs : List (List α)) (s : σ), (∀ a ∈ cs.flatten, Ok a) →
      (P (m.cut cs s).2 ↔ P s ∨ ∃ x ∈ cs.flatten.zip (m.cut cs s).1, Q x.1 x.2)
  | [], s, _ => by simp [cut]
  | c :: cs, s, hok => by
      rw [List.flatten_cons] at hok
      obtain ⟨hc, hcs⟩ := List.forall_mem_append.mp hok
      rw [cut, Machine.cut_collects hfresh hJ hstep cs _ hcs,
        Machine.chunk_collects hJ hstep c s _ hc (hfresh s), List.flatten_cons,
        List.zip_append (m.length_chunk c s m.fresh).symm]
      simp only [List.mem_append, or_and_right, exists_or, or_assoc]

end Rules

/-! ## Taking out an input -/

theorem Machine.chunk_append (m : Machine σ τ α ρ) : ∀ (a b : List α) (s : σ) (t : τ),
    m.chunk (a ++ b) s t =
      ((m.chunk a s t).1 ++ (m.chunk b (m.chunk a s t).2.1 (m.chunk a s t).2.2).1,
        (m.chunk b (m.chunk a s t).2.1 (m.chunk a s t).2.2).2)
  | [], _, _, _ => rfl
  | x :: a, b, s, t => by
      simp only [List.cons_append, chunk, m.chunk_append a b]

theorem Machine.cut_append (m : Machine σ τ α ρ) : ∀ (cs ds : List (List α)) (s : σ),
    m.cut (cs ++ ds) s =
      ((m.cut cs s).1 ++ (m.cut ds (m.cut cs s).2).1, (m.cut ds (m.cut cs s).2).2)
  | [], _, _ => rfl
  | c :: cs, ds, s => by
      simp only [List.cons_append, cut, m.cut_append cs ds, List.append_assoc]

/-- The state and the scratch that an input meets, behind the chunks `pre` and the first
inputs `a` of its own chunk. -/
def Machine.met (m : Machine σ τ α ρ) (pre : List (List α)) (a : List α) (s : σ) : σ × τ :=
  (m.chunk a (m.cut pre s).2 m.fresh).2

/-- An input whose step leaves state and scratch alone can be taken out of a run: the other
answers and the final state stay. -/
theorem Machine.cut_without (m : Machine σ τ α ρ) {pre post : List (List α)} {a b : List α}
    {x : α} {s : σ} (h : (m.step (m.met pre a s).1 (m.met pre a s).2 x).2 = m.met pre a s) :
    ∃ before after, before.length = pre.flatten.length + a.length ∧
      m.cut (pre ++ (a ++ x :: b) :: post) s =
        (before ++ (m.step (m.met pre a s).1 (m.met pre a s).2 x).1 :: after,
          (m.cut (pre ++ (a ++ b) :: post) s).2) ∧
      (m.cut (pre ++ (a ++ b) :: post) s).1 = before ++ after := by
  have hout : m.chunk (a ++ x :: b) (m.cut pre s).2 m.fresh =
      ((m.chunk a (m.cut pre s).2 m.fresh).1 ++
        (m.step (m.met pre a s).1 (m.met pre a s).2 x).1 ::
          (m.chunk b (m.met pre a s).1 (m.met pre a s).2).1,
        (m.chunk b (m.met pre a s).1 (m.met pre a s).2).2) := by
    have hcons : m.chunk (x :: b) (m.met pre a s).1 (m.met pre a s).2 =
        ((m.step (m.met pre a s).1 (m.met pre a s).2 x).1 ::
          (m.chunk b (m.met pre a s).1 (m.met pre a s).2).1,
          (m.chunk b (m.met pre a s).1 (m.met pre a s).2).2) := by
      rw [chunk, h]
    rw [chunk_append]
    show (_ ++ (m.chunk (x :: b) (m.met pre a s).1 (m.met pre a s).2).1,
      (m.chunk (x :: b) (m.met pre a s).1 (m.met pre a s).2).2) = _
    rw [hcons]
  have hwithout : m.chunk (a ++ b) (m.cut pre s).2 m.fresh =
      ((m.chunk a (m.cut pre s).2 m.fresh).1 ++ (m.chunk b (m.met pre a s).1 (m.met pre a s).2).1,
        (m.chunk b (m.met pre a s).1 (m.met pre a s).2).2) := m.chunk_append a b _ _
  refine ⟨(m.cut pre s).1 ++ (m.chunk a (m.cut pre s).2 m.fresh).1,
    (m.chunk b (m.met pre a s).1 (m.met pre a s).2).1 ++
      (m.cut post (m.chunk b (m.met pre a s).1 (m.met pre a s).2).2.1).1, ?_, ?_, ?_⟩
  · rw [List.length_append, length_cut, length_chunk]
  · simp only [cut_append, cut, hout, hwithout, List.append_assoc, List.cons_append]
  · simp only [cut_append, cut, hwithout, List.append_assoc]

theorem Machine.chunk_filter {m : Machine σ τ α ρ} (drop : ρ → Bool)
    (h : ∀ s t a, drop (m.step s t a).1 = true → (m.step s t a).2 = (s, t)) :
    ∀ (l : List α) (s : σ) (t : τ),
      let kept := (l.zip (m.chunk l s t).1).filter fun x => !drop x.2
      m.chunk (kept.map Prod.fst) s t = (kept.map Prod.snd, (m.chunk l s t).2)
  | [], _, _ => rfl
  | a :: l, s, t => by
      have ih := Machine.chunk_filter drop h l (m.step s t a).2.1 (m.step s t a).2.2
      simp only [chunk, List.zip_cons_cons, List.filter_cons] at ih ⊢
      cases hd : drop (m.step s t a).1 with
      | true =>
          rw [h s t a hd] at ih ⊢
          exact ih
      | false =>
          simp only [Bool.not_false, if_true, List.map_cons, chunk, ih]

/-! ## Silence -/

theorem Machine.Lawful.silent_chunk (law : m.Lawful le) :
    ∀ (l : List α) (s : σ) (t t' : τ), le t t' → m.Silent l s t' →
      m.Silent l s t ∧ (m.chunk l s t).1 = (m.chunk l s t').1 ∧
        (m.chunk l s t).2.1 = (m.chunk l s t').2.1
  | [], _, _, _, _, _ => ⟨trivial, rfl, rfl⟩
  | a :: l, s, t, t', hle, ⟨hhead, htail⟩ => by
      have hfresh := law.between s t t' a hle hhead
      have hans : (m.step s t a).1 = (m.step s t' a).1 := hfresh.trans hhead.symm
      have hst := law.state_eq s t t' a hans
      rw [← hst] at htail
      obtain ⟨hs, hr, hf⟩ :=
        law.silent_chunk l _ _ _ (law.mono s t t' a hle hans) htail
      refine ⟨⟨hfresh, hs⟩, ?_, ?_⟩
      · simp only [chunk, hans, ← hst, hr]
      · simp only [chunk, ← hst, hf]

theorem Machine.Lawful.silent_append (law : m.Lawful le) :
    ∀ (c l : List α) (s : σ) (t : τ), m.Silent (c ++ l) s t →
      m.Silent c s t ∧ m.Silent l (m.chunk c s t).2.1 m.fresh ∧
        (m.chunk (c ++ l) s t).1 =
          (m.chunk c s t).1 ++ (m.chunk l (m.chunk c s t).2.1 m.fresh).1 ∧
        (m.chunk (c ++ l) s t).2.1 = (m.chunk l (m.chunk c s t).2.1 m.fresh).2.1
  | [], l, s, t, h => by
      obtain ⟨hs, hr, hf⟩ := law.silent_chunk l s m.fresh t (law.fresh_le t) h
      exact ⟨trivial, hs, hr.symm, hf.symm⟩
  | a :: c, l, s, t, ⟨hhead, htail⟩ => by
      obtain ⟨hc, hl, hr, hf⟩ := law.silent_append c l _ _ htail
      refine ⟨⟨hhead, hc⟩, hl, ?_, ?_⟩
      · simp only [List.cons_append, chunk, hr]
      · simp only [List.cons_append, chunk, hf]

/-- Every cut of a silent run gives the answers and the state of the one chunk. -/
theorem Machine.Lawful.cut_eq_of_silent (law : m.Lawful le) :
    ∀ (cs : List (List α)) (s : σ), m.Silent cs.flatten s m.fresh →
      m.cut cs s = ((m.chunk cs.flatten s m.fresh).1, (m.chunk cs.flatten s m.fresh).2.1)
  | [], _, _ => rfl
  | c :: cs, s, h => by
      rw [List.flatten_cons] at h
      obtain ⟨-, hl, hr, hf⟩ := law.silent_append c cs.flatten s m.fresh h
      rw [List.flatten_cons, hr, hf, cut, law.cut_eq_of_silent cs _ hl]

/-- If the one-chunk answers are those of the finest cut, the run is silent. -/
theorem Machine.Lawful.silent_of_results (law : m.Lawful le) :
    ∀ (l : List α) (s : σ) (t : τ),
      (m.chunk l s t).1 = (m.cut (l.map fun a => [a]) s).1 → m.Silent l s t
  | [], _, _, _ => trivial
  | a :: l, s, t, h => by
      simp only [chunk, List.map_cons, cut, List.cons_append, List.nil_append,
        List.cons.injEq] at h
      obtain ⟨hhead, htail⟩ := h
      have hst := law.state_eq s t m.fresh a hhead
      rw [← hst] at htail
      exact ⟨hhead, law.silent_of_results l _ _ htail⟩

end Chunked
