/-
# `Dpx.Lib.MergeChain` — operands merged in any grouping

A log-structured store keeps the records of a key, newest first: a value, a deletion, or an
operand to be merged into what lies below.  It never merges in the order of the writes.  A
`Merger` is begun with some operand and fed the neighbours of what it has, newer or older
ones; what it finishes with may be an operand of another.  A `Plan` is one such grouping.
When records are rewritten in the background (`Compacts`) and when the key is read (`Reads`),
any plan may be used.

If operands weigh something in a commutative monoid, and the merger keeps the total
(`Sums`), the plan does not matter: `value` is the meaning of a list of records, a rewrite
does not change it (`Compacts.value_eq`), and a read returns it (`Reads.value_eq`).
-/
import Mathlib.Algebra.BigOperators.Group.List.Basic

namespace MergeChain

/-- Begin with an operand, take a newer or an older one, finish. -/
structure Merger (V S : Type) where
  start : V → S
  newer : S → V → S
  older : S → V → S
  finish : S → V

/-- One way of merging; `again`, `newerResult` and `olderResult` take up a finished value. -/
inductive Plan (V : Type) where
  | start (v : V)
  | again (p : Plan V)
  | newer (p : Plan V) (v : V)
  | newerResult (p q : Plan V)
  | older (p : Plan V) (v : V)
  | olderResult (p q : Plan V)

inductive Rec (V : Type) where
  | put (v : V)
  | del
  | merge (v : V)
  deriving DecidableEq, Repr

variable {V S M : Type}

namespace Plan

/-- The operands that go in, newest first. -/
def operands : Plan V → List V
  | .start v => [v]
  | .again p => p.operands
  | .newer p v => v :: p.operands
  | .newerResult p q => q.operands ++ p.operands
  | .older p v => p.operands ++ [v]
  | .olderResult p q => p.operands ++ q.operands

def eval (m : Merger V S) : Plan V → S
  | .start v => m.start v
  | .again p => m.start (m.finish (p.eval m))
  | .newer p v => m.newer (p.eval m) v
  | .newerResult p q => m.newer (p.eval m) (m.finish (q.eval m))
  | .older p v => m.older (p.eval m) v
  | .olderResult p q => m.older (p.eval m) (m.finish (q.eval m))

theorem operands_ne_nil : ∀ p : Plan V, p.operands ≠ []
  | .start _ => List.cons_ne_nil _ _
  | .again p => operands_ne_nil p
  | .newer _ _ => List.cons_ne_nil _ _
  | .newerResult p _ => List.append_ne_nil_of_right_ne_nil _ (operands_ne_nil p)
  | .older _ _ => List.append_ne_nil_of_right_ne_nil _ (List.cons_ne_nil _ _)
  | .olderResult _ q => List.append_ne_nil_of_right_ne_nil _ (operands_ne_nil q)

/-- Any operands have a plan: the oldest, and then newer and newer ones. -/
theorem exists_operands {xs : List V} (h : xs ≠ []) : ∃ p : Plan V, p.operands = xs := by
  induction xs with
  | nil => exact absurd rfl h
  | cons x xs ih =>
      by_cases hxs : xs = []
      · exact ⟨.start x, by rw [hxs]; rfl⟩
      · obtain ⟨p, hp⟩ := ih hxs
        exact ⟨.newer p x, by rw [operands, hp]⟩

end Plan

/-- The finished value of a plan. -/
def Merger.result (m : Merger V S) (p : Plan V) : V := m.finish (p.eval m)

/-! ## The store -/

/-- One rewrite of the records of a key. -/
inductive Compacts (m : Merger V S) : List (Rec V) → List (Rec V) → Prop where
  /-- Operands become one operand. -/
  | join (above : List (Rec V)) (p : Plan V) (below : List (Rec V)) :
      Compacts m (above ++ (p.operands.map .merge ++ below)) (above ++ .merge (m.result p) :: below)
  /-- Operands and the value below them become a value. -/
  | ontoPut (above : List (Rec V)) {p : Plan V} {xs : List V} {base : V}
      (hp : p.operands = xs ++ [base]) (hxs : xs ≠ []) (below : List (Rec V)) :
      Compacts m (above ++ (xs.map .merge ++ .put base :: below))
        (above ++ .put (m.result p) :: below)
  /-- A deletion ends the chain. -/
  | ontoDel (above : List (Rec V)) (p : Plan V) (below : List (Rec V)) :
      Compacts m (above ++ (p.operands.map .merge ++ .del :: below))
        (above ++ .put (m.result p) :: below)
  /-- So does the end of the records. -/
  | ontoNothing (above : List (Rec V)) (p : Plan V) :
      Compacts m (above ++ p.operands.map .merge) (above ++ [.put (m.result p)])
  /-- What lies below a value or a deletion is not seen. -/
  | underPut (above : List (Rec V)) (v : V) (r : Rec V) (below : List (Rec V)) :
      Compacts m (above ++ .put v :: r :: below) (above ++ .put v :: below)
  | underDel (above : List (Rec V)) (r : Rec V) (below : List (Rec V)) :
      Compacts m (above ++ .del :: r :: below) (above ++ .del :: below)
  /-- A deletion of nothing goes. -/
  | bottomDel (above : List (Rec V)) : Compacts m (above ++ [.del]) above

/-- What a read of the key may return. -/
inductive Reads (m : Merger V S) : List (Rec V) → Option V → Prop where
  | nothing : Reads m [] none
  | put (v : V) (below : List (Rec V)) : Reads m (.put v :: below) (some v)
  | del (below : List (Rec V)) : Reads m (.del :: below) none
  | ontoPut {p : Plan V} {xs : List V} {base : V} (hp : p.operands = xs ++ [base])
      (hxs : xs ≠ []) (below : List (Rec V)) :
      Reads m (xs.map .merge ++ .put base :: below) (some (m.result p))
  | ontoDel (p : Plan V) (below : List (Rec V)) :
      Reads m (p.operands.map .merge ++ .del :: below) (some (m.result p))
  | ontoNothing (p : Plan V) : Reads m (p.operands.map .merge) (some (m.result p))

theorem exists_chain (rs : List (Rec V)) :
    ∃ (xs : List V) (below : List (Rec V)), rs = xs.map .merge ++ below ∧
      (below = [] ∨ (∃ v rest, below = .put v :: rest) ∨ ∃ rest, below = .del :: rest) := by
  induction rs with
  | nil => exact ⟨[], [], rfl, Or.inl rfl⟩
  | cons r rs ih =>
      cases r with
      | put v => exact ⟨[], _, rfl, Or.inr (Or.inl ⟨v, rs, rfl⟩)⟩
      | del => exact ⟨[], _, rfl, Or.inr (Or.inr ⟨rs, rfl⟩)⟩
      | merge x =>
          obtain ⟨xs, below, hrs, hbelow⟩ := ih
          exact ⟨x :: xs, below, by rw [hrs]; rfl, hbelow⟩

theorem exists_reads (m : Merger V S) (rs : List (Rec V)) : ∃ r, Reads m rs r := by
  obtain ⟨xs, below, rfl, hbelow⟩ := exists_chain rs
  by_cases hxs : xs = []
  · rw [hxs]
    rcases hbelow with rfl | ⟨v, rest, rfl⟩ | ⟨rest, rfl⟩
    · exact ⟨_, .nothing⟩
    · exact ⟨_, .put v rest⟩
    · exact ⟨_, .del rest⟩
  · obtain ⟨p, hp⟩ := Plan.exists_operands hxs
    rcases hbelow with rfl | ⟨v, rest, rfl⟩ | ⟨rest, rfl⟩
    · rw [List.append_nil, ← hp]
      exact ⟨_, .ontoNothing p⟩
    · exact ⟨_, .ontoPut (p := .older p v) (by rw [Plan.operands, hp]) hxs rest⟩
    · rw [← hp]
      exact ⟨_, .ontoDel p rest⟩

/-! ## Sums -/

variable [AddCommMonoid M]

/-- The merger keeps the total of its operands, and finishes with a value that weighs it. -/
structure Sums (m : Merger V S) (weight : V → M) (encode : M → V) (total : S → M) : Prop where
  start : ∀ v, total (m.start v) = weight v
  newer : ∀ s v, total (m.newer s v) = total s + weight v
  older : ∀ s v, total (m.older s v) = total s + weight v
  finish : ∀ s, m.finish s = encode (total s)
  weight_encode : ∀ x, weight (encode x) = x

section Meaning
variable (weight : V → M) (encode : M → V)

/-- The weight of an optional value. -/
def weightOf (v : Option V) : M := (v.map weight).getD 0

/-- What the records of a key amount to. -/
def value : List (Rec V) → Option V
  | [] => none
  | .put v :: _ => some v
  | .del :: _ => none
  | .merge v :: rs => some (encode (weightOf weight (value rs) + weight v))

theorem value_append_congr {rs rs' : List (Rec V)}
    (h : value weight encode rs = value weight encode rs') (above : List (Rec V)) :
    value weight encode (above ++ rs) = value weight encode (above ++ rs') := by
  induction above with
  | nil => exact h
  | cons r above ih =>
      cases r with
      | put v => rfl
      | del => rfl
      | merge v => simp only [List.cons_append, value, ih]

end Meaning

namespace Sums

variable {m : Merger V S} {weight : V → M} {encode : M → V} {total : S → M}

theorem total_eval (h : Sums m weight encode total) :
    ∀ p : Plan V, total (p.eval m) = (p.operands.map weight).sum
  | .start v => by simp [Plan.eval, Plan.operands, h.start]
  | .again p => by
      rw [Plan.eval, h.start, h.finish, h.weight_encode, h.total_eval p, Plan.operands]
  | .newer p v => by
      rw [Plan.eval, h.newer, h.total_eval p, Plan.operands, List.map_cons, List.sum_cons,
        add_comm]
  | .newerResult p q => by
      rw [Plan.eval, h.newer, h.finish, h.weight_encode, h.total_eval p, h.total_eval q,
        Plan.operands, List.map_append, List.sum_append, add_comm]
  | .older p v => by
      rw [Plan.eval, h.older, h.total_eval p, Plan.operands, List.map_append, List.sum_append,
        List.map_singleton, List.sum_singleton]
  | .olderResult p q => by
      rw [Plan.eval, h.older, h.finish, h.weight_encode, h.total_eval p, h.total_eval q,
        Plan.operands, List.map_append, List.sum_append]

theorem result_eq (h : Sums m weight encode total) (p : Plan V) :
    m.result p = encode (p.operands.map weight).sum := by
  rw [Merger.result, h.finish, h.total_eval]

theorem value_merges (h : Sums m weight encode total) {xs : List V} (hxs : xs ≠ [])
    (below : List (Rec V)) :
    value weight encode (xs.map .merge ++ below) =
      some (encode (weightOf weight (value weight encode below) + (xs.map weight).sum)) := by
  induction xs with
  | nil => exact absurd rfl hxs
  | cons x xs ih =>
      rw [List.map_cons, List.cons_append, value]
      by_cases hrest : xs = []
      · simp [hrest]
      · rw [ih hrest]
        simp only [weightOf, Option.map_some, Option.getD_some, h.weight_encode, List.map_cons,
          List.sum_cons]
        rw [add_assoc, add_comm (xs.map weight).sum]

theorem value_ontoPut (h : Sums m weight encode total) {p : Plan V} {xs : List V} {base : V}
    (hp : p.operands = xs ++ [base]) (hxs : xs ≠ []) (below : List (Rec V)) :
    value weight encode (xs.map .merge ++ .put base :: below) = some (m.result p) := by
  rw [h.value_merges hxs, h.result_eq, hp, List.map_append, List.sum_append, List.map_singleton,
    List.sum_singleton, add_comm]
  rfl

theorem value_ontoDel (h : Sums m weight encode total) (p : Plan V) (below : List (Rec V)) :
    value weight encode (p.operands.map .merge ++ .del :: below) = some (m.result p) := by
  rw [h.value_merges p.operands_ne_nil, h.result_eq]
  simp [value, weightOf]

theorem value_ontoNothing (h : Sums m weight encode total) (p : Plan V) :
    value weight encode (p.operands.map .merge) = some (m.result p) := by
  have hchain := h.value_merges p.operands_ne_nil []
  rw [List.append_nil] at hchain
  rw [hchain, h.result_eq]
  simp [value, weightOf]

theorem value_join (h : Sums m weight encode total) (p : Plan V) (below : List (Rec V)) :
    value weight encode (p.operands.map .merge ++ below) =
      value weight encode (.merge (m.result p) :: below) := by
  rw [h.value_merges p.operands_ne_nil, value, h.result_eq, h.weight_encode]

end Sums

variable {m : Merger V S} {weight : V → M} {encode : M → V} {total : S → M}
  {rs rs' : List (Rec V)}

theorem Compacts.value_eq (h : Compacts m rs rs') (law : Sums m weight encode total) :
    value weight encode rs' = value weight encode rs := by
  cases h with
  | join above p below => exact (value_append_congr _ _ (law.value_join p below) above).symm
  | ontoPut above hp hxs below =>
      exact (value_append_congr _ _ (law.value_ontoPut hp hxs below) above).symm
  | ontoDel above p below => exact (value_append_congr _ _ (law.value_ontoDel p below) above).symm
  | ontoNothing above p => exact (value_append_congr _ _ (law.value_ontoNothing p) above).symm
  | underPut above v r below =>
      have hsame : value weight encode (.put v :: below) =
          value weight encode (.put v :: r :: below) := rfl
      exact value_append_congr _ _ hsame above
  | underDel above r below =>
      have hsame : value weight encode (.del :: below) = value weight encode (.del :: r :: below) :=
        rfl
      exact value_append_congr _ _ hsame above
  | bottomDel =>
      have hdel : value weight encode [.del] = value weight encode [] := rfl
      have happend := value_append_congr _ _ hdel rs'
      rw [List.append_nil] at happend
      exact happend.symm

theorem Reads.value_eq {r : Option V} (h : Reads m rs r) (law : Sums m weight encode total) :
    r = value weight encode rs := by
  cases h with
  | nothing => rfl
  | put v below => rfl
  | del below => rfl
  | ontoPut hp hxs below => exact (law.value_ontoPut hp hxs below).symm
  | ontoDel p below => exact (law.value_ontoDel p below).symm
  | ontoNothing p => exact (law.value_ontoNothing p).symm

end MergeChain
