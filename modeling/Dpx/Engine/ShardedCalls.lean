/-
# `Dpx.Engine.ShardedCalls` — batches that overlap on the sharded engine

`applyBatchSharded` walks the shards its batch names, ascending; for each it takes the
shard's lock, folds its part over the shard's state, stores the new state and lets the
lock go.  `GetSnapshot` walks all shards, ascending, and loads their states; it takes no
lock.  A store and a load are atomic; between them any other call may take its own.

A world holds the engine, all calls made so far with the shards they have still to store,
and all snapshots with the shards they have still to load.  Two histories are kept beside
it: which calls have stored each shard, in order (`stored`), and, for each snapshot and
shard, which had done so when the snapshot loaded it (`seen`).

Here: what calls leave behind once all of them have returned.  Two calls may pass each
other between two shards, and then no serial order explains the result
(`crossed_unserializable`).  It is explained by the order of the first stores if, whenever
a call makes its first store, the calls that are part way commute with it: `serializable`.
-/
import Mathlib.Data.List.Permutation
import Dpx.Lib.Interleave
import Dpx.Lib.Runs
import Dpx.Engine.Money

namespace Dpx

open scoped Word
open Interleave (replay)
open ShardedEngine (touched byShard)

/-! ## Mutations that commute -/

/-- Their order does not matter: they are of different keys, or both merges, or the same
mutation. -/
def BatchOp.Independent (a b : BatchOp) : Prop :=
  a.key ≠ b.key ∨ (a.isMerge = true ∧ b.isMerge = true) ∨ a = b

instance : DecidableRel BatchOp.Independent := fun _ _ =>
  inferInstanceAs (Decidable (_ ∨ _ ∨ _))

theorem BatchOp.Independent.symm {a b : BatchOp} (h : a.Independent b) : b.Independent a := by
  rcases h with hne | ⟨ha, hb⟩ | rfl
  · exact Or.inl hne.symm
  · exact Or.inr (Or.inl ⟨hb, ha⟩)
  · exact Or.inr (Or.inr rfl)

namespace State

theorem ext_get {s t : State} (h : ∀ k, s.get k = t.get k) (ha : s.applied = t.applied) :
    s = t := by
  obtain ⟨tree, applied⟩ := s
  obtain ⟨tree', applied'⟩ := t
  have htree : tree = tree' := Std.ExtTreeMap.ext_getElem? fun {k} => h k
  cases ha
  rw [htree]

theorem applied_applyOp_of_isMerge (s : State) {op : BatchOp} (h : op.isMerge = true) :
    (s.applyOp op).applied = s.applied := by
  cases op with
  | set k v => cases h
  | delete k => cases h
  | merge k v => rfl

theorem applied_comm (s : State) {a b : BatchOp} (h : a.key ≠ b.key) :
    ((s.applyOp a).applyOp b).applied = ((s.applyOp b).applyOp a).applied := by
  cases a with
  | delete k => cases b <;> rfl
  | merge k v => cases b <;> rfl
  | set k v =>
      cases b with
      | delete k' => rfl
      | merge k' v' => rfl
      | set k' v' =>
          by_cases hk : k = appliedKey
          · have hk' : k' ≠ appliedKey := fun hk' => h (hk.trans hk'.symm)
            simp [applyOp, hk']
          · simp [applyOp, hk]

theorem commute_applyOp {a b : BatchOp} (h : a.Independent b) :
    Function.Commute (fun s => applyOp s a) (fun s => applyOp s b) := by
  intro s
  show (s.applyOp b).applyOp a = (s.applyOp a).applyOp b
  rcases h with hne | ⟨ha, hb⟩ | rfl
  · refine ext_get (fun k => ?_) (s.applied_comm hne.symm)
    simp only [get_applyOp]
    by_cases hk : a.key = k
    · have hk' : b.key ≠ k := fun hk' => hne (hk.trans hk'.symm)
      simp only [hk, hk', if_true, if_false]
    · simp only [hk, if_false]
  · refine ext_get (fun k => ?_) ?_
    · cases a with
      | set k' v => cases ha
      | delete k' => cases ha
      | merge i v =>
          cases b with
          | set k' v => cases hb
          | delete k' => cases hb
          | merge j u =>
              simp only [get_applyOp, BatchOp.key, BatchOp.act, mergeInt64]
              by_cases hi : i = k
              · by_cases hj : j = k
                · simp [hi, hj, add_right_comm]
                · simp [hi, hj]
              · by_cases hj : j = k
                · simp [hi, hj]
                · simp [hi, hj]
    · rw [applied_applyOp_of_isMerge _ ha, applied_applyOp_of_isMerge _ hb,
        applied_applyOp_of_isMerge _ hb, applied_applyOp_of_isMerge _ ha]
  · rfl

theorem commute_applyOps {xs ys : List BatchOp} (h : ∀ a ∈ xs, ∀ b ∈ ys, a.Independent b) :
    Function.Commute (fun s => applyOps s xs) (fun s => applyOps s ys) := by
  show Function.Commute (replay (fun op s => applyOp s op) xs)
    (replay (fun op s => applyOp s op) ys)
  exact Interleave.replay_commute fun a ha b hb => commute_applyOp (h a ha b hb)

end State

/-! ## The world -/

/-- A call of `applyBatchSharded`, with the shards it has still to store. -/
structure ShardedCall where
  ops : List BatchOp
  todo : List ShardId
  deriving DecidableEq

namespace ShardedCall

/-- It has stored something and has something left to store. -/
def PartWay (c : ShardedCall) : Prop := c.todo ≠ touched c.ops ∧ c.todo ≠ []

instance (c : ShardedCall) : Decidable c.PartWay := inferInstanceAs (Decidable (_ ∧ _))

end ShardedCall

/-- A call of `GetSnapshot`: the states it has loaded, and the shards it has still to
load. -/
structure ShardedSnapshot where
  states : ShardId → Option State
  seen : ShardId → List Nat
  todo : List ShardId

structure ShardedOverlap where
  engine : ShardedEngine
  calls : List ShardedCall
  snapshots : List ShardedSnapshot
  stored : ShardId → List Nat

inductive ShardedEvent where
  | applyBatch (ops : List BatchOp)
  | store (n : Nat)
  | getSnapshot
  | load (m : Nat)

namespace ShardedOverlap

def new (e : ShardedEngine) : ShardedOverlap := ⟨e, [], [], fun _ => []⟩

/-- The world after the `n`-th call has stored shard `i` and has `todo` left. -/
def afterStore (w : ShardedOverlap) (n : Nat) (ops : List BatchOp) (i : ShardId)
    (todo : List ShardId) : ShardedOverlap :=
  { w with
    engine := w.engine.applySection ops i
    calls := w.calls.set n ⟨ops, todo⟩
    stored := Function.update w.stored i (w.stored i ++ [n]) }

/-- The world after the `m`-th snapshot has loaded shard `i` and has `todo` left. -/
def afterLoad (w : ShardedOverlap) (m : Nat) (sn : ShardedSnapshot) (i : ShardId)
    (todo : List ShardId) : ShardedOverlap :=
  { w with
    snapshots := w.snapshots.set m
      ⟨Function.update sn.states i (some (w.engine.shards i)),
        Function.update sn.seen i (w.stored i), todo⟩ }

/-- One atomic step.  A call or a snapshot that is finished takes none. -/
def step (w : ShardedOverlap) : ShardedEvent → ShardedOverlap
  | .applyBatch ops => { w with calls := w.calls ++ [⟨ops, touched ops⟩] }
  | .store n =>
      match w.calls[n]? with
      | none => w
      | some c =>
          match c.todo with
          | [] => w
          | i :: todo => w.afterStore n c.ops i todo
  | .getSnapshot =>
      { w with
        snapshots := w.snapshots ++ [⟨fun _ => none, fun _ => [], List.finRange numShards⟩] }
  | .load m =>
      match w.snapshots[m]? with
      | none => w
      | some sn =>
          match sn.todo with
          | [] => w
          | i :: todo => w.afterLoad m sn i todo

theorem step_cases (w : ShardedOverlap) (ev : ShardedEvent) :
    w.step ev = w ∨
    (∃ ops, ev = .applyBatch ops) ∨
    (∃ n ops i todo, ev = .store n ∧ w.calls[n]? = some ⟨ops, i :: todo⟩ ∧
      w.step ev = w.afterStore n ops i todo) ∨
    ev = .getSnapshot ∨
    (∃ m sn i todo, ev = .load m ∧ w.snapshots[m]? = some sn ∧ sn.todo = i :: todo ∧
      w.step ev = w.afterLoad m sn i todo) := by
  cases ev with
  | applyBatch ops => exact Or.inr (Or.inl ⟨ops, rfl⟩)
  | store n =>
      simp only [step]
      cases hc : w.calls[n]? with
      | none => exact Or.inl rfl
      | some c =>
          obtain ⟨ops, todo⟩ := c
          cases todo with
          | nil => exact Or.inl rfl
          | cons i todo => exact Or.inr (Or.inr (Or.inl ⟨n, ops, i, todo, rfl, hc, rfl⟩))
  | getSnapshot => exact Or.inr (Or.inr (Or.inr (Or.inl rfl)))
  | load m =>
      simp only [step]
      cases hsn : w.snapshots[m]? with
      | none => exact Or.inl rfl
      | some sn =>
          obtain ⟨states, seen, todo⟩ := sn
          cases todo with
          | nil => exact Or.inl rfl
          | cons i todo =>
              exact Or.inr (Or.inr (Or.inr (Or.inr ⟨m, _, i, todo, rfl, hsn, rfl, rfl⟩)))

/-- All calls have returned. -/
def AtRest (w : ShardedOverlap) : Prop := ∀ c ∈ w.calls, c.todo = []

instance (w : ShardedOverlap) : Decidable w.AtRest :=
  inferInstanceAs (Decidable (∀ c ∈ w.calls, c.todo = []))

/-! ### Calls by number -/

/-- The batch of the `n`-th call. -/
def opsOf (w : ShardedOverlap) (n : Nat) : List BatchOp := ((w.calls[n]?).map (·.ops)).getD []

/-- What the `n`-th call has left. -/
def todoOf (w : ShardedOverlap) (n : Nat) : List ShardId := ((w.calls[n]?).map (·.todo)).getD []

/-- The `n`-th call has stored shard `i`. -/
def done (w : ShardedOverlap) (i : ShardId) (n : Nat) : Bool :=
  (touched (w.opsOf n)).contains i && !(w.todoOf n).contains i

/-- What the `n`-th call does to shard `i`. -/
def act (w : ShardedOverlap) (i : ShardId) (n : Nat) (s : State) : State :=
  s.applyOps (byShard (w.opsOf n) i)

/-- What the calls `ns` make of shard `i`. -/
def fill (w : ShardedOverlap) (i : ShardId) (ns : List Nat) (s : State) : State :=
  replay (w.act i) ns s

section Numbers

variable (w : ShardedOverlap)

theorem opsOf_applyBatch (ops : List BatchOp) (m : Nat) :
    (w.step (.applyBatch ops)).opsOf m = if m = w.calls.length then ops else w.opsOf m := by
  show (((w.calls ++ [_])[m]?).map (·.ops)).getD [] = _
  rw [Runs.getElem?_concat]
  split <;> rfl

theorem todoOf_applyBatch (ops : List BatchOp) (m : Nat) :
    (w.step (.applyBatch ops)).todoOf m =
      if m = w.calls.length then touched ops else w.todoOf m := by
  show (((w.calls ++ [_])[m]?).map (·.todo)).getD [] = _
  rw [Runs.getElem?_concat]
  split <;> rfl

theorem numbers_of_le {n : Nat} (h : w.calls.length ≤ n) : w.opsOf n = [] ∧ w.todoOf n = [] := by
  rw [opsOf, todoOf, List.getElem?_eq_none h]
  exact ⟨rfl, rfl⟩

theorem lt_of_done {n : Nat} {i : ShardId} (h : w.done i n = true) : n < w.calls.length := by
  by_contra hn
  rw [done, (w.numbers_of_le (Nat.le_of_not_lt hn)).1] at h
  simp at h

variable {w} {n : Nat} {ops : List BatchOp} {i : ShardId} {todo : List ShardId}

theorem opsOf_afterStore (hc : w.calls[n]? = some ⟨ops, i :: todo⟩) (m : Nat) :
    (w.afterStore n ops i todo).opsOf m = w.opsOf m := by
  show (((w.calls.set n _)[m]?).map (·.ops)).getD [] = _
  have hlt : n < w.calls.length := (List.getElem?_eq_some_iff.mp hc).1
  by_cases hm : m = n
  · subst hm
    rw [List.getElem?_set_self hlt, opsOf, hc]
    rfl
  · rw [List.getElem?_set_ne (fun h => hm h.symm)]
    rfl

theorem todoOf_afterStore (hc : w.calls[n]? = some ⟨ops, i :: todo⟩) (m : Nat) :
    (w.afterStore n ops i todo).todoOf m = if m = n then todo else w.todoOf m := by
  show (((w.calls.set n _)[m]?).map (·.todo)).getD [] = _
  have hlt : n < w.calls.length := (List.getElem?_eq_some_iff.mp hc).1
  by_cases hm : m = n
  · subst hm
    simp [hlt]
  · rw [List.getElem?_set_ne (fun h => hm h.symm), if_neg hm]
    rfl

theorem act_afterStore (hc : w.calls[n]? = some ⟨ops, i :: todo⟩) (j : ShardId) (m : Nat) :
    (w.afterStore n ops i todo).act j m = w.act j m := by
  funext s
  rw [act, opsOf_afterStore hc, act]

theorem numbers_of_call {n : Nat} {c : ShardedCall} (hc : w.calls[n]? = some c) :
    w.opsOf n = c.ops ∧ w.todoOf n = c.todo := by
  rw [opsOf, todoOf, hc]
  exact ⟨rfl, rfl⟩

end Numbers

/-! ### Calls ascend -/

/-- What a call has left is an end piece of its shards. -/
def Proper (w : ShardedOverlap) : Prop := ∀ n, w.todoOf n <:+ touched (w.opsOf n)

theorem proper_new (e : ShardedEngine) : Proper (new e) := fun _ => List.nil_suffix

section Proper

variable {w : ShardedOverlap} {n : Nat} {ops : List BatchOp} {i : ShardId} {todo : List ShardId}

theorem Proper.suffix (h : Proper w) (hc : w.calls[n]? = some ⟨ops, i :: todo⟩) :
    i :: todo <:+ touched ops := by
  have hn := h n
  rwa [(numbers_of_call hc).1, (numbers_of_call hc).2] at hn

theorem Proper.afterStore (h : Proper w) (hc : w.calls[n]? = some ⟨ops, i :: todo⟩) :
    Proper (w.afterStore n ops i todo) := by
  intro m
  rw [opsOf_afterStore hc, todoOf_afterStore hc]
  split
  · rename_i hm
    subst hm
    rw [(numbers_of_call hc).1]
    exact (List.suffix_cons i todo).trans (h.suffix hc)
  · exact h m

theorem Proper.step (h : Proper w) (ev : ShardedEvent) : Proper (w.step ev) := by
  rcases w.step_cases ev with hsame | ⟨ops, rfl⟩ | ⟨n, ops, i, todo, rfl, hc, hstep⟩ | rfl |
    ⟨m, sn, i, todo, rfl, -, -, hstep⟩
  · rw [hsame]
    exact h
  · intro m
    rw [opsOf_applyBatch, todoOf_applyBatch]
    split
    · exact List.suffix_refl _
    · exact h m
  · rw [hstep]
    exact h.afterStore hc
  · exact h
  · rw [hstep]
    exact h

theorem Proper.fresh (h : Proper w) (hc : w.calls[n]? = some ⟨ops, i :: todo⟩) :
    i ∈ touched ops ∧ i ∉ todo := by
  have hsuf := h.suffix hc
  have hnd : (i :: todo).Nodup := (ShardedEngine.nodup_touched ops).sublist hsuf.sublist
  exact ⟨hsuf.subset List.mem_cons_self, (List.nodup_cons.mp hnd).1⟩

theorem Proper.done_afterStore (h : Proper w) (hc : w.calls[n]? = some ⟨ops, i :: todo⟩)
    (j : ShardId) (m : Nat) :
    (w.afterStore n ops i todo).done j m = if m = n ∧ j = i then true else w.done j m := by
  obtain ⟨hi, hnot⟩ := h.fresh hc
  obtain ⟨hops, htodo⟩ := numbers_of_call hc
  rw [done, opsOf_afterStore hc, todoOf_afterStore hc]
  by_cases hm : m = n
  · subst hm
    by_cases hj : j = i
    · subst hj
      simp [hops, hi, hnot]
    · simp [done, hops, htodo, hj]
  · simp [done, hm]

theorem not_done_of_next (hc : w.calls[n]? = some ⟨ops, i :: todo⟩) : w.done i n = false := by
  simp [done, (numbers_of_call hc).2]

theorem not_done_of_unbegun (h : w.todoOf n = touched (w.opsOf n)) (j : ShardId) :
    w.done j n = false := by
  simp [done, h]

end Proper

/-! ## The order of first stores -/

/-- When a call makes its first store, its mutations stand in `R` to those of every call
that is part way. -/
def Clear (R : BatchOp → BatchOp → Prop) (w : ShardedOverlap) : ShardedEvent → Prop
  | .store n => ∀ c ∈ w.calls[n]?, c.todo = touched c.ops →
      ∀ d ∈ w.calls, d.PartWay → ∀ a ∈ c.ops, ∀ b ∈ d.ops, R a b
  | .applyBatch _ | .getSnapshot | .load _ => True

instance (R : BatchOp → BatchOp → Prop) [DecidableRel R] (w : ShardedOverlap) :
    ∀ ev, Decidable (w.Clear R ev)
  | .store n => inferInstanceAs (Decidable (∀ c ∈ w.calls[n]?, c.todo = touched c.ops →
      ∀ d ∈ w.calls, d.PartWay → ∀ a ∈ c.ops, ∀ b ∈ d.ops, R a b))
  | .applyBatch _ | .getSnapshot | .load _ => inferInstanceAs (Decidable True)

/-- `order` lists the calls that have begun, by their first store.  A call stands in `R` to
those before it that it did not find finished. -/
structure InOrder (R : BatchOp → BatchOp → Prop) (w : ShardedOverlap) (order : List Nat) :
    Prop where
  proper : Proper w
  nodup : order.Nodup
  begun : ∀ n, n ∈ order ↔ w.todoOf n ≠ touched (w.opsOf n)
  apart : order.Pairwise fun n m =>
    w.todoOf n = [] ∨ ∀ a ∈ w.opsOf n, ∀ b ∈ w.opsOf m, R a b

section InOrder

variable {R : BatchOp → BatchOp → Prop} {w : ShardedOverlap} {order : List Nat}

theorem inOrder_new (e : ShardedEngine) : InOrder R (new e) [] where
  proper := proper_new e
  nodup := List.nodup_nil
  begun := fun _ => by simp [todoOf, opsOf, new]
  apart := List.Pairwise.nil

theorem InOrder.lt_length (h : InOrder R w order) {n : Nat} (hn : n ∈ order) :
    n < w.calls.length := by
  by_contra hlt
  obtain ⟨hops, htodo⟩ := w.numbers_of_le (Nat.le_of_not_lt hlt)
  refine (h.begun n).mp hn ?_
  rw [hops, htodo, ShardedEngine.touched_nil]

theorem InOrder.exists_rest (h : InOrder R w order) :
    ∃ rest, (order ++ rest).Perm (List.range w.calls.length) ∧ ∀ n ∈ rest, n ∉ order := by
  have hsub : order.Subperm (List.range w.calls.length) :=
    List.subperm_of_subset h.nodup fun n hn => List.mem_range.mpr (h.lt_length hn)
  obtain ⟨begun, hbegun, hrange⟩ := hsub
  obtain ⟨rest, hrest⟩ := hrange.exists_perm_append
  have hperm : (order ++ rest).Perm (List.range w.calls.length) :=
    (hbegun.symm.append_right rest).trans hrest.symm
  have hnd := List.nodup_append.mp (hperm.nodup_iff.mpr List.nodup_range)
  exact ⟨rest, hperm, fun n hn hmem => hnd.2.2 n hmem n hn rfl⟩

theorem InOrder.applyBatch (h : InOrder R w order) (ops : List BatchOp) :
    InOrder R (w.step (.applyBatch ops)) order := by
  have hne : ∀ n ∈ order, n ≠ w.calls.length := fun n hn => Nat.ne_of_lt (h.lt_length hn)
  refine ⟨h.proper.step _, h.nodup, fun n => ?_, ?_⟩
  · rw [opsOf_applyBatch, todoOf_applyBatch]
    split
    · rename_i hn
      exact ⟨fun hmem => absurd hn (hne n hmem), fun hnot => absurd rfl hnot⟩
    · exact h.begun n
  · refine h.apart.imp_of_mem fun {n m} hn hm hnm => ?_
    simp only [opsOf_applyBatch, todoOf_applyBatch, hne n hn, hne m hm, if_false]
    exact hnm

variable {n : Nat} {ops : List BatchOp} {i : ShardId} {todo : List ShardId}

theorem InOrder.not_mem_of_first (h : InOrder R w order)
    (hc : w.calls[n]? = some ⟨ops, i :: todo⟩) (hfirst : i :: todo = touched ops) : n ∉ order := by
  intro hn
  refine (h.begun n).mp hn ?_
  rw [(numbers_of_call hc).1, (numbers_of_call hc).2, hfirst]

theorem InOrder.finished_or (h : InOrder R w order) (hsymm : ∀ a b, R a b → R b a)
    (hc : w.calls[n]? = some ⟨ops, i :: todo⟩) (hfirst : i :: todo = touched ops)
    (hclear : w.Clear R (.store n)) {m : Nat} (hm : m ∈ order) :
    w.todoOf m = [] ∨ ∀ a ∈ w.opsOf m, ∀ b ∈ w.opsOf n, R a b := by
  by_cases hfin : w.todoOf m = []
  · exact Or.inl hfin
  · have hlt := h.lt_length hm
    have hd : w.calls[m]? = some w.calls[m] := List.getElem?_eq_getElem hlt
    obtain ⟨hmops, hmtodo⟩ := numbers_of_call hd
    have hpart : w.calls[m].PartWay := by
      rw [ShardedCall.PartWay, ← hmops, ← hmtodo]
      exact ⟨(h.begun m).mp hm, hfin⟩
    have hrel := hclear _ hc hfirst _ (List.getElem_mem hlt) hpart
    rw [(numbers_of_call hc).1, hmops]
    exact Or.inr fun a ha b hb => hsymm b a (hrel b hb a ha)

theorem InOrder.firstStore (h : InOrder R w order) (hsymm : ∀ a b, R a b → R b a)
    (hc : w.calls[n]? = some ⟨ops, i :: todo⟩) (hfirst : i :: todo = touched ops)
    (hclear : w.Clear R (.store n)) :
    InOrder R (w.afterStore n ops i todo) (order ++ [n]) := by
  have hn := h.not_mem_of_first hc hfirst
  have hstep : ∀ m ∈ order, (w.afterStore n ops i todo).todoOf m = w.todoOf m := by
    intro m hm
    have hmn : m ≠ n := fun hmn => hn (hmn ▸ hm)
    rw [todoOf_afterStore hc, if_neg hmn]
  refine ⟨h.proper.afterStore hc, ?_, fun m => ?_, ?_⟩
  · refine List.nodup_append.mpr ⟨h.nodup, List.nodup_singleton n, ?_⟩
    rintro m hm _ hn' rfl
    exact hn (List.mem_singleton.mp hn' ▸ hm)
  · rw [opsOf_afterStore hc, todoOf_afterStore hc, List.mem_append, List.mem_singleton]
    by_cases hm : m = n
    · subst hm
      rw [if_pos rfl, (numbers_of_call hc).1, ← hfirst]
      exact ⟨fun _ => (List.cons_ne_self i todo).symm, fun _ => Or.inr rfl⟩
    · rw [if_neg hm]
      exact ⟨fun hmem => (h.begun m).mp (hmem.resolve_right hm), fun hb =>
        Or.inl ((h.begun m).mpr hb)⟩
  · refine List.pairwise_append.mpr ⟨?_, List.pairwise_singleton _ _, ?_⟩
    · refine h.apart.imp_of_mem fun {a b} ha hb hab => ?_
      simp only [opsOf_afterStore hc, hstep a ha]
      exact hab
    · intro m hm n' hn'
      simp only [List.mem_singleton.mp hn', opsOf_afterStore hc, hstep m hm]
      exact h.finished_or hsymm hc hfirst hclear hm

theorem InOrder.mem_of_later (h : InOrder R w order) (hc : w.calls[n]? = some ⟨ops, i :: todo⟩)
    (hlater : i :: todo ≠ touched ops) : n ∈ order := by
  refine (h.begun n).mpr ?_
  rw [(numbers_of_call hc).1, (numbers_of_call hc).2]
  exact hlater

theorem InOrder.laterStore (h : InOrder R w order) (hc : w.calls[n]? = some ⟨ops, i :: todo⟩)
    (hlater : i :: todo ≠ touched ops) : InOrder R (w.afterStore n ops i todo) order := by
  obtain ⟨hops, htodo⟩ := numbers_of_call hc
  have hfin : ∀ m, w.todoOf m = [] → (w.afterStore n ops i todo).todoOf m = [] := by
    intro m hm
    rw [todoOf_afterStore hc, if_neg ?_, hm]
    rintro rfl
    rw [htodo] at hm
    cases hm
  refine ⟨h.proper.afterStore hc, h.nodup, fun m => ?_, ?_⟩
  · rw [h.begun, opsOf_afterStore hc, todoOf_afterStore hc]
    by_cases hm : m = n
    · subst hm
      rw [if_pos rfl, hops, htodo]
      refine iff_of_true hlater fun heq => ?_
      have hlen := (h.proper.suffix hc).length_le
      rw [← heq, List.length_cons] at hlen
      omega
    · rw [if_neg hm]
  · refine h.apart.imp fun {a b} hab => ?_
    rw [opsOf_afterStore hc, opsOf_afterStore hc]
    exact hab.imp_left (hfin a)

/-- A call that has stores left stands in `R` to all that came after it. -/
theorem InOrder.rel_of_todo {xs ys : List Nat} (h : InOrder R w (xs ++ n :: ys))
    (htodo : w.todoOf n ≠ []) {m : Nat} (hm : m ∈ ys) :
    ∀ a ∈ w.opsOf n, ∀ b ∈ w.opsOf m, R a b := by
  have hpair := (List.pairwise_append.mp h.apart).2.1
  exact ((List.pairwise_cons.mp hpair).1 m hm).resolve_left htodo

end InOrder

/-! ## Serial order -/

/-- Every shard is what the calls that have stored it make of it, in the order of first
stores. -/
structure Serial (e₀ : ShardedEngine) (w : ShardedOverlap) (order : List Nat) : Prop extends
    InOrder BatchOp.Independent w order where
  shards : ∀ i, w.engine.shards i = w.fill i (order.filter (w.done i)) (e₀.shards i)

theorem serial_new (e : ShardedEngine) : Serial e (new e) [] := ⟨inOrder_new e, fun _ => rfl⟩

section Serial

variable {e₀ : ShardedEngine} {w : ShardedOverlap} {order : List Nat}

theorem Serial.applyBatch (h : Serial e₀ w order) (ops : List BatchOp) :
    Serial e₀ (w.step (.applyBatch ops)) order := by
  have hne : ∀ n ∈ order, n ≠ w.calls.length := fun n hn => Nat.ne_of_lt (h.lt_length hn)
  refine ⟨h.toInOrder.applyBatch ops, fun i => ?_⟩
  have hdone : order.filter ((w.step (.applyBatch ops)).done i) = order.filter (w.done i) := by
    refine List.filter_congr fun n hn => ?_
    simp only [done, opsOf_applyBatch, todoOf_applyBatch, hne n hn, if_false]
  rw [hdone]
  refine (h.shards i).trans (Interleave.replay_congr _ (fun n hn => ?_) _)
  funext s
  simp only [act, opsOf_applyBatch, hne n (List.mem_filter.mp hn).1, if_false]

variable {n : Nat} {ops : List BatchOp} {i : ShardId} {todo : List ShardId}

theorem Serial.shards_afterStore (h : Serial e₀ w order)
    (hc : w.calls[n]? = some ⟨ops, i :: todo⟩) (xs ys : List Nat) (hnd : n ∉ xs ++ ys)
    (hold : ∀ j, (xs ++ n :: ys).filter (w.done j) = order.filter (w.done j))
    (hcomm : ∀ m ∈ ys, ∀ a ∈ w.opsOf n, ∀ b ∈ w.opsOf m, a.Independent b) (j : ShardId) :
    (w.afterStore n ops i todo).engine.shards j =
      (w.afterStore n ops i todo).fill j
        ((xs ++ n :: ys).filter ((w.afterStore n ops i todo).done j)) (e₀.shards j) := by
  have hact : (w.afterStore n ops i todo).act j = w.act j := funext (act_afterStore hc j)
  rw [fill, hact]
  show Function.update w.engine.shards i _ j = _
  by_cases hj : j = i
  · subst hj
    have hdone : ∀ m ∈ xs ++ ys, (w.afterStore n ops j todo).done j m = w.done j m := by
      intro m hm
      have hmn : m ≠ n := fun hmn => hnd (hmn ▸ hm)
      simp [h.proper.done_afterStore hc, hmn]
    have hlate := Interleave.replay_late (w.act j) (not_done_of_next hc)
      (by simp [h.proper.done_afterStore hc]) hdone
      (fun m hm _ => State.commute_applyOps fun a ha b hb =>
        hcomm m hm a (List.mem_filter.mp ha).1 b (List.mem_filter.mp hb).1) (e₀.shards j)
    rw [Function.update_self, hlate, hold, h.shards j, act, (numbers_of_call hc).1]
    rfl
  · have hdone : (w.afterStore n ops i todo).done j = w.done j := by
      funext m
      simp [h.proper.done_afterStore hc, hj]
    rw [Function.update_of_ne hj, hdone, hold]
    exact h.shards j

theorem Serial.firstStore (h : Serial e₀ w order) (hc : w.calls[n]? = some ⟨ops, i :: todo⟩)
    (hfirst : i :: todo = touched ops) (hclear : w.Clear BatchOp.Independent (.store n)) :
    Serial e₀ (w.afterStore n ops i todo) (order ++ [n]) := by
  have hn := h.not_mem_of_first hc hfirst
  have hunbegun : w.todoOf n = touched (w.opsOf n) := by
    rw [(numbers_of_call hc).1, (numbers_of_call hc).2, hfirst]
  refine ⟨h.toInOrder.firstStore (fun _ _ => BatchOp.Independent.symm) hc hfirst hclear, ?_⟩
  refine h.shards_afterStore hc order [] (by rwa [List.append_nil]) (fun j => ?_) fun m hm =>
    absurd hm List.not_mem_nil
  simp [List.filter_append, not_done_of_unbegun hunbegun j]

/-- A later store of a call counts as made in the call's turn. -/
theorem Serial.laterStore (h : Serial e₀ w order) (hc : w.calls[n]? = some ⟨ops, i :: todo⟩)
    (hlater : i :: todo ≠ touched ops) : Serial e₀ (w.afterStore n ops i todo) order := by
  refine ⟨h.toInOrder.laterStore hc hlater, ?_⟩
  obtain ⟨xs, ys, rfl⟩ := List.append_of_mem (h.mem_of_later hc hlater)
  have hnd := (List.nodup_cons.mp (List.nodup_middle.mp h.nodup)).1
  refine h.shards_afterStore hc xs ys hnd (fun _ => rfl) fun m hm => h.rel_of_todo ?_ hm
  rw [(numbers_of_call hc).2]
  exact List.cons_ne_nil i todo

theorem Serial.step (h : Serial e₀ w order) {ev : ShardedEvent}
    (hclear : w.Clear BatchOp.Independent ev) : ∃ order', Serial e₀ (w.step ev) order' := by
  rcases w.step_cases ev with hsame | ⟨ops, rfl⟩ | ⟨n, ops, i, todo, rfl, hc, hstep⟩ | rfl |
    ⟨m, sn, i, todo, rfl, -, -, hstep⟩
  · rw [hsame]
    exact ⟨order, h⟩
  · exact ⟨order, h.applyBatch ops⟩
  · rw [hstep]
    by_cases hfirst : i :: todo = touched ops
    · exact ⟨order ++ [n], h.firstStore hc hfirst hclear⟩
    · exact ⟨order, h.laterStore hc hfirst⟩
  · exact ⟨order, ⟨h.proper, h.nodup, h.begun, h.apart⟩, h.shards⟩
  · rw [hstep]
    exact ⟨order, ⟨h.proper, h.nodup, h.begun, h.apart⟩, h.shards⟩

theorem shards_foldl_applyBatch (ns : List Nat) (i : ShardId) :
    ∀ e : ShardedEngine, ((ns.map w.opsOf).foldl ShardedEngine.applyBatch e).shards i =
      w.fill i ns (e.shards i) := by
  induction ns with
  | nil => intro e; rfl
  | cons n ns ih =>
      intro e
      rw [List.map_cons, List.foldl_cons, ih, ShardedEngine.applyBatch_shards]
      rfl

theorem act_of_not_touched {i : ShardId} {n : Nat} (h : i ∉ touched (w.opsOf n)) (s : State) :
    w.act i n s = s := by
  rw [act, ShardedEngine.byShard_of_not_mem h]
  rfl

theorem map_opsOf_range (w : ShardedOverlap) :
    (List.range w.calls.length).map w.opsOf = w.calls.map (·.ops) := by
  refine List.ext_getElem (by simp) fun n hn hn' => ?_
  have hlt : n < w.calls.length := by simpa using hn
  simp [opsOf, hlt]

theorem Serial.atRest (h : Serial e₀ w order) (hrest : w.AtRest) :
    ∃ batches : List (List BatchOp), batches.Perm (w.calls.map (·.ops)) ∧
      w.engine = batches.foldl ShardedEngine.applyBatch e₀ := by
  have htodo : ∀ n, w.todoOf n = [] := by
    intro n
    cases hc : w.calls[n]? with
    | none => simp [todoOf, hc]
    | some c => exact (numbers_of_call hc).2.trans (hrest c (List.mem_of_getElem? hc))
  obtain ⟨idle, hperm, hout⟩ := h.exists_rest
  have hidle : ∀ n ∈ idle, touched (w.opsOf n) = [] := by
    intro n hn
    by_contra hne
    exact hout n hn ((h.begun n).mpr (by rw [htodo n]; exact fun heq => hne heq.symm))
  refine ⟨(order ++ idle).map w.opsOf, map_opsOf_range w ▸ hperm.map _, ?_⟩
  have hshards : w.engine.shards =
      (((order ++ idle).map w.opsOf).foldl ShardedEngine.applyBatch e₀).shards := by
    funext i
    have hskip : ∀ n ∈ idle, ∀ s, w.act i n s = s := by
      intro n hn
      refine act_of_not_touched ?_
      rw [hidle n hn]
      exact List.not_mem_nil
    rw [shards_foldl_applyBatch, h.shards i, fill, fill, Interleave.replay_append,
      Interleave.replay_idle _ hskip]
    refine Interleave.replay_filter _ _ (fun n _ hdone s =>
      act_of_not_touched (fun hi => ?_) s) _
    simp [done, hi, htodo n] at hdone
  exact congrArg ShardedEngine.mk hshards

end Serial

/-- **Serializability**, where it holds.  In every interleaving, from any engine, in which
the calls that are part way at a call's first store commute with it: whenever all calls
have returned, the engine is what the whole batches make of it in some order. -/
theorem serializable (e : ShardedEngine) (events : List ShardedEvent)
    (h : ∀ m ∈ Runs.moves step (new e) events, m.1.Clear BatchOp.Independent m.2) :
    ∀ w ∈ Runs.states step (new e) events, w.AtRest →
      ∃ batches : List (List BatchOp), batches.Perm (w.calls.map (·.ops)) ∧
        w.engine = batches.foldl ShardedEngine.applyBatch e := by
  intro w hw hrest
  have hstep : ∀ w ev, (∃ order, Serial e w order) → w.Clear BatchOp.Independent ev →
      ∃ order, Serial e (w.step ev) order := by
    rintro w ev ⟨order, hserial⟩ hclear
    exact hserial.step hclear
  obtain ⟨order, hserial⟩ := Runs.invariant hstep ⟨[], serial_new e⟩ h w hw
  exact hserial.atRest hrest

/-- Adds `d` to `a` and to `b`. -/
def addBoth (d : Int64) : List BatchOp :=
  [.merge [0x61] (encodeInt64 d), .merge [0x62] (encodeInt64 d)]

/-- Two such calls pass each other between the shards of `a` and `b`. -/
def passing : List ShardedEvent :=
  [.applyBatch (addBoth 1), .applyBatch (addBoth 2), .store 0, .store 1, .store 1, .store 0]

theorem passing_serial :
    ∃ batches : List (List BatchOp),
      batches.Perm ((passing.foldl step (new .new)).calls.map (·.ops)) ∧
        (passing.foldl step (new .new)).engine =
          batches.foldl ShardedEngine.applyBatch .new :=
  serializable .new passing (by decide +kernel) _ (Runs.foldl_mem_states _ _)
    (by decide +kernel)

/-! ## Calls that pass each other -/

/-- Sets `a` and `b` to `v`. -/
def setBoth (v : UInt8) : List BatchOp := [.set [0x61] [v], .set [0x62] [v]]

/-- The first call stores `a` first and `b` last. -/
def crossed : List ShardedEvent :=
  [.applyBatch (setBoth 1), .applyBatch (setBoth 2), .store 0, .store 1, .store 1, .store 0]

/-- `a` is 2 and `b` is 1: no order of the two batches leaves that. -/
theorem crossed_unserializable :
    (crossed.foldl step (new .new)).AtRest ∧
      (crossed.foldl step (new .new)).engine.get [0x61] = some [2] ∧
      (crossed.foldl step (new .new)).engine.get [0x62] = some [1] ∧
      ¬ ∃ batches : List (List BatchOp),
        batches.Perm ((crossed.foldl step (new .new)).calls.map (·.ops)) ∧
          (crossed.foldl step (new .new)).engine =
            batches.foldl ShardedEngine.applyBatch .new := by
  have hcalls : (crossed.foldl step (new .new)).calls.map (·.ops) = [setBoth 1, setBoth 2] := by
    decide +kernel
  have ha : (crossed.foldl step (new .new)).engine.get [0x61] = some [2] := by decide +kernel
  have hb : (crossed.foldl step (new .new)).engine.get [0x62] = some [1] := by decide +kernel
  refine ⟨by decide +kernel, ha, hb, ?_⟩
  rintro ⟨batches, hperm, heq⟩
  rw [hcalls] at hperm
  rw [heq] at ha hb
  have hcases : batches = [setBoth 1, setBoth 2] ∨ batches = [setBoth 2, setBoth 1] := by
    simpa [List.permutations'] using List.mem_permutations'.mpr hperm
  rcases hcases with rfl | rfl
  · revert hb
    decide +kernel
  · revert ha
    decide +kernel

end ShardedOverlap

end Dpx
