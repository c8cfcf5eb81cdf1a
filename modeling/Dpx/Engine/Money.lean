/-
# `Dpx.Engine.Money` — what the user keys of an engine add up to

The total of a state is the sum, modulo `2^64`, of the balances a full scan of a snapshot
yields.  A merge into a user key moves it by the merged amount, whatever the key held
before: a missing or short value counts as zero and becomes eight bytes, a long one is
cut to its first eight.  Mutations of reserved keys do not move it.

`total_applyOps` says this for a list of mutations of these two kinds (`Movement`), and
`ShardedEngine.total_applySection` for the locked section of one shard.
-/
import Dpx.Lib.Word
import Dpx.Lib.MapSum
import Dpx.Engine.Memory

namespace Dpx

open scoped Word

/-! ## Mutations -/

namespace BatchOp

def isMerge : BatchOp → Bool
  | .merge _ _ => true
  | _ => false

/-- Touches a reserved key, or merges. -/
def Movement (op : BatchOp) : Prop := isReserved op.key = true ∨ op.isMerge = true

/-- What a movement adds to the total. -/
def amount : BatchOp → Int64
  | .merge k v => if isReserved k then 0 else decodeInt64 v
  | _ => 0

/-- Movements that cancel out. -/
structure Neutral (ops : List BatchOp) : Prop where
  moves : ∀ op ∈ ops, op.Movement
  cancel : (ops.map amount).sum = 0

theorem neutral_nil : Neutral [] := ⟨fun _ h => absurd h List.not_mem_nil, rfl⟩

theorem Neutral.append {xs ys : List BatchOp} (hx : Neutral xs) (hy : Neutral ys) :
    Neutral (xs ++ ys) where
  moves := List.forall_mem_append.mpr ⟨hx.moves, hy.moves⟩
  cancel := by simp [hx.cancel, hy.cancel]

end BatchOp

/-! ## One state -/

namespace State

/-- The balances of all user keys, added up. -/
def total (s : State) : Int64 := ((s.newIter [] []).map fun it => decodeInt64 it.2).sum

/-- What a pair counts for. -/
def worth (k v : Bytes) : Int64 := if isReserved k then 0 else decodeInt64 v

theorem less_nil (k : Key) : less k [] = false := by
  cases k <;> rfl

theorem total_eq_sum (s : State) : s.total = MapSum.sum worth s.tree := by
  have hfilter : ∀ l : List (Bytes × Bytes),
      ((l.filter fun it => !less it.1 [] && !isReserved it.1).map fun it => decodeInt64 it.2).sum =
        (l.map fun it => worth it.1 it.2).sum := by
    intro l
    induction l with
    | nil => rfl
    | cons it l ih =>
        cases hr : isReserved it.1 with
        | true => simpa [worth, hr, less_nil] using ih
        | false => simpa [worth, hr, less_nil] using ih
  exact hfilter s.tree.toList

theorem total_congr {s t : State} (h : ∀ k, s.get k = t.get k) : s.total = t.total := by
  have htree : s.tree = t.tree := Std.ExtTreeMap.ext_getElem? fun {k} => h k
  rw [total_eq_sum, total_eq_sum, htree]

theorem share_worth {s : State} {k : Key} (hk : isReserved k = false) :
    MapSum.share worth s.tree k = decodeInt64 ((s.tree[k]?).getD []) := by
  rw [MapSum.share]
  cases s.tree[k]? with
  | none => rfl
  | some v => simp [worth, hk]

theorem share_worth_reserved {s : State} {k : Key} (hk : isReserved k = true) :
    MapSum.share worth s.tree k = 0 := by
  rw [MapSum.share]
  cases s.tree[k]? with
  | none => rfl
  | some v => simp [worth, hk]

theorem sum_insert_reserved (m : State) {k : Key} (hk : isReserved k = true) (v : Bytes) :
    MapSum.sum worth (m.tree.insert k v) = MapSum.sum worth m.tree := by
  have hins := MapSum.sum_insert worth m.tree k v
  rw [share_worth_reserved hk, zero_add] at hins
  simpa [worth, hk] using hins

theorem total_applyOp (s : State) {op : BatchOp} (h : op.Movement) :
    (s.applyOp op).total = s.total + op.amount := by
  rw [total_eq_sum, total_eq_sum]
  cases op with
  | set k v =>
      have hk : isReserved k = true := h.resolve_right Bool.false_ne_true
      simp [applyOp, BatchOp.amount, sum_insert_reserved s hk]
  | delete k =>
      have hk : isReserved k = true := h.resolve_right Bool.false_ne_true
      have herase := MapSum.sum_erase worth s.tree k
      rw [share_worth_reserved hk, zero_add] at herase
      simp [applyOp, BatchOp.amount, herase]
  | merge k v =>
      cases hk : isReserved k with
      | true => simp [applyOp, BatchOp.amount, hk, sum_insert_reserved s hk]
      | false =>
          -- the old balance leaves the sum, the old balance and the amount enter it
          have hins := MapSum.sum_insert worth s.tree k
            (encodeInt64 (decodeInt64 ((s.tree[k]?).getD []) + decodeInt64 v))
          rw [share_worth hk, worth, hk, if_neg Bool.false_ne_true, decodeInt64_encodeInt64,
            add_assoc] at hins
          simp only [applyOp, BatchOp.amount, hk, Bool.false_eq_true, if_false]
          rw [add_left_cancel hins, add_comm]

theorem total_applyOps {ops : List BatchOp} (h : ∀ op ∈ ops, op.Movement) :
    ∀ s : State, (s.applyOps ops).total = s.total + (ops.map BatchOp.amount).sum := by
  induction ops with
  | nil => intro s; simp [applyOps]
  | cons op ops ih =>
      intro s
      simp only [List.forall_mem_cons] at h
      rw [List.map_cons, List.sum_cons, ← add_assoc, ← s.total_applyOp h.1]
      exact ih h.2 (s.applyOp op)

theorem total_applyOps_neutral {ops : List BatchOp} (h : BatchOp.Neutral ops) (s : State) :
    (s.applyOps ops).total = s.total := by
  rw [total_applyOps h.moves, h.cancel, add_zero]

end State

/-! ## All shards -/

namespace ShardedEngine

/-- The balances of all user keys, added up. -/
def total (e : ShardedEngine) : Int64 := ((e.newIter [] []).map fun it => decodeInt64 it.2).sum

theorem total_eq_sum (e : ShardedEngine) :
    e.total = ((List.finRange numShards).map fun i => (e.shards i).total).sum := by
  have hperm : (e.newIter [] []).Perm _ := List.mergeSort_perm _ _
  have hflat : ∀ is : List ShardId,
      ((is.flatMap fun i => (e.shards i).newIter [] []).map fun it => decodeInt64 it.2).sum =
        (is.map fun i => (e.shards i).total).sum := by
    intro is
    induction is with
    | nil => rfl
    | cons i is ih => simp [ih, State.total]
  rw [total, (hperm.map _).sum_eq]
  exact hflat _

theorem total_applySection (e : ShardedEngine) {ops : List BatchOp} {i : ShardId}
    (h : ∀ op ∈ byShard ops i, op.Movement) :
    (e.applySection ops i).total = e.total + ((byShard ops i).map BatchOp.amount).sum := by
  rw [total_eq_sum, total_eq_sum]
  exact MapSum.sum_map_update State.total e.shards (State.total_applyOps h (e.shards i))
    (List.nodup_finRange _) (List.mem_finRange i)

end ShardedEngine

end Dpx
