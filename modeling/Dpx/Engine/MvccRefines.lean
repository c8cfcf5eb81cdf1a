/-
# `Dpx.Engine.MvccRefines` — where the multi-version engine agrees with the B-tree

Serial batches on a new `MVCCEngine` and on a new plain engine, without compaction.  Both
treat each key alone, so the comparison is between two readings of the mutations of one
key:

  * the B-tree keeps one value, and a delete forgets it (`BatchOp.act`);
  * the multi-version engine keeps the versions, and a merge builds on the last one that
    is no tombstone (`lastValue`): the deleted value comes back.

The two readings part exactly where a key is deleted and then merged into, and what it
had come to before the delete is not zero (`BatchOp.Settled`).
-/
import Dpx.Engine.Money
import Dpx.Engine.Mvcc

namespace Dpx

open scoped Word

/-! ## One key -/

/-- What a mutation makes of the last value that is no tombstone. -/
def lastLive (cur : Bytes) : BatchOp → Bytes
  | .set _ v => v
  | .delete _ => cur
  | .merge _ v => encodeInt64 (decodeInt64 cur + decodeInt64 v)

namespace BatchOp

/-- The balance a mutation leaves, if a delete is passed over. -/
def carry (bal : Int64) : BatchOp → Int64
  | .set _ v => decodeInt64 v
  | .delete _ => bal
  | .merge _ v => bal + decodeInt64 v

/-- What the sets and merges of a key come to, deletes passed over. -/
def carried (ops : List BatchOp) : Int64 := ops.foldl carry 0

/-- If the mutations of a key end in a delete and merges after it, then the key had come
to zero before the delete. -/
def Settled (ops : List BatchOp) : Prop :=
  ∀ pre k ms, ops = pre ++ .delete k :: ms → ms ≠ [] → (∀ op ∈ ms, op.isMerge = true) →
    carried pre = 0

theorem effect_eq_foldl (k : Key) (ops : List BatchOp) :
    ∀ v, effect k v ops = (opsOn k ops).foldl (fun v op => op.act v) v := by
  induction ops with
  | nil => intro v; rfl
  | cons op ops ih =>
      intro v
      rw [effect_cons, opsOn_cons, ih]
      split <;> rfl

theorem merges_or_last (ops : List BatchOp) :
    (∀ op ∈ ops, op.isMerge = true) ∨
      ∃ pre op ms, ops = pre ++ op :: ms ∧ op.isMerge = false ∧ ∀ m ∈ ms, m.isMerge = true := by
  induction ops with
  | nil => exact Or.inl fun _ h => absurd h List.not_mem_nil
  | cons o ops ih =>
      rcases ih with hall | ⟨pre, op, ms, rfl, hop, hms⟩
      · cases ho : o.isMerge with
        | true => exact Or.inl (List.forall_mem_cons.mpr ⟨ho, hall⟩)
        | false => exact Or.inr ⟨[], o, ops, rfl, ho, hall⟩
      · exact Or.inr ⟨o :: pre, op, ms, rfl, hop, hms⟩

theorem last_unique {pre pre' ms ms' : List BatchOp} {op op' : BatchOp}
    (h : pre ++ op :: ms = pre' ++ op' :: ms') (hop : op.isMerge = false)
    (hop' : op'.isMerge = false) (hms : ∀ m ∈ ms, m.isMerge = true)
    (hms' : ∀ m ∈ ms', m.isMerge = true) : pre = pre' ∧ op = op' ∧ ms = ms' := by
  have hmem : ∀ {x : BatchOp} {a xs ys : List BatchOp}, x.isMerge = false →
      (∀ m ∈ xs, m.isMerge = true) → xs ≠ a ++ x :: ys := by
    rintro x a xs ys hx hxs rfl
    have hx' := hxs x (List.mem_append_right _ List.mem_cons_self)
    rw [hx] at hx'
    cases hx'
  rcases List.append_eq_append_iff.mp h with ⟨a, rfl, ha⟩ | ⟨a, rfl, ha⟩
  · cases a with
    | nil =>
        obtain ⟨rfl, rfl⟩ := List.cons.inj ha
        exact ⟨(List.append_nil _).symm, rfl, rfl⟩
    | cons x a => exact absurd (List.cons.inj ha).2 (hmem hop' hms)
  · cases a with
    | nil =>
        obtain ⟨rfl, rfl⟩ := List.cons.inj ha
        exact ⟨List.append_nil _, rfl, rfl⟩
    | cons x a => exact absurd (List.cons.inj ha).2 (hmem hop hms')

/-! ### Merges -/

def isSet : BatchOp → Bool
  | .set _ _ => true
  | .delete _ | .merge _ _ => false

/-- A set makes the balance before it forgotten; nothing else does. -/
theorem foldl_carry_eq_iff (ops : List BatchOp) {a b : Int64} :
    ops.foldl carry a = ops.foldl carry b ↔ a = b ∨ ∃ op ∈ ops, op.isSet = true := by
  induction ops generalizing a b with
  | nil => simp
  | cons op ops ih =>
      rw [List.foldl_cons, List.foldl_cons, ih]
      cases op with
      | set k v => simp [carry, isSet]
      | delete k => simp [carry, isSet]
      | merge k v => simp [carry, isSet]

variable {ms : List BatchOp}

theorem foldl_carry_inj (h : ∀ op ∈ ms, op.isMerge = true) {a b : Int64} :
    ms.foldl carry a = ms.foldl carry b ↔ a = b := by
  refine (foldl_carry_eq_iff ms).trans (or_iff_left ?_)
  rintro ⟨op, hop, hset⟩
  cases op with
  | set k v => cases h _ hop
  | delete | merge => cases hset

theorem merges_rec {motive : List BatchOp → Prop} (single : ∀ k b, motive [.merge k b])
    (cons : ∀ k b ms, motive ms → motive (.merge k b :: ms)) :
    ∀ {ms : List BatchOp}, (∀ op ∈ ms, op.isMerge = true) → ms ≠ [] → motive ms
  | [], _, hne => absurd rfl hne
  | .set _ _ :: _, h, _ => Bool.noConfusion (h _ List.mem_cons_self)
  | .delete _ :: _, h, _ => Bool.noConfusion (h _ List.mem_cons_self)
  | [.merge k b], _, _ => single k b
  | .merge k b :: op :: ms, h, _ =>
      cons k b (op :: ms) (merges_rec single cons (fun op hop => h op (List.mem_cons_of_mem _ hop))
        (List.cons_ne_nil op ms))

theorem foldl_act_of_merges (h : ∀ op ∈ ms, op.isMerge = true) (hne : ms ≠ []) :
    ∀ v, ms.foldl (fun v op => op.act v) v =
      some (encodeInt64 (ms.foldl carry (decodeInt64 (v.getD [])))) := by
  refine merges_rec (motive := fun ms => ∀ v, ms.foldl (fun v op => op.act v) v =
    some (encodeInt64 (ms.foldl carry (decodeInt64 (v.getD []))))) (fun _ _ _ => rfl) ?_ h hne
  intro k b ms ih v
  rw [List.foldl_cons, ih]
  simp [act, mergeInt64, carry]

end BatchOp

open BatchOp (Settled carry carried)

section Merges

variable {ms : List BatchOp}

theorem lastValue_of_merges (h : ∀ op ∈ ms, op.isMerge = true) (hne : ms ≠ []) :
    ∀ cur out, lastValue cur out ms =
      some (encodeInt64 (ms.foldl carry (decodeInt64 cur))) := by
  refine BatchOp.merges_rec (motive := fun ms => ∀ cur out, lastValue cur out ms =
    some (encodeInt64 (ms.foldl carry (decodeInt64 cur)))) (fun _ _ _ _ => rfl) ?_ h hne
  intro k b ms ih cur out
  simp [lastValue, ih, carry]

/-- Merges part the two readings exactly if they start from different balances. -/
theorem merges_agree_iff (h : ∀ op ∈ ms, op.isMerge = true) (hne : ms ≠ []) (cur : Bytes)
    (out v : Option Bytes) :
    lastValue cur out ms = ms.foldl (fun v op => op.act v) v ↔
      decodeInt64 cur = decodeInt64 (v.getD []) := by
  rw [lastValue_of_merges h hne, BatchOp.foldl_act_of_merges h hne, Option.some_inj,
    encodeInt64_inj, BatchOp.foldl_carry_inj h]

end Merges

/-! ### The two readings -/

theorem lastValue_append (xs ys : List BatchOp) : ∀ cur out,
    lastValue cur out (xs ++ ys) =
      lastValue (xs.foldl lastLive cur) (lastValue cur out xs) ys := by
  induction xs with
  | nil => intro cur out; rfl
  | cons op xs ih =>
      intro cur out
      cases op <;> exact ih _ _

theorem decodeInt64_foldl_lastLive (ops : List BatchOp) : ∀ cur,
    decodeInt64 (ops.foldl lastLive cur) = ops.foldl carry (decodeInt64 cur) := by
  induction ops with
  | nil => intro cur; rfl
  | cons op ops ih =>
      intro cur
      rw [List.foldl_cons, List.foldl_cons, ih]
      cases op <;> simp [lastLive, carry]

/-- **The two readings of one key.**  From nothing, they agree exactly on settled
mutations. -/
theorem readings_agree_iff (ops : List BatchOp) :
    lastValue [] none ops = ops.foldl (fun v op => op.act v) none ↔ Settled ops := by
  rcases BatchOp.merges_or_last ops with hms | ⟨pre, op, ms, rfl, hop, hms⟩
  · -- merges only: both start from zero
    constructor
    · rintro - pre k ms rfl
      have hdel := hms (.delete k) (List.mem_append_right _ List.mem_cons_self)
      cases hdel
    · intro _
      by_cases hne : ops = []
      · subst hne
        rfl
      · exact (merges_agree_iff hms hne [] none none).mpr rfl
  · rw [lastValue_append, List.foldl_append]
    cases op with
    | merge k b => cases hop
    | set k b =>
        -- both start from the value set
        constructor
        · rintro - pre' k' ms' heq - hms'
          obtain ⟨-, h, -⟩ := BatchOp.last_unique heq hop rfl hms hms'
          cases h
        · intro _
          by_cases hne : ms = []
          · subst hne
            rfl
          · exact (merges_agree_iff hms hne b (some b) (some b)).mpr rfl
    | delete k =>
        -- the B-tree starts from zero, the versions from what was deleted
        by_cases hne : ms = []
        · subst hne
          refine iff_of_true rfl ?_
          rintro pre' k' ms' heq hne' hms'
          obtain ⟨-, -, rfl⟩ := BatchOp.last_unique heq hop rfl hms hms'
          exact absurd rfl hne'
        · refine (merges_agree_iff hms hne (pre.foldl lastLive []) none none).trans ?_
          rw [decodeInt64_foldl_lastLive]
          constructor
          · rintro hzero pre' k' ms' heq - hms'
            obtain ⟨rfl, -, -⟩ := BatchOp.last_unique heq hop rfl hms hms'
            exact hzero
          · intro h
            exact h pre k ms rfl hne hms

/-! ## The engines -/

theorem getCurrentValue_grow (c : Nat) (ops : List BatchOp) : ∀ entries,
    getCurrentValue (grow c entries ops) = ops.foldl lastLive (getCurrentValue entries) := by
  induction ops with
  | nil => intro entries; rfl
  | cons op ops ih =>
      intro entries
      show getCurrentValue (grow c (entries ++ [entryOf c entries op]) ops) = _
      rw [ih, getCurrentValue_concat]
      cases op <;> rfl

theorem opsOn_append (k : Key) (xs ys : List BatchOp) :
    opsOn k (xs ++ ys) = opsOn k xs ++ opsOn k ys := by
  simp [opsOn]

theorem opsOn_byShard (k : Key) (ops : List BatchOp) :
    opsOn k (ShardedEngine.byShard ops (shardFor k)) = opsOn k ops := by
  rw [opsOn, opsOn, ShardedEngine.byShard, List.filter_filter]
  refine List.filter_congr fun op _ => ?_
  by_cases hk : op.key = k
  · simp [hk]
  · simp [hk]

theorem State.get_applyBatches (wo : WriteOptions) (batches : List (List BatchOp)) (k : Key) :
    ∀ s : State, (applyBatches s wo batches).get k =
      BatchOp.effect k (s.get k) batches.flatten := by
  induction batches with
  | nil => intro s; rfl
  | cons ops batches ih =>
      intro s
      rw [List.flatten_cons, BatchOp.effect_append, ← State.get_applyOps]
      exact ih (s.applyOps ops)

namespace MVCCEngine

theorem get_eq_latest (e : MVCCEngine) (k : Key) :
    e.get k = latest (e.versions (shardFor k) k) := by
  rw [get, versions]
  cases (e.shards (shardFor k))[k]? with
  | none => rfl
  | some entries =>
      simp only [Option.getD_some, latest]
      cases entries.getLast? <;> rfl

theorem versions_home_applyBatch (e : MVCCEngine) (ops : List BatchOp) (k : Key) :
    (e.applyBatch ops).versions (shardFor k) k =
      grow (e.nextSeq ops.length) (e.versions (shardFor k) k) (opsOn k ops) := by
  by_cases hops : ops = []
  · subst hops
    rfl
  · rw [versions_applyBatch e hops, opsOn_byShard]

theorem Tidy.latest_applyBatches {e : MVCCEngine} (h : Tidy e) (wo : WriteOptions)
    (batches : List (List BatchOp)) :
    Tidy (applyBatches e wo batches) ∧
      ∀ k, latest ((applyBatches e wo batches).versions (shardFor k) k) =
        lastValue (getCurrentValue (e.versions (shardFor k) k)) (latest (e.versions (shardFor k) k))
          (opsOn k batches.flatten) := by
  induction batches generalizing e with
  | nil => exact ⟨h, fun k => rfl⟩
  | cons ops batches ih =>
      obtain ⟨htidy, hlatest⟩ := ih (h.applyBatch ops)
      refine ⟨htidy, fun k => ?_⟩
      rw [List.flatten_cons, opsOn_append, lastValue_append, ← getCurrentValue_grow
        (e.nextSeq ops.length), ← latest_grow (e.nextSeq ops.length), ← versions_home_applyBatch]
      exact hlatest k

theorem agree_iff_settled (sharded : Bool) (wo : WriteOptions) (batches : List (List BatchOp))
    (k : Key) {m : MVCCEngine} (hm : m = applyBatches (newMVCCEngine sharded) wo batches)
    {s : State} (hs : s = applyBatches State.empty wo batches) :
    (m.get k = s.get k ∧ m.snapshotGet k = s.get k) ↔ Settled (opsOn k batches.flatten) := by
  subst hm hs
  obtain ⟨htidy, hlatest⟩ := (tidy_new sharded).latest_applyBatches wo batches
  have hstart : lastValue (getCurrentValue ((newMVCCEngine sharded).versions (shardFor k) k))
      (latest ((newMVCCEngine sharded).versions (shardFor k) k)) (opsOn k batches.flatten) =
        lastValue [] none (opsOn k batches.flatten) := by
    rw [versions_newMVCCEngine]
    rfl
  rw [htidy.snapshotGet, get_eq_latest, hlatest, hstart, State.get_applyBatches, State.get_empty,
    BatchOp.effect_eq_foldl, readings_agree_iff]
  exact and_self_iff

/-- **Agreement with the B-tree.**  After every batch, reads of both engines and of
snapshots taken then agree on every key, exactly if after every batch the mutations of
every key so far are settled. -/
theorem refines_btree_iff (sharded : Bool) (wo : WriteOptions) (batches : List (List BatchOp)) :
    (∀ n k,
      let m := applyBatches (newMVCCEngine sharded) wo (batches.take n)
      let s := applyBatches State.empty wo (batches.take n)
      StorageEngine.get m k = StorageEngine.get s k ∧ m.snapshotGet k = s.get k) ↔
    ∀ n k, Settled (opsOn k (batches.take n).flatten) :=
  forall_congr' fun n => forall_congr' fun k =>
    agree_iff_settled sharded wo (batches.take n) k rfl rfl

/-- A balance of 5 is deleted; then 3 is merged in. -/
def revived : List (List BatchOp) :=
  [[.set [0x6b] (encodeInt64 5)], [.delete [0x6b]], [.merge [0x6b] (encodeInt64 3)]]

/-- The multi-version engine answers 8, the B-tree 3. -/
theorem deleted_balance_revived :
    StorageEngine.get (applyBatches (newMVCCEngine false) ⟨false⟩ revived) [0x6b] =
        some (encodeInt64 8) ∧
      (applyBatches (newMVCCEngine false) ⟨false⟩ revived).snapshotGet [0x6b] =
        some (encodeInt64 8) ∧
      StorageEngine.get (applyBatches State.empty ⟨false⟩ revived) [0x6b] =
        some (encodeInt64 3) := by
  refine ⟨?_, ?_, ?_⟩ <;> decide +kernel

end MVCCEngine

end Dpx
