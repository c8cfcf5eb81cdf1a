/-
# `Dpx.Engine.ShardedSnapshots` — what a snapshot of the sharded engine may miss

A snapshot loads 128 states one by one and takes no lock, while calls store theirs one by
one.  Both ascend, but nothing keeps one from overtaking the other between two shards of a
batch: the snapshot then has the one half of the batch and not the other.

A snapshot holds, for each shard it has loaded, what the calls in `seen` made of it
(`Faithful`).  It has all of every batch or none exactly if, at every load of a shard, no
call has overtaken it or been overtaken since an earlier shard they share (`InStep`).
A value and its version record then come from one commit, provided that calls which write
the same user key take turns: `snapshots_cut`.
-/
import Mathlib.Data.List.Infix
import Dpx.Engine.ShardedCalls

namespace Dpx

open Interleave (replay)
open ShardedEngine (touched byShard)

/-! ## Reads -/

namespace ShardedSnapshot

def get (sn : ShardedSnapshot) (k : Key) : Option Bytes :=
  (sn.states (shardFor k)).bind fun s => s.get k

def getVersion (sn : ShardedSnapshot) (k : Key) : EpochRecord :=
  match (sn.states (shardFor (versionKey k))).bind fun s => s.tree[versionKey k]? with
  | none => .zero
  | some v => decodeEpochRecord v

end ShardedSnapshot

namespace ShardedOverlap

/-! ## What is promised and what is asked -/

/-- A loaded state is what the calls seen have made of the shard. -/
def Faithful (e₀ : ShardedEngine) (w : ShardedOverlap) : Prop :=
  ∀ sn ∈ w.snapshots, ∀ i, i ∉ sn.todo →
    sn.states i = some (w.fill i (sn.seen i) (e₀.shards i))

/-- Of the shards of a batch that a snapshot has loaded, it has seen the batch in all or
in none. -/
def AllOrNone (w : ShardedOverlap) : Prop :=
  ∀ sn ∈ w.snapshots, ∀ n, ∀ i ∈ touched (w.opsOf n), ∀ j ∈ touched (w.opsOf n),
    i ∉ sn.todo → j ∉ sn.todo → (n ∈ sn.seen i ↔ n ∈ sn.seen j)

/-- The batch of the `n`-th call mutates `k`. -/
def writes (w : ShardedOverlap) (n : Nat) (k : Key) : Bool := (w.opsOf n).any fun op => op.key = k

/-- The last of the calls `ns` that writes `k`. -/
def lastWriter (w : ShardedOverlap) (ns : List Nat) (k : Key) : Option Nat :=
  (ns.filter fun n => w.writes n k).getLast?

/-- The value of a user key and its version record come from the same call. -/
def SameCommit (w : ShardedOverlap) : Prop :=
  ∀ sn ∈ w.snapshots, ∀ k, isReserved k = false → shardFor k ∉ sn.todo →
    shardFor (versionKey k) ∉ sn.todo →
      w.lastWriter (sn.seen (shardFor k)) k =
        w.lastWriter (sn.seen (shardFor (versionKey k))) (versionKey k)

/-- A snapshot about to load shard `p` and a call that touches `p` have not passed each
other: the call has stored `p` exactly if it had stored an earlier shard of its own when
the snapshot loaded that one. -/
def InStep (w : ShardedOverlap) : ShardedEvent → Prop
  | .load m => ∀ sn ∈ w.snapshots[m]?, ∀ p ∈ sn.todo.head?, ∀ n, p ∈ touched (w.opsOf n) →
      ∀ j ∈ touched (w.opsOf n), j ∉ sn.todo → (w.done p n = true ↔ n ∈ sn.seen j)
  | .applyBatch _ | .store _ | .getSnapshot => True

end ShardedOverlap

/-- They are not of the same user key. -/
def BatchOp.Apart (a b : BatchOp) : Prop := isReserved a.key = true ∨ a.key ≠ b.key

instance : DecidableRel BatchOp.Apart := fun _ _ => inferInstanceAs (Decidable (_ ∨ _))

theorem BatchOp.Apart.symm {a b : BatchOp} (h : a.Apart b) : b.Apart a := by
  by_cases hk : a.key = b.key
  · refine Or.inl ?_
    rw [← hk]
    exact h.resolve_right (not_not.mpr hk)
  · exact Or.inr fun hk' => hk hk'.symm

/-- A batch as a proposer builds it: it writes a user key exactly if it writes the key's
version record. -/
def ShardedEvent.Paired : ShardedEvent → Prop
  | .applyBatch ops => ∀ k, isReserved k = false →
      (ops.any fun op => op.key = versionKey k) = ops.any fun op => op.key = k
  | .store _ | .getSnapshot | .load _ => True

namespace ShardedOverlap

/-! ## The histories tell the states -/

structure Linked (e₀ : ShardedEngine) (w : ShardedOverlap) : Prop where
  proper : Proper w
  stored_iff : ∀ n i, n ∈ w.stored i ↔ w.done i n = true
  nodup : ∀ i, (w.stored i).Nodup
  shards : ∀ i, w.engine.shards i = w.fill i (w.stored i) (e₀.shards i)
  faithful : Faithful e₀ w
  seen_initial : ∀ sn ∈ w.snapshots, ∀ i, i ∉ sn.todo → sn.seen i <+: w.stored i
  todo_nodup : ∀ sn ∈ w.snapshots, sn.todo.Nodup

theorem linked_new (e : ShardedEngine) : Linked e (new e) where
  proper := proper_new e
  stored_iff := fun n i => by simp [new, done, opsOf]
  nodup := fun _ => List.nodup_nil
  shards := fun _ => rfl
  faithful := fun _ h => absurd h List.not_mem_nil
  seen_initial := fun _ h => absurd h List.not_mem_nil
  todo_nodup := fun _ h => absurd h List.not_mem_nil

section Linked

variable {e₀ : ShardedEngine} {w : ShardedOverlap}

theorem fill_congr {w' : ShardedOverlap} {ns : List Nat} (h : ∀ n ∈ ns, w'.opsOf n = w.opsOf n)
    (i : ShardId) (s : State) : w'.fill i ns s = w.fill i ns s := by
  refine Interleave.replay_congr _ (fun n hn => ?_) s
  funext t
  rw [act, act, h n hn]

theorem Linked.lt_length (h : Linked e₀ w) {n : Nat} {i : ShardId} (hn : n ∈ w.stored i) :
    n < w.calls.length :=
  w.lt_of_done ((h.stored_iff n i).mp hn)

theorem Linked.not_stored_of_next (h : Linked e₀ w) {n : Nat} {ops : List BatchOp} {i : ShardId}
    {todo : List ShardId} (hc : w.calls[n]? = some ⟨ops, i :: todo⟩) : n ∉ w.stored i := by
  intro hn
  have hdone := (h.stored_iff n i).mp hn
  rw [not_done_of_next hc] at hdone
  cases hdone

theorem Linked.opsOf_of_stored (h : Linked e₀ w) (ops : List BatchOp) {i : ShardId} {n : Nat}
    (hn : n ∈ w.stored i) : (w.step (.applyBatch ops)).opsOf n = w.opsOf n := by
  rw [opsOf_applyBatch, if_neg (Nat.ne_of_lt (h.lt_length hn))]

theorem Linked.applyBatch (h : Linked e₀ w) (ops : List BatchOp) :
    Linked e₀ (w.step (.applyBatch ops)) := by
  refine ⟨h.proper.step _, fun n i => ?_, h.nodup, fun i => ?_, fun sn hsn i hi => ?_,
    h.seen_initial, h.todo_nodup⟩
  · show n ∈ w.stored i ↔ _
    simp only [done, opsOf_applyBatch, todoOf_applyBatch]
    split
    · rename_i hn
      simp only [Bool.and_not_self, Bool.false_eq_true, iff_false]
      exact fun hmem => Nat.ne_of_lt (h.lt_length hmem) hn
    · exact h.stored_iff n i
  · show _ = (w.step (.applyBatch ops)).fill i (w.stored i) (e₀.shards i)
    rw [fill_congr fun n hn => h.opsOf_of_stored ops hn]
    exact h.shards i
  · rw [fill_congr fun n hn =>
      h.opsOf_of_stored ops ((h.seen_initial sn hsn i hi).subset hn)]
    exact h.faithful sn hsn i hi

variable {n : Nat} {ops : List BatchOp} {i : ShardId} {todo : List ShardId}

theorem Linked.afterStore (h : Linked e₀ w) (hc : w.calls[n]? = some ⟨ops, i :: todo⟩) :
    Linked e₀ (w.afterStore n ops i todo) := by
  have hfill : ∀ (j : ShardId) (ns : List Nat) (s : State),
      (w.afterStore n ops i todo).fill j ns s = w.fill j ns s :=
    fun j ns s => fill_congr (fun m _ => opsOf_afterStore hc m) j s
  have hnot := h.not_stored_of_next hc
  have hstored : ∀ j, w.stored j <+: (w.afterStore n ops i todo).stored j := by
    intro j
    show w.stored j <+: Function.update w.stored i _ j
    by_cases hj : j = i
    · subst hj
      rw [Function.update_self]
      exact List.prefix_append _ _
    · rw [Function.update_of_ne hj]
  refine ⟨h.proper.afterStore hc, fun m j => ?_, fun j => ?_, fun j => ?_, fun sn hsn j hj => ?_,
    fun sn hsn j hj => (h.seen_initial sn hsn j hj).trans (hstored j), h.todo_nodup⟩
  · rw [h.proper.done_afterStore hc]
    show m ∈ Function.update w.stored i _ j ↔ _
    by_cases hj : j = i
    · subst hj
      rw [Function.update_self, List.mem_append, List.mem_singleton, h.stored_iff]
      by_cases hm : m = n
      · simp [hm]
      · simp [hm]
    · rw [Function.update_of_ne hj, h.stored_iff]
      simp [hj]
  · show (Function.update w.stored i _ j).Nodup
    by_cases hj : j = i
    · subst hj
      rw [Function.update_self]
      refine List.nodup_append.mpr ⟨h.nodup j, List.nodup_singleton n, ?_⟩
      rintro m hm _ hn rfl
      exact hnot (List.mem_singleton.mp hn ▸ hm)
    · rw [Function.update_of_ne hj]
      exact h.nodup j
  · rw [hfill]
    show Function.update w.engine.shards i _ j = w.fill j (Function.update w.stored i _ j) _
    by_cases hj : j = i
    · subst hj
      have hops : w.opsOf n = ops := (numbers_of_call hc).1
      rw [Function.update_self, Function.update_self, fill, Interleave.replay_append]
      show _ = State.applyOps _ (byShard (w.opsOf n) j)
      rw [hops, h.shards j]
      rfl
    · rw [Function.update_of_ne hj, Function.update_of_ne hj]
      exact h.shards j
  · rw [hfill]
    exact h.faithful sn hsn j hj

theorem Linked.getSnapshot (h : Linked e₀ w) : Linked e₀ (w.step .getSnapshot) := by
  have hnew : ∀ i : ShardId, ¬ i ∉ List.finRange numShards := fun i hi => hi (List.mem_finRange i)
  refine ⟨h.proper.step _, h.stored_iff, h.nodup, h.shards, fun sn hsn => ?_, fun sn hsn => ?_,
    fun sn hsn => ?_⟩
  · rcases List.mem_append.mp hsn with hsn | hsn
    · exact h.faithful sn hsn
    · rw [List.mem_singleton.mp hsn]
      exact fun i hi => absurd hi (hnew i)
  · rcases List.mem_append.mp hsn with hsn | hsn
    · exact h.seen_initial sn hsn
    · rw [List.mem_singleton.mp hsn]
      exact fun i hi => absurd hi (hnew i)
  · rcases List.mem_append.mp hsn with hsn | hsn
    · exact h.todo_nodup sn hsn
    · rw [List.mem_singleton.mp hsn]
      exact List.nodup_finRange _

variable {m : Nat} {sn : ShardedSnapshot} {p : ShardId} {rest : List ShardId}

theorem Linked.afterLoad (h : Linked e₀ w) (hsn : w.snapshots[m]? = some sn)
    (htodo : sn.todo = p :: rest) : Linked e₀ (w.afterLoad m sn p rest) := by
  have hmem := List.mem_of_getElem? hsn
  -- a shard is loaded afterwards if it is `p` or was loaded before
  have hbefore : ∀ i, i ≠ p → i ∉ rest → i ∉ sn.todo := fun i hi hrest =>
    htodo ▸ List.not_mem_cons_of_ne_of_not_mem hi hrest
  refine ⟨h.proper, h.stored_iff, h.nodup, h.shards, fun sn' hsn' i hi => ?_,
    fun sn' hsn' i hi => ?_, fun sn' hsn' => ?_⟩
  · rcases List.mem_or_eq_of_mem_set hsn' with hold | rfl
    · exact h.faithful sn' hold i hi
    · show Function.update sn.states p _ i = some (w.fill i (Function.update sn.seen p _ i) _)
      by_cases hip : i = p
      · subst hip
        rw [Function.update_self, Function.update_self, h.shards i]
      · rw [Function.update_of_ne hip, Function.update_of_ne hip]
        exact h.faithful sn hmem i (hbefore i hip hi)
  · rcases List.mem_or_eq_of_mem_set hsn' with hold | rfl
    · exact h.seen_initial sn' hold i hi
    · show Function.update sn.seen p _ i <+: w.stored i
      by_cases hip : i = p
      · subst hip
        rw [Function.update_self]
      · rw [Function.update_of_ne hip]
        exact h.seen_initial sn hmem i (hbefore i hip hi)
  · rcases List.mem_or_eq_of_mem_set hsn' with hold | rfl
    · exact h.todo_nodup sn' hold
    · have hnd := h.todo_nodup sn hmem
      rw [htodo] at hnd
      exact (List.nodup_cons.mp hnd).2

theorem Linked.step (h : Linked e₀ w) (ev : ShardedEvent) : Linked e₀ (w.step ev) := by
  rcases w.step_cases ev with hsame | ⟨ops, rfl⟩ | ⟨n, ops, i, todo, rfl, hc, hstep⟩ | rfl |
    ⟨m, sn, i, todo, rfl, hsn, htodo, hstep⟩
  · rw [hsame]
    exact h
  · exact h.applyBatch ops
  · rw [hstep]
    exact h.afterStore hc
  · exact h.getSnapshot
  · rw [hstep]
    exact h.afterLoad hsn htodo

/-! ## All or none -/

theorem Linked.allOrNone_applyBatch (h : Linked e₀ w) (hall : AllOrNone w) (ops : List BatchOp) :
    AllOrNone (w.step (.applyBatch ops)) := by
  intro sn hsn n i hi j hj hi' hj'
  rw [opsOf_applyBatch] at hi hj
  split at hi
  · rename_i hn
    -- nobody has seen the new call
    have hunseen : ∀ l, l ∉ sn.todo → n ∉ sn.seen l := fun l hl hmem =>
      Nat.ne_of_lt (h.lt_length ((h.seen_initial sn hsn l hl).subset hmem)) hn
    exact iff_of_false (hunseen i hi') (hunseen j hj')
  · rename_i hn
    rw [if_neg hn] at hj
    exact hall sn hsn n i hi j hj hi' hj'

theorem Linked.allOrNone_afterLoad (h : Linked e₀ w) (hall : AllOrNone w)
    (hsn : w.snapshots[m]? = some sn) (htodo : sn.todo = p :: rest) :
    AllOrNone (w.afterLoad m sn p rest) ↔ w.InStep (.load m) := by
  have hmem := List.mem_of_getElem? hsn
  have hlt : m < w.snapshots.length := (List.getElem?_eq_some_iff.mp hsn).1
  have hp : p ∉ rest := by
    have hnd := h.todo_nodup sn hmem
    rw [htodo] at hnd
    exact (List.nodup_cons.mp hnd).1
  constructor
  · intro hafter sn' hsn' p' hp' n hpn j hj hjdone
    obtain rfl : sn = sn' := Option.some.inj (hsn.symm.trans hsn')
    obtain rfl : p = p' := by simpa [htodo] using hp'
    have hjp : j ≠ p := by
      rintro rfl
      exact hjdone (htodo ▸ List.mem_cons_self)
    have hjrest : j ∉ rest := fun hj' => hjdone (htodo ▸ List.mem_cons_of_mem _ hj')
    have hiff := hafter _ (List.mem_set hlt _) n p hpn j hj hp hjrest
    simp only [Function.update_self, Function.update_of_ne hjp] at hiff
    rw [← h.stored_iff]
    exact hiff
  · intro hok sn' hsn' n i hi j hj hi' hj'
    rcases List.mem_or_eq_of_mem_set hsn' with hold | rfl
    · exact hall sn' hold n i hi j hj hi' hj'
    · have hnew : ∀ l, l ∈ touched (w.opsOf n) → l ≠ p → l ∉ rest → p ∈ touched (w.opsOf n) →
          (n ∈ w.stored p ↔ n ∈ sn.seen l) := by
        intro l hl hlp hlrest hpn
        have hldone : l ∉ sn.todo := htodo ▸ List.not_mem_cons_of_ne_of_not_mem hlp hlrest
        rw [h.stored_iff]
        exact hok sn hsn p (by rw [htodo]; rfl) n hpn l hl hldone
      show n ∈ Function.update sn.seen p _ i ↔ n ∈ Function.update sn.seen p _ j
      by_cases hip : i = p
      · subst hip
        by_cases hjp : j = i
        · subst hjp
          rfl
        · rw [Function.update_self, Function.update_of_ne hjp]
          exact hnew j hj hjp hj' hi
      · by_cases hjp : j = p
        · subst hjp
          rw [Function.update_self, Function.update_of_ne hip]
          exact (hnew i hi hip hi' hj).symm
        · rw [Function.update_of_ne hip, Function.update_of_ne hjp]
          exact hall sn hmem n i hi j hj (htodo ▸ List.not_mem_cons_of_ne_of_not_mem hip hi')
            (htodo ▸ List.not_mem_cons_of_ne_of_not_mem hjp hj')

theorem Linked.allOrNone_step (h : Linked e₀ w) (hall : AllOrNone w) (ev : ShardedEvent) :
    AllOrNone (w.step ev) ↔ w.InStep ev := by
  cases ev with
  | applyBatch ops => exact iff_of_true (h.allOrNone_applyBatch hall ops) trivial
  | store n =>
      refine iff_of_true ?_ trivial
      rcases w.step_cases (.store n) with hsame | ⟨_, hev⟩ | ⟨n, ops, i, todo, -, hc, hstep⟩ | hev |
        ⟨_, _, _, _, hev, -⟩
      · rw [hsame]
        exact hall
      · cases hev
      · rw [hstep]
        intro sn hsn m
        rw [opsOf_afterStore hc]
        exact hall sn hsn m
      · cases hev
      · cases hev
  | getSnapshot =>
      refine iff_of_true (fun sn hsn => ?_) trivial
      rcases List.mem_append.mp hsn with hsn | hsn
      · exact hall sn hsn
      · rw [List.mem_singleton.mp hsn]
        exact fun _ i _ _ _ hi => absurd (List.mem_finRange i) hi
  | load m =>
      cases hsn : w.snapshots[m]? with
      | none =>
          simp only [ShardedOverlap.step, InStep, hsn]
          exact iff_of_true hall fun _ h => absurd h (by simp)
      | some sn =>
          cases htodo : sn.todo with
          | nil =>
              simp only [ShardedOverlap.step, InStep, hsn, htodo]
              refine iff_of_true hall fun sn' hsn' p hp => ?_
              obtain rfl : sn = sn' := Option.some.inj hsn'
              simp [htodo] at hp
          | cons p rest =>
              simp only [ShardedOverlap.step, hsn, htodo]
              exact h.allOrNone_afterLoad hall hsn htodo

end Linked

/-! ## One commit -/

theorem prefix_unique {xs ys zs : List Nat} (hnd : zs.Nodup) (hxs : xs <+: zs) (hys : ys <+: zs)
    (h : ∀ n, n ∈ xs ↔ n ∈ ys) : xs = ys := by
  have hle : ∀ {as bs : List Nat}, bs <+: zs → (∀ n, n ∈ bs → n ∈ as) → as <+: bs → as = bs := by
    intro as bs hbs hsub has
    have hbnd : bs.Nodup := hnd.sublist hbs.sublist
    exact has.eq_of_length_le (List.subperm_of_subset hbnd hsub).length_le
  rcases List.prefix_or_prefix_of_prefix hxs hys with hxy | hyx
  · exact hle hys (fun n => (h n).mpr) hxy
  · exact (hle hxs (fun n => (h n).mp) hyx).symm

/-- The shards of a user key and of its version record. -/
def IsHome (k : Key) (i : ShardId) : Prop := i = shardFor k ∨ i = shardFor (versionKey k)

/-- Calls that write a user key store its shards in the order of their first stores. -/
structure Turns (w : ShardedOverlap) (order : List Nat) : Prop extends
    InOrder BatchOp.Apart w order where
  paired : ∀ n k, isReserved k = false → w.writes n (versionKey k) = w.writes n k
  stored_order : ∀ k, isReserved k = false → ∀ i, IsHome k i →
    (w.stored i).filter (w.writes · k) <+: order.filter (w.writes · k)

theorem turns_new (e : ShardedEngine) : Turns (new e) [] where
  toInOrder := inOrder_new e
  paired := fun _ _ _ => rfl
  stored_order := fun _ _ _ _ => List.prefix_refl _

section Turns

variable {e₀ : ShardedEngine} {w : ShardedOverlap} {order : List Nat}

theorem shardFor_of_writes {n : Nat} {k : Key} (h : w.writes n k = true) :
    shardFor k ∈ touched (w.opsOf n) := by
  obtain ⟨op, hop, hk⟩ := List.any_eq_true.mp h
  rw [← of_decide_eq_true hk]
  exact ShardedEngine.mem_touched hop

theorem Turns.touches (h : Turns w order) {n : Nat} {k : Key} (hk : isReserved k = false)
    (hw : w.writes n k = true) {i : ShardId} (hi : IsHome k i) : i ∈ touched (w.opsOf n) := by
  rcases hi with rfl | rfl
  · exact shardFor_of_writes hw
  · exact shardFor_of_writes ((h.paired n k hk).trans hw)

theorem not_apart {n m : Nat} {k : Key} (hk : isReserved k = false) (hn : w.writes n k = true)
    (hm : w.writes m k = true) : ¬ ∀ a ∈ w.opsOf n, ∀ b ∈ w.opsOf m, a.Apart b := by
  intro h
  obtain ⟨a, ha, hak⟩ := List.any_eq_true.mp hn
  obtain ⟨b, hb, hbk⟩ := List.any_eq_true.mp hm
  have hak := of_decide_eq_true hak
  have hbk := of_decide_eq_true hbk
  rcases h a ha b hb with hres | hne
  · rw [hak, hk] at hres
    cases hres
  · exact hne (hak.trans hbk.symm)

/-- Once the earlier writers of a key have finished, all of them have stored its shards. -/
theorem Turns.stored_eq (h : Turns w order) (hl : Linked e₀ w) {k : Key}
    (hk : isReserved k = false) {i : ShardId} (hi : IsHome k i) {xs : List Nat}
    (hxs : (w.stored i).filter (w.writes · k) <+: xs)
    (hsub : xs <+: order.filter (w.writes · k)) (hfin : ∀ n ∈ xs, w.todoOf n = []) :
    (w.stored i).filter (w.writes · k) = xs := by
  have hnd : (order.filter (w.writes · k)).Nodup := h.nodup.filter _
  refine prefix_unique hnd (hxs.trans hsub) hsub fun n => ⟨fun hn => hxs.subset hn, fun hn => ?_⟩
  have hw : w.writes n k = true := (List.mem_filter.mp (hsub.subset hn)).2
  refine List.mem_filter.mpr ⟨(hl.stored_iff n i).mpr ?_, hw⟩
  simp [done, h.touches hk hw hi, hfin n hn]

theorem Turns.applyBatch (h : Turns w order) (hl : Linked e₀ w) {ops : List BatchOp}
    (hpair : ShardedEvent.Paired (.applyBatch ops)) :
    Turns (w.step (.applyBatch ops)) order := by
  have hold : ∀ {n : Nat} {k : Key}, n ≠ w.calls.length →
      (w.step (.applyBatch ops)).writes n k = w.writes n k := by
    intro n k hn
    rw [writes, opsOf_applyBatch, if_neg hn, writes]
  refine ⟨h.toInOrder.applyBatch ops, fun n k hk => ?_, fun k hk i hi => ?_⟩
  · by_cases hn : n = w.calls.length
    · rw [writes, writes, opsOf_applyBatch, if_pos hn]
      exact hpair k hk
    · rw [hold hn, hold hn]
      exact h.paired n k hk
  · have hst : (w.stored i).filter ((w.step (.applyBatch ops)).writes · k) =
        (w.stored i).filter (w.writes · k) :=
      List.filter_congr fun n hn => hold (Nat.ne_of_lt (hl.lt_length hn))
    have hord : order.filter ((w.step (.applyBatch ops)).writes · k) =
        order.filter (w.writes · k) :=
      List.filter_congr fun n hn => hold (Nat.ne_of_lt (h.lt_length hn))
    show (w.stored i).filter _ <+: _
    rw [hst, hord]
    exact h.stored_order k hk i hi

variable {n : Nat} {ops : List BatchOp} {i : ShardId} {todo : List ShardId}

theorem writes_afterStore (hc : w.calls[n]? = some ⟨ops, i :: todo⟩) (m : Nat) (k : Key) :
    (w.afterStore n ops i todo).writes m k = w.writes m k := by
  rw [writes, opsOf_afterStore hc, writes]

theorem Turns.afterStore (h : Turns w order) (hc : w.calls[n]? = some ⟨ops, i :: todo⟩)
    {order' : List Nat} (hin : InOrder BatchOp.Apart (w.afterStore n ops i todo) order')
    (hord : order <+: order')
    (hlast : ∀ k, isReserved k = false → IsHome k i → w.writes n k = true →
      (w.stored i).filter (w.writes · k) ++ [n] = order'.filter (w.writes · k)) :
    Turns (w.afterStore n ops i todo) order' := by
  have hwrites : ∀ k, ((w.afterStore n ops i todo).writes · k) = (w.writes · k) :=
    fun k => funext fun m => writes_afterStore hc m k
  refine ⟨hin, fun m k hk => ?_, fun k hk j hj => ?_⟩
  · rw [writes_afterStore hc, writes_afterStore hc]
    exact h.paired m k hk
  · rw [hwrites]
    show (Function.update w.stored i _ j).filter _ <+: _
    have hgrow := (h.stored_order k hk j hj).trans (hord.filter _)
    by_cases hji : j = i
    · subst hji
      rw [Function.update_self, List.filter_append]
      cases hw : w.writes n k with
      | true =>
          simp only [List.filter_cons, hw, if_true, List.filter_nil]
          rw [hlast k hk hj hw]
      | false =>
          simp only [List.filter_cons, hw, Bool.false_eq_true, if_false, List.filter_nil,
            List.append_nil]
          exact hgrow
    · rw [Function.update_of_ne hji]
      exact hgrow

theorem Turns.firstStore (h : Turns w order) (hl : Linked e₀ w)
    (hc : w.calls[n]? = some ⟨ops, i :: todo⟩) (hfirst : i :: todo = touched ops)
    (hclear : w.Clear BatchOp.Apart (.store n)) :
    Turns (w.afterStore n ops i todo) (order ++ [n]) := by
  have hsymm : ∀ a b : BatchOp, a.Apart b → b.Apart a := fun _ _ => BatchOp.Apart.symm
  refine h.afterStore hc (h.toInOrder.firstStore hsymm hc hfirst hclear) (List.prefix_append _ _)
    fun k hk hi hw => ?_
  have hfin : ∀ m ∈ order.filter (w.writes · k), w.todoOf m = [] := by
    intro m hm
    obtain ⟨hm, hmw⟩ := List.mem_filter.mp hm
    exact (h.finished_or hsymm hc hfirst hclear hm).resolve_right (not_apart hk hmw hw)
  rw [h.stored_eq hl hk hi (h.stored_order k hk i hi) (List.prefix_refl _) hfin,
    List.filter_append]
  simp [hw]

theorem Turns.laterStore (h : Turns w order) (hl : Linked e₀ w)
    (hc : w.calls[n]? = some ⟨ops, i :: todo⟩) (hlater : i :: todo ≠ touched ops) :
    Turns (w.afterStore n ops i todo) order := by
  refine h.afterStore hc (h.toInOrder.laterStore hc hlater) (List.prefix_refl _)
    fun k hk hi hw => ?_
  have htodo : w.todoOf n ≠ [] := by
    rw [(numbers_of_call hc).2]
    exact List.cons_ne_nil i todo
  obtain ⟨xs, ys, rfl⟩ := List.append_of_mem (h.mem_of_later hc hlater)
  -- no writer of the key began after `n`, all that began before have finished
  have hys : ys.filter (w.writes · k) = [] := by
    refine List.filter_eq_nil_iff.mpr fun m hm hmw => ?_
    exact not_apart hk hw hmw (h.rel_of_todo htodo hm)
  have hsplit : (xs ++ n :: ys).filter (w.writes · k) = xs.filter (w.writes · k) ++ [n] := by
    simp [List.filter_append, hw, hys]
  have hfin : ∀ m ∈ xs.filter (w.writes · k), w.todoOf m = [] := by
    intro m hm
    obtain ⟨hm, hmw⟩ := List.mem_filter.mp hm
    have hpair := (List.pairwise_append.mp h.apart).2.2 m hm n List.mem_cons_self
    exact hpair.resolve_right (not_apart hk hmw hw)
  have hinit := h.stored_order k hk i hi
  rw [hsplit, List.prefix_concat_iff] at hinit
  have hxs : (w.stored i).filter (w.writes · k) <+: xs.filter (w.writes · k) := by
    refine hinit.resolve_left fun heq => hl.not_stored_of_next hc ?_
    have hn : n ∈ (w.stored i).filter (w.writes · k) := by
      rw [heq]
      exact List.mem_append_right _ (List.mem_singleton_self n)
    exact (List.mem_filter.mp hn).1
  have hsub : xs.filter (w.writes · k) <+: (xs ++ n :: ys).filter (w.writes · k) := by
    rw [hsplit]
    exact List.prefix_append _ _
  rw [h.stored_eq hl hk hi hxs hsub hfin, hsplit]

theorem Turns.step (h : Turns w order) (hl : Linked e₀ w) {ev : ShardedEvent}
    (hclear : w.Clear BatchOp.Apart ev) (hpair : ev.Paired) :
    ∃ order', Turns (w.step ev) order' := by
  rcases w.step_cases ev with hsame | ⟨ops, rfl⟩ | ⟨n, ops, i, todo, rfl, hc, hstep⟩ | rfl |
    ⟨m, sn, i, todo, rfl, -, -, hstep⟩
  · rw [hsame]
    exact ⟨order, h⟩
  · exact ⟨order, h.applyBatch hl hpair⟩
  · rw [hstep]
    by_cases hfirst : i :: todo = touched ops
    · exact ⟨order ++ [n], h.firstStore hl hc hfirst hclear⟩
    · exact ⟨order, h.laterStore hl hc hfirst⟩
  · exact ⟨order, ⟨h.proper, h.nodup, h.begun, h.apart⟩, h.paired, h.stored_order⟩
  · rw [hstep]
    exact ⟨order, ⟨h.proper, h.nodup, h.begun, h.apart⟩, h.paired, h.stored_order⟩

/-- Writers in turn and snapshots in step: one commit. -/
theorem Turns.sameCommit (h : Turns w order) (hl : Linked e₀ w) (hall : AllOrNone w) :
    SameCommit w := by
  intro sn hsn k hk hi hj
  have hinit : ∀ i, IsHome k i → i ∉ sn.todo →
      (sn.seen i).filter (w.writes · k) <+: order.filter (w.writes · k) := fun i hhome hi =>
    ((hl.seen_initial sn hsn i hi).filter _).trans (h.stored_order k hk i hhome)
  have hsame : (sn.seen (shardFor k)).filter (w.writes · k) =
      (sn.seen (shardFor (versionKey k))).filter (w.writes · k) := by
    refine prefix_unique (h.nodup.filter _) (hinit _ (Or.inl rfl) hi)
      (hinit _ (Or.inr rfl) hj) fun n => ?_
    rw [List.mem_filter, List.mem_filter]
    refine and_congr_left fun hw => ?_
    exact hall sn hsn n _ (h.touches hk hw (Or.inl rfl)) _ (h.touches hk hw (Or.inr rfl)) hi hj
  have hver : (sn.seen (shardFor (versionKey k))).filter (w.writes · (versionKey k)) =
      (sn.seen (shardFor (versionKey k))).filter (w.writes · k) :=
    List.filter_congr fun n _ => h.paired n k hk
  rw [lastWriter, lastWriter, hsame, hver]

end Turns

/-! ## Snapshots are consistent cuts, where they are -/

/-- **Consistent cuts.**  In every interleaving, from any engine: a snapshot holds what the
calls it has seen made of each shard.  Every snapshot has all or none of every batch
exactly if every load is in step.  If moreover calls that write one user key take turns,
and write it together with its version record, then value and record come from one call. -/
theorem snapshots_cut (e : ShardedEngine) (events : List ShardedEvent) :
    (∀ w ∈ Runs.states step (new e) events, Faithful e w) ∧
    ((∀ w ∈ Runs.states step (new e) events, AllOrNone w) ↔
      ∀ m ∈ Runs.moves step (new e) events, m.1.InStep m.2) ∧
    ((∀ m ∈ Runs.moves step (new e) events,
        m.1.InStep m.2 ∧ m.1.Clear BatchOp.Apart m.2 ∧ m.2.Paired) →
      ∀ w ∈ Runs.states step (new e) events, SameCommit w) := by
  have hlinked : ∀ w ∈ Runs.states step (new e) events, Linked e w :=
    Runs.always (fun _ ev h => h.step ev) (linked_new e)
  have hiff : (∀ w ∈ Runs.states step (new e) events, AllOrNone w) ↔
      ∀ m ∈ Runs.moves step (new e) events, m.1.InStep m.2 :=
    Runs.holds_iff (fun w ev h => h.step ev) (fun w ev h hall => h.allOrNone_step hall ev)
      (linked_new e) fun _ h => absurd h List.not_mem_nil
  refine ⟨fun w hw => (hlinked w hw).faithful, hiff, fun h w hw => ?_⟩
  have hstep : ∀ w ev, (Linked e w ∧ ∃ order, Turns w order) →
      (w.Clear BatchOp.Apart ev ∧ ev.Paired) →
      Linked e (w.step ev) ∧ ∃ order, Turns (w.step ev) order := by
    rintro w ev ⟨hl, order, hturns⟩ ⟨hclear, hpair⟩
    exact ⟨hl.step ev, hturns.step hl hclear hpair⟩
  obtain ⟨hl, order, hturns⟩ := Runs.invariant hstep ⟨linked_new e, [], turns_new e⟩
    (fun m hm => (h m hm).2) w hw
  exact hturns.sameCommit hl (hiff.mpr (fun m hm => (h m hm).1) w hw)

/-! ## A torn snapshot -/

/-- A commit of `a` at index 1. -/
def commitA : List BatchOp :=
  [.set [0x61] [1], .set (versionKey [0x61]) (encodeEpochRecord ⟨1, false⟩)]

/-- A snapshot loads the shard of `a`; the commit stores both its shards; the snapshot goes
on to the shard of the version record. -/
def torn : List ShardedEvent :=
  [.applyBatch commitA, .getSnapshot] ++ List.replicate 45 (.load 0) ++
    List.replicate 2 (.store 0) ++ List.replicate 83 (.load 0)

/-- The snapshot is complete; it does not have `a`, and has the version of its commit. -/
theorem torn_pair :
    (torn.foldl step (new .new)).snapshots.map (fun sn =>
      (sn.todo, sn.get [0x61], sn.getVersion [0x61])) = [([], none, ⟨1, false⟩)] ∧
    ¬ AllOrNone (torn.foldl step (new .new)) ∧ ¬ SameCommit (torn.foldl step (new .new)) := by
  have hreads : (torn.foldl step (new .new)).snapshots.map (fun sn =>
      (sn.todo, sn.get [0x61], sn.getVersion [0x61])) = [([], none, ⟨1, false⟩)] := by
    decide +kernel
  have hseen : (torn.foldl step (new .new)).snapshots.map (fun sn => (sn.todo,
      sn.seen (shardFor [0x61]), sn.seen (shardFor (versionKey [0x61])))) = [([], [], [0])] := by
    decide +kernel
  have hops : (torn.foldl step (new .new)).opsOf 0 = commitA := by decide +kernel
  obtain ⟨sn, hsn, hvals⟩ := List.map_eq_singleton_iff.mp hseen
  have hmem : sn ∈ (torn.foldl step (new .new)).snapshots := hsn ▸ List.mem_singleton_self sn
  simp only [Prod.mk.injEq] at hvals
  obtain ⟨htodo, hvalue, hver⟩ := hvals
  have hloaded : ∀ i, i ∉ sn.todo := fun i => htodo ▸ List.not_mem_nil
  refine ⟨hreads, fun hall => ?_, fun hsame => ?_⟩
  · have hiff := hall sn hmem 0 (shardFor [0x61]) (by rw [hops]; decide +kernel)
      (shardFor (versionKey [0x61])) (by rw [hops]; decide +kernel) (hloaded _) (hloaded _)
    rw [hvalue, hver] at hiff
    simp at hiff
  · have hlast := hsame sn hmem [0x61] (by decide) (hloaded _) (hloaded _)
    rw [hvalue, hver, lastWriter, lastWriter] at hlast
    have hw : (torn.foldl step (new .new)).writes 0 (versionKey [0x61]) = true := by
      rw [writes, hops]
      decide
    simp [hw] at hlast

end ShardedOverlap

end Dpx
