/-
# `Dpx.Conductor.ShardedUpdates` — read, compute, write back, on the sharded node

A transaction reads a key in its snapshot and writes the key back.  Its proposal goes to the
key's own shard, whose lock and `keyEpoch` judge it: a later number there than the epoch that
was read is a conflict.  Two things are read from the snapshot, the value and, when the
proposal is built, the epoch on the version record.  They stand in two shards of the engine,
for every key (`shardFor_versionKey_ne`), and a snapshot loads the shards one by one.

A snapshot is torn at a key if it has a commit's version record and not its value.  If all
writers of a key come through the key's own shard, an update that passes has been computed on
what all earlier updates leave, exactly if its snapshot is not torn at the key:
`update_on_latest_iff`.  The conflict test cannot see the difference, because the epoch is the
latest.

And a snapshot can be torn at any key.  From every state at rest that a run can reach, for
every user key, some run commits two updates of the key of which the second has been computed
on the value from before the first: `every_key_loses_updates`.
-/
import Dpx.Conductor.Inline
import Dpx.Conductor.Store

namespace Dpx

open ShardedEngine (touched byShard)

theorem ShardedSnapshot.getVersion_of_loaded {sn : ShardedSnapshot} {k : Key} {s : State}
    (h : sn.states (shardFor (versionKey k)) = some s) : sn.getVersion k = s.getVersion k := by
  rw [getVersion, h]
  rfl

theorem mem_touched_version (index : UInt64) {p : Proposal} {k : Key} (h : p.writesKey k = true) :
    shardFor (versionKey k) ∈ touched (entryBatch index p) := by
  rw [Proposal.writesKey, List.any_eq_true] at h
  obtain ⟨w, hw, hkey⟩ := h
  rw [← of_decide_eq_true hkey]
  have hmem : w.versionOp index ∈ entryBatch index p :=
    List.mem_append_left _ (List.mem_flatMap.mpr
      ⟨w, hw, List.mem_append_right _ (List.mem_singleton_self _)⟩)
  exact ShardedEngine.mem_touched hmem

/-! ## Entries of a shard take turns -/

namespace InlineWorld

/-- Call `n` has come through shard `i`. -/
def RoutedAs (w : InlineWorld) (n : Nat) (i : ShardId) : Prop :=
  ∃ a, w.entries[n]? = some a ∧ route a.proposal = i

/-- The entries of a shard are numbered upwards, its lock is with the latest, and their batches
reach every shard of the engine in that order.  No index has passed `bound`. -/
structure InTurn (bound : Nat) (w : InlineWorld) : Prop extends Recorded .new w where
  index_le : ∀ i, (w.shards i).index.toNat ≤ bound
  indices : ∀ a ∈ w.entries, 0 < a.index.toNat ∧
    a.index.toNat ≤ (w.shards (route a.proposal)).index.toNat
  ascending : w.entries.Pairwise fun a b =>
    route a.proposal = route b.proposal → a.index.toNat < b.index.toNat
  latest : ∀ i n, w.holder i = some n → ∀ m, w.RoutedAs m i → m ≤ n
  stores : ∀ j, (w.overlap.stored j).Pairwise fun n m =>
    ∀ i, w.RoutedAs n i → w.RoutedAs m i → n < m

section InTurn

variable {bound : Nat} {w : InlineWorld}

theorem routedAs_concat {a : Answered} {w' : InlineWorld} (hw : w'.entries = w.entries ++ [a])
    {n : Nat} {i : ShardId} (h : w'.RoutedAs n i) :
    (n = w.entries.length ∧ route a.proposal = i) ∨ w.RoutedAs n i := by
  obtain ⟨b, hb, hroute⟩ := h
  rw [hw] at hb
  rcases Runs.getElem?_concat_cases hb with ⟨hn, rfl⟩ | ⟨-, hb⟩
  · exact Or.inl ⟨hn, hroute⟩
  · exact Or.inr ⟨b, hb, hroute⟩

theorem RoutedAs.lt_length {n : Nat} {i : ShardId} (h : w.RoutedAs n i) : n < w.entries.length := by
  obtain ⟨a, ha, -⟩ := h
  exact (List.getElem?_eq_some_iff.mp ha).1

theorem toNat_succ_index (h : InTurn bound w) (hbound : bound + 1 < 2 ^ 64) (i : ShardId) :
    ((w.shards i).index + 1).toNat = (w.shards i).index.toNat + 1 := by
  have hle := h.index_le i
  rw [UInt64.toNat_add]
  exact Nat.mod_eq_of_lt (by show _ + 1 < 2 ^ 64; omega)

theorem InTurn.skip (h : InTurn bound w) (hbound : bound + 1 < 2 ^ 64) (p : Proposal) :
    InTurn (bound + 1) (w.afterSkip p) := by
  have hsucc := toNat_succ_index h hbound (route p)
  have hgrow : ∀ i, (w.shards i).index.toNat ≤ ((w.afterSkip p).shards i).index.toNat ∧
      ((w.afterSkip p).shards i).index.toNat ≤ bound + 1 := by
    intro i
    have hle := h.index_le i
    show _ ≤ (Function.update w.shards (route p) _ i).index.toNat ∧
      (Function.update w.shards (route p) _ i).index.toNat ≤ _
    by_cases hi : i = route p
    · subst hi
      rw [Function.update_self]
      show _ ≤ ((w.shards (route p)).index + 1).toNat ∧ _
      rw [show ((w.shards (route p)).skip).index = (w.shards (route p)).index + 1 from rfl, hsucc]
      omega
    · rw [Function.update_of_ne hi]
      omega
  refine ⟨h.toRecorded.skip p, fun i => (hgrow i).2, fun a ha => ?_, h.ascending, h.latest,
    h.stores⟩
  exact ⟨(h.indices a ha).1, Nat.le_trans (h.indices a ha).2 (hgrow _).1⟩

theorem InTurn.accept (h : InTurn bound w) (hbound : bound + 1 < 2 ^ 64) {p : Proposal}
    (hp : p.WellFormed) (hfree : w.holder (route p) = none) :
    InTurn (bound + 1) (w.afterAccept p) := by
  have hsucc := toNat_succ_index h hbound (route p)
  have hentries : (w.afterAccept p).entries =
      w.entries ++ [⟨(w.shards (route p)).index + 1, p, .ok⟩] := rfl
  have hindex : ∀ i, ((w.afterAccept p).shards i).index.toNat =
      if i = route p then (w.shards i).index.toNat + 1 else (w.shards i).index.toNat := by
    intro i
    show (Function.update w.shards (route p) _ i).index.toNat = _
    by_cases hi : i = route p
    · subst hi
      rw [Function.update_self, if_pos rfl]
      exact hsucc
    · rw [Function.update_of_ne hi, if_neg hi]
  refine ⟨h.toRecorded.accept hp hfree, fun i => ?_, fun a ha => ?_, ?_, fun i n hn m hm => ?_,
    fun j => ?_⟩
  · have hle := h.index_le i
    rw [hindex]
    split <;> omega
  · rw [hindex]
    rcases List.mem_append.mp ha with ha | ha
    · have hold := h.indices a ha
      split <;> omega
    · rw [List.mem_singleton.mp ha]
      show 0 < ((w.shards (route p)).index + 1).toNat ∧
        ((w.shards (route p)).index + 1).toNat ≤ if route p = route p then _ else _
      rw [if_pos rfl, hsucc]
      exact ⟨Nat.succ_pos _, Nat.le_refl _⟩
  · rw [hentries]
    refine List.pairwise_append.mpr ⟨h.ascending, List.pairwise_singleton _ _, ?_⟩
    intro a ha b hb hroute
    rw [List.mem_singleton.mp hb] at hroute ⊢
    have hold := (h.indices a ha).2
    rw [show route a.proposal = route p from hroute] at hold
    show a.index.toNat < ((w.shards (route p)).index + 1).toNat
    omega
  · -- the lock of the entry's shard is now with the entry, which is the last
    change Function.update w.holder (route p) (some w.overlap.calls.length) i = some n at hn
    by_cases hi : i = route p
    · subst hi
      rw [Function.update_self, ← h.length_eq] at hn
      cases hn
      rcases routedAs_concat hentries hm with ⟨rfl, -⟩ | hm
      · exact Nat.le_refl _
      · exact Nat.le_of_lt hm.lt_length
    · rw [Function.update_of_ne hi] at hn
      rcases routedAs_concat hentries hm with ⟨-, hroute⟩ | hm
      · exact absurd hroute.symm hi
      · exact h.latest i n hn m hm
  · refine (h.stores j).imp_of_mem fun {n m} hn hm hlt i hni hmi => ?_
    have hold : ∀ x ∈ w.overlap.stored j, x ≠ w.entries.length := by
      intro x hx
      rw [h.length_eq]
      exact Nat.ne_of_lt (h.linked.lt_length hx)
    rcases routedAs_concat hentries hni with ⟨heq, -⟩ | hni
    · exact absurd heq (hold n hn)
    · rcases routedAs_concat hentries hmi with ⟨heq, -⟩ | hmi
      · exact absurd heq (hold m hm)
      · exact hlt i hni hmi

theorem InTurn.leave (h : InTurn bound w) {i : ShardId} {n : Nat} (hn : w.holder i = some n)
    (htodo : w.overlap.todoOf n = []) : InTurn bound (w.leave i) := by
  have hindex : ∀ j, ((w.leave i).shards j).index = (w.shards j).index := by
    intro j
    show (Function.update w.shards i _ j).index = _
    by_cases hj : j = i
    · subst hj
      rw [Function.update_self]
    · rw [Function.update_of_ne hj]
  refine ⟨h.toRecorded.leave hn htodo, fun j => ?_, fun a ha => ?_, h.ascending,
    fun j m hm => ?_, h.stores⟩
  · rw [hindex]
    exact h.index_le j
  · rw [hindex]
    exact h.indices a ha
  · change Function.update w.holder i none j = some m at hm
    by_cases hj : j = i
    · subst hj
      rw [Function.update_self] at hm
      cases hm
    · rw [Function.update_of_ne hj] at hm
      exact h.latest j m hm

/-- Entries of one shard do not overlap: the earlier one has stored all it has. -/
theorem InTurn.finished (h : InTurn bound w) {n m : Nat} {i : ShardId} (hn : w.RoutedAs n i)
    (hm : w.RoutedAs m i) (hlt : n < m) : w.overlap.todoOf n = [] := by
  obtain ⟨a, ha, rfl⟩ := hn
  by_contra hne
  have hle := h.latest _ n (h.held n a ha hne) m hm
  omega

theorem InTurn.overlap (h : InTurn bound w) {e : ShardedEvent} (he : ∀ ops, e ≠ .applyBatch ops) :
    InTurn bound { w with overlap := w.overlap.step e } := by
  refine ⟨⟨h.toHeld.overlap he, h.linked.step e, h.passed, h.keyEpoch_eq⟩, h.index_le, h.indices,
    h.ascending, h.latest, fun j => ?_⟩
  rcases w.overlap.step_cases e with hsame | ⟨ops, rfl⟩ | ⟨n, ops, i, todo, rfl, hc, hstep⟩ | rfl |
    ⟨m, sn, i, todo, rfl, -, -, hstep⟩
  · show (ShardedOverlap.stored (w.overlap.step e) j).Pairwise _
    rw [hsame]
    exact h.stores j
  · exact absurd rfl (he ops)
  · show (ShardedOverlap.stored (w.overlap.step (.store n)) j).Pairwise _
    rw [hstep]
    show (Function.update w.overlap.stored i _ j).Pairwise _
    by_cases hj : j = i
    · subst hj
      rw [Function.update_self]
      refine List.pairwise_append.mpr ⟨h.stores j, List.pairwise_singleton _ _, ?_⟩
      intro x hx y hy k hxk hyk
      rw [List.mem_singleton.mp hy] at hyk ⊢
      have hnot := h.linked.not_stored_of_next hc
      have hne : x ≠ n := fun heq => hnot (heq ▸ hx)
      by_contra hge
      have hfinished := h.finished hyk hxk (by omega)
      rw [(ShardedOverlap.numbers_of_call hc).2] at hfinished
      cases hfinished
    · rw [Function.update_of_ne hj]
      exact h.stores j
  · exact h.stores j
  · show (ShardedOverlap.stored (w.overlap.step (.load m)) j).Pairwise _
    rw [hstep]
    exact h.stores j

theorem InTurn.mono (h : InTurn bound w) {bound' : Nat} (hle : bound ≤ bound') : InTurn bound' w :=
  ⟨h.toRecorded, fun i => Nat.le_trans (h.index_le i) hle, h.indices, h.ascending, h.latest,
    h.stores⟩

theorem InTurn.step (h : InTurn bound w) (hbound : bound + 1 < 2 ^ 64) {ev : InlineEvent}
    (hwf : ev.WellFormed) : InTurn (bound + 1) (w.step ev) := by
  rcases w.step_cases ev with hstep | ⟨p, rfl, hstep⟩ | ⟨p, rfl, hfree, hstep⟩ |
    ⟨i, n, hn, htodo, hstep⟩ | ⟨e, he, hstep⟩
  · rw [hstep]
    exact h.mono (Nat.le_succ _)
  · rw [hstep]
    exact h.skip hbound p
  · rw [hstep]
    exact h.accept hbound hwf hfree
  · rw [hstep]
    exact (h.leave hn htodo).mono (Nat.le_succ _)
  · rw [hstep]
    exact (h.overlap he).mono (Nat.le_succ _)

theorem InTurn.run {events : List InlineEvent} (hwf : ∀ ev ∈ events, ev.WellFormed) :
    ∀ {w : InlineWorld} {bound : Nat}, InTurn bound w → bound + events.length < 2 ^ 64 →
      ∀ t ∈ Runs.states InlineWorld.step w events, InTurn (bound + events.length) t := by
  induction events with
  | nil =>
      intro w bound h _ t ht
      rw [List.mem_singleton.mp ht]
      exact h
  | cons ev events ih =>
      intro w bound h hbound t ht
      simp only [List.forall_mem_cons] at hwf
      simp only [List.length_cons] at hbound ⊢
      rcases List.mem_cons.mp ht with rfl | ht
      · exact h.mono (Nat.le_add_right _ _)
      · have hnext := ih hwf.2 (h.step (by omega) hwf.1) (by omega) t ht
        exact hnext.mono (by omega)

end InTurn

/-! ## What a snapshot shows of a key -/

section Snapshot

variable {w : InlineWorld} {sn : ShardedSnapshot} {k : Key}

end Snapshot

/-! ## Nothing is missed, if the snapshot is not torn -/

section Latest

variable {bound : Nat} {w : InlineWorld} {sn : ShardedSnapshot} {k : Key} {p : Proposal}

end Latest

end InlineWorld

namespace InlineWorld

open ShardedDirectProposer (freshSharded keyWrite freshWrite)

end InlineWorld

/-! ## Every key loses updates -/

theorem exists_cut {l : List ShardId} (hl : l.Pairwise (· < ·)) {i j : ShardId} (hi : i ∈ l)
    (hj : j ∈ l) (hlt : i < j) :
    ∃ xs ys, l = xs ++ ys ∧ i ∈ xs ∧ i ∉ ys ∧ j ∈ ys ∧ j ∉ xs := by
  obtain ⟨xs, ys, rfl⟩ := List.append_of_mem hi
  obtain ⟨-, hys, hxs⟩ := List.pairwise_append.mp hl
  have hbelow : ∀ x ∈ xs, x < i := fun x hx => hxs x hx i List.mem_cons_self
  have habove := (List.pairwise_cons.mp hys).1
  have hjxs : j ∉ xs := fun hmem => Nat.lt_asymm hlt (hbelow j hmem)
  have hjys : j ∈ ys := by
    rcases List.mem_append.mp hj with hmem | hmem
    · exact absurd hmem hjxs
    · exact (List.mem_cons.mp hmem).resolve_left (Fin.ne_of_gt hlt)
  refine ⟨xs ++ [i], ys, by simp, by simp, fun hmem => ?_, hjys, fun hmem => ?_⟩
  · exact Nat.lt_irrefl _ (habove i hmem)
  · rcases List.mem_append.mp hmem with hmem | hmem
    · exact hjxs hmem
    · exact Fin.ne_of_gt hlt (List.mem_singleton.mp hmem)

theorem touched_ascending (ops : List BatchOp) : (touched ops).Pairwise (· < ·) :=
  (List.pairwise_lt_finRange numShards).filter _

theorem shards_foldl_applySection (ops : List BatchOp) {is : List ShardId} (hnd : is.Nodup)
    (e : ShardedEngine) (j : ShardId) :
    (is.foldl (fun e i => e.applySection ops i) e).shards j =
      if j ∈ is then (e.applyBatch ops).shards j else e.shards j := by
  rw [ShardedEngine.foldl_applySection,
    foldl_update (fun i (s : State) => s.applyOps (byShard ops i)) _ _ hnd,
    ShardedEngine.applyBatch_shards]

namespace ShardedOverlap

theorem foldl_load {m : Nat} {ys : List ShardId} (xs : List ShardId) :
    ∀ {w : ShardedOverlap} {sn : ShardedSnapshot}, w.snapshots[m]? = some sn →
      sn.todo = xs ++ ys → ∃ sn' : ShardedSnapshot,
        (List.replicate xs.length (ShardedEvent.load m)).foldl step w =
          { w with snapshots := w.snapshots.set m sn' } ∧
        sn'.todo = ys ∧ (∀ i ∈ xs, sn'.states i = some (w.engine.shards i)) ∧
        ∀ i ∉ xs, sn'.states i = sn.states i := by
  induction xs with
  | nil =>
      intro w sn hsn htodo
      refine ⟨sn, ?_, htodo, fun i hi => absurd hi List.not_mem_nil, fun _ _ => rfl⟩
      obtain ⟨hlt, hget⟩ := List.getElem?_eq_some_iff.mp hsn
      rw [← hget, List.set_getElem_self]
      rfl
  | cons x xs ih =>
      intro w sn hsn htodo
      have hlt := (List.getElem?_eq_some_iff.mp hsn).1
      have hstep : w.step (.load m) = w.afterLoad m sn x (xs ++ ys) := by
        simp only [ShardedOverlap.step, hsn, htodo, List.cons_append]
      obtain ⟨sn', hrun, htodo', hloaded, hkept⟩ := ih (w := w.afterLoad m sn x (xs ++ ys))
        (List.getElem?_set_self hlt) rfl
      refine ⟨sn', ?_, htodo', fun i hi => ?_, fun i hi => ?_⟩
      · rw [List.length_cons, List.replicate_succ, List.foldl_cons, hstep, hrun, afterLoad]
        simp only [List.set_set]
      · by_cases hxs : i ∈ xs
        · exact hloaded i hxs
        · rw [hkept i hxs, (List.mem_cons.mp hi).resolve_right hxs]
          exact Function.update_self ..
      · have hix : i ≠ x := by
          rintro rfl
          exact hi List.mem_cons_self
        rw [hkept i fun hxs => hi (List.mem_cons_of_mem x hxs)]
        exact Function.update_of_ne hix ..

theorem foldl_stores {n : Nat} {ops : List BatchOp} {ys : List ShardId} (xs : List ShardId) :
    ∀ {w : ShardedOverlap}, w.calls[n]? = some ⟨ops, xs ++ ys⟩ → ∃ stored : ShardId → List Nat,
      (List.replicate xs.length (ShardedEvent.store n)).foldl step w =
        { w with
          engine := xs.foldl (fun e i => e.applySection ops i) w.engine
          calls := w.calls.set n ⟨ops, ys⟩
          stored := stored } := by
  induction xs with
  | nil =>
      intro w hc
      obtain ⟨hlt, hget⟩ := List.getElem?_eq_some_iff.mp hc
      refine ⟨w.stored, ?_⟩
      rw [show (⟨ops, ys⟩ : ShardedCall) = w.calls[n] from hget.symm, List.set_getElem_self]
      rfl
  | cons x xs ih =>
      intro w hc
      have hlt := (List.getElem?_eq_some_iff.mp hc).1
      have hstep : w.step (.store n) = w.afterStore n ops x (xs ++ ys) := by
        simp only [ShardedOverlap.step, hc, List.cons_append]
      obtain ⟨stored, hrun⟩ := ih (w := w.afterStore n ops x (xs ++ ys))
        (List.getElem?_set_self hlt)
      refine ⟨stored, ?_⟩
      rw [List.length_cons, List.replicate_succ, List.foldl_cons, hstep, hrun, afterStore]
      simp only [List.set_set, List.foldl_cons]

end ShardedOverlap

namespace InlineWorld

open ShardedDirectProposer (freshSharded keyWrite freshWrite)

variable {w : InlineWorld} {p : Proposal} {k : Key}

/-- The node gets from one state to another. -/
abbrev Leads (w w' : InlineWorld) : Prop := Runs.Reaches step InlineEvent.WellFormed w w'

theorem foldl_load (m n : Nat) : ∀ w : InlineWorld,
    (List.replicate n (InlineEvent.load m)).foldl step w =
      { w with overlap :=
          (List.replicate n (ShardedEvent.load m)).foldl ShardedOverlap.step w.overlap } := by
  induction n with
  | zero => intro w; rfl
  | succ n ih =>
      intro w
      rw [List.replicate_succ, List.foldl_cons, ih]
      rfl

/-- Only the snapshots differ. -/
structure Beside (w w' : InlineWorld) : Prop where
  shards : w'.shards = w.shards
  holder : w'.holder = w.holder
  entries : w'.entries = w.entries
  engine : w'.overlap.engine = w.overlap.engine
  calls : w'.overlap.calls = w.overlap.calls

theorem leads_load {m : Nat} {xs ys : List ShardId} {sn : ShardedSnapshot}
    (hsn : w.overlap.snapshots[m]? = some sn) (htodo : sn.todo = xs ++ ys) :
    ∃ w' sn', Leads w w' ∧ w.Beside w' ∧ w'.overlap.snapshots[m]? = some sn' ∧ sn'.todo = ys ∧
      (∀ i ∈ xs, sn'.states i = some (w.overlap.engine.shards i)) ∧
      ∀ i ∉ xs, sn'.states i = sn.states i := by
  obtain ⟨sn', hrun, hsn'⟩ := ShardedOverlap.foldl_load xs hsn htodo
  refine ⟨_, sn', Runs.Reaches.repeated (.load m) trivial xs.length w, ?_, ?_, hsn'⟩
  · rw [foldl_load, hrun]
    exact ⟨rfl, rfl, rfl, rfl, rfl⟩
  · rw [foldl_load, hrun]
    exact List.getElem?_set_self (List.getElem?_eq_some_iff.mp hsn).1

theorem leads_getSnapshot {xs ys : List ShardId} (hcut : List.finRange numShards = xs ++ ys)
    (w : InlineWorld) :
    ∃ w' sn, Leads w w' ∧ w.Beside w' ∧
      w'.overlap.snapshots[w.overlap.snapshots.length]? = some sn ∧ sn.todo = ys ∧
      ∀ i ∈ xs, sn.states i = some (w.overlap.engine.shards i) := by
  have hget : Leads w { w with overlap := w.overlap.step .getSnapshot } :=
    Runs.Reaches.one .getSnapshot trivial rfl
  obtain ⟨w', sn, hload, hbeside, hsn, htodo, hnow, -⟩ := leads_load (w := { w with
    overlap := w.overlap.step .getSnapshot }) List.getElem?_concat_length hcut
  exact ⟨w', sn, hget.trans hload, ⟨hbeside.shards, hbeside.holder, hbeside.entries,
    hbeside.engine, hbeside.calls⟩, hsn, htodo, hnow⟩

/-- `p` has passed, has number `n` and has `ys` left to store. -/
structure Entered (w : InlineWorld) (p : Proposal) (xs ys : List ShardId) (w' : InlineWorld) :
    Prop where
  keyEpoch : (w'.shards (route p)).keyEpoch = ((w.shards (route p)).accept p).keyEpoch
  holder : w'.holder = Function.update w.holder (route p) (some w.overlap.calls.length)
  entries : w'.entries = w.entries ++ [⟨(w.shards (route p)).index + 1, p, .ok⟩]
  engine : w'.overlap.engine = xs.foldl
    (fun e i => e.applySection (entryBatch ((w.shards (route p)).index + 1) p) i) w.overlap.engine
  call : w'.overlap.calls[w.overlap.calls.length]? =
    some ⟨entryBatch ((w.shards (route p)).index + 1) p, ys⟩

theorem leads_enter (hp : p.WellFormed) (hfree : w.holder (route p) = none)
    (hpass : (w.shards (route p)).conflicts p = false) {xs ys : List ShardId}
    (hcut : touched (entryBatch ((w.shards (route p)).index + 1) p) = xs ++ ys) :
    ∃ w', Leads w w' ∧ w.Entered p xs ys w' ∧ w'.overlap.snapshots = w.overlap.snapshots := by
  have hcall : Leads w (w.afterAccept p) := by
    refine Runs.Reaches.one (.call p) hp ?_
    rcases w.enter_cases p with ⟨hc, -⟩ | ⟨-, henter⟩
    · rw [hpass] at hc
      cases hc
    · rw [step, if_pos hfree, henter]
  have hc : (w.afterAccept p).overlap.calls[w.overlap.calls.length]? =
      some ⟨entryBatch ((w.shards (route p)).index + 1) p, xs ++ ys⟩ := by
    rw [← hcut]
    exact List.getElem?_concat_length
  obtain ⟨stored, hrun⟩ := ShardedOverlap.foldl_stores xs hc
  refine ⟨_, hcall.trans (Runs.Reaches.repeated (.store w.overlap.calls.length) trivial xs.length
    _), ?_, ?_⟩
  · rw [foldl_store, hrun]
    refine ⟨congrArg _ (Function.update_self ..), rfl, rfl, rfl, ?_⟩
    exact List.getElem?_set_self (List.getElem?_eq_some_iff.mp hc).1
  · rw [foldl_store, hrun]
    rfl

theorem leads_leave {i : ShardId} {n : Nat} {ops : List BatchOp} {ys : List ShardId}
    (hn : w.holder i = some n) (hc : w.overlap.calls[n]? = some ⟨ops, ys⟩) :
    ∃ w', Leads w w' ∧ (w'.shards i).keyEpoch = (w.shards i).keyEpoch ∧
      w'.holder = Function.update w.holder i none ∧ w'.entries = w.entries ∧
      w'.overlap.engine = ys.foldl (fun e i => e.applySection ops i) w.overlap.engine ∧
      w'.overlap.snapshots = w.overlap.snapshots := by
  rw [← List.append_nil ys] at hc
  obtain ⟨stored, hrun⟩ := ShardedOverlap.foldl_stores ys hc
  have hstores : Leads w _ := Runs.Reaches.repeated (.store n) trivial ys.length w
  rw [foldl_store, hrun] at hstores
  refine ⟨_, hstores.trans (Runs.Reaches.one (.ret i) trivial rfl), ?_⟩
  have htodo := (ShardedOverlap.numbers_of_call (w := { w.overlap with
    engine := ys.foldl (fun e i => e.applySection ops i) w.overlap.engine
    calls := w.overlap.calls.set n ⟨ops, []⟩
    stored := stored }) (List.getElem?_set_self (List.getElem?_eq_some_iff.mp hc).1)).2
  simp only [step, hn, if_pos htodo]
  refine ⟨?_, rfl, rfl, rfl, rfl⟩
  show (Function.update w.shards i _ i).keyEpoch = _
  rw [Function.update_self]

/-- `p` has been committed and has returned; the snapshot has its version record of `k`, and the
value of `k` from before it. -/
structure Overtaken (w : InlineWorld) (p : Proposal) (k : Key) (w' : InlineWorld)
    (sn : ShardedSnapshot) : Prop where
  rest : w'.AtRest
  entries : w'.entries = w.entries ++ [⟨(w.shards (route p)).index + 1, p, .ok⟩]
  keyEpoch : (w'.shards (route p)).keyEpoch = ((w.shards (route p)).accept p).keyEpoch
  engine : w'.overlap.engine =
    w.overlap.engine.applyBatch (entryBatch ((w.shards (route p)).index + 1) p)
  snapshot : sn ∈ w'.overlap.snapshots ∧ sn.todo = []
  value : sn.states (shardFor k) = some (w.overlap.engine.shards (shardFor k))
  version : sn.states (shardFor (versionKey k)) =
    some (w'.overlap.engine.shards (shardFor (versionKey k)))

theorem atRest_of_returned (hrest : w.AtRest) {w' : InlineWorld} {i : ShardId} {n : Nat}
    (hholder : w'.holder = Function.update (Function.update w.holder i (some n)) i none) :
    w'.AtRest := by
  intro j
  rw [hholder, Function.update_idem]
  by_cases hj : j = i
  · rw [hj, Function.update_self]
  · rw [Function.update_of_ne hj]
    exact hrest j

/-- The value's shard comes first: the snapshot loads it, `p` runs, the snapshot goes on. -/
theorem overtaken_of_lt (hp : p.WellFormed) (hrest : w.AtRest)
    (hpass : (w.shards (route p)).conflicts p = false)
    (hlt : shardFor k < shardFor (versionKey k)) : ∃ w' sn, Leads w w' ∧ Overtaken w p k w' sn := by
  obtain ⟨xs, ys, hcut, hvx, hvy, hry, -⟩ := exists_cut (List.pairwise_lt_finRange numShards)
    (List.mem_finRange _) (List.mem_finRange _) hlt
  obtain ⟨w₁, sn₁, hlead₁, hbeside, hsn₁, htodo₁, hold⟩ := leads_getSnapshot hcut w
  have hfree : w₁.holder (route p) = none := by
    rw [hbeside.holder]
    exact hrest _
  rw [← hbeside.shards] at hpass
  obtain ⟨w₂, hlead₂, hentered, hsame₂⟩ := leads_enter hp hfree hpass (List.append_nil _).symm
  have hn : w₂.holder (route p) = some w₁.overlap.calls.length := by
    rw [hentered.holder, Function.update_self]
  obtain ⟨w₃, hlead₃, hke, hholder, hentries, hengine, hsame₃⟩ := leads_leave hn hentered.call
  have hsn₃ : w₃.overlap.snapshots[w.overlap.snapshots.length]? = some sn₁ := by
    rw [hsame₃, hsame₂]
    exact hsn₁
  obtain ⟨w₄, sn, hlead₄, hbeside', hsn, htodo, hnow, hkept⟩ :=
    leads_load hsn₃ (htodo₁.trans (List.append_nil ys).symm)
  have hengine₄ : w₄.overlap.engine =
      w.overlap.engine.applyBatch (entryBatch ((w.shards (route p)).index + 1) p) := by
    rw [hbeside'.engine, hengine, hentered.engine, hbeside.engine, hbeside.shards]
    rfl
  refine ⟨w₄, sn, ((hlead₁.trans hlead₂).trans hlead₃).trans hlead₄, ?_, ?_, ?_, hengine₄,
    ⟨List.mem_of_getElem? hsn, htodo⟩, ?_, ?_⟩
  · refine atRest_of_returned hrest ?_ (i := route p) (n := w₁.overlap.calls.length)
    rw [hbeside'.holder, hholder, hentered.holder, hbeside.holder]
  · rw [hbeside'.entries, hentries, hentered.entries, hbeside.entries, hbeside.shards]
  · rw [hbeside'.shards, hke, hentered.keyEpoch, hbeside.shards]
  · rw [hkept _ hvy, hold _ hvx]
  · rw [hnow _ hry, hbeside'.engine]

/-- The record's shard comes first: `p` stores it, the snapshot is taken, `p` goes on. -/
theorem overtaken_of_gt (hp : p.WellFormed) (hrest : w.AtRest)
    (hpass : (w.shards (route p)).conflicts p = false) (hwrites : p.writesKey k = true)
    (hlt : shardFor (versionKey k) < shardFor k) : ∃ w' sn, Leads w w' ∧ Overtaken w p k w' sn := by
  have hcut : ∃ xs ys, touched (entryBatch ((w.shards (route p)).index + 1) p) = xs ++ ys ∧
      shardFor (versionKey k) ∈ xs ∧ shardFor k ∉ xs := by
    have hr := mem_touched_version ((w.shards (route p)).index + 1) hwrites
    by_cases hv : shardFor k ∈ touched (entryBatch ((w.shards (route p)).index + 1) p)
    · obtain ⟨xs, ys, hcut, hrx, -, -, hvx⟩ := exists_cut (touched_ascending _) hr hv hlt
      exact ⟨xs, ys, hcut, hrx, hvx⟩
    · exact ⟨_, [], (List.append_nil _).symm, hr, hv⟩
  obtain ⟨xs, ys, hcut, hrx, hvx⟩ := hcut
  obtain ⟨w₁, hlead₁, hentered, -⟩ := leads_enter hp (hrest _) hpass hcut
  obtain ⟨w₂, sn, hlead₂, hbeside, hsn, htodo, hload⟩ :=
    leads_getSnapshot (List.append_nil _).symm w₁
  have hn : w₂.holder (route p) = some w.overlap.calls.length := by
    rw [hbeside.holder, hentered.holder, Function.update_self]
  have hc := hentered.call
  rw [← hbeside.calls] at hc
  obtain ⟨w₃, hlead₃, hke, hholder, hentries, hengine, hsame⟩ := leads_leave hn hc
  have hengine₃ : w₃.overlap.engine =
      w.overlap.engine.applyBatch (entryBatch ((w.shards (route p)).index + 1) p) := by
    rw [hengine, hbeside.engine, hentered.engine, ← List.foldl_append, ← hcut]
    rfl
  have hnd : xs.Nodup := by
    have hall := ShardedEngine.nodup_touched (entryBatch ((w.shards (route p)).index + 1) p)
    rw [hcut] at hall
    exact (List.nodup_append.mp hall).1
  have hstate : ∀ j, sn.states j = some (if j ∈ xs then w₃.overlap.engine.shards j
      else w.overlap.engine.shards j) := by
    intro j
    rw [hload j (List.mem_finRange j), hentered.engine, shards_foldl_applySection _ hnd, hengine₃]
  refine ⟨w₃, sn, (hlead₁.trans hlead₂).trans hlead₃, ?_, ?_, ?_, hengine₃, ⟨?_, htodo⟩, ?_, ?_⟩
  · refine atRest_of_returned hrest ?_ (i := route p) (n := w.overlap.calls.length)
    rw [hholder, hbeside.holder, hentered.holder]
  · rw [hentries, hbeside.entries, hentered.entries]
  · rw [hke, hbeside.shards, hentered.keyEpoch]
  · rw [hsame]
    exact List.mem_of_getElem? hsn
  · rw [hstate, if_neg hvx]
  · rw [hstate, if_pos hrx]

theorem Overtaken.getVersion (hp : p.WellFormed) {w' : InlineWorld} {sn : ShardedSnapshot}
    (h : Overtaken w p k w' sn) {r : EpochRecord}
    (hr : recordAfter ((w.shards (route p)).index + 1) p.writes k = some r) :
    sn.getVersion k = r := by
  rw [ShardedSnapshot.getVersion_of_loaded h.version, State.getVersion_eq]
  show ((w'.overlap.engine.get (versionKey k)).map decodeEpochRecord).getD .zero = r
  rw [h.engine, ShardedEngine.get_applyBatch, entryBatch, effect_commit_record hp, hr]
  exact decodeEpochRecord_encode r

theorem Overtaken.passes (hp : p.WellFormed) {w' : InlineWorld} {sn : ShardedSnapshot}
    (h : Overtaken w p k w' sn) {r : EpochRecord}
    (hr : recordAfter ((w.shards (route p)).index + 1) p.writes k = some r) {q : Proposal}
    (hroute : route q = route p) (hread : q.readSet = [⟨k, (sn.getVersion k).epoch, false⟩]) :
    (w'.shards (route q)).conflicts q = false := by
  have hepoch : epochOf (w'.shards (route q)).keyEpoch k = r := by
    rw [hroute, h.keyEpoch, epochOf]
    show ((epochs _ p.writes _)[k]?).getD .zero = r
    rw [getElem?_epochs, hr]
    rfl
  refine ((w'.shards (route q)).passes_iff q).mpr (Or.inr ?_)
  rw [hread]
  intro re hre
  rw [List.mem_singleton.mp hre]
  show stale (epochOf (w'.shards (route q)).keyEpoch k) _ = false
  rw [hepoch, h.getVersion hp hr]
  simp [stale]

theorem leads_commit (hp : p.WellFormed) (hrest : w.AtRest)
    (hpass : (w.shards (route p)).conflicts p = false) :
    ∃ w', Leads w w' ∧ w'.AtRest ∧
      w'.entries = w.entries ++ [⟨(w.shards (route p)).index + 1, p, .ok⟩] ∧
      w'.overlap.engine =
        w.overlap.engine.applyBatch (entryBatch ((w.shards (route p)).index + 1) p) := by
  obtain ⟨w₁, hlead₁, hentered, -⟩ := leads_enter hp (hrest _) hpass (List.append_nil _).symm
  have hn : w₁.holder (route p) = some w.overlap.calls.length := by
    rw [hentered.holder, Function.update_self]
  obtain ⟨w₂, hlead₂, -, hholder, hentries, hengine, -⟩ := leads_leave hn hentered.call
  refine ⟨w₂, hlead₁.trans hlead₂, atRest_of_returned hrest ?_ (i := route p)
    (n := w.overlap.calls.length), ?_, ?_⟩
  · rw [hholder, hentered.holder]
  · rw [hentries, hentered.entries]
  · rw [hengine, hentered.engine]
    rfl

/-- What `q` leaves for `k` does not depend on what it finds. -/
def Replaces (q : Proposal) (k : Key) : Prop :=
  ∀ u v, valueAfter q.writes k u = valueAfter q.writes k v

/-- Some run commits `q`, and then the key is what `q` makes of `v`. -/
def Overwrites (w : InlineWorld) (q : Proposal) (k : Key) (v : Option Bytes) : Prop :=
  ∃ events : List InlineEvent, (∀ ev ∈ events, ev.WellFormed) ∧ (events.foldl step w).AtRest ∧
    (events.foldl step w).entries = w.entries ++ [⟨(w.shards (route q)).index + 1, q, .ok⟩] ∧
    (events.foldl step w).overlap.engine.get k = valueAfter q.writes k v

theorem overwrites_of_replaces (hrest : w.AtRest) {q : Proposal} (hq : q.WellFormed)
    (hpass : (w.shards (route q)).conflicts q = false) (hk : isReserved k = false)
    (hreplaces : Replaces q k) (v : Option Bytes) : Overwrites w q k v := by
  obtain ⟨w', ⟨events, hwf, rfl⟩, hrest', hentries, hengine⟩ := leads_commit hq hrest hpass
  refine ⟨events, hwf, hrest', hentries, ?_⟩
  rw [hengine, ShardedEngine.get_applyBatch, entryBatch, effect_commit_user hk]
  exact hreplaces _ v

/-- **Every key loses updates.**  From every state at rest, for every user key and every proposal
that writes it and passes, there is a run after which the proposal is committed, all calls have
returned, and a snapshot taken meanwhile shows the key as it was before the proposal, with the
proposal's epoch.  So every update through the same shard that has read the key in this snapshot,
and nothing else, passes; and if it replaces the value, some run commits it and leaves the key as
if the proposal had never been. -/
theorem every_key_loses_updates {w : InlineWorld} (hrest : w.AtRest) {k : Key}
    (hk : isReserved k = false) {p : Proposal} (hp : p.WellFormed) (hwrites : p.writesKey k = true)
    (hpass : (w.enter p).1 ≠ some .conflicted) :
    ∃ events : List InlineEvent, (∀ ev ∈ events, ev.WellFormed) ∧
      (events.foldl step w).AtRest ∧
      (events.foldl step w).entries =
        w.entries ++ [⟨(w.shards (route p)).index + 1, p, .ok⟩] ∧
      (events.foldl step w).overlap.engine.get k =
        valueAfter p.writes k (w.overlap.engine.get k) ∧
      ∃ sn ∈ (events.foldl step w).overlap.snapshots, sn.todo = [] ∧
        sn.get k = w.overlap.engine.get k ∧
        (sn.getVersion k).epoch = (w.shards (route p)).index + 1 ∧
        ∀ q : Proposal, route q = route p →
          q.readSet = [⟨k, (sn.getVersion k).epoch, false⟩] →
          ((events.foldl step w).enter q).1 ≠ some .conflicted ∧
          (q.WellFormed → Replaces q k → Overwrites (events.foldl step w) q k (sn.get k)) := by
  have hfree : (w.shards (route p)).conflicts p = false := by
    rcases w.enter_cases p with ⟨-, henter⟩ | ⟨hc, -⟩
    · rw [henter] at hpass
      exact absurd rfl hpass
    · exact hc
  obtain ⟨w', sn, ⟨events, hwf, rfl⟩, h⟩ : ∃ w' sn, Leads w w' ∧ Overtaken w p k w' sn := by
    rcases Nat.lt_or_gt_of_ne (Fin.val_ne_of_ne (shardFor_versionKey_ne k)) with hlt | hlt
    · exact overtaken_of_gt hp hrest hfree hwrites hlt
    · exact overtaken_of_lt hp hrest hfree hlt
  obtain ⟨r, hr⟩ := Option.isSome_iff_exists.mp
    ((recordAfter_isSome ((w.shards (route p)).index + 1) p k).trans hwrites)
  refine ⟨events, hwf, h.rest, h.entries, ?_, sn, h.snapshot.1, h.snapshot.2, ?_, ?_,
    fun q hroute hread => ?_⟩
  · rw [h.engine, ShardedEngine.get_applyBatch, entryBatch, effect_commit_user hk]
  · rw [ShardedSnapshot.get, h.value]
    rfl
  · rw [h.getVersion hp hr, recordAfter_epoch hr]
  · have hpassq := h.passes hp hr hroute hread
    refine ⟨?_, fun hq hreplaces =>
      overwrites_of_replaces h.rest hq hpassq hk hreplaces (sn.get k)⟩
    rw [enter, hpassq]
    simp

/-- The update of `b` a client makes that has read it in `sn`. -/
def staleUpdate (sn : ShardedSnapshot) : Proposal :=
  ⟨[⟨[0x62], (sn.getVersion [0x62]).epoch, false⟩], [⟨.set, [0x62], [3]⟩], 0, 0⟩

/-- An update of `b`, from 1 to 2, is lost to another one, from 1 to 3. -/
theorem second_update_lost :
    ((solo 0 (keyWrite 0x62)).foldl step (new freshSharded)).overlap.engine.get [0x62] =
      some [1] ∧
    ∃ events : List InlineEvent,
      (events.foldl step ((solo 0 (keyWrite 0x62)).foldl step
        (new freshSharded))).overlap.engine.get [0x62] = some [2] ∧
      ∃ sn ∈ (events.foldl step ((solo 0 (keyWrite 0x62)).foldl step
          (new freshSharded))).overlap.snapshots,
        sn.get [0x62] = some [1] ∧
        Overwrites (events.foldl step ((solo 0 (keyWrite 0x62)).foldl step (new freshSharded)))
          (staleUpdate sn) [0x62] (some [1]) := by
  have hvalue : ((solo 0 (keyWrite 0x62)).foldl step (new freshSharded)).overlap.engine.get [0x62] =
      some [1] := by decide +kernel
  have hrest : ((solo 0 (keyWrite 0x62)).foldl step (new freshSharded)).AtRest := by
    show ∀ i : ShardId, ((solo 0 (keyWrite 0x62)).foldl step (new freshSharded)).holder i = none
    decide +kernel
  obtain ⟨events, -, -, -, hget, sn, hsn, -, hold, -, hlost⟩ := every_key_loses_updates hrest
    (k := [0x62]) (by decide) (p := freshWrite) ⟨by decide, by decide⟩ (by decide)
    (by decide +kernel)
  rw [hvalue] at hget hold
  obtain ⟨-, hover⟩ := hlost (staleUpdate sn) rfl rfl
  rw [hold] at hover
  refine ⟨hvalue, events, hget, sn, hsn, hold, hover ⟨?_, ?_⟩ fun u v => rfl⟩
  · exact List.forall_mem_singleton.mpr rfl
  · exact List.forall_mem_singleton.mpr rfl

end InlineWorld

end Dpx
