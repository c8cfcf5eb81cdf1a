/-
# `Dpx.Conductor.Inline` — `applyInline` calls that overlap

`applyInline` runs under its shard's spinlock: it numbers the entry, judges it against the
shard's `keyEpoch`, answers a conflict at once or hands the batch to the engine, and lets
the lock go when the engine has returned.  Calls of different shards overlap: the sharded
engine stores the shards of their batches one by one, in any interleaving
(`Dpx.Engine.ShardedCalls`).  A call that finds the lock taken spins; it has no step.

    call p      lock of p's shard free: number, judge; conflict, or batch handed over
    store n     the n-th engine call stores its next shard
    ret i       the engine call of shard i's holder is through: lock free, answer ok

Calls run one at a time are the serial model: `alone_applyInline`.

A version record in the engine belongs to the call that stored it last, whatever shard
numbered it; `keyEpoch` of a shard knows the entries routed there.  A proposal compares
the one with the other.  It is turned away, although nothing has happened since it read,
whenever its own shard has given the key a higher number than the last writer got from
another shard: `uncontended_iff`.
-/
import Dpx.Engine.ShardedSnapshots
import Dpx.Conductor.Sharded

namespace Dpx

open ShardedEngine (touched byShard)

/-! ## The world -/

/-- `holder` is the engine call inside each shard's lock; `entries` lists the entries that
passed, each at the number of its engine call. -/
structure InlineWorld where
  shards : ShardId → ShardProposer
  holder : ShardId → Option Nat
  overlap : ShardedOverlap
  entries : List Answered

inductive InlineEvent where
  | call (p : Proposal)
  | store (n : Nat)
  | ret (i : ShardId)
  | getSnapshot
  | load (m : Nat)

/-- An event brings a proposal as `dpxTx` builds it. -/
def InlineEvent.WellFormed : InlineEvent → Prop
  | .call p => p.WellFormed
  | .store _ | .ret _ | .getSnapshot | .load _ => True

namespace InlineWorld

def new (s : ShardedDirectProposer ShardedEngine) : InlineWorld :=
  ⟨s.shards, fun _ => none, .new s.engine, []⟩

/-- The world after an entry has been turned away. -/
def afterSkip (w : InlineWorld) (p : Proposal) : InlineWorld :=
  { w with shards := Function.update w.shards (route p) (w.shards (route p)).skip }

/-- The world after an entry has passed and its batch has been handed over. -/
def afterAccept (w : InlineWorld) (p : Proposal) : InlineWorld :=
  let sp := (w.shards (route p)).accept p
  { w with
    shards := Function.update w.shards (route p) sp
    holder := Function.update w.holder (route p) (some w.overlap.calls.length)
    overlap := w.overlap.step (.applyBatch (entryBatch sp.index p))
    entries := w.entries ++ [⟨sp.index, p, .ok⟩] }

/-- `applyInline` up to the engine call, with the answer if it is given at once. -/
def enter (w : InlineWorld) (p : Proposal) : Option ApplyResult × InlineWorld :=
  if (w.shards (route p)).conflicts p then (some .conflicted, w.afterSkip p)
  else (none, w.afterAccept p)

/-- `applyInline` after the engine call. -/
def leave (w : InlineWorld) (i : ShardId) : InlineWorld :=
  let sp := w.shards i
  { w with
    shards := Function.update w.shards i { sp with applied := sp.index }
    holder := Function.update w.holder i none }

def step (w : InlineWorld) : InlineEvent → InlineWorld
  | .call p => if w.holder (route p) = none then (w.enter p).2 else w
  | .store n => { w with overlap := w.overlap.step (.store n) }
  | .ret i =>
      match w.holder i with
      | none => w
      | some n => if w.overlap.todoOf n = [] then w.leave i else w
  | .getSnapshot => { w with overlap := w.overlap.step .getSnapshot }
  | .load m => { w with overlap := w.overlap.step (.load m) }

theorem enter_cases (w : InlineWorld) (p : Proposal) :
    ((w.shards (route p)).conflicts p = true ∧ w.enter p = (some .conflicted, w.afterSkip p)) ∨
      ((w.shards (route p)).conflicts p = false ∧ w.enter p = (none, w.afterAccept p)) := by
  rw [enter]
  cases hc : (w.shards (route p)).conflicts p with
  | true => exact Or.inl ⟨rfl, rfl⟩
  | false => exact Or.inr ⟨rfl, rfl⟩

theorem step_cases (w : InlineWorld) (ev : InlineEvent) :
    w.step ev = w ∨
    (∃ p, ev = .call p ∧ w.step ev = w.afterSkip p) ∨
    (∃ p, ev = .call p ∧ w.holder (route p) = none ∧ w.step ev = w.afterAccept p) ∨
    (∃ i n, w.holder i = some n ∧ w.overlap.todoOf n = [] ∧ w.step ev = w.leave i) ∨
    (∃ e : ShardedEvent, (∀ ops, e ≠ .applyBatch ops) ∧
      w.step ev = { w with overlap := w.overlap.step e }) := by
  cases ev with
  | call p =>
      simp only [step]
      split
      · rename_i hfree
        rcases w.enter_cases p with ⟨-, hskip⟩ | ⟨-, haccept⟩
        · rw [hskip]
          exact Or.inr (Or.inl ⟨p, rfl, rfl⟩)
        · rw [haccept]
          exact Or.inr (Or.inr (Or.inl ⟨p, rfl, hfree, rfl⟩))
      · exact Or.inl rfl
  | store n =>
      refine Or.inr (Or.inr (Or.inr (Or.inr ⟨.store n, fun ops h => ?_, rfl⟩)))
      cases h
  | ret i =>
      simp only [step]
      cases hn : w.holder i with
      | none => exact Or.inl rfl
      | some n =>
          simp only
          split
          · rename_i htodo
            exact Or.inr (Or.inr (Or.inr (Or.inl ⟨i, n, hn, htodo, rfl⟩)))
          · exact Or.inl rfl
  | getSnapshot =>
      refine Or.inr (Or.inr (Or.inr (Or.inr ⟨.getSnapshot, fun ops h => ?_, rfl⟩)))
      cases h
  | load m =>
      refine Or.inr (Or.inr (Or.inr (Or.inr ⟨.load m, fun ops h => ?_, rfl⟩)))
      cases h

/-- No call is under way. -/
def AtRest (w : InlineWorld) : Prop := ∀ i, w.holder i = none

end InlineWorld

theorem ShardedOverlap.step_keeps (w : ShardedOverlap) {e : ShardedEvent}
    (he : ∀ ops, e ≠ .applyBatch ops) :
    (w.step e).calls.length = w.calls.length ∧ (w.step e).opsOf = w.opsOf ∧
      ∀ n, w.todoOf n = [] → (w.step e).todoOf n = [] := by
  rcases w.step_cases e with hsame | ⟨ops, rfl⟩ | ⟨n, ops, i, todo, rfl, hc, hstep⟩ | rfl |
    ⟨m, sn, i, todo, rfl, -, -, hstep⟩
  · rw [hsame]
    exact ⟨rfl, rfl, fun _ h => h⟩
  · exact absurd rfl (he ops)
  · rw [hstep]
    refine ⟨List.length_set, funext (opsOf_afterStore hc), fun m hm => ?_⟩
    have hmn : m ≠ n := by
      rintro rfl
      rw [(numbers_of_call hc).2] at hm
      cases hm
    rw [todoOf_afterStore hc, if_neg hmn]
    exact hm
  · exact ⟨rfl, rfl, fun _ h => h⟩
  · rw [hstep]
    exact ⟨rfl, rfl, fun _ h => h⟩

theorem ShardProposer.passes_iff (sp : ShardProposer) (p : Proposal) :
    sp.conflicts p = false ↔
      maxStackShadow < p.readSet.length ∨
        ∀ re ∈ p.readSet, stale (epochOf sp.keyEpoch re.key) re = false := by
  rw [conflicts]
  split
  · rename_i hlen
    simp [stackConflict_eq_any, stackShadowed, Nat.not_lt.mpr hlen]
  · rename_i hlen
    simp [Nat.lt_of_not_le hlen]

namespace InlineWorld

/-! ## Engine calls and their entries -/

/-- Each engine call has its entry, and while it has shards left its shard's lock. -/
structure Held (w : InlineWorld) : Prop where
  length_eq : w.entries.length = w.overlap.calls.length
  batch : ∀ (n : Nat) (a : Answered), w.entries[n]? = some a →
    w.overlap.opsOf n = entryBatch a.index a.proposal
  held : ∀ (n : Nat) (a : Answered), w.entries[n]? = some a → w.overlap.todoOf n ≠ [] →
    w.holder (route a.proposal) = some n

theorem held_new (s : ShardedDirectProposer ShardedEngine) : Held (new s) := by
  refine ⟨rfl, fun n a ha => ?_, fun n a ha => ?_⟩
  · cases ha
  · cases ha

section Held

variable {w : InlineWorld}

theorem Held.accept (h : Held w) {p : Proposal} (hfree : w.holder (route p) = none) :
    Held (w.afterAccept p) := by
  refine ⟨?_, fun n a ha => ?_, fun n a ha htodo => ?_⟩
  · show (w.entries ++ [_]).length = (w.overlap.calls ++ [_]).length
    rw [List.length_append, List.length_append, h.length_eq]
    rfl
  · show (w.overlap.step (.applyBatch _)).opsOf n = _
    rw [ShardedOverlap.opsOf_applyBatch, ← h.length_eq]
    rcases Runs.getElem?_concat_cases ha with ⟨hn, rfl⟩ | ⟨hn, ha⟩
    · rw [if_pos hn]
    · rw [if_neg (Nat.ne_of_lt hn)]
      exact h.batch n a ha
  · change (w.overlap.step (.applyBatch _)).todoOf n ≠ [] at htodo
    show Function.update w.holder (route p) _ _ = _
    rw [ShardedOverlap.todoOf_applyBatch, ← h.length_eq] at htodo
    rcases Runs.getElem?_concat_cases ha with ⟨rfl, rfl⟩ | ⟨hn, ha⟩
    · rw [Function.update_self, h.length_eq]
    · rw [if_neg (Nat.ne_of_lt hn)] at htodo
      have hold := h.held n a ha htodo
      have hne : route a.proposal ≠ route p := by
        intro heq
        rw [heq, hfree] at hold
        cases hold
      rw [Function.update_of_ne hne]
      exact hold

theorem Held.leave (h : Held w) {i : ShardId} {n : Nat} (hn : w.holder i = some n)
    (htodo : w.overlap.todoOf n = []) : Held (w.leave i) := by
  refine ⟨h.length_eq, h.batch, fun m a ha hm => ?_⟩
  have hold := h.held m a ha hm
  have hne : route a.proposal ≠ i := by
    rintro rfl
    obtain rfl : n = m := Option.some.inj (hn.symm.trans hold)
    exact hm htodo
  show Function.update w.holder i none _ = _
  rw [Function.update_of_ne hne]
  exact hold

theorem Held.overlap (h : Held w) {e : ShardedEvent} (he : ∀ ops, e ≠ .applyBatch ops) :
    Held { w with overlap := w.overlap.step e } := by
  obtain ⟨hlen, hops, htodo⟩ := w.overlap.step_keeps he
  refine ⟨h.length_eq.trans hlen.symm, fun n a ha => ?_, fun n a ha hne => ?_⟩
  · show (w.overlap.step e).opsOf n = _
    rw [hops]
    exact h.batch n a ha
  · exact h.held n a ha fun hnil => hne (htodo n hnil)

theorem Held.step (h : Held w) (ev : InlineEvent) : Held (w.step ev) := by
  rcases w.step_cases ev with hstep | ⟨p, -, hstep⟩ | ⟨p, -, hfree, hstep⟩ |
    ⟨i, n, hn, htodo, hstep⟩ | ⟨e, he, hstep⟩
  · rw [hstep]
    exact h
  · rw [hstep]
    exact ⟨h.length_eq, h.batch, h.held⟩
  · rw [hstep]
    exact h.accept hfree
  · rw [hstep]
    exact h.leave hn htodo
  · rw [hstep]
    exact h.overlap he

theorem Held.atRest (h : Held w) (hrest : w.AtRest) : w.overlap.AtRest := by
  intro c hc
  obtain ⟨n, hn⟩ := List.mem_iff_getElem?.mp hc
  have hlt : n < w.entries.length := by
    rw [h.length_eq]
    exact (List.getElem?_eq_some_iff.mp hn).1
  by_contra hne
  have hheld := h.held n _ (List.getElem?_eq_getElem hlt) (by
    rw [(ShardedOverlap.numbers_of_call hn).2]
    exact hne)
  rw [hrest] at hheld
  cases hheld

end Held

/-! ## A call run alone -/

/-- The steps of one call, with nothing in between. -/
def alone (w : InlineWorld) (p : Proposal) : List InlineEvent :=
  .call p ::
    (List.replicate (touched (entryBatch ((w.shards (route p)).index + 1) p)).length
      (.store w.overlap.calls.length) ++ [.ret (route p)])

theorem foldl_store (n k : Nat) : ∀ w : InlineWorld,
    (List.replicate k (InlineEvent.store n)).foldl step w =
      { w with overlap :=
          (List.replicate k (ShardedEvent.store n)).foldl ShardedOverlap.step w.overlap } := by
  induction k with
  | zero => intro w; rfl
  | succ k ih =>
      intro w
      rw [List.replicate_succ, List.foldl_cons, ih]
      rfl

end InlineWorld

theorem ShardedOverlap.foldl_store {n : Nat} {ops : List BatchOp} (todo : List ShardId) :
    ∀ w : ShardedOverlap, w.calls[n]? = some ⟨ops, todo⟩ →
      ((List.replicate todo.length (ShardedEvent.store n)).foldl step w).engine =
          todo.foldl (fun e i => e.applySection ops i) w.engine ∧
        ((List.replicate todo.length (ShardedEvent.store n)).foldl step w).todoOf n = [] := by
  induction todo with
  | nil =>
      intro w hc
      exact ⟨rfl, (numbers_of_call hc).2⟩
  | cons i todo ih =>
      intro w hc
      have hlt : n < w.calls.length := (List.getElem?_eq_some_iff.mp hc).1
      have hstep : w.step (.store n) = w.afterStore n ops i todo := by
        simp only [ShardedOverlap.step, hc]
      have hnext : (w.afterStore n ops i todo).calls[n]? = some ⟨ops, todo⟩ :=
        List.getElem?_set_self hlt
      rw [List.length_cons, List.replicate_succ, List.foldl_cons, hstep]
      exact ih _ hnext

theorem ShardedOverlap.foldl_store_none {n : Nat} (k : Nat) :
    ∀ w : ShardedOverlap, w.calls[n]? = none →
      (List.replicate k (ShardedEvent.store n)).foldl step w = w := by
  induction k with
  | zero => intro w _; rfl
  | succ k ih =>
      intro w hn
      have hstep : w.step (.store n) = w := by simp only [ShardedOverlap.step, hn]
      rw [List.replicate_succ, List.foldl_cons, hstep]
      exact ih w hn

namespace InlineWorld

/-- **Calls one at a time are the serial model.** -/
theorem alone_applyInline (w : InlineWorld) {p : Proposal} (hfree : w.holder (route p) = none)
    {s : ShardedDirectProposer ShardedEngine} (hengine : s.engine = w.overlap.engine)
    (hshards : s.shards = w.shards) :
    ((w.alone p).foldl step w).shards = (s.applyInline p).2.shards ∧
      ((w.alone p).foldl step w).overlap.engine = (s.applyInline p).2.engine ∧
      ((w.alone p).foldl step w).holder = w.holder := by
  rw [alone, List.foldl_cons, List.foldl_append, foldl_store]
  have hcall : w.step (.call p) = (w.enter p).2 := by simp only [step, hfree, if_true]
  rw [hcall, ShardedDirectProposer.applyInline, hshards]
  rcases w.enter_cases p with ⟨hc, henter⟩ | ⟨hc, henter⟩
  · have hnone : (w.afterSkip p).overlap.calls[w.overlap.calls.length]? = none :=
      List.getElem?_eq_none (Nat.le_refl _)
    simp only [henter, hc, if_true, ShardedOverlap.foldl_store_none _ _ hnone]
    have hret : (w.afterSkip p).step (.ret (route p)) = w.afterSkip p := by
      simp only [step, afterSkip, hfree]
    rw [List.foldl_cons, hret]
    refine ⟨?_, hengine.symm, rfl⟩
    rw [ShardedDirectProposer.setShard, hshards]
    rfl
  · have hnew : (w.afterAccept p).overlap.calls[w.overlap.calls.length]? =
        some ⟨entryBatch ((w.shards (route p)).index + 1) p,
          touched (entryBatch ((w.shards (route p)).index + 1) p)⟩ := by
      simp [afterAccept, ShardedOverlap.step, ShardProposer.accept]
    obtain ⟨hend, htodo⟩ := ShardedOverlap.foldl_store _ (w.afterAccept p).overlap hnew
    simp only [henter, hc, Bool.false_eq_true, if_false]
    generalize (List.replicate _ (ShardedEvent.store w.overlap.calls.length)).foldl
      ShardedOverlap.step (w.afterAccept p).overlap = o at hend htodo ⊢
    have hret : ({ w.afterAccept p with overlap := o } : InlineWorld).step (.ret (route p)) =
        ({ w.afterAccept p with overlap := o } : InlineWorld).leave (route p) := by
      simp only [step, afterAccept, Function.update_self, htodo, if_true]
    rw [List.foldl_cons, hret]
    refine ⟨?_, ?_, ?_⟩
    · simp only [leave, afterAccept, List.foldl_nil, Function.update_self, Function.update_idem]
      rw [← hshards]
      rfl
    · have hbatch : o.engine = s.engine.applyBatch
          (entryBatch ((w.shards (route p)).index + 1) p) := by
        rw [hend, hengine]
        rfl
      show o.engine = if s.syncPolicy = .syncBatch then _ else _
      rw [hbatch]
      split <;> rfl
    · simp only [leave, afterAccept, List.foldl_nil, Function.update_idem]
      rw [← hfree, Function.update_eq_self]

/-! ## What the entries tell -/

/-- The entries whose batches have been stored in shard `j`, in order. -/
def storedBy (w : InlineWorld) (j : ShardId) : List Answered :=
  (w.overlap.stored j).filterMap fun n => w.entries[n]?

/-- `keyEpoch` of a shard has the last records of the entries routed to it. -/
structure Recorded (e₀ : ShardedEngine) (w : InlineWorld) : Prop extends Held w where
  linked : ShardedOverlap.Linked e₀ w.overlap
  passed : ∀ a ∈ w.entries, a.proposal.WellFormed ∧ a.result = .ok
  keyEpoch_eq : ∀ i k, (w.shards i).keyEpoch[k]? = (records (routedTo i w.entries) k).getLast?

section Recorded

variable {e₀ : ShardedEngine} {w : InlineWorld}

theorem keyEpoch_update {i : ShardId} {sp : ShardProposer}
    (h : sp.keyEpoch = (w.shards i).keyEpoch) (j : ShardId) :
    (Function.update w.shards i sp j).keyEpoch = (w.shards j).keyEpoch := by
  by_cases hj : j = i
  · subst hj
    rw [Function.update_self, h]
  · rw [Function.update_of_ne hj]

theorem Recorded.skip (h : Recorded e₀ w) (p : Proposal) : Recorded e₀ (w.afterSkip p) := by
  refine ⟨⟨h.length_eq, h.batch, h.held⟩, h.linked, h.passed, fun i k => ?_⟩
  refine Eq.trans (congrArg (fun ke => ke[k]?) (keyEpoch_update ?_ i)) (h.keyEpoch_eq i k)
  rfl

theorem Recorded.accept (h : Recorded e₀ w) {p : Proposal} (hp : p.WellFormed)
    (hfree : w.holder (route p) = none) : Recorded e₀ (w.afterAccept p) := by
  refine ⟨h.toHeld.accept hfree, h.linked.applyBatch _, fun a ha => ?_, fun i k => ?_⟩
  · rcases List.mem_append.mp ha with ha | ha
    · exact h.passed a ha
    · rw [List.mem_singleton.mp ha]
      exact ⟨hp, rfl⟩
  · show (Function.update w.shards (route p) _ i).keyEpoch[k]? =
      (records (routedTo i (w.entries ++ [_])) k).getLast?
    rw [routedTo_concat]
    by_cases hi : route p = i
    · subst hi
      rw [Function.update_self, if_pos rfl, getLast?_records_concat, ← h.keyEpoch_eq]
      exact getElem?_epochs _ p.writes _ k
    · rw [Function.update_of_ne (Ne.symm hi), if_neg hi, List.append_nil]
      exact h.keyEpoch_eq i k

theorem Recorded.leave (h : Recorded e₀ w) {i : ShardId} {n : Nat} (hn : w.holder i = some n)
    (htodo : w.overlap.todoOf n = []) : Recorded e₀ (w.leave i) := by
  refine ⟨h.toHeld.leave hn htodo, h.linked, h.passed, fun j k => ?_⟩
  refine Eq.trans (congrArg (fun ke => ke[k]?) (keyEpoch_update ?_ j)) (h.keyEpoch_eq j k)
  rfl

theorem Recorded.step (h : Recorded e₀ w) {ev : InlineEvent} (hwf : ev.WellFormed) :
    Recorded e₀ (w.step ev) := by
  rcases w.step_cases ev with hstep | ⟨p, rfl, hstep⟩ | ⟨p, rfl, hfree, hstep⟩ |
    ⟨i, n, hn, htodo, hstep⟩ | ⟨e, he, hstep⟩
  · rw [hstep]
    exact h
  · rw [hstep]
    exact h.skip p
  · rw [hstep]
    exact h.accept hwf hfree
  · rw [hstep]
    exact h.leave hn htodo
  · rw [hstep]
    exact ⟨h.toHeld.overlap he, h.linked.step e, h.passed, h.keyEpoch_eq⟩

theorem Recorded.get_fill (h : Recorded e₀ w) (k : Key) {ns : List Nat}
    (hns : ∀ n ∈ ns, n < w.entries.length) : ∀ s : State,
      (w.overlap.fill (shardFor (versionKey k)) ns s).get (versionKey k) =
        ((records (ns.filterMap fun n => w.entries[n]?) k).getLast?.map encodeEpochRecord).or
          (s.get (versionKey k)) := by
  induction ns with
  | nil => intro s; rfl
  | cons n ns ih =>
      intro s
      simp only [List.forall_mem_cons] at hns
      obtain ⟨a, ha⟩ : ∃ a, w.entries[n]? = some a := ⟨_, List.getElem?_eq_getElem hns.1⟩
      obtain ⟨hwf, hok⟩ := h.passed a (List.mem_of_getElem? ha)
      have hact : (w.overlap.act (shardFor (versionKey k)) n s).get (versionKey k) =
          ((a.record k).map encodeEpochRecord).or (s.get (versionKey k)) := by
        have heff := effect_commit_version hwf a.index k (s.get (versionKey k))
          (r := none) (v := s.get (versionKey k)) rfl
        rw [Option.or_none] at heff
        rw [ShardedOverlap.act, h.batch n a ha, State.get_applyOps, ShardedEngine.effect_byShard,
          entryBatch, heff, ← hok]
      have hrecords : records (a :: ns.filterMap fun n => w.entries[n]?) k =
          (a.record k).toList ++ records (ns.filterMap fun n => w.entries[n]?) k := by
        rw [records, List.filterMap_cons]
        cases a.record k <;> rfl
      rw [List.filterMap_cons, ha]
      simp only
      rw [hrecords, List.getLast?_append]
      show (w.overlap.fill _ ns (w.overlap.act _ n s)).get _ = _
      rw [ih hns.2, hact]
      cases (records (ns.filterMap fun n => w.entries[n]?) k).getLast? with
      | some r => rfl
      | none => cases a.record k <;> rfl

/-- The version a snapshot of this moment shows is that of the last stored writer. -/
theorem Recorded.getVersion (h : Recorded .new w) (k : Key) :
    w.overlap.engine.getVersion k =
      lastRecord .empty (w.storedBy (shardFor (versionKey k))) k := by
  have hns : ∀ n ∈ w.overlap.stored (shardFor (versionKey k)), n < w.entries.length := by
    intro n hn
    rw [h.length_eq]
    exact h.linked.lt_length hn
  rw [ShardedEngine.getVersion_eq, ShardedEngine.get, h.linked.shards, h.get_fill k hns,
    lastRecord_empty, storedBy]
  show (Option.map decodeEpochRecord ((Option.map _ _).or (State.empty.get _))).getD _ = _
  rw [State.get_empty, Option.or_none]
  cases (records _ k).getLast? with
  | none => rfl
  | some r => exact decodeEpochRecord_encode r

end Recorded

/-! ## A proposal on its own -/

theorem recorded_new {s : ShardedDirectProposer ShardedEngine} {syncPolicy : SyncPolicy}
    (h : ShardedDirectProposer.newShardedDirectProposer ShardedEngine.new syncPolicy = .ok s) :
    Recorded .new (new s) := by
  rw [ShardedDirectProposer.newShardedDirectProposer_new] at h
  cases h
  refine ⟨held_new _, ShardedOverlap.linked_new _, fun a ha => ?_, fun i k => ?_⟩
  · exact absurd ha List.not_mem_nil
  · exact Std.ExtTreeMap.getElem?_empty

/-- **A proposal on its own.**  In every state of every run on a new sharded engine, a
proposal that has read its epochs in this state and enters its shard now is turned away
unless its read set is too large to be tested, or, for every key it has read, the number
its own shard gave the last writer of the key routed there is at most the number on the
version record stored last, or credit and debit pardon it. -/
theorem uncontended_iff {s : ShardedDirectProposer ShardedEngine} {syncPolicy : SyncPolicy}
    (hopen : ShardedDirectProposer.newShardedDirectProposer ShardedEngine.new syncPolicy = .ok s)
    (events : List InlineEvent) (hwf : ∀ ev ∈ events, ev.WellFormed) :
    ∀ w ∈ Runs.states step (new s) events, ∀ p : Proposal,
      (∀ re ∈ p.readSet, re.epoch = (w.overlap.engine.getVersion re.key).epoch) →
      ((w.enter p).1 ≠ some .conflicted ↔
        maxStackShadow < p.readSet.length ∨
          ∀ re ∈ p.readSet,
            let here := lastRecord .empty (routedTo (route p) w.entries) re.key
            let last := lastRecord .empty (w.storedBy (shardFor (versionKey re.key))) re.key
            here.epoch ≤ last.epoch ∨ (here.isCredit = true ∧ re.isDebit = true)) := by
  intro w hw p hreads
  have hmoves : ∀ m ∈ Runs.moves step (new s) events, m.2.WellFormed := fun m hm =>
    hwf m.2 (Runs.mem_of_mem_moves hm)
  have hstep : ∀ w ev, Recorded .new w → ev.WellFormed → Recorded .new (w.step ev) :=
    fun _ _ h hev => h.step hev
  have h : Recorded .new w := Runs.invariant hstep (recorded_new hopen) hmoves w hw
  have henter : (w.enter p).1 ≠ some .conflicted ↔ (w.shards (route p)).conflicts p = false := by
    rcases w.enter_cases p with ⟨hc, henter⟩ | ⟨hc, henter⟩
    · simp [henter, hc]
    · simp [henter, hc]
  rw [henter, ShardProposer.passes_iff]
  refine or_congr_right (forall₂_congr fun re hre => ?_)
  have hhere : epochOf (w.shards (route p)).keyEpoch re.key =
      lastRecord .empty (routedTo (route p) w.entries) re.key := by
    rw [epochOf, h.keyEpoch_eq, lastRecord_empty]
  dsimp only
  rw [hhere, ← h.getVersion, ← hreads re hre]
  simp [stale, UInt64.not_lt, imp_iff_not_or]

/-- The steps of one call with the number `n`, and time for all its stores. -/
def solo (n : Nat) (p : Proposal) : List InlineEvent :=
  .call p :: (List.replicate (2 * p.writes.length + 1) (.store n) ++ [.ret (route p)])

open ShardedDirectProposer (freshSharded keyWrite freshWrite pairWrite)

/-- After one write of `b`, a proposal that reads and writes `b` passes. -/
theorem second_write_passes :
    (((solo 0 (keyWrite 0x62)).foldl step (new freshSharded)).enter freshWrite).1 ≠
      some .conflicted := by
  have hwf : ∀ ev ∈ solo 0 (keyWrite 0x62), ev.WellFormed := by
    intro ev hev
    simp only [solo, List.mem_cons, List.mem_append, List.mem_replicate, List.not_mem_nil,
      or_false] at hev
    rcases hev with rfl | ⟨-, rfl⟩ | rfl
    · exact ⟨by decide, by decide⟩
    · trivial
    · trivial
  refine (uncontended_iff (ShardedDirectProposer.newShardedDirectProposer_new .syncBatch) _ hwf _
    (Runs.foldl_mem_states _ _) freshWrite ?_).mpr (Or.inr ?_)
  · decide +kernel
  · decide +kernel

/-! ## A conflict with nobody -/

/-- Writes of `a`, of `a` and `b`, and of `b`, one after another.  The shard of `a` gives
the second number 2, the shard of `b` gives the third number 1. -/
def renumbered : List InlineEvent :=
  solo 0 (keyWrite 0x61) ++ solo 1 pairWrite ++ solo 2 (keyWrite 0x62)

/-- Reads `b` at epoch 1 and writes `a`: routed by `a`. -/
def lonely : Proposal := ⟨[⟨[0x62], 1, false⟩], [⟨.set, [0x61], [2]⟩], 0, 0⟩

/-- All calls have returned; the proposal has read the current epoch of `b` and is turned
away, and so is its retry. -/
theorem lonely_conflicts :
    (renumbered.foldl step (new freshSharded)).AtRest ∧
    (∀ re ∈ lonely.readSet, re.epoch =
      ((renumbered.foldl step (new freshSharded)).overlap.engine.getVersion re.key).epoch) ∧
    ((renumbered.foldl step (new freshSharded)).enter lonely).1 = some .conflicted ∧
    (∀ re ∈ lonely.readSet, re.epoch = (((renumbered.foldl step (new freshSharded)).step
      (.call lonely)).overlap.engine.getVersion re.key).epoch) ∧
    (((renumbered.foldl step (new freshSharded)).step (.call lonely)).enter lonely).1 =
      some .conflicted := by
  refine ⟨?_, ?_, ?_, ?_, ?_⟩
  · show ∀ i : ShardId, (renumbered.foldl step (new freshSharded)).holder i = none
    decide +kernel
  · decide +kernel
  · decide +kernel
  · decide +kernel
  · decide +kernel

end InlineWorld

end Dpx
