/-
# `Dpx.Conductor.ShardedTransfers` — money moved by overlapping calls

Transfers of different shards run at the same time and store their parts of the money one
shard after another.  In between, money is missing or in excess: what it is that the calls
under way have still to store.  `Balanced` adds that to the books.  A store moves its
amount from the one side to the other, under the shard's lock, whatever other calls have
done to the shard; a new call has a neutral batch and adds nothing.

So when all calls have returned the books show what they showed at first, however they
interleaved and whatever was turned away: `transfers_conserve`.
-/
import Dpx.Conductor.Inline
import Dpx.Conductor.Transfers

namespace Dpx

open scoped Word
open ShardedEngine (touched byShard)

/-! ## The engine's books -/

/-- What a section adds to the total. -/
def sectionAmount (ops : List BatchOp) (i : ShardId) : Int64 :=
  ((byShard ops i).map BatchOp.amount).sum

/-- What a call has still to add. -/
def ShardedCall.pending (c : ShardedCall) : Int64 := (c.todo.map (sectionAmount c.ops)).sum

theorem pending_touched (ops : List BatchOp) :
    (⟨ops, touched ops⟩ : ShardedCall).pending = (ops.map BatchOp.amount).sum :=
  MapSum.sum_groups BatchOp.amount (fun op => shardFor op.key) (ShardedEngine.nodup_touched ops)
    fun _ hop => ShardedEngine.mem_touched hop

namespace ShardedOverlap

/-- The engine's total and what is still to be stored come to `total`. -/
structure Balanced (total : Int64) (w : ShardedOverlap) : Prop where
  moves : ∀ c ∈ w.calls, ∀ op ∈ c.ops, op.Movement
  books : w.engine.total + (w.calls.map ShardedCall.pending).sum = total

theorem balanced_new (e : ShardedEngine) : Balanced e.total (new e) where
  moves := fun _ hc => absurd hc List.not_mem_nil
  books := add_zero _

section Balanced

variable {total : Int64} {w : ShardedOverlap}

theorem Balanced.applyBatch (h : Balanced total w) {ops : List BatchOp}
    (hops : BatchOp.Neutral ops) : Balanced total (w.step (.applyBatch ops)) where
  moves := by
    intro c hc
    rcases List.mem_append.mp hc with hc | hc
    · exact h.moves c hc
    · rw [List.mem_singleton.mp hc]
      exact hops.moves
  books := by
    have hstep : w.step (.applyBatch ops) =
        { w with calls := w.calls ++ [⟨ops, touched ops⟩] } := rfl
    rw [hstep]
    simp [pending_touched, hops.cancel, h.books]

theorem Balanced.afterStore (h : Balanced total w) {n : Nat} {ops : List BatchOp} {i : ShardId}
    {todo : List ShardId} (hc : w.calls[n]? = some ⟨ops, i :: todo⟩) :
    Balanced total (w.afterStore n ops i todo) where
  moves := Runs.forall_mem_set h.moves (h.moves ⟨ops, i :: todo⟩ (List.mem_of_getElem? hc))
  books := by
    have hmoves : ∀ op ∈ byShard ops i, op.Movement := fun op hop =>
      h.moves _ (List.mem_of_getElem? hc) op (List.mem_filter.mp hop).1
    have hcall : (⟨ops, i :: todo⟩ : ShardedCall).pending =
        (⟨ops, todo⟩ : ShardedCall).pending + sectionAmount ops i := by
      simp [ShardedCall.pending, add_comm]
    have hset := MapSum.sum_map_set ShardedCall.pending ⟨ops, todo⟩ hc
    rw [hcall, add_left_comm, add_comm] at hset
    show (w.engine.applySection ops i).total +
      ((w.calls.set n ⟨ops, todo⟩).map ShardedCall.pending).sum = total
    rw [w.engine.total_applySection hmoves, ← h.books, ← add_right_cancel hset, add_right_comm,
      ← add_assoc]
    rfl

theorem Balanced.step (h : Balanced total w) {e : ShardedEvent} (he : ∀ ops, e ≠ .applyBatch ops) :
    Balanced total (w.step e) := by
  rcases w.step_cases e with hsame | ⟨ops, rfl⟩ | ⟨n, ops, i, todo, rfl, hc, hstep⟩ | rfl |
    ⟨m, sn, i, todo, rfl, -, -, hstep⟩
  · rw [hsame]
    exact h
  · exact absurd rfl (he ops)
  · rw [hstep]
    exact h.afterStore hc
  · exact ⟨h.moves, h.books⟩
  · rw [hstep]
    exact ⟨h.moves, h.books⟩

theorem Balanced.atRest (h : Balanced total w) (hrest : w.AtRest) : w.engine.total = total := by
  have hnil : ∀ x ∈ w.calls.map ShardedCall.pending, x = 0 := by
    intro x hx
    obtain ⟨c, hc, rfl⟩ := List.mem_map.mp hx
    rw [ShardedCall.pending, hrest c hc]
    rfl
  rw [← h.books, List.sum_eq_zero hnil, add_zero]

end Balanced

end ShardedOverlap

/-! ## Transfers -/

/-- An event brings a transfer. -/
def InlineEvent.Transfer : InlineEvent → Prop
  | .call p => p.Transfer
  | .store _ | .ret _ | .getSnapshot | .load _ => True

namespace InlineWorld

theorem balanced_step {w : InlineWorld} {total : Int64} (h : w.overlap.Balanced total)
    {ev : InlineEvent} (hev : ev.Transfer) : (w.step ev).overlap.Balanced total := by
  rcases w.step_cases ev with hstep | ⟨p, rfl, hstep⟩ | ⟨p, rfl, -, hstep⟩ |
    ⟨i, n, -, -, hstep⟩ | ⟨e, he, hstep⟩
  · rw [hstep]
    exact h
  · rw [hstep]
    exact h
  · rw [hstep]
    exact h.applyBatch (Proposal.Transfer.neutral hev _)
  · rw [hstep]
    exact h
  · rw [hstep]
    exact h.step he

/-- **Money at rest.**  From any proposer and engine, in every interleaving of calls that
bring transfers, whenever all calls have returned the user keys add up to what they did at
the start. -/
theorem transfers_conserve (s : ShardedDirectProposer ShardedEngine) (events : List InlineEvent)
    (h : ∀ ev ∈ events, ev.Transfer) :
    ∀ w ∈ Runs.states step (new s) events, w.AtRest →
      w.overlap.engine.total = s.engine.total := by
  intro w hw hrest
  have hmoves : ∀ m ∈ Runs.moves step (new s) events, m.2.Transfer := fun m hm =>
    h m.2 (Runs.mem_of_mem_moves hm)
  have hstep : ∀ (w : InlineWorld) (ev : InlineEvent),
      (Held w ∧ w.overlap.Balanced s.engine.total) → ev.Transfer →
        Held (w.step ev) ∧ (w.step ev).overlap.Balanced s.engine.total :=
    fun _ ev hw hev => ⟨hw.1.step ev, balanced_step hw.2 hev⟩
  obtain ⟨hheld, hbal⟩ := Runs.invariant hstep
    ⟨held_new s, ShardedOverlap.balanced_new s.engine⟩ hmoves w hw
  exact hbal.atRest (hheld.atRest hrest)

open DirectProposer (move)

/-- Moves 2 from the key `b` to the key `a`. -/
def moveBack : Proposal :=
  ⟨[], [⟨.debit, [0x62], encodeInt64 (-2)⟩, ⟨.credit, [0x61], encodeInt64 2⟩], 0, 0⟩

/-- A sharded proposer on an engine in which `a` holds 7. -/
def seven : ShardedDirectProposer ShardedEngine :=
  ⟨ShardedEngine.new.applyBatch [.set [0x61] (encodeInt64 7)], .syncBatch, fun _ => ⟨∅, 0, 0⟩⟩

/-- The two moves store their shards in turns; another move comes too late. -/
def there : List InlineEvent :=
  [.call move, .call moveBack] ++ (List.replicate 5 [.store 0, .store 1]).flatten ++
    [.ret (route move), .ret (route moveBack), .call move]

theorem there_and_back :
    (there.foldl step (new seven)).overlap.engine.total = seven.engine.total := by
  have hmove : move.Transfer := ⟨by decide, by decide, by decide +kernel⟩
  have hback : moveBack.Transfer := ⟨by decide, by decide, by decide +kernel⟩
  refine transfers_conserve seven there ?_ _ (Runs.foldl_mem_states _ _) ?_
  · intro ev hev
    simp only [there, List.mem_append, List.mem_cons, List.mem_flatten, List.mem_replicate,
      List.not_mem_nil, or_false] at hev
    rcases hev with ((rfl | rfl) | ⟨l, ⟨-, rfl⟩, hev⟩) | rfl | rfl | rfl
    · exact hmove
    · exact hback
    · simp only [List.mem_cons, List.not_mem_nil, or_false] at hev
      rcases hev with rfl | rfl
      · trivial
      · trivial
    · trivial
    · trivial
    · exact hmove
  · show ∀ i : ShardId, (there.foldl step (new seven)).holder i = none
    decide +kernel

end InlineWorld

end Dpx
