/-
# `Dpx.Engine.MvccOrder` — the order of versions when batches overlap

`ApplyBatch` takes its commit sequence before it takes the lock of a shard.  Two calls that
write a key in common may therefore append to it in the other order: the later sequence
first.  From then on the versions of the key are not sorted, and each kind of read goes wrong
in its own way: the bisection of a snapshot misses versions, the scan's search from the end
stops at one that is too old, and `Get` of the engine answers the last one appended.

`batches_ordered_iff` is about every interleaving, of calls that may share any keys: reads can
rely on the order at every point if and only if every section is written after everything
with a lower sequence and before everything with a higher one.
-/
import Dpx.Engine.MvccCalls
import Dpx.Engine.MvccRefines

namespace Dpx

open VersionList (Sorted)

/-- Appending a section keeps versions sorted exactly if nothing above it is there. -/
theorem sorted_grow_iff {c : Nat} {entries : List MvccEntry} (h : Sorted MvccEntry.seq entries)
    (ops : List BatchOp) :
    Sorted MvccEntry.seq (grow c entries ops) ↔ (ops ≠ [] → ∀ v ∈ entries, v.seq ≤ c) := by
  constructor
  · intro hsorted hops v hv
    obtain ⟨new, hnew, hlen, hseq⟩ := exists_grow c ops entries
    have hpos : 0 < new.length := by
      rw [hlen]
      exact List.length_pos_iff.mpr hops
    obtain ⟨u, hu⟩ := List.exists_mem_of_length_pos hpos
    rw [hnew] at hsorted
    rw [← hseq u hu]
    exact (List.pairwise_append.mp hsorted).2.2 v hv u hu
  · intro hle
    by_cases hops : ops = []
    · rw [hops]
      exact h
    · exact sorted_grow h (hle hops) ops

/-! ## What reads rely on -/

namespace MVCCEngine

/-- Versions are sorted, both searches find one index, and `Get` answers with a version that
has the highest commit sequence of its key. -/
structure InOrder (e : MVCCEngine) : Prop where
  sorted : ∀ i k, Sorted MvccEntry.seq (e.versions i k)
  searches : ∀ i k targetSeq, findVersion (e.versions i k) targetSeq =
    findVersionLinear (e.versions i k) targetSeq
  newest : ∀ k, e.versions (shardFor k) k ≠ [] → ∃ u ∈ e.versions (shardFor k) k,
    e.get k = u.live ∧ ∀ v ∈ e.versions (shardFor k) k, v.seq ≤ u.seq

theorem inOrder_iff {e : MVCCEngine} :
    e.InOrder ↔ ∀ i k, Sorted MvccEntry.seq (e.versions i k) := by
  refine ⟨InOrder.sorted, fun h => ⟨h, fun i k => (h i k).bisect_eq_find?, fun k hne => ?_⟩⟩
  obtain ⟨front, u, hu⟩ := (List.eq_nil_or_concat _).resolve_left hne
  have hsorted := h (shardFor k) k
  rw [get_eq_latest]
  rw [List.concat_eq_append] at hu
  rw [hu] at hsorted ⊢
  refine ⟨u, List.mem_append_right _ (List.mem_singleton_self u), latest_concat front u, ?_⟩
  exact List.forall_mem_append.mpr
    ⟨fun v hv => (List.pairwise_append.mp hsorted).2.2 v hv u (List.mem_singleton_self u),
      List.forall_mem_singleton.mpr (Nat.le_refl _)⟩

end MVCCEngine

/-! ## Interleavings -/

namespace Overlap

/-- A section is written only while no key of it has a version of a higher sequence. -/
def Timely (w : Overlap) : OverlapEvent → Prop
  | .write n i => ∀ c, w.calls[n]? = some c → i ∈ c.todo → ∀ op ∈ c.routing.part c.ops i,
      ∀ v ∈ w.engine.versions i op.key, v.seq ≤ c.commitSeq
  | .reserve _ _ | .publish _ | .getSnapshot => True

theorem sorted_write_iff {w : Overlap} (h : ∀ i k, Sorted MvccEntry.seq (w.engine.versions i k))
    (n : Nat) (i : ShardId) :
    (∀ j k, Sorted MvccEntry.seq ((w.step (.write n i)).engine.versions j k)) ↔
      Timely w (.write n i) := by
  rw [step, Timely]
  cases hc : w.calls[n]? with
  | none => exact iff_of_true h (by simp)
  | some c =>
      simp only
      split
      · rename_i hi
        constructor
        · intro hsorted d hd _ op hop
          obtain rfl := Option.some.inj hd
          have hop' : op ∈ opsOn op.key (c.routing.part c.ops i) :=
            List.mem_filter.mpr ⟨hop, decide_eq_true rfl⟩
          have hgrown := hsorted i op.key
          rw [afterWrite, MVCCEngine.versions_writeSection, if_pos rfl] at hgrown
          exact (sorted_grow_iff (h i op.key) _).mp hgrown (List.ne_nil_of_mem hop')
        · intro htimely j k
          rw [afterWrite, MVCCEngine.versions_writeSection]
          split
          · rename_i hj
            subst hj
            refine (sorted_grow_iff (h j k) _).mpr fun hne => ?_
            obtain ⟨op, hop⟩ := List.exists_mem_of_ne_nil _ hne
            obtain ⟨hpart, hkey⟩ := List.mem_filter.mp hop
            rw [← of_decide_eq_true hkey]
            exact htimely c rfl hi op hpart
          · exact h j k
      · rename_i hi
        refine iff_of_true h fun d hd hin => ?_
        obtain rfl := Option.some.inj hd
        exact absurd hin hi

/-- Only the write of a section can disturb the order, whatever the number a call reserves. -/
theorem inOrder_step_iff {w : Overlap} (h : w.engine.InOrder) (ev : OverlapEvent) :
    (w.stepWrapping ev).engine.InOrder ↔ Timely w ev := by
  rw [MVCCEngine.inOrder_iff]
  cases ev with
  | write n i => exact sorted_write_iff h.sorted n i
  | reserve routing ops =>
      rw [stepWrapping]
      split <;> exact iff_of_true h.sorted trivial
  | publish n =>
      refine iff_of_true (fun i k => ?_) trivial
      rw [stepWrapping, step]
      cases w.calls[n]? with
      | none => exact h.sorted i k
      | some c =>
          simp only
          split
          · rw [afterPublish, MVCCEngine.versions_publish]
            exact h.sorted i k
          · exact h.sorted i k
  | getSnapshot => exact iff_of_true h.sorted trivial

/-- **Overlapping batches.**  At every point of an interleaving of calls, whatever keys they
share, the versions of every key are sorted, `findVersion` and `findVersionLinear` return one
index for every target and `Get` answers with the highest commit sequence, if and only if
every section is written while no key of it has a version of a higher sequence.  The counter
may wrap. -/
theorem batches_ordered_iff (sharded : Bool) (events : List OverlapEvent) :
    (∀ w ∈ Runs.states stepWrapping (new sharded) events, w.engine.InOrder) ↔
      ∀ m ∈ Runs.moves stepWrapping (new sharded) events, Timely m.1 m.2 := by
  have hstart : (new sharded).engine.InOrder :=
    MVCCEngine.inOrder_iff.mpr (MVCCEngine.tidy_new sharded).sorted
  have hstep : ∀ (w : Overlap) (ev : OverlapEvent), True → w.engine.InOrder →
      ((w.stepWrapping ev).engine.InOrder ↔ Timely w ev) := fun _ ev _ h => inOrder_step_iff h ev
  exact Runs.holds_iff (fun _ _ _ => trivial) hstep trivial hstart

/-! ## The later sequence first -/

/-- Two calls set `a`; the one that reserved second writes first. -/
def outOfOrder : List OverlapEvent :=
  [.reserve .byKey [.set [0x61] [1]], .reserve .byKey [.set [0x61] [2]],
    .write 1 (shardFor [0x61]), .publish 1, .write 0 (shardFor [0x61]), .publish 0]

/-- Sequence 2 is followed by 1.  For the target 1 the bisection finds nothing and the search
from the end the second version; `Get` answers with sequence 1. -/
theorem versions_out_of_order :
    let e := (outOfOrder.foldl stepWrapping (new true)).engine
    e.versions (shardFor [0x61]) [0x61] = [⟨2, [2], false⟩, ⟨1, [1], false⟩] ∧
      findVersion (e.versions (shardFor [0x61]) [0x61]) 1 = none ∧
      findVersionLinear (e.versions (shardFor [0x61]) [0x61]) 1 = some 1 ∧
      e.get [0x61] = some [1] ∧ ¬ e.InOrder := by
  intro e
  have hversions : e.versions (shardFor [0x61]) [0x61] = [⟨2, [2], false⟩, ⟨1, [1], false⟩] := by
    decide +kernel
  refine ⟨hversions, ?_, ?_, by decide +kernel, fun h => ?_⟩
  · rw [hversions]
    decide
  · rw [hversions]
    decide
  · have hsorted := h.sorted (shardFor [0x61]) [0x61]
    rw [hversions] at hsorted
    exact absurd hsorted (by simp [Sorted])

end Overlap

end Dpx
