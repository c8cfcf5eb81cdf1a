/-
# `Dpx.Engine.MvccCompact` — compaction under open snapshots

`Compact` counts the leading versions of a key numbered below `oldestSnapshot`, keeps at
least two, and drops the rest.  But the newest version at or below a snapshot may itself
be numbered below `oldestSnapshot`: a key that was last written before the snapshot's
own sequence.  Two later writes of the key are then enough for `Compact` to take that
version away from under the snapshot.

Nor does the boundary follow the snapshots: `oldestSnapshot` is the first number above zero
that a snapshot ever had, and `Close` only counts down.  What lies between it and the lowest
snapshot that is still open stays, for nobody (`compaction_reclaims_iff`).

A session is an engine with its open snapshots, each beside what its `Get` answered when
it was taken.  `compact_get_iff` says exactly which reads a compaction leaves alone, and
`compaction_safe_iff` that a session keeps every open snapshot's answers, at every point,
if and only if each of its compactions spares the open snapshots.

A snapshot is closed at most once: a second `Close` would count down for a snapshot that
is still open.  The sequence counter has 64 bits (`stepWrapping`); the results are about
sessions of fewer than `2^64` mutations, which do not wrap it (`states_stepWrapping`).
-/
import Dpx.Lib.Runs
import Dpx.Engine.Mvcc

namespace Dpx

open VersionList (Sorted newest upTo above)

/-! ## What a compaction spares -/

/-- The read of `k` survives: what it shows is a tombstone, or has reached
`oldestSnapshot`, or has at most one version above the snapshot behind it. -/
def MvccSnapshot.Spared (s : MvccSnapshot) (e : MVCCEngine) (k : Key) : Prop :=
  ∀ v, s.shown e k = some v → v.deleted = false →
    e.oldestSnapshot ≤ v.seq ∨
      (above MvccEntry.seq s.seq (e.versions (shardFor k) k)).length ≤ 1

/-- The number of versions dropped stays short of the reader's exactly if the reader's
has reached the boundary or at most one version lies above the reader. -/
theorem removeCount_lt_iff {entries : List MvccEntry} (h : Sorted MvccEntry.seq entries)
    {b s : Nat} (hpos : 0 < b) (hb : b ≤ s) (hlen : ¬ entries.length ≤ 2) {v : MvccEntry}
    (hv : newest MvccEntry.seq s entries = some v) :
    ¬ (upTo MvccEntry.seq s entries).length ≤ MVCCEngine.removeCount b entries ↔
      b ≤ v.seq ∨ (above MvccEntry.seq s entries).length ≤ 1 := by
  have hsum := VersionList.length_upTo_add_above MvccEntry.seq entries s
  obtain ⟨hreach, hbelow⟩ := h.length_takeWhile hb hv
  rw [MVCCEngine.removeCount, if_pos hpos]
  simp only
  by_cases hle : b ≤ v.seq
  · have := hreach hle
    split <;> omega
  · have := hbelow (by omega)
    split <;> omega

theorem MvccSnapshot.shown_compact {s : MvccSnapshot} {e : MVCCEngine} (h : e.Tidy)
    (hcount : 0 < e.snapshotCount) (hold : 0 < e.oldestSnapshot)
    (hle : e.oldestSnapshot ≤ s.seq) {k : Key} {v : MvccEntry} (hv : s.shown e k = some v) :
    (s.shown e.compact.2 k = some v ∧ (e.oldestSnapshot ≤ v.seq ∨
      (above MvccEntry.seq s.seq (e.versions (shardFor k) k)).length ≤ 1)) ∨
    (s.shown e.compact.2 k = none ∧ ¬ (e.oldestSnapshot ≤ v.seq ∨
      (above MvccEntry.seq s.seq (e.versions (shardFor k) k)).length ≤ 1)) := by
  have hsorted := h.sorted (shardFor k) k
  have hsafe : e.safeSeq = e.oldestSnapshot := if_pos hcount
  rw [shown, MVCCEngine.versions_compact, hsafe, MVCCEngine.compactEntries,
    if_neg fun hz => by omega]
  rw [shown] at hv
  split
  · rename_i hlen
    -- at most two versions: nothing goes, and the reader's is one of them
    have hsum := VersionList.length_upTo_add_above MvccEntry.seq
      (e.versions (shardFor k) k) s.seq
    obtain ⟨front, hfront, -⟩ := hsorted.exists_upTo hv
    rw [hfront, List.length_append, List.length_singleton] at hsum
    exact Or.inl ⟨hv, Or.inr (by omega)⟩
  · rename_i hlen
    have hiff := removeCount_lt_iff hsorted hold hle hlen hv
    show (newest _ _ (List.drop _ _) = _ ∧ _) ∨ (newest _ _ (List.drop _ _) = _ ∧ _)
    rw [hsorted.newest_drop]
    split
    · rename_i hgone
      exact Or.inr ⟨rfl, fun hor => hiff.mpr hor hgone⟩
    · rename_i hkept
      exact Or.inl ⟨hv, hiff.mp hkept⟩

/-- What is known of an open snapshot: its number is published, and unless that is zero
it is at or above the boundary. -/
structure MvccSnapshot.Tracked (s : MvccSnapshot) (e : MVCCEngine) : Prop where
  published : s.seq ≤ e.lastCommitted
  oldest : 0 < s.seq → 0 < e.oldestSnapshot ∧ e.oldestSnapshot ≤ s.seq

/-- **One compaction, one read**: the answer stays exactly if the read is spared. -/
theorem MvccSnapshot.compact_get_iff {s : MvccSnapshot} {e : MVCCEngine} (h : e.Tidy)
    (hcount : 0 < e.snapshotCount) (hs : s.Tracked e) (k : Key) :
    s.get e.compact.2 k = s.get e k ↔ s.Spared e k := by
  rw [get_eq_shown (h.sorted _ k), get_eq_shown (h.compact.sorted _ k)]
  cases hv : s.shown e k with
  | none =>
      have hnone : s.shown e.compact.2 k = none := by
        obtain ⟨n, hn⟩ := MVCCEngine.exists_drop_compactEntries e.safeSeq
          (e.versions (shardFor k) k)
        rw [shown, MVCCEngine.versions_compact, hn, (h.sorted _ k).newest_drop]
        split
        · rfl
        · exact hv
      rw [hnone]
      refine ⟨fun _ v hv' _ => ?_, fun _ => rfl⟩
      rw [hv] at hv'
      cases hv'
  | some v =>
      -- a version is numbered from one, so the snapshot that shows it is too
      have hmem := VersionList.newest_mem hv
      have hseq := (h.bound _ k v hmem.1).1
      obtain ⟨hold, hle⟩ := hs.oldest (by omega)
      rcases shown_compact h hcount hold hle hv with ⟨hsame, hor⟩ | ⟨hgone, hnor⟩
      · rw [hsame]
        refine ⟨fun _ w hw _ => ?_, fun _ => rfl⟩
        rw [hv] at hw
        cases hw
        exact hor
      · rw [hgone]
        constructor
        · intro heq w hw hlive
          rw [hv] at hw
          cases hw
          have hsome : v.live = some v.value := by rw [MvccEntry.live, hlive]; rfl
          exact absurd (heq.trans hsome) (by simp)
        · intro hspared
          show none = v.live
          cases hd : v.deleted with
          | true => rw [MvccEntry.live, hd]; rfl
          | false => exact absurd (hspared v hv hd) hnor

/-! ## Sessions -/

/-- An open snapshot, with what its `Get` answered when it was taken. -/
structure OpenSnapshot where
  snap : MvccSnapshot
  view : Key → Option Bytes

theorem OpenSnapshot.not_repeatable {snapshots : List OpenSnapshot} {e : MVCCEngine} {k : Key}
    {now before : Option Bytes}
    (h : snapshots.map (fun o => (o.snap.get e k, o.view k)) = [(now, before)])
    (hne : now ≠ before) : ¬ ∀ o ∈ snapshots, ∀ k, o.snap.get e k = o.view k := by
  intro hall
  cases snapshots with
  | nil => cases h
  | cons o rest =>
      obtain ⟨hpair, -⟩ := List.cons.inj h
      obtain ⟨hnow, hbefore⟩ := Prod.mk.inj hpair
      have heq := hall o List.mem_cons_self k
      rw [hnow, hbefore] at heq
      exact hne heq

structure Session where
  engine : MVCCEngine
  snapshots : List OpenSnapshot

inductive SessionCall where
  | applyBatch (ops : List BatchOp)
  | getSnapshot
  | close (n : Nat)
  | compact

namespace Session

def new (sharded : Bool) : Session := ⟨.newMVCCEngine sharded, []⟩

/-- One call; `close n` closes the `n`-th open snapshot, if there is one. -/
def step (w : Session) : SessionCall → Session
  | .applyBatch ops => { w with engine := w.engine.applyBatch ops }
  | .getSnapshot =>
      let (snap, engine) := w.engine.getSnapshot
      ⟨engine, ⟨snap, snap.get engine⟩ :: w.snapshots⟩
  | .close n =>
      if n < w.snapshots.length then ⟨w.engine.closeSnapshot, w.snapshots.eraseIdx n⟩ else w
  | .compact => { w with engine := w.engine.compact.2 }

/-- One call, with the counter of the source. -/
def stepWrapping (w : Session) : SessionCall → Session
  | .applyBatch ops => { w with engine := w.engine.applyBatchWrapping ops }
  | .getSnapshot => w.step .getSnapshot
  | .close n => w.step (.close n)
  | .compact => w.step .compact

end Session

/-- How many mutations a call makes. -/
def SessionCall.mutations : SessionCall → Nat
  | .applyBatch ops => ops.length
  | .getSnapshot | .close _ | .compact => 0

namespace Session

theorem seqCounter_step (w : Session) (call : SessionCall) :
    (w.step call).engine.seqCounter = w.engine.seqCounter + call.mutations := by
  cases call with
  | applyBatch ops => exact w.engine.applyBatch_seqCounter ops
  | getSnapshot | compact => rfl
  | close n =>
      rw [step]
      split <;> rfl

theorem stepWrapping_eq (w : Session) (call : SessionCall)
    (h : w.engine.seqCounter + call.mutations < 2 ^ 64) : w.stepWrapping call = w.step call := by
  cases call with
  | applyBatch ops => rw [stepWrapping, MVCCEngine.applyBatchWrapping_eq h, step]
  | getSnapshot | close n | compact => rfl

theorem states_stepWrapping (sharded : Bool) {calls : List SessionCall}
    (hfew : (calls.map SessionCall.mutations).sum < 2 ^ 64) :
    Runs.states stepWrapping (new sharded) calls = Runs.states step (new sharded) calls :=
  Runs.states_eq_of_bound stepWrapping_eq (fun w call => (w.seqCounter_step call).le) calls _
    (by rwa [show (new sharded).engine.seqCounter = 0 from rfl, Nat.zero_add])

theorem moves_stepWrapping (sharded : Bool) {calls : List SessionCall}
    (hfew : (calls.map SessionCall.mutations).sum < 2 ^ 64) :
    Runs.moves stepWrapping (new sharded) calls = Runs.moves step (new sharded) calls :=
  Runs.moves_eq_of_states_eq (states_stepWrapping sharded hfew)

/-- Every open snapshot answers as it did when it was taken. -/
def Stable (w : Session) : Prop := ∀ o ∈ w.snapshots, ∀ k, o.snap.get w.engine k = o.view k

/-- A compaction now would spare every read of every open snapshot. -/
def Spares (w : Session) : Prop := ∀ o ∈ w.snapshots, ∀ k, o.snap.Spared w.engine k

/-- What holds in every session, spared or not. -/
structure Kept (w : Session) : Prop where
  tidy : w.engine.Tidy
  count : w.engine.snapshotCount = w.snapshots.length
  tracked : ∀ o ∈ w.snapshots, o.snap.Tracked w.engine

theorem kept_new (sharded : Bool) : Kept (new sharded) :=
  ⟨MVCCEngine.tidy_new sharded, rfl, fun _ ho => absurd ho List.not_mem_nil⟩

theorem Kept.step {w : Session} (h : Kept w) (call : SessionCall) : Kept (w.step call) := by
  cases call with
  | applyBatch ops =>
      obtain ⟨hcount, hold⟩ := w.engine.applyBatch_snapshots ops
      refine ⟨h.tidy.applyBatch ops, hcount.trans h.count, fun o ho => ⟨?_, ?_⟩⟩
      · have hpub := (h.tracked o ho).published
        rw [h.tidy.settled] at hpub
        show _ ≤ (w.engine.applyBatch ops).lastCommitted
        rw [(h.tidy.applyBatch ops).settled, w.engine.applyBatch_seqCounter]
        exact hpub.trans (Nat.le_add_right _ _)
      · show _ → 0 < (w.engine.applyBatch ops).oldestSnapshot ∧
          (w.engine.applyBatch ops).oldestSnapshot ≤ _
        rw [hold]
        exact (h.tracked o ho).oldest
  | getSnapshot =>
      refine ⟨h.tidy.getSnapshot, ?_, fun o ho => ?_⟩
      · show w.engine.snapshotCount + 1 = ((w.snapshots.length + 1 : Nat) : Int)
        rw [h.count]
        rfl
      · rcases List.mem_cons.mp ho with rfl | ho
        · refine ⟨le_refl _, fun hpos => ?_⟩
          change 0 < w.engine.lastCommitted at hpos
          show 0 < ite _ _ _ ∧ ite _ _ _ ≤ w.engine.lastCommitted
          split <;> omega
        · obtain ⟨hpub, hold⟩ := h.tracked o ho
          refine ⟨hpub, fun hpos => ?_⟩
          have := hold hpos
          show 0 < ite _ _ _ ∧ ite _ _ _ ≤ o.snap.seq
          split <;> omega
  | close n =>
      rw [Session.step]
      split
      · rename_i hn
        refine ⟨h.tidy.closeSnapshot, ?_, fun o ho => ?_⟩
        · show w.engine.snapshotCount - 1 = ((w.snapshots.eraseIdx n).length : Int)
          rw [List.length_eraseIdx, if_pos hn, h.count]
          omega
        · obtain ⟨hpub, hold⟩ := h.tracked o (List.mem_of_mem_eraseIdx ho)
          exact ⟨hpub, hold⟩
      · exact h
  | compact => exact ⟨h.tidy.compact, h.count, fun o ho =>
      ⟨(h.tracked o ho).published, (h.tracked o ho).oldest⟩⟩

theorem get_applyBatch {e : MVCCEngine} (h : e.Tidy) {s : MvccSnapshot}
    (hs : s.seq ≤ e.lastCommitted) (ops : List BatchOp) (k : Key) :
    s.get (e.applyBatch ops) k = s.get e k := by
  by_cases hops : ops = []
  · rw [MVCCEngine.applyBatch, if_pos hops]
  · have hlen : 0 < ops.length := List.length_pos_iff.mpr hops
    have hc : e.nextSeq ops.length = e.lastCommitted + ops.length := by rw [h.settled]; rfl
    rw [MvccSnapshot.get_eq_shown ((h.applyBatch ops).sorted _ k),
      MvccSnapshot.get_eq_shown (h.sorted _ k), MvccSnapshot.shown,
      MVCCEngine.versions_applyBatch e hops, newest_grow (by omega)]
    rfl

/-- A call keeps the answers of the open snapshots unless it is a compaction that does
not spare them. -/
theorem stable_step_iff {w : Session} (h : Kept w) (hst : Stable w) (call : SessionCall) :
    Stable (w.step call) ↔ (call = .compact → Spares w) := by
  cases call with
  | applyBatch ops =>
      refine ⟨(fun _ hc => nomatch hc), fun _ o ho k => ?_⟩
      rw [← hst o ho k]
      exact get_applyBatch h.tidy (h.tracked o ho).published ops k
  | getSnapshot =>
      refine ⟨(fun _ hc => nomatch hc), fun _ o ho k => ?_⟩
      rcases List.mem_cons.mp ho with rfl | ho
      · rfl
      · exact hst o ho k
  | close n =>
      refine ⟨(fun _ hc => nomatch hc), fun _ => ?_⟩
      rw [step]
      split
      · exact fun o ho k => hst o (List.mem_of_mem_eraseIdx ho) k
      · exact hst
  | compact =>
      have hcount : ∀ o ∈ w.snapshots, 0 < w.engine.snapshotCount := by
        intro o ho
        have := List.length_pos_of_mem ho
        rw [h.count]
        omega
      constructor
      · intro hafter _ o ho k
        refine (MvccSnapshot.compact_get_iff h.tidy (hcount o ho) (h.tracked o ho) k).mp ?_
        exact (hafter o ho k).trans (hst o ho k).symm
      · intro hspares o ho k
        have hkeep := (MvccSnapshot.compact_get_iff h.tidy (hcount o ho) (h.tracked o ho) k).mpr
          (hspares rfl o ho k)
        exact hkeep.trans (hst o ho k)

/-- **Compaction under open snapshots.**  In a session of fewer than `2^64` mutations on a new
engine every open snapshot answers at every point as it did when it was taken, if and only
if every compaction of the session spares the snapshots open at it. -/
theorem compaction_safe_iff (sharded : Bool) {calls : List SessionCall}
    (hfew : (calls.map SessionCall.mutations).sum < 2 ^ 64) :
    (∀ w ∈ Runs.states stepWrapping (new sharded) calls, Stable w) ↔
      ∀ m ∈ Runs.moves stepWrapping (new sharded) calls, m.2 = .compact → Spares m.1 := by
  rw [states_stepWrapping sharded hfew, moves_stepWrapping sharded hfew]
  have hkept : ∀ w call, Kept w → Kept (w.step call) := fun _ call h => h.step call
  have hstep : ∀ w call, Kept w → Stable w →
      (Stable (w.step call) ↔ (call = .compact → Spares w)) :=
    fun _ call h hst => stable_step_iff h hst call
  have hstart : Stable (new sharded) := fun o ho => absurd ho List.not_mem_nil
  exact Runs.holds_iff hkept hstep (kept_new sharded) hstart

/-- A snapshot of the new engine stays open over three writes of `a`. -/
def earlySnapshot : List SessionCall :=
  [.getSnapshot, .applyBatch [.set [0x61] [1]], .applyBatch [.set [0x61] [2]],
    .applyBatch [.set [0x61] [3]], .compact]

/-- Its number is zero, and so is the boundary: nothing is numbered below it. -/
theorem earlySnapshot_stable : Stable (earlySnapshot.foldl stepWrapping (new false)) := by
  have hzero : ∀ m ∈ Runs.moves stepWrapping (new false) earlySnapshot,
      m.1.engine.oldestSnapshot = 0 := by
    decide +kernel
  refine (compaction_safe_iff false (by decide)).mpr (fun m hm _ o _ k v _ _ => Or.inl ?_) _
    (Runs.foldl_mem_states _ _)
  rw [hzero m hm]
  exact Nat.zero_le _

/-! ## A version taken away -/

/-- `a` is written, then `b`; after the snapshot `a` is written twice more. -/
def overwritten : List SessionCall :=
  [.applyBatch [.set [0x61] [1]], .applyBatch [.set [0x62] [1]], .getSnapshot,
    .applyBatch [.set [0x61] [2]], .applyBatch [.set [0x61] [3]], .compact]

/-- The snapshot read `[1]` for `a` when it was taken; after the compaction it finds
nothing. -/
theorem compaction_takes_version :
    ¬ ∀ w ∈ Runs.states stepWrapping (new false) overwritten, Stable w := by
  intro h
  have hread : (overwritten.foldl stepWrapping (new false)).snapshots.map (fun o =>
      (o.snap.get (overwritten.foldl stepWrapping (new false)).engine [0x61], o.view [0x61])) =
        [(none, some [1])] := by
    decide +kernel
  have hend : Stable (overwritten.foldl stepWrapping (new false)) :=
    h _ (Runs.foldl_mem_states overwritten (new false))
  exact OpenSnapshot.not_repeatable hread nofun hend

/-! ## What a compaction reclaims -/

end Session

/-- Nothing is kept but the two newest versions, those from `low` on, and the newest at or
below `low`. -/
def Reclaimed (low : Nat) (entries : List MvccEntry) : Prop :=
  ∀ front v rest, entries = front ++ v :: rest →
    rest.length ≤ 1 ∨ low ≤ v.seq ∨ (v.seq ≤ low ∧ ∀ u ∈ rest, low < u.seq)

/-- A version from `old` on but below `low`, with two or more behind it, is the newest at or
below `low`. -/
def Reclaimable (old low : Nat) (entries : List MvccEntry) : Prop :=
  ∀ front v u rest, entries = front ++ v :: u :: rest → rest ≠ [] → old ≤ v.seq → v.seq < low →
    low < u.seq

theorem reclaimable_self (low : Nat) (entries : List MvccEntry) : Reclaimable low low entries :=
  fun _ _ _ _ _ _ hle hlt => absurd hlt (Nat.not_lt.mpr hle)

theorem reclaimed_of_length {low : Nat} {entries : List MvccEntry} (h : entries.length ≤ 2) :
    Reclaimed low entries := by
  rintro front v rest rfl
  rw [List.length_append, List.length_cons] at h
  exact Or.inl (by omega)

/-- With a boundary, versions from the boundary on stay. -/
theorem reclaimed_compactEntries_iff {entries : List MvccEntry} (h : Sorted MvccEntry.seq entries)
    {old : Nat} (hpos : 0 < old) (low : Nat) :
    Reclaimed low ((MVCCEngine.compactEntries old entries).getD []) ↔
      Reclaimable old low entries := by
  rw [MVCCEngine.compactEntries, if_neg fun hz => by omega]
  split
  · rename_i hlen
    refine iff_of_true (reclaimed_of_length hlen) ?_
    rintro front v u rest rfl hrest
    have := List.length_pos_iff.mpr hrest
    simp only [List.length_append, List.length_cons] at hlen
    omega
  · rename_i hlen
    rw [Option.getD_some, MVCCEngine.removeCount, if_pos hpos]
    simp only
    constructor
    · rintro hrec front v u rest rfl hrest hold hlow
      have hlast := List.length_pos_iff.mpr hrest
      -- the count stops at `v` or before it
      have hcount : ((front ++ v :: u :: rest).takeWhile fun w => w.seq < old).length ≤
          front.length := by
        rw [List.takeWhile_append, List.takeWhile_cons, decide_eq_false (by omega)]
        split
        · simp
        · exact (List.takeWhile_prefix _).length_le
      rw [if_neg (by simp only [List.length_append, List.length_cons]; omega),
        List.drop_append_of_le_length hcount] at hrec
      rcases hrec _ v (u :: rest) rfl with hshort | hreach | ⟨-, hnewest⟩
      · rw [List.length_cons] at hshort
        omega
      · omega
      · exact hnewest u List.mem_cons_self
    · intro hcond
      split
      · exact reclaimed_of_length (by rw [List.length_drop]; omega)
      · intro front v rest hkept
        have hv : v ∈ entries.drop (entries.takeWhile fun w => w.seq < old).length := by
          rw [hkept]
          exact List.mem_append_right _ List.mem_cons_self
        have hreach := h.le_of_mem_drop hv
        have hsplit := List.take_append_drop (entries.takeWhile fun w => w.seq < old).length entries
        rw [hkept, ← List.append_assoc] at hsplit
        rcases rest with _ | ⟨u, rest⟩
        · exact Or.inl (Nat.zero_le _)
        · by_cases hrest : rest = []
          · exact Or.inl (by rw [hrest]; exact Nat.le_refl _)
          · by_cases hlow : low ≤ v.seq
            · exact Or.inr (Or.inl hlow)
            · have hu := hcond _ v u rest hsplit.symm hrest hreach (by omega)
              refine Or.inr (Or.inr ⟨by omega, List.forall_mem_cons.mpr ⟨hu, fun x hx => ?_⟩⟩)
              rw [← hsplit] at h
              have htail := (List.pairwise_append.mp h).2.1
              have := (List.pairwise_cons.mp (List.pairwise_cons.mp htail).2).1 x hx
              omega

namespace Session

/-- The lowest open snapshot. -/
def lowest (w : Session) : Nat := (w.snapshots.map fun o => o.snap.seq).min?.getD 0

/-- **What a compaction reclaims.**  At every point of a session of fewer than `2^64` mutations
at which a snapshot is open: `Compact` leaves of each key no more than its two newest
versions, those from the lowest open snapshot on and the newest at or below it, if and only
if no other version has reached `oldestSnapshot`. -/
theorem compaction_reclaims_iff (sharded : Bool) {calls : List SessionCall} {w : Session}
    (hfew : (calls.map SessionCall.mutations).sum < 2 ^ 64)
    (hw : w ∈ Runs.states stepWrapping (new sharded) calls) (hopen : w.snapshots ≠ []) :
    (∀ i k, Reclaimed w.lowest ((w.stepWrapping .compact).engine.versions i k)) ↔
      ∀ i k, Reclaimable w.engine.oldestSnapshot w.lowest (w.engine.versions i k) := by
  rw [states_stepWrapping sharded hfew] at hw
  have hkept : Kept w := Runs.always (fun _ call h => h.step call) (kept_new sharded) w hw
  have hlen := List.length_pos_iff.mpr hopen
  have hcount : 0 < w.engine.snapshotCount := by
    rw [hkept.count]
    omega
  have hsafe : w.engine.safeSeq = w.engine.oldestSnapshot := if_pos hcount
  refine forall₂_congr fun i k => ?_
  show Reclaimed w.lowest (w.engine.compact.2.versions i k) ↔ _
  rw [MVCCEngine.versions_compact, hsafe]
  by_cases hold : 0 < w.engine.oldestSnapshot
  · exact reclaimed_compactEntries_iff (hkept.tidy.sorted i k) hold w.lowest
  · -- no snapshot was ever numbered above zero
    have hzero : w.engine.oldestSnapshot = 0 := by omega
    have hlow : w.lowest = 0 := by
      rw [lowest]
      cases hmin : (w.snapshots.map fun o => o.snap.seq).min? with
      | none => rfl
      | some m =>
          obtain ⟨o, ho, rfl⟩ := List.mem_map.mp (List.min?_mem hmin)
          have hseq : ¬ 0 < o.snap.seq := fun hpos => hold ((hkept.tracked o ho).oldest hpos).1
          rw [Option.getD_some]
          omega
    rw [hzero, hlow]
    refine iff_of_true (fun front v rest _ => Or.inr (Or.inl (Nat.zero_le _))) ?_
    exact reclaimable_self 0 _

/-- A snapshot that stays open; `a` is written before it and three times after it. -/
def heldOpen : List SessionCall :=
  [.applyBatch [.set [0x61] [1]], .getSnapshot, .applyBatch [.set [0x61] [2]],
    .applyBatch [.set [0x61] [3]], .applyBatch [.set [0x61] [4]]]

/-- The only snapshot there ever was is the boundary. -/
theorem heldOpen_reclaimed :
    Reclaimed 1 (((heldOpen.foldl stepWrapping (new false)).stepWrapping .compact).engine.versions
      (shardFor [0x61]) [0x61]) := by
  have hiff := compaction_reclaims_iff false (by decide)
    (Runs.foldl_mem_states heldOpen (new false))
    (by decide +kernel)
  have hlow : (heldOpen.foldl stepWrapping (new false)).lowest = 1 := by decide +kernel
  have hold : (heldOpen.foldl stepWrapping (new false)).engine.oldestSnapshot = 1 := by
    decide +kernel
  rw [hlow, hold] at hiff
  exact hiff.mpr (fun _ _ => reclaimable_self 1 _) _ _

/-- A snapshot is opened and closed; `a` is written four times more; then another is opened. -/
def reopened : List SessionCall :=
  [.applyBatch [.set [0x61] [1]], .getSnapshot, .close 0, .applyBatch [.set [0x61] [2]],
    .applyBatch [.set [0x61] [3]], .applyBatch [.set [0x61] [4]], .applyBatch [.set [0x61] [5]],
    .getSnapshot]

/-- The closed snapshot still holds the boundary at 1: with one snapshot open, at 5, all five
versions stay. -/
theorem closed_snapshot_holds :
    (reopened.foldl stepWrapping (new false)).lowest = 5 ∧
      (reopened.foldl stepWrapping (new false)).snapshots.length = 1 ∧
      ¬ ∀ i k, Reclaimed (reopened.foldl stepWrapping (new false)).lowest
        (((reopened.foldl stepWrapping (new false)).stepWrapping
          .compact).engine.versions i k) := by
  have hlow : (reopened.foldl stepWrapping (new false)).lowest = 5 := by decide +kernel
  refine ⟨hlow, by decide +kernel, fun h => ?_⟩
  have hstay : ((reopened.foldl stepWrapping (new false)).stepWrapping .compact).engine.versions
      (shardFor [0x61]) [0x61] = [] ++ ⟨1, [1], false⟩ ::
        [⟨2, [2], false⟩, ⟨3, [3], false⟩, ⟨4, [4], false⟩, ⟨5, [5], false⟩] := by
    decide +kernel
  rw [hlow] at h
  rcases h _ _ _ _ _ hstay with hshort | hreach | ⟨-, hnewest⟩
  · exact absurd hshort (by decide)
  · exact absurd hreach (by decide)
  · exact absurd (hnewest _ List.mem_cons_self) (by decide)

end Session

end Dpx
