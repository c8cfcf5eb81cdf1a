/-
# `Dpx.Tx` — transactions and the proposals they build

`tx.go`, and the part of `dpx.go` that turns a finished callback into a proposal.  A
transaction reads one snapshot, buffers its writes, and remembers what it read: a
plain `Get` leaves a read entry with a placeholder epoch, filled in when the proposal
is built; a debit, or an `AtomicAdd` of zero, leaves one with `IsDebit` and the epoch
fetched at once; a credit leaves none.

A callback is arbitrary code, but one execution of it is a list of calls
(`TxCall`), whatever it did with the errors in between: `perform` is the state a call
leaves behind, failed or not.  `DpxTx.Sound` is what every call preserves, so every
transaction has it: its proposals are well formed, and every read entry carries the
snapshot's epoch of its key (`readSetSlice_epoch`), which is what conflict detection
takes for granted.

A read set has one slot per key.  A `Get` that is followed by a debit of the same key, or by
an `AtomicAdd` of zero, ends as a debit read, which a credit does not invalidate
(`get_protected_iff`).
-/
import Mathlib.Data.List.Induction
import Dpx.Engine.Memory
import Dpx.Shared.Proposal

namespace Dpx

/-- The part of `engine.Snapshot` a transaction reads; `none` is `ErrKeyNotFound`, the
only error a memory snapshot has. -/
class Snapshot (σ : Type) where
  get : σ → Key → Option Bytes
  getVersion : σ → Key → EpochRecord

instance : Snapshot State where
  get := State.get
  getVersion := State.getVersion

instance : Snapshot ShardedEngine where
  get := ShardedEngine.get
  getVersion := ShardedEngine.getVersion

inductive TxError where
  | reservedKey
  | keyNotFound
  | invalidProposal
  deriving DecidableEq, Repr

structure DpxTx (σ : Type) where
  snap : σ
  readSet : GoMap ReadEntry
  writes : List WriteEntry

namespace DpxTx

variable {σ : Type}

def new (snap : σ) : DpxTx σ := ⟨snap, ∅, []⟩

variable [Snapshot σ]

/-! ## The calls -/

def get (tx : DpxTx σ) (key : Key) : Except TxError (Bytes × DpxTx σ) :=
  if isReserved key then .error .reservedKey
  else
    match Snapshot.get tx.snap key with
    | none => .error .keyNotFound
    | some val => .ok (val, { tx with readSet := tx.readSet.insert key ⟨key, 0, false⟩ })

def set (tx : DpxTx σ) (key value : Bytes) : Except TxError (DpxTx σ) :=
  if isReserved key then .error .reservedKey
  else .ok { tx with writes := tx.writes ++ [⟨.set, key, value⟩] }

def delete (tx : DpxTx σ) (key : Key) : Except TxError (DpxTx σ) :=
  if isReserved key then .error .reservedKey
  else .ok { tx with writes := tx.writes ++ [⟨.delete, key, []⟩] }

/-- A credit returns the snapshot's balance, a debit that balance with the amount
added; neither sees the writes the transaction has buffered. -/
def atomicAdd (tx : DpxTx σ) (key : Key) (delta : Int64) : Except TxError (Int64 × DpxTx σ) :=
  if isReserved key then .error .reservedKey
  else
    let val := (Snapshot.get tx.snap key).getD []
    if 0 < delta then
      .ok (decodeInt64 val, { tx with writes := tx.writes ++ [⟨.credit, key, encodeInt64 delta⟩] })
    else
      let ver := Snapshot.getVersion tx.snap key
      let readSet := tx.readSet.insert key ⟨key, ver.epoch, true⟩
      let writes := if delta < 0 then tx.writes ++ [⟨.debit, key, encodeInt64 delta⟩] else tx.writes
      .ok (decodeInt64 val + delta, { tx with readSet := readSet, writes := writes })

/-! ## Building the proposal -/

/-- A plain entry still has the placeholder epoch: look the version up now. -/
def hydrate (tx : DpxTx σ) (re : ReadEntry) : ReadEntry :=
  if re.epoch = 0 ∧ re.isDebit = false then
    { re with epoch := (Snapshot.getVersion tx.snap re.key).epoch }
  else re

/-- `readSetSlice`.  Go ranges over the map in any order; here the keys ascend. -/
def readSetSlice (tx : DpxTx σ) : List ReadEntry := tx.readSet.toList.map fun e => tx.hydrate e.2

/-- No key may be both credited and deleted. -/
def validate (tx : DpxTx σ) : Except TxError Unit :=
  if tx.writes.any fun w => w.op = .delete &&
      tx.writes.any fun c => c.op = .credit && c.key = w.key then
    .error .invalidProposal
  else .ok ()

/-- The end of `runOnce`: nothing to propose without a write. -/
def propose (tx : DpxTx σ) (wall : UInt64) (counter : UInt16) :
    Except TxError (Option Proposal) :=
  if tx.writes = [] then .ok none
  else
    match tx.validate with
    | .error e => .error e
    | .ok () => .ok (some ⟨tx.readSetSlice, tx.writes, wall, counter⟩)

theorem propose_eq_some {tx : DpxTx σ} {wall : UInt64} {counter : UInt16} {p : Proposal}
    (h : tx.propose wall counter = .ok (some p)) :
    p = ⟨tx.readSetSlice, tx.writes, wall, counter⟩ := by
  rw [propose] at h
  split at h
  · cases h
  · split at h
    · cases h
    · cases h
      rfl

theorem propose_stamped {tx : DpxTx σ} {wall : UInt64} {counter : UInt16} {p : Proposal}
    (h : tx.propose wall counter = .ok (some p)) :
    tx.propose p.timestampWall p.timestampCounter = .ok (some p) := by
  obtain rfl := propose_eq_some h
  exact h

theorem atomicAdd_debit {tx tx' : DpxTx σ} {k : Key} {delta r : Int64} (hneg : delta < 0)
    (h : tx.atomicAdd k delta = .ok (r, tx')) :
    isReserved k = false ∧ r = decodeInt64 ((Snapshot.get tx.snap k).getD []) + delta := by
  rw [atomicAdd] at h
  cases hk : isReserved k with
  | true =>
      rw [hk] at h
      cases h
  | false =>
      have hpos : ¬ 0 < delta := Int64.not_lt.mpr (Int64.le_of_lt hneg)
      simp only [hk, Bool.false_eq_true, if_false, hpos] at h
      cases h
      exact ⟨rfl, rfl⟩

end DpxTx

/-! ## Executions of a callback -/

inductive TxCall where
  | get (key : Key)
  | set (key value : Bytes)
  | delete (key : Key)
  | atomicAdd (key : Key) (delta : Int64)
  deriving DecidableEq, Repr

namespace DpxTx

variable {σ : Type} [Snapshot σ]

/-- The transaction after a call; a failed call changes nothing. -/
def perform (tx : DpxTx σ) : TxCall → DpxTx σ
  | .get k => match tx.get k with
      | .ok (_, tx) => tx
      | .error _ => tx
  | .set k v => match tx.set k v with
      | .ok tx => tx
      | .error _ => tx
  | .delete k => match tx.delete k with
      | .ok tx => tx
      | .error _ => tx
  | .atomicAdd k delta => match tx.atomicAdd k delta with
      | .ok (_, tx) => tx
      | .error _ => tx

/-- The call is a debit whose returned balance is negative. -/
def overdraws (tx : DpxTx σ) : TxCall → Bool
  | .atomicAdd k delta => match tx.atomicAdd k delta with
      | .ok (balance, _) => delta < 0 && balance < 0
      | .error _ => false
  | _ => false

/-- A callback that returns an error as soon as a debit reports a negative balance:
`none` is the abort. -/
def guarded (tx : DpxTx σ) : List TxCall → Option (DpxTx σ)
  | [] => some tx
  | c :: cs => if tx.overdraws c then none else guarded (tx.perform c) cs

/-- What the calls of a transaction maintain. -/
structure Sound (tx : DpxTx σ) : Prop where
  known : ∀ w ∈ tx.writes, w.op.known = true
  user : ∀ w ∈ tx.writes, isReserved w.key = false
  reads : ∀ (k : Key) (re : ReadEntry), tx.readSet[k]? = some re → re.key = k ∧
    re.epoch = if re.isDebit then (Snapshot.getVersion tx.snap k).epoch else 0
  credits : ∀ w ∈ tx.writes, w.op = .credit → ∃ d : Int64, 0 < d ∧ w.value = encodeInt64 d
  debits : ∀ w ∈ tx.writes, w.op = .debit →
    (∃ d : Int64, d < 0 ∧ w.value = encodeInt64 d) ∧ ∃ re : ReadEntry, tx.readSet[w.key]? = some re

theorem sound_new (snap : σ) : (DpxTx.new snap).Sound where
  known := fun _ hw => absurd hw List.not_mem_nil
  user := fun _ hw => absurd hw List.not_mem_nil
  reads := fun k re h => by
    rw [DpxTx.new, Std.ExtTreeMap.getElem?_empty] at h
    cases h
  credits := fun _ hw => absurd hw List.not_mem_nil
  debits := fun _ hw => absurd hw List.not_mem_nil

/-- The key has a read entry. -/
def Recorded (tx : DpxTx σ) (k : Key) : Prop := ∃ re : ReadEntry, tx.readSet[k]? = some re

variable {tx : DpxTx σ}

omit [Snapshot σ] in
theorem recorded_insert {j k : Key} {re : ReadEntry} {ws : List WriteEntry} :
    Recorded { tx with readSet := tx.readSet.insert j re, writes := ws } k ↔
      tx.Recorded k ∨ j = k := by
  rw [Recorded, Std.ExtTreeMap.getElem?_insert]
  constructor
  · intro h
    split at h
    · rename_i hj
      exact Or.inr (Std.LawfulEqOrd.compare_eq_iff_eq.mp hj)
    · exact Or.inl h
  · rintro (h | rfl)
    · split
      · exact ⟨re, rfl⟩
      · exact h
    · rw [if_pos Std.ReflCmp.compare_self]
      exact ⟨re, rfl⟩

theorem Sound.record (h : tx.Sound) {k : Key} {re : ReadEntry} (hkey : re.key = k)
    (hepoch : re.epoch = if re.isDebit then (Snapshot.getVersion tx.snap k).epoch else 0) :
    Sound { tx with readSet := tx.readSet.insert k re } where
  known := h.known
  user := h.user
  reads := fun j r hr => by
    rw [Std.ExtTreeMap.getElem?_insert] at hr
    split at hr
    · rename_i hj
      obtain rfl : k = j := Std.LawfulEqOrd.compare_eq_iff_eq.mp hj
      cases hr
      exact ⟨hkey, hepoch⟩
    · exact h.reads j r hr
  credits := h.credits
  debits := fun w hw hop =>
    ⟨(h.debits w hw hop).1, recorded_insert.mpr (Or.inl (h.debits w hw hop).2)⟩

theorem Sound.write (h : tx.Sound) {w : WriteEntry} (hknown : w.op.known = true)
    (huser : isReserved w.key = false)
    (hcredit : w.op = .credit → ∃ d : Int64, 0 < d ∧ w.value = encodeInt64 d)
    (hdebit : w.op = .debit → (∃ d : Int64, d < 0 ∧ w.value = encodeInt64 d) ∧
      ∃ re : ReadEntry, tx.readSet[w.key]? = some re) :
    Sound { tx with writes := tx.writes ++ [w] } where
  known := List.forall_mem_append.mpr ⟨h.known, List.forall_mem_singleton.mpr hknown⟩
  user := List.forall_mem_append.mpr ⟨h.user, List.forall_mem_singleton.mpr huser⟩
  reads := h.reads
  credits := List.forall_mem_append.mpr ⟨h.credits, List.forall_mem_singleton.mpr hcredit⟩
  debits := List.forall_mem_append.mpr ⟨h.debits, List.forall_mem_singleton.mpr hdebit⟩

/-- What a call can do: nothing, note a plain read, buffer a write that is no debit,
or note a debit read and perhaps buffer the debit. -/
theorem perform_cases (tx : DpxTx σ) (c : TxCall) :
    tx.perform c = tx ∨
    (∃ k, tx.perform c = { tx with readSet := tx.readSet.insert k ⟨k, 0, false⟩ }) ∨
    (∃ w : WriteEntry, w.op.known = true ∧ isReserved w.key = false ∧ w.op ≠ .debit ∧
      (w.op = .credit → ∃ d : Int64, 0 < d ∧ w.value = encodeInt64 d) ∧
      tx.perform c = { tx with writes := tx.writes ++ [w] }) ∨
    ∃ k d, c = .atomicAdd k d ∧ isReserved k = false ∧ ¬ 0 < d ∧
      tx.perform c = { tx with
        readSet := tx.readSet.insert k ⟨k, (Snapshot.getVersion tx.snap k).epoch, true⟩
        writes := if d < 0 then tx.writes ++ [⟨.debit, k, encodeInt64 d⟩] else tx.writes } := by
  cases c with
  | get k =>
      rw [perform, get]
      cases isReserved k with
      | true => exact Or.inl rfl
      | false =>
          cases hget : Snapshot.get tx.snap k with
          | none => exact Or.inl rfl
          | some v => exact Or.inr (Or.inl ⟨k, rfl⟩)
  | set k v =>
      rw [perform, set]
      cases hk : isReserved k with
      | true => exact Or.inl rfl
      | false =>
          exact Or.inr (Or.inr (Or.inl ⟨⟨.set, k, v⟩, rfl, hk, (fun e => nomatch e),
            (fun e => nomatch e), rfl⟩))
  | delete k =>
      rw [perform, delete]
      cases hk : isReserved k with
      | true => exact Or.inl rfl
      | false =>
          exact Or.inr (Or.inr (Or.inl ⟨⟨.delete, k, []⟩, rfl, hk, (fun e => nomatch e),
            (fun e => nomatch e), rfl⟩))
  | atomicAdd k d =>
      rw [perform, atomicAdd]
      cases hk : isReserved k with
      | true => exact Or.inl rfl
      | false =>
          refine Or.inr (Or.inr ?_)
          by_cases hpos : 0 < d
          · refine Or.inl ⟨⟨.credit, k, encodeInt64 d⟩, rfl, hk, (fun e => nomatch e),
              fun _ => ⟨d, hpos, rfl⟩, ?_⟩
            simp [hpos]
          · refine Or.inr ⟨k, d, rfl, hk, hpos, ?_⟩
            simp [hpos]

theorem perform_snap (tx : DpxTx σ) (c : TxCall) : (tx.perform c).snap = tx.snap := by
  rcases tx.perform_cases c with h | ⟨k, h⟩ | ⟨w, -, -, -, -, h⟩ | ⟨k, d, -, -, -, h⟩
  · rw [h]
  · rw [h]
  · rw [h]
  · rw [h]

theorem Sound.perform (h : tx.Sound) (c : TxCall) : (tx.perform c).Sound := by
  rcases tx.perform_cases c with hc | ⟨k, hc⟩ | ⟨w, hknown, huser, hnd, hcr, hc⟩ |
    ⟨k, d, -, hk, hpos, hc⟩
  · rw [hc]
    exact h
  · rw [hc]
    exact h.record rfl rfl
  · rw [hc]
    exact h.write hknown huser hcr fun e => absurd e hnd
  · have hrec : Sound { tx with
        readSet := tx.readSet.insert k ⟨k, (Snapshot.getVersion tx.snap k).epoch, true⟩ } :=
      h.record rfl rfl
    rw [hc]
    split
    · rename_i hneg
      refine hrec.write rfl hk (fun e => nomatch e) fun _ => ⟨⟨d, hneg, rfl⟩, ?_⟩
      exact ⟨_, Std.ExtTreeMap.getElem?_insert_self⟩
    · exact hrec

theorem Sound.wellFormed (h : tx.Sound) {wall : UInt64} {counter : UInt16} {p : Proposal}
    (hp : tx.propose wall counter = .ok (some p)) : p.WellFormed := by
  rw [propose_eq_some hp]
  exact ⟨h.known, h.user⟩

theorem Sound.readSetSlice_epoch (h : tx.Sound) {re : ReadEntry} (hre : re ∈ tx.readSetSlice) :
    re.epoch = (Snapshot.getVersion tx.snap re.key).epoch := by
  obtain ⟨⟨k, r⟩, hmem, rfl⟩ := List.mem_map.mp hre
  obtain ⟨hkey, hepoch⟩ := h.reads k r (Std.ExtTreeMap.mem_toList_iff_getElem?_eq_some.mp hmem)
  subst hkey
  show (tx.hydrate r).epoch = (Snapshot.getVersion tx.snap (tx.hydrate r).key).epoch
  rw [hydrate]
  cases hd : r.isDebit with
  | false =>
      rw [hd] at hepoch
      rw [if_pos ⟨hepoch, rfl⟩]
  | true =>
      rw [hd] at hepoch
      rw [if_neg (fun hc => Bool.noConfusion hc.2)]
      exact hepoch

theorem Sound.recorded_iff (h : tx.Sound) (k : Key) :
    tx.Recorded k ↔ ∃ re ∈ tx.readSetSlice, re.key = k := by
  have hkey : ∀ re : ReadEntry, (tx.hydrate re).key = re.key := by
    intro re
    rw [hydrate]
    split <;> rfl
  constructor
  · rintro ⟨re, hre⟩
    have hmem : (k, re) ∈ tx.readSet.toList :=
      Std.ExtTreeMap.mem_toList_iff_getElem?_eq_some.mpr hre
    exact ⟨tx.hydrate re, List.mem_map.mpr ⟨_, hmem, rfl⟩, (hkey re).trans (h.reads k re hre).1⟩
  · rintro ⟨re, hre, hk⟩
    obtain ⟨⟨j, r⟩, hmem, rfl⟩ := List.mem_map.mp hre
    have hr := Std.ExtTreeMap.mem_toList_iff_getElem?_eq_some.mp hmem
    refine ⟨r, ?_⟩
    rwa [← hk, hkey, (h.reads j r hr).1]

theorem Sound.mem_readSetSlice (h : tx.Sound) {w : WriteEntry} (hw : w ∈ tx.writes)
    (hop : w.op = .debit) : ∃ re ∈ tx.readSetSlice, re.key = w.key :=
  (h.recorded_iff w.key).mp (h.debits w hw hop).2

/-! ## Guarded callbacks -/

/-- Every debit leaves the snapshot's balance of its key non-negative, alone. -/
def Covered (tx : DpxTx σ) : Prop :=
  ∀ w ∈ tx.writes, w.op = .debit →
    0 ≤ decodeInt64 ((Snapshot.get tx.snap w.key).getD []) + decodeInt64 w.value

theorem Covered.perform (hcov : tx.Covered) {c : TxCall} (hc : tx.overdraws c = false) :
    (tx.perform c).Covered := by
  rcases tx.perform_cases c with h | ⟨k, h⟩ | ⟨w, -, -, hnd, -, h⟩ | ⟨k, d, rfl, hk, hpos, h⟩
  · rw [h]
    exact hcov
  · rw [h]
    exact hcov
  · rw [h]
    exact List.forall_mem_append.mpr
      ⟨hcov, List.forall_mem_singleton.mpr fun e => absurd e hnd⟩
  · rw [h]
    split
    · rename_i hneg
      refine List.forall_mem_append.mpr ⟨hcov, List.forall_mem_singleton.mpr fun _ => ?_⟩
      -- the balance the call returned is the one in question, and the guard let it pass
      have hbal : ¬ decodeInt64 ((Snapshot.get tx.snap k).getD []) + d < 0 := by
        simpa [overdraws, atomicAdd, hk, hpos, hneg] using hc
      show 0 ≤ decodeInt64 ((Snapshot.get tx.snap k).getD []) + decodeInt64 (encodeInt64 d)
      rw [decodeInt64_encodeInt64]
      exact Int64.not_lt.mp hbal
    · exact hcov

theorem sound_of_guarded {cs : List TxCall} :
    ∀ {tx tx' : DpxTx σ}, tx.Sound → tx.Covered → tx.guarded cs = some tx' →
      tx'.Sound ∧ tx'.Covered ∧ tx'.snap = tx.snap := by
  induction cs with
  | nil =>
      intro tx tx' h hcov hrun
      cases hrun
      exact ⟨h, hcov, rfl⟩
  | cons c cs ih =>
      intro tx tx' h hcov hrun
      rw [guarded] at hrun
      split at hrun
      · cases hrun
      · rename_i hover
        obtain ⟨hs, hcov', hsnap⟩ :=
          ih (h.perform c) (hcov.perform (Bool.eq_false_iff.mpr hover)) hrun
        exact ⟨hs, hcov', hsnap.trans (tx.perform_snap c)⟩

/-! ## Whole callbacks -/

/-- The transaction after the calls of a callback. -/
def after (snap : σ) (calls : List TxCall) : DpxTx σ := calls.foldl perform (DpxTx.new snap)

theorem after_concat (snap : σ) (calls : List TxCall) (c : TxCall) :
    after snap (calls ++ [c]) = (after snap calls).perform c := by
  rw [after, List.foldl_append]
  rfl

theorem after_snap (snap : σ) (calls : List TxCall) : (after snap calls).snap = snap := by
  induction calls using List.reverseRecOn with
  | nil => rfl
  | append_singleton calls c ih => rw [after_concat, perform_snap, ih]

theorem sound_after (snap : σ) (calls : List TxCall) : (after snap calls).Sound := by
  induction calls using List.reverseRecOn with
  | nil => exact sound_new snap
  | append_singleton calls c ih =>
      rw [after_concat]
      exact ih.perform c

/-! ## Plain reads

A `Get` that returns a value and an `AtomicAdd` that is no credit write the same slot of the
read set.  The last of them on a key decides what the proposal says of it. -/

end DpxTx

/-- The call writes the slot of `k`, if the snapshot has the key. -/
def TxCall.notes (k : Key) : TxCall → Bool
  | .get j => j = k
  | .atomicAdd j delta => j = k && !decide (0 < delta)
  | .set _ _ | .delete _ => false

/-- What it writes, for a key at `epoch`. -/
def TxCall.note (k : Key) (epoch : UInt64) : TxCall → ReadEntry
  | .get _ => ⟨k, 0, false⟩
  | _ => ⟨k, epoch, true⟩

namespace DpxTx

variable {σ : Type} [Snapshot σ] {tx : DpxTx σ}

/-- Some `Get` of `k` returned a value. -/
def Got (snap : σ) (calls : List TxCall) (k : Key) : Prop :=
  ∃ pre post v tx, calls = pre ++ .get k :: post ∧ (after snap pre).get k = .ok (v, tx)

/-- The proposal has one read entry for `k`: a plain one, with the snapshot's epoch. -/
def Protected (tx : DpxTx σ) (k : Key) : Prop :=
  tx.readSetSlice.filter (fun re => re.key = k) =
    [⟨k, (Snapshot.getVersion tx.snap k).epoch, false⟩]

theorem Got.found {snap : σ} {calls : List TxCall} {k : Key} (h : Got snap calls k) :
    isReserved k = false ∧ ∃ v, Snapshot.get snap k = some v := by
  obtain ⟨pre, post, v, tx, -, hget⟩ := h
  rw [get, after_snap] at hget
  cases hk : isReserved k with
  | true =>
      rw [hk] at hget
      cases hget
  | false =>
      rw [hk] at hget
      cases hv : Snapshot.get snap k with
      | none =>
          rw [hv] at hget
          cases hget
      | some u => exact ⟨rfl, u, rfl⟩

theorem getElem?_readSet_perform {k : Key} (hk : isReserved k = false) {v : Bytes}
    (hv : Snapshot.get tx.snap k = some v) (c : TxCall) :
    (tx.perform c).readSet[k]? =
      if c.notes k then some (c.note k (Snapshot.getVersion tx.snap k).epoch)
      else tx.readSet[k]? := by
  cases c with
  | get j =>
      by_cases hj : j = k
      · subst hj
        simp [perform, get, hk, hv, TxCall.notes, TxCall.note]
      · rw [perform, get]
        cases isReserved j with
        | true => simp [TxCall.notes, hj]
        | false => cases Snapshot.get tx.snap j <;> simp [TxCall.notes, hj,
            Std.ExtTreeMap.getElem?_insert]
  | set j u =>
      rw [perform, set]
      cases isReserved j <;> simp [TxCall.notes]
  | delete j =>
      rw [perform, delete]
      cases isReserved j <;> simp [TxCall.notes]
  | atomicAdd j delta =>
      rw [perform, atomicAdd]
      by_cases hj : j = k
      · subst hj
        by_cases hpos : 0 < delta <;> simp [hk, hpos, TxCall.notes, TxCall.note]
      · cases isReserved j with
        | true => simp [TxCall.notes, hj]
        | false => by_cases hpos : 0 < delta <;>
            simp [hpos, TxCall.notes, hj, Std.ExtTreeMap.getElem?_insert]

/-- The slot of a key the snapshot has is what the last call that writes it wrote. -/
theorem getElem?_readSet_after {snap : σ} {k : Key} (hk : isReserved k = false) {v : Bytes}
    (hv : Snapshot.get snap k = some v) (calls : List TxCall) :
    (after snap calls).readSet[k]? = ((calls.filter (TxCall.notes k)).getLast?).map
      (TxCall.note k (Snapshot.getVersion snap k).epoch) := by
  induction calls using List.reverseRecOn with
  | nil => exact Std.ExtTreeMap.getElem?_empty
  | append_singleton calls c ih =>
      rw [after_concat, getElem?_readSet_perform hk (by rw [after_snap]; exact hv), after_snap,
        ih, List.filter_append, List.filter_singleton, Bool.cond_eq_ite]
      cases c.notes k <;> simp

theorem Sound.filter_readSetSlice (h : tx.Sound) (k : Key) :
    tx.readSetSlice.filter (fun re => re.key = k) = (tx.readSet[k]?.map tx.hydrate).toList := by
  have hkey : ∀ e ∈ tx.readSet.toList, decide ((tx.hydrate e.2).key = k) = decide (e.1 = k) := by
    intro e he
    have hread := (h.reads e.1 e.2 (Std.ExtTreeMap.mem_toList_iff_getElem?_eq_some.mp he)).1
    rw [hydrate]
    split <;> rw [hread]
  have hslot : tx.readSet.toList.filter ((fun re => decide (re.key = k)) ∘
      fun e => tx.hydrate e.2) = (tx.readSet[k]?.map (Prod.mk k)).toList :=
    (List.filter_congr hkey).trans (Scan.filter_toList tx.readSet k)
  rw [readSetSlice, List.filter_map, hslot]
  cases tx.readSet[k]? <;> rfl

theorem Sound.protected_iff (h : tx.Sound) (k : Key) :
    tx.Protected k ↔ tx.readSet[k]? = some ⟨k, 0, false⟩ := by
  rw [Protected, h.filter_readSetSlice]
  cases hslot : tx.readSet[k]? with
  | none => simp
  | some re =>
      obtain ⟨hkey, hepoch⟩ := h.reads k re hslot
      obtain ⟨key, epoch, isDebit⟩ := re
      cases isDebit with
      | true => simp [hydrate]
      | false =>
          simp only [Bool.false_eq_true, if_false] at hkey hepoch
          simp [hydrate, hkey, hepoch]

/-- **Protected reads.**  A key on which some `Get` returned a value has in the proposal one
read entry, a plain one with the epoch of the snapshot, if and only if the last `Get` or
non-crediting `AtomicAdd` of the key is a `Get`. -/
theorem get_protected_iff {snap : σ} {calls : List TxCall} {k : Key} (h : Got snap calls k) :
    (after snap calls).Protected k ↔
      (calls.filter (TxCall.notes k)).getLast? = some (.get k) := by
  obtain ⟨hk, v, hv⟩ := h.found
  rw [(sound_after snap calls).protected_iff, getElem?_readSet_after hk hv]
  cases hlast : (calls.filter (TxCall.notes k)).getLast? with
  | none => simp
  | some c =>
      have hnotes := (List.mem_filter.mp (List.mem_of_getLast? hlast)).2
      cases c with
      | get j => simp_all [TxCall.notes, TxCall.note]
      | set | delete => simp [TxCall.notes] at hnotes
      | atomicAdd => simp [TxCall.note]

/-- A store that holds `k`. -/
def holding : State := State.empty.applyOps [.set [0x6b] [1]]

/-- A debit of `k`, then a `Get`. -/
theorem read_after_debit_protected :
    (after holding [.atomicAdd [0x6b] (-1), .get [0x6b]]).Protected [0x6b] := by
  refine (get_protected_iff ⟨[.atomicAdd [0x6b] (-1)], [], [1], _, rfl, rfl⟩).mpr ?_
  decide

/-- A `Get` of `k`, then an `AtomicAdd` of zero: the one entry of `k` is a debit read. -/
theorem read_unprotected :
    Got holding [.get [0x6b], .atomicAdd [0x6b] 0] [0x6b] ∧
      (after holding [.get [0x6b], .atomicAdd [0x6b] 0]).readSetSlice = [⟨[0x6b], 0, true⟩] ∧
      ¬ (after holding [.get [0x6b], .atomicAdd [0x6b] 0]).Protected [0x6b] := by
  have hslice : (after holding [.get [0x6b], .atomicAdd [0x6b] 0]).readSetSlice =
      [⟨[0x6b], 0, true⟩] := by
    decide +kernel
  refine ⟨⟨[], [.atomicAdd [0x6b] 0], [1], _, rfl, rfl⟩, hslice, fun h => ?_⟩
  rw [Protected, hslice] at h
  simp at h

end DpxTx

end Dpx
