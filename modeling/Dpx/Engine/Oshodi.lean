/-
# `Dpx.Engine.Oshodi` — batches of the Oshodi engine

`engine/oshodi/oshodi.go`.  The engine keeps everything in one bucket, a map whose single
operations are atomic.  `ApplyBatch` turns each mutation of the batch into one bucket
operation, a merge into two, a `Get` and a `Set`; it returns at the first that fails, and
there is nothing that would take the earlier ones back.  `GetSnapshot` scans the bucket under
a lock that `ApplyBatch` does not take.

A run is a list of events (`ApplyEvent`): the next bucket operation of the call, with its
outcome, the flush at its end, and snapshots wherever they fall.  In every run the bucket is
the one before the call with some of the mutations applied, from the front
(`Progress`), and every number of them can be met.  So the batch is atomic exactly if all
mutations but the last leave the bucket as it is (`atomic_iff`).

Calls of `ApplyBatch` do not overlap: the state machine makes them in log order.
-/
import Dpx.Engine.Interface

namespace Dpx

namespace Oshodi

/-- The engine: the bucket `__dpx`, and the sequence kept beside it. -/
structure Engine where
  bucket : GoMap Bytes
  seq : UInt64

/-! ## The call, step by step -/

/-- Where a call of `ApplyBatch` stands. -/
inductive Pc where
  /-- Before the bucket operation of the first of `rest`. -/
  | running (rest : List BatchOp)
  /-- Between the `Get` and the `Set` of a merge; `val` is the sum. -/
  | merging (key : Key) (val : Bytes) (rest : List BatchOp)
  | returned (err : Option EngineError)

/-- The engine, one call, and the snapshots taken so far. -/
structure Applying where
  engine : Engine
  pc : Pc
  snapshots : List (GoMap Bytes)

/-- What happens next, and whether it fails. -/
inductive ApplyEvent where
  | bucketOp (err : Option EngineError)
  | flush (err : Option EngineError)
  | snapshot
  deriving DecidableEq, Repr

/-- `seq` follows a `Set` of the applied index. -/
def seqAfter (seq : UInt64) (key : Key) (value : Bytes) : UInt64 :=
  if key = appliedKey ∧ 8 ≤ value.length then LittleEndian.uint64 value else seq

/-- The next bucket operation of the call, without an error. -/
def Applying.proceed (w : Applying) : Applying :=
  match w.pc with
  | .running (.set k v :: rest) =>
      { w with
        engine := ⟨w.engine.bucket.insert k v, seqAfter w.engine.seq k v⟩
        pc := .running rest }
  | .running (.delete k :: rest) =>
      { w with engine := { w.engine with bucket := w.engine.bucket.erase k }, pc := .running rest }
  | .running (.merge k v :: rest) =>
      -- `ErrKeyNotFound` leaves the value nil, which counts as zero
      let cur := (w.engine.bucket[k]?).getD []
      { w with pc := .merging k (encodeInt64 (decodeInt64 cur + decodeInt64 v)) rest }
  | .merging k val rest =>
      { w with
        engine := { w.engine with bucket := w.engine.bucket.insert k val }
        pc := .running rest }
  | .running [] | .returned _ => w

/-- A bucket operation is due. -/
def Pc.Busy : Pc → Prop
  | .running (_ :: _) | .merging _ _ _ => True
  | .running [] | .returned _ => False

instance : DecidablePred Pc.Busy
  | .running (_ :: _) | .merging _ _ _ => isTrue trivial
  | .running [] | .returned _ => isFalse id

def Applying.step (sync : Bool) (w : Applying) : ApplyEvent → Applying
  | .bucketOp none => w.proceed
  | .bucketOp (some e) => if w.pc.Busy then { w with pc := .returned (some e) } else w
  | .flush err =>
      match w.pc with
      | .running [] => { w with pc := .returned (if sync then err else none) }
      | _ => w
  | .snapshot => { w with snapshots := w.snapshots ++ [w.engine.bucket] }

/-- A call begins. -/
def applyBatch (e : Engine) (ops : List BatchOp) : Applying := ⟨e, .running ops, []⟩

def Applying.run (sync : Bool) (w : Applying) (evs : List ApplyEvent) : Applying :=
  evs.foldl (Applying.step sync) w

/-! ## The bucket after some of the mutations -/

/-- One mutation, as a whole. -/
def applyOp (m : GoMap Bytes) : BatchOp → GoMap Bytes
  | .set k v => m.insert k v
  | .delete k => m.erase k
  | .merge k v => m.insert k (mergeInt64 ((m[k]?).getD []) v)

def applyOps (m : GoMap Bytes) (ops : List BatchOp) : GoMap Bytes := ops.foldl applyOp m

theorem applyOps_append (m : GoMap Bytes) (xs ys : List BatchOp) :
    applyOps m (xs ++ ys) = applyOps (applyOps m xs) ys :=
  List.foldl_append

theorem getElem?_applyOp (m : GoMap Bytes) (op : BatchOp) (k : Key) :
    (applyOp m op)[k]? = if op.key = k then op.act m[k]? else m[k]? := by
  by_cases h : op.key = k
  · subst h
    cases op <;> simp [applyOp, BatchOp.key, BatchOp.act]
  · rw [if_neg h]
    cases op with
    | set j v =>
        have hj : j ≠ k := h
        simp [applyOp, Std.ExtTreeMap.getElem?_insert, hj]
    | delete j =>
        have hj : j ≠ k := h
        simp [applyOp, Std.ExtTreeMap.getElem?_erase, hj]
    | merge j v =>
        have hj : j ≠ k := h
        simp [applyOp, Std.ExtTreeMap.getElem?_insert, hj]

theorem getElem?_applyOps (m : GoMap Bytes) (ops : List BatchOp) (k : Key) :
    (applyOps m ops)[k]? = BatchOp.effect k m[k]? ops := by
  induction ops generalizing m with
  | nil => rfl
  | cons op ops ih =>
      rw [BatchOp.effect_cons, ← getElem?_applyOp]
      exact ih (applyOp m op)

/-- What a call has still to do. -/
def Pc.Left (m : GoMap Bytes) : Pc → List BatchOp → Prop
  | .running rest, todo => todo = rest
  | .merging k val rest, todo =>
      ∃ v, todo = .merge k v :: rest ∧ val = mergeInt64 ((m[k]?).getD []) v
  | .returned (some _), todo => todo ≠ []
  | .returned none, todo => todo = []

/-- A call on the bucket `m`, under way: some mutations have been applied, and every
snapshot has some of these, from the front. -/
structure Progress (m : GoMap Bytes) (ops : List BatchOp) (w : Applying) : Prop where
  split : ∃ done todo, ops = done ++ todo ∧ w.engine.bucket = applyOps m done ∧
    w.pc.Left w.engine.bucket todo
  snapshots : ∀ s ∈ w.snapshots, ∃ done, done <+: ops ∧ s = applyOps m done

theorem progress_applyBatch (e : Engine) (ops : List BatchOp) :
    Progress e.bucket ops (applyBatch e ops) :=
  ⟨⟨[], ops, rfl, rfl, rfl⟩, fun _ hs => absurd hs List.not_mem_nil⟩

theorem Progress.proceed {m : GoMap Bytes} {ops : List BatchOp} {w : Applying}
    (h : Progress m ops w) : Progress m ops w.proceed := by
  obtain ⟨⟨done, todo, hops, hbucket, hleft⟩, hsnaps⟩ := h
  obtain ⟨⟨bucket, seq⟩, pc, snaps⟩ := w
  simp only at hbucket hleft hsnaps
  -- one more mutation is done
  have hmore : ∀ op rest, todo = op :: rest →
      ops = (done ++ [op]) ++ rest ∧ applyOp bucket op = applyOps m (done ++ [op]) := by
    intro op rest htodo
    rw [applyOps_append, ← hbucket, hops, htodo, List.append_assoc]
    exact ⟨rfl, rfl⟩
  cases pc with
  | running rest =>
      cases rest with
      | nil => exact ⟨⟨done, todo, hops, hbucket, hleft⟩, hsnaps⟩
      | cons op rest =>
          obtain ⟨hsplit, hnext⟩ := hmore op rest hleft
          cases op with
          | set k v => exact ⟨⟨done ++ [BatchOp.set k v], rest, hsplit, hnext, rfl⟩, hsnaps⟩
          | delete k => exact ⟨⟨done ++ [BatchOp.delete k], rest, hsplit, hnext, rfl⟩, hsnaps⟩
          | merge k v => exact ⟨⟨done, todo, hops, hbucket, ⟨v, hleft, rfl⟩⟩, hsnaps⟩
  | merging k val rest =>
      obtain ⟨v, htodo, rfl⟩ := hleft
      obtain ⟨hsplit, hnext⟩ := hmore _ rest htodo
      exact ⟨⟨done ++ [BatchOp.merge k v], rest, hsplit, hnext, rfl⟩, hsnaps⟩
  | returned err => exact ⟨⟨done, todo, hops, hbucket, hleft⟩, hsnaps⟩

theorem Progress.flush {m : GoMap Bytes} {ops : List BatchOp} {w : Applying} (sync : Bool)
    (h : Progress m ops w) : Progress m ops (w.step sync (.flush none)) := by
  obtain ⟨⟨done, todo, hops, hbucket, hleft⟩, hsnaps⟩ := h
  obtain ⟨engine, pc, snaps⟩ := w
  cases pc with
  | running rest =>
      cases rest with
      | nil =>
          refine ⟨⟨done, todo, hops, hbucket, ?_⟩, hsnaps⟩
          simp only [Applying.step, ite_self]
          exact hleft
      | cons op rest => exact ⟨⟨done, todo, hops, hbucket, hleft⟩, hsnaps⟩
  | merging k val rest => exact ⟨⟨done, todo, hops, hbucket, hleft⟩, hsnaps⟩
  | returned err => exact ⟨⟨done, todo, hops, hbucket, hleft⟩, hsnaps⟩

theorem Pc.Busy.left {pc : Pc} (hbusy : pc.Busy) {m : GoMap Bytes} {todo : List BatchOp}
    (h : pc.Left m todo) : todo ≠ [] := by
  rintro rfl
  cases pc with
  | running rest =>
      cases h
      exact hbusy
  | merging k val rest =>
      obtain ⟨v, htodo, -⟩ := h
      cases htodo
  | returned err => exact hbusy

theorem Progress.step {m : GoMap Bytes} {ops : List BatchOp} {w : Applying} (sync : Bool)
    (h : Progress m ops w) {ev : ApplyEvent} (hev : ∀ e, ev ≠ .flush (some e)) :
    Progress m ops (w.step sync ev) := by
  cases ev with
  | bucketOp err =>
      cases err with
      | none => exact h.proceed
      | some e =>
          rw [Applying.step]
          split
          · rename_i hbusy
            obtain ⟨⟨done, todo, hops, hbucket, hleft⟩, hsnaps⟩ := h
            exact ⟨⟨done, todo, hops, hbucket, hbusy.left hleft⟩, hsnaps⟩
          · exact h
  | flush err =>
      cases err with
      | none => exact h.flush sync
      | some e => exact absurd rfl (hev e)
  | snapshot =>
      obtain ⟨⟨done, todo, hops, hbucket, hleft⟩, hsnaps⟩ := h
      refine ⟨⟨done, todo, hops, hbucket, hleft⟩, fun s hs => ?_⟩
      rcases List.mem_append.mp hs with hold | hnew
      · exact hsnaps s hold
      · rw [List.mem_singleton.mp hnew]
        exact ⟨done, ⟨todo, hops.symm⟩, hbucket⟩

theorem Progress.run {m : GoMap Bytes} {ops : List BatchOp} (sync : Bool) {w : Applying}
    (h : Progress m ops w) {evs : List ApplyEvent} (hevs : ∀ e, .flush (some e) ∉ evs) :
    Progress m ops (w.run sync evs) := by
  refine evs.foldlRecOn (motive := Progress m ops) (Applying.step sync) h fun w hw ev hmem => ?_
  refine hw.step sync fun e heq => hevs e ?_
  rw [← heq]
  exact hmem

/-! ## A call without errors -/

/-- The bucket operations of one mutation, all of them successful. -/
def opEvents : BatchOp → List ApplyEvent
  | .set _ _ | .delete _ => [.bucketOp none]
  | .merge _ _ => [.bucketOp none, .bucketOp none]

theorem flush_not_mem_opEvents (ops : List BatchOp) (err : Option EngineError) :
    .flush err ∉ ops.flatMap opEvents := by
  intro hmem
  obtain ⟨op, -, hop⟩ := List.mem_flatMap.mp hmem
  cases op <;> simp [opEvents] at hop

theorem run_opEvents (sync : Bool) {w : Applying} {op : BatchOp} {rest : List BatchOp}
    (h : w.pc = .running (op :: rest)) :
    (w.run sync (opEvents op)).pc = .running rest ∧
      (w.run sync (opEvents op)).engine.bucket = applyOp w.engine.bucket op ∧
      (w.run sync (opEvents op)).snapshots = w.snapshots := by
  obtain ⟨engine, pc, snaps⟩ := w
  cases h
  cases op <;> exact ⟨rfl, rfl, rfl⟩

theorem run_mutations (sync : Bool) (done rest : List BatchOp) :
    ∀ w : Applying, w.pc = .running (done ++ rest) →
      (w.run sync (done.flatMap opEvents)).pc = .running rest ∧
        (w.run sync (done.flatMap opEvents)).engine.bucket = applyOps w.engine.bucket done ∧
        (w.run sync (done.flatMap opEvents)).snapshots = w.snapshots := by
  induction done with
  | nil => exact fun w h => ⟨h, rfl, rfl⟩
  | cons op done ih =>
      intro w h
      obtain ⟨hpc, hbucket, hsnaps⟩ := run_opEvents sync h
      obtain ⟨hpc', hbucket', hsnaps'⟩ := ih _ hpc
      rw [List.flatMap_cons, Applying.run, List.foldl_append]
      exact ⟨hpc', hbucket'.trans (by rw [hbucket]; rfl), hsnaps'.trans hsnaps⟩

theorem run_concat (sync : Bool) (w : Applying) (evs : List ApplyEvent) (ev : ApplyEvent) :
    w.run sync (evs ++ [ev]) = (w.run sync evs).step sync ev :=
  List.foldl_append

theorem step_flush (sync : Bool) {w : Applying} (h : w.pc = .running []) :
    w.step sync (.flush none) = { w with pc := .returned none } := by
  obtain ⟨engine, pc, snaps⟩ := w
  cases h
  simp only [Applying.step, ite_self]

theorem run_to_end (sync : Bool) (e : Engine) (ops : List BatchOp) :
    ∃ evs, (∀ err, .flush (some err) ∉ evs) ∧
      ((applyBatch e ops).run sync evs).pc = .returned none := by
  obtain ⟨hpc, -, -⟩ := run_mutations sync ops [] (applyBatch e ops)
    (congrArg Pc.running (List.append_nil ops).symm)
  refine ⟨ops.flatMap opEvents ++ [.flush none], fun err hmem => ?_, ?_⟩
  · rcases List.mem_append.mp hmem with hmem | hmem
    · exact flush_not_mem_opEvents ops _ hmem
    · cases List.mem_singleton.mp hmem
  · rw [run_concat, step_flush sync hpc]

theorem bucket_of_returned (sync : Bool) (e : Engine) {ops : List BatchOp}
    {evs : List ApplyEvent} (hevs : ∀ err, .flush (some err) ∉ evs)
    (h : ((applyBatch e ops).run sync evs).pc = .returned none) :
    ((applyBatch e ops).run sync evs).engine.bucket = applyOps e.bucket ops := by
  obtain ⟨⟨done, todo, hops, hbucket, hleft⟩, -⟩ := (progress_applyBatch e ops).run sync hevs
  rw [h] at hleft
  cases hleft
  rw [hbucket, hops, List.append_nil]

/-! ## Atomicity -/

/-- Unless the flush fails: a call that returns an error has left the bucket as it was, and
a snapshot has all mutations of the batch or none. -/
def Atomic (e : Engine) (ops : List BatchOp) : Prop :=
  ∀ (sync : Bool) (evs : List ApplyEvent), (∀ err, .flush (some err) ∉ evs) →
    let w := (applyBatch e ops).run sync evs
    (∀ err, w.pc = .returned (some err) → w.engine.bucket = e.bucket) ∧
      ∀ s ∈ w.snapshots, s = e.bucket ∨ s = applyOps e.bucket ops

theorem applyOps_of_idle {m : GoMap Bytes} {ops : List BatchOp}
    (h : ∀ op ∈ ops, applyOp m op = m) : applyOps m ops = m := by
  induction ops with
  | nil => rfl
  | cons op ops ih =>
      obtain ⟨hop, hops⟩ := List.forall_mem_cons.mp h
      rw [applyOps, List.foldl_cons, hop]
      exact ih hops

theorem applyOps_of_idle_dropLast {m : GoMap Bytes} {done todo : List BatchOp}
    (h : ∀ op ∈ (done ++ todo).dropLast, applyOp m op = m) (htodo : todo ≠ []) :
    applyOps m done = m := by
  rw [List.dropLast_append_of_ne_nil htodo] at h
  exact applyOps_of_idle fun op hop => h op (List.mem_append_left _ hop)

/-- What fails at the next mutation leaves those before it in the bucket. -/
theorem Atomic.applyOps_done {e : Engine} {done rest : List BatchOp} {op : BatchOp}
    (h : Atomic e (done ++ op :: rest)) : applyOps e.bucket done = e.bucket := by
  obtain ⟨hpc, hbucket, -⟩ := run_mutations false done (op :: rest) (applyBatch e _) rfl
  have hevs : ∀ err, .flush (some err) ∉ done.flatMap opEvents ++ [.bucketOp (some ⟨""⟩)] := by
    intro err hmem
    rcases List.mem_append.mp hmem with hmem | hmem
    · exact flush_not_mem_opEvents done _ hmem
    · cases List.mem_singleton.mp hmem
  have hfail := (h false _ hevs).1 ⟨""⟩
  rw [run_concat, Applying.step, if_pos (by rw [hpc]; trivial)] at hfail
  exact hbucket.symm.trans (hfail rfl)

/-- **Oshodi batches.**  A batch is atomic if and only if all its mutations but the last
leave the bucket as it is. -/
theorem atomic_iff (e : Engine) (ops : List BatchOp) :
    Atomic e ops ↔ ∀ op ∈ ops.dropLast, applyOp e.bucket op = e.bucket := by
  constructor
  · intro h op hop
    have hne : ops ≠ [] := by
      rintro rfl
      exact absurd hop List.not_mem_nil
    obtain ⟨xs, ys, hsplit⟩ := List.append_of_mem hop
    -- both the mutations before `op`, and these with `op`, leave the bucket as it is
    have hops : ops = xs ++ op :: (ys ++ [ops.getLast hne]) := by
      conv_lhs => rw [← List.dropLast_concat_getLast hne, hsplit]
      rw [List.append_assoc, List.cons_append]
    have hbefore : applyOps e.bucket xs = e.bucket := by
      rw [hops] at h
      exact h.applyOps_done
    have hwith : applyOps e.bucket (xs ++ [op]) = e.bucket := by
      cases hys : ys ++ [ops.getLast hne] with
      | nil => simp at hys
      | cons y rest =>
          rw [hops, hys, List.append_cons] at h
          exact h.applyOps_done
    rw [applyOps_append, hbefore] at hwith
    exact hwith
  · intro h sync evs hevs w
    obtain ⟨⟨done, todo, hops, hbucket, hleft⟩, hsnaps⟩ :=
      (progress_applyBatch e ops).run sync hevs
    constructor
    · intro err herr
      have htodo : todo ≠ [] := by
        rw [show _ = Pc.returned (some err) from herr] at hleft
        exact hleft
      rw [hops] at h
      exact hbucket.trans (applyOps_of_idle_dropLast h htodo)
    · intro s hs
      obtain ⟨part, ⟨todo, rfl⟩, rfl⟩ := hsnaps s hs
      by_cases htodo : todo = []
      · right
        rw [htodo, List.append_nil]
      · left
        exact applyOps_of_idle_dropLast h htodo

/-- A set of two keys, the second of which fails. -/
theorem half_applied :
    let w := (applyBatch ⟨∅, 0⟩ [.set [0x61] [1], .set [0x62] [2]]).run false
      [.bucketOp none, .snapshot, .bucketOp (some ⟨"disk full"⟩)]
    w.pc = .returned (some ⟨"disk full"⟩) ∧ w.engine.bucket.toList = [([0x61], [1])] ∧
      w.snapshots.map (·.toList) = [[([0x61], [1])]] := by
  refine ⟨rfl, ?_, ?_⟩ <;> decide +kernel

end Oshodi

end Dpx
