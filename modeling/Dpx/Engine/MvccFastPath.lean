/-
# `Dpx.Engine.MvccFastPath` — `ApplyShardDirect` with its publish loop

The sharded proposer calls `ApplyShardDirect` under the spinlock of a shard, so calls for one
shard do not overlap; calls for different shards do, at every step.  Here the publish loop is
taken apart into its two atomic accesses: a load of `lastCommitted`, after which the call
returns if it has been overtaken, and a compare-and-swap, which either ends the call or sends
it back to the load.

With the loop taken as one step this is an `Overlap` of direct calls (`abs`, `step_refines`):
a load that returns and a swap that succeeds are the moment of publication, every other turn
of the loop is none.  So the order of versions comes from `Overlap.Ordered`.  The rest is
about the numbers alone (`Overlap.Numbered`): sequences ascend with the calls, the last one
reserved is the counter, and whoever has returned is at or below `lastCommitted`.  The counter is
a word of 64 bits (`stepWrapping`); with fewer than `2^64` writes in all it counts.
-/
import Dpx.Engine.MvccCalls

namespace Dpx

open VersionList (Sorted)

/-! ## The numbers of overlapping calls -/

namespace Overlap

/-- The numbers the calls have taken, in the order of the calls. -/
def numbers (w : Overlap) : List Nat := w.calls.map MvccCall.commitSeq

structure Numbered (w : Overlap) : Prop where
  ascending : w.numbers.Pairwise (· < ·)
  reserved : ∀ s ∈ w.numbers, s ≤ w.engine.seqCounter
  top : w.engine.seqCounter = 0 ∨ w.engine.seqCounter ∈ w.numbers
  published : ∀ c ∈ w.calls, c.published = true → c.commitSeq ≤ w.engine.lastCommitted

theorem numbered_new (sharded : Bool) : Numbered (new sharded) :=
  ⟨List.Pairwise.nil, (fun _ hc => nomatch hc), Or.inl rfl, (fun _ hc => nomatch hc)⟩

theorem Numbered.reserve {w : Overlap} (h : Numbered w) (routing : Routing) {ops : List BatchOp}
    (hops : ops ≠ []) :
    Numbered (w.afterReserve routing ops (w.engine.nextSeq ops.length)) := by
  have hlen := List.length_pos_iff.mpr hops
  have hnumbers : (w.afterReserve routing ops (w.engine.nextSeq ops.length)).numbers =
      w.numbers ++ [w.engine.seqCounter + ops.length] := by
    rw [numbers, afterReserve, List.map_append]
    rfl
  have hcounter : (w.afterReserve routing ops (w.engine.nextSeq ops.length)).engine.seqCounter =
      w.engine.seqCounter + ops.length := rfl
  refine ⟨?_, ?_, ?_, ?_⟩
  · rw [hnumbers]
    refine List.pairwise_append.mpr ⟨h.ascending, List.pairwise_singleton _ _, ?_⟩
    intro s hs t ht
    have hle := h.reserved s hs
    rw [List.mem_singleton.mp ht]
    omega
  · rw [hnumbers, hcounter]
    refine List.forall_mem_append.mpr ⟨fun s hs => ?_, List.forall_mem_singleton.mpr (le_refl _)⟩
    have hle := h.reserved s hs
    omega
  · rw [hnumbers, hcounter]
    exact Or.inr (List.mem_append_right _ (List.mem_singleton_self _))
  · exact List.forall_mem_append.mpr
      ⟨h.published, List.forall_mem_singleton.mpr fun hp => Bool.noConfusion hp⟩

theorem Numbered.replace {w : Overlap} (h : Numbered w) {n : Nat} {c c' : MvccCall}
    (hc : w.calls[n]? = some c) (hseq : c'.commitSeq = c.commitSeq) {e : MVCCEngine}
    (hcounter : e.seqCounter = w.engine.seqCounter)
    (hlast : w.engine.lastCommitted ≤ e.lastCommitted)
    (hpub : c'.published = true → c'.commitSeq ≤ e.lastCommitted) :
    Numbered { w with engine := e, calls := w.calls.set n c' } := by
  have hnumbers : numbers { w with engine := e, calls := w.calls.set n c' } = w.numbers :=
    Runs.map_set_of_eq hc hseq
  refine ⟨?_, ?_, ?_, fun d hd hp => ?_⟩
  · rw [hnumbers]
    exact h.ascending
  · rw [hnumbers, hcounter]
    exact h.reserved
  · rw [hnumbers, hcounter]
    exact h.top
  · rcases List.mem_or_eq_of_mem_set hd with hd | rfl
    · exact (h.published d hd hp).trans hlast
    · exact hpub hp

/-- A call that reserves has something to write. -/
def NonEmpty : OverlapEvent → Prop
  | .reserve _ ops => ops ≠ []
  | .write _ _ | .publish _ | .getSnapshot => True

theorem Numbered.step {w : Overlap} (h : Numbered w) {ev : OverlapEvent} (hev : NonEmpty ev) :
    Numbered (w.step ev) := by
  rcases w.step_cases ev with hsame | ⟨routing, ops, rfl, hstep⟩ | ⟨n, i, c, hc, hi, hstep⟩ |
    ⟨n, c, hc, htodo, hstep⟩ | rfl
  · rw [hsame]
    exact h
  · rw [hstep]
    exact h.reserve routing hev
  · rw [hstep, afterWrite]
    refine h.replace hc ?_ rfl (le_refl _) ?_
    · rfl
    · exact h.published c (List.mem_of_getElem? hc)
  · rw [hstep, afterPublish]
    have hmax := w.engine.publish_lastCommitted c.commitSeq
    refine h.replace hc ?_ (w.engine.publish_seqCounter c.commitSeq) ?_ fun _ => ?_
    · rfl
    · rw [hmax]
      exact le_max_left _ _
    · rw [hmax]
      exact le_max_right _ _
  · exact ⟨h.ascending, h.reserved, h.top, h.published⟩

theorem lastCommitted_le_step (w : Overlap) (ev : OverlapEvent) :
    w.engine.lastCommitted ≤ (w.step ev).engine.lastCommitted := by
  rcases w.step_cases ev with hsame | ⟨routing, ops, rfl, hstep⟩ | ⟨n, i, c, hc, hi, hstep⟩ |
    ⟨n, c, hc, htodo, hstep⟩ | rfl
  · rw [hsame]
  · rw [hstep]
    exact Nat.le_refl _
  · rw [hstep]
    exact Nat.le_refl _
  · rw [hstep]
    exact (le_max_left _ _).trans (w.engine.publish_lastCommitted c.commitSeq).ge
  · exact Nat.le_refl _

theorem Numbered.settled {w : Overlap} (h : Numbered w) (hord : Ordered w)
    (hrest : ∀ c ∈ w.calls, c.published = true) :
    w.engine.lastCommitted = w.engine.seqCounter := by
  refine Nat.le_antisymm hord.published ?_
  rcases h.top with hzero | htop
  · omega
  · obtain ⟨c, hc, hseq⟩ := List.mem_map.mp htop
    rw [← hseq]
    exact h.published c hc (hrest c hc)

end Overlap

/-! ## The calls, step by step -/

/-- Where a call is: `loaded cur` holds what the load returned. -/
inductive DirectPhase where
  | reserved
  | written
  | loaded (cur : Nat)
  | returned
  deriving DecidableEq, Repr

structure DirectCall where
  shardIdx : ShardId
  writes : List BatchOp
  commitSeq : Nat
  phase : DirectPhase

structure FastPath where
  engine : MVCCEngine
  calls : List DirectCall

inductive FastPathEvent where
  | reserve (shardIdx : ShardId) (writes : List BatchOp)
  | write (n : Nat)
  | load (n : Nat)
  | swap (n : Nat)

namespace FastPath

def new (sharded : Bool) : FastPath := ⟨.newMVCCEngine sharded, []⟩

/-- The `n`-th call goes on to `phase`. -/
def setPhase (w : FastPath) (n : Nat) (c : DirectCall) (phase : DirectPhase) : FastPath :=
  { w with calls := w.calls.set n { c with phase := phase } }

/-- A call reserves `commitSeq`. -/
def afterReserve (w : FastPath) (shardIdx : ShardId) (writes : List BatchOp) (commitSeq : Nat) :
    FastPath :=
  { engine := w.engine.reserveAt commitSeq
    calls := w.calls ++ [⟨shardIdx, writes, commitSeq, .reserved⟩] }

/-- One atomic step of the call it names, if the call is there. -/
def step (w : FastPath) : FastPathEvent → FastPath
  | .reserve shardIdx writes =>
      w.afterReserve shardIdx writes (w.engine.nextSeq writes.length)
  | .write n =>
      match w.calls[n]? with
      | none => w
      | some c =>
          if c.phase = .reserved then
            { w.setPhase n c .written with
              engine := w.engine.writeSection c.commitSeq c.shardIdx c.writes }
          else w
  | .load n =>
      match w.calls[n]? with
      | none => w
      | some c =>
          if c.phase = .written then
            let cur := w.engine.lastCommitted
            if c.commitSeq ≤ cur then w.setPhase n c .returned else w.setPhase n c (.loaded cur)
          else w
  | .swap n =>
      match w.calls[n]? with
      | none => w
      | some c =>
          match c.phase with
          | .loaded cur =>
              if w.engine.lastCommitted = cur then
                { w.setPhase n c .returned with
                  engine := { w.engine with lastCommitted := c.commitSeq } }
              else w.setPhase n c .written
          | .reserved | .written | .returned => w

/-- One atomic step, with the counter of the source. -/
def stepWrapping (w : FastPath) : FastPathEvent → FastPath
  | .reserve shardIdx writes =>
      w.afterReserve shardIdx writes (w.engine.nextSeqWrapping writes.length)
  | .write n => w.step (.write n)
  | .load n => w.step (.load n)
  | .swap n => w.step (.swap n)

/-- Calls for one shard do not overlap, and no call comes without writes. -/
def Locked (w : FastPath) : FastPathEvent → Prop
  | .reserve shardIdx writes =>
      writes ≠ [] ∧ ∀ c ∈ w.calls, c.phase ≠ .returned → c.shardIdx ≠ shardIdx
  | .write _ | .load _ | .swap _ => True

instance (w : FastPath) : ∀ ev, Decidable (Locked w ev)
  | .reserve shardIdx writes => inferInstanceAs (Decidable
      (writes ≠ [] ∧ ∀ c ∈ w.calls, c.phase ≠ .returned → c.shardIdx ≠ shardIdx))
  | .write _ | .load _ | .swap _ => inferInstanceAs (Decidable True)

/-- What a step can do: nothing, reserve, write a section, or one turn of the loop, in which
the call returns or goes on. -/
theorem step_cases (w : FastPath) (ev : FastPathEvent) :
    w.step ev = w ∨ (∃ i ws, ev = .reserve i ws) ∨
    ∃ n c, w.calls[n]? = some c ∧
      ((c.phase = .reserved ∧ w.step ev = { w.setPhase n c .written with
          engine := w.engine.writeSection c.commitSeq c.shardIdx c.writes }) ∨
        (c.phase = .written ∧ c.commitSeq ≤ w.engine.lastCommitted ∧
          w.step ev = w.setPhase n c .returned) ∨
        (c.phase = .written ∧ w.engine.lastCommitted < c.commitSeq ∧
          w.step ev = w.setPhase n c (.loaded w.engine.lastCommitted)) ∨
        (c.phase = .loaded w.engine.lastCommitted ∧ w.step ev =
          { w.setPhase n c .returned with
            engine := { w.engine with lastCommitted := c.commitSeq } }) ∨
        ((∃ cur, c.phase = .loaded cur) ∧ w.step ev = w.setPhase n c .written)) := by
  cases ev with
  | reserve i ws => exact Or.inr (Or.inl ⟨i, ws, rfl⟩)
  | write n =>
      rw [step]
      cases hc : w.calls[n]? with
      | none => exact Or.inl rfl
      | some c =>
          simp only
          split
          · rename_i hphase
            exact Or.inr (Or.inr ⟨n, c, hc, Or.inl ⟨hphase, rfl⟩⟩)
          · exact Or.inl rfl
  | load n =>
      rw [step]
      cases hc : w.calls[n]? with
      | none => exact Or.inl rfl
      | some c =>
          simp only
          split
          · rename_i hphase
            refine Or.inr (Or.inr ⟨n, c, hc, Or.inr ?_⟩)
            split
            · rename_i hle
              exact Or.inl ⟨hphase, hle, rfl⟩
            · rename_i hlt
              exact Or.inr (Or.inl ⟨hphase, Nat.lt_of_not_le hlt, rfl⟩)
          · exact Or.inl rfl
  | swap n =>
      rw [step]
      cases hc : w.calls[n]? with
      | none => exact Or.inl rfl
      | some c =>
          simp only
          cases hphase : c.phase with
          | reserved | written | returned => exact Or.inl rfl
          | loaded cur =>
              refine Or.inr (Or.inr ⟨n, c, hc, Or.inr (Or.inr (Or.inr ?_))⟩)
              simp only
              split
              · rename_i hcur
                subst hcur
                exact Or.inl ⟨hphase, rfl⟩
              · exact Or.inr ⟨⟨cur, hphase⟩, rfl⟩

end FastPath

/-! ## Publication as one step -/

/-- The call as one that publishes in one step. -/
def DirectCall.abs (c : DirectCall) : MvccCall :=
  ⟨.direct c.shardIdx, c.writes, c.commitSeq, if c.phase = .reserved then [c.shardIdx] else [],
    c.phase = .returned⟩

namespace FastPath

def abs (w : FastPath) : Overlap := ⟨w.engine, w.calls.map DirectCall.abs, []⟩

/-- What a load returned is below the call's number. -/
def Overdue (w : FastPath) : Prop :=
  ∀ c ∈ w.calls, ∀ cur, c.phase = .loaded cur → cur < c.commitSeq

theorem part_direct (i : ShardId) (ops : List BatchOp) : (Routing.direct i).part ops i = ops :=
  List.filter_eq_self.mpr fun _ _ => decide_eq_true rfl

theorem abs_getElem? {w : FastPath} {n : Nat} {c : DirectCall} (hc : w.calls[n]? = some c) :
    w.abs.calls[n]? = some c.abs := by
  rw [abs, List.getElem?_map, hc]
  rfl

theorem abs_setPhase (w : FastPath) (n : Nat) (c : DirectCall) (phase : DirectPhase) :
    (w.setPhase n c phase).abs =
      { w.abs with calls := w.abs.calls.set n (DirectCall.abs { c with phase := phase }) } := by
  rw [abs, setPhase, List.map_set]
  rfl

theorem abs_setPhase_of_eq {w : FastPath} {n : Nat} {c : DirectCall} (hc : w.calls[n]? = some c)
    {phase : DirectPhase} (h : DirectCall.abs { c with phase := phase } = c.abs) :
    (w.setPhase n c phase).abs = w.abs := by
  rw [abs, setPhase, Runs.map_set_of_eq hc h]
  rfl

theorem abs_publish {w : FastPath} {n : Nat} {c : DirectCall} (hc : w.calls[n]? = some c)
    (hwritten : c.phase ≠ .reserved) (hopen : c.phase ≠ .returned) :
    w.abs.step (.publish n) =
      { (w.setPhase n c .returned).abs with engine := w.engine.publish c.commitSeq } := by
  have htodo : c.abs.todo = [] := if_neg hwritten
  have hpub : c.abs.published = false := decide_eq_false hopen
  have hcall : DirectCall.abs { c with phase := .returned } = { c.abs with published := true } := by
    rw [DirectCall.abs, DirectCall.abs, if_neg hwritten]
    rfl
  rw [Overlap.step, abs_getElem? hc]
  simp only
  rw [if_pos ⟨htodo, hpub⟩, abs_setPhase, hcall]
  rfl

theorem abs_write {w : FastPath} {n : Nat} {c : DirectCall} (hc : w.calls[n]? = some c)
    (hphase : c.phase = .reserved) :
    w.abs.step (.write n c.shardIdx) = { (w.setPhase n c .written).abs with
      engine := w.engine.writeSection c.commitSeq c.shardIdx c.writes } := by
  have htodo : c.abs.todo = [c.shardIdx] := if_pos hphase
  have hcall : DirectCall.abs { c with phase := .written } =
      { c.abs with todo := c.abs.todo.erase c.shardIdx } := by
    rw [htodo, DirectCall.abs, DirectCall.abs, hphase]
    simp
  have hpart : c.abs.routing.part c.abs.ops c.shardIdx = c.writes :=
    part_direct c.shardIdx c.writes
  rw [Overlap.step, abs_getElem? hc]
  simp only
  rw [if_pos (by rw [htodo]; exact List.mem_singleton_self _), abs_setPhase, hcall,
    Overlap.afterWrite, hpart]
  rfl

/-- **The publish loop.**  A step of a call is a step of the same call with publication in one
step, or a turn of the loop that changes nothing. -/
theorem step_refines {w : FastPath} (h : Overdue w) (ev : FastPathEvent) :
    (w.step ev).abs = w.abs ∨ ∃ e, (w.step ev).abs = w.abs.step e ∧
      (Locked w ev → Overlap.Apart w.abs e ∧ Overlap.NonEmpty e) := by
  rcases w.step_cases ev with hsame | ⟨i, ws, rfl⟩ | ⟨n, c, hc, ⟨hphase, hstep⟩ |
    ⟨hphase, hle, hstep⟩ | ⟨hphase, -, hstep⟩ | ⟨hphase, hstep⟩ | ⟨⟨cur, hphase⟩, hstep⟩⟩
  · rw [hsame]
    exact Or.inl rfl
  · refine Or.inr ⟨.reserve (.direct i) ws, ?_, ?_⟩
    · rw [Overlap.step, if_neg (by simp), step, afterReserve, abs, List.map_append]
      rfl
    · rintro ⟨hws, hfree⟩
      refine ⟨fun c hc hopen j hj hin => ?_, hws⟩
      obtain ⟨d, hd, rfl⟩ := List.mem_map.mp hc
      rw [List.mem_singleton.mp hj] at hin
      exact hfree d hd (of_decide_eq_false hopen) (List.mem_singleton.mp hin).symm
  · refine Or.inr ⟨.write n c.shardIdx, ?_, fun _ => ⟨trivial, trivial⟩⟩
    rw [hstep, abs_write hc hphase]
    rfl
  · refine Or.inr ⟨.publish n, ?_, fun _ => ⟨trivial, trivial⟩⟩
    rw [hstep, abs_publish hc (by simp [hphase]) (by simp [hphase]), MVCCEngine.publish,
      if_pos hle]
    rfl
  · rw [hstep]
    exact Or.inl (abs_setPhase_of_eq hc (by simp [DirectCall.abs, hphase]))
  · have hlt := h c (List.mem_of_getElem? hc) _ hphase
    refine Or.inr ⟨.publish n, ?_, fun _ => ⟨trivial, trivial⟩⟩
    rw [hstep, abs_publish hc (by simp [hphase]) (by simp [hphase]), MVCCEngine.publish,
      if_neg (by omega)]
    rfl
  · rw [hstep]
    exact Or.inl (abs_setPhase_of_eq hc (by simp [DirectCall.abs, hphase]))

theorem Overdue.setPhase {w : FastPath} (h : Overdue w) {n : Nat} {c : DirectCall}
    {phase : DirectPhase} (hphase : ∀ cur, phase = .loaded cur → cur < c.commitSeq) :
    Overdue (w.setPhase n c phase) :=
  Runs.forall_mem_set h hphase

theorem Overdue.step {w : FastPath} (h : Overdue w) (ev : FastPathEvent) :
    Overdue (w.step ev) := by
  rcases w.step_cases ev with hsame | ⟨i, ws, rfl⟩ | ⟨n, c, hc, ⟨-, hstep⟩ | ⟨-, -, hstep⟩ |
    ⟨-, hlt, hstep⟩ | ⟨-, hstep⟩ | ⟨-, hstep⟩⟩
  · rw [hsame]
    exact h
  · exact List.forall_mem_append.mpr
      ⟨h, List.forall_mem_singleton.mpr fun cur hcur => nomatch hcur⟩
  · rw [hstep]
    exact h.setPhase fun cur hcur => nomatch hcur
  · rw [hstep]
    exact h.setPhase fun cur hcur => nomatch hcur
  · rw [hstep]
    refine h.setPhase fun cur hcur => ?_
    obtain rfl := DirectPhase.loaded.inj hcur
    exact hlt
  · rw [hstep]
    exact h.setPhase fun cur hcur => nomatch hcur
  · rw [hstep]
    exact h.setPhase fun cur hcur => nomatch hcur

end FastPath

/-! ## Every interleaving -/

/-- How many writes a call comes with. -/
def FastPathEvent.writes : FastPathEvent → Nat
  | .reserve _ ws => ws.length
  | .write _ | .load _ | .swap _ => 0

namespace FastPath

theorem stepWrapping_eq (w : FastPath) (ev : FastPathEvent)
    (h : w.engine.seqCounter + ev.writes < 2 ^ 64) : w.stepWrapping ev = w.step ev := by
  cases ev with
  | reserve i ws => rw [stepWrapping, step, MVCCEngine.nextSeqWrapping_eq (n := ws.length) h]
  | write n | load n | swap n => rfl

theorem seqCounter_step_le (w : FastPath) (ev : FastPathEvent) :
    (w.step ev).engine.seqCounter ≤ w.engine.seqCounter + ev.writes := by
  rcases w.step_cases ev with hsame | ⟨i, ws, rfl⟩ | ⟨n, c, -, ⟨-, hstep⟩ | ⟨-, -, hstep⟩ |
    ⟨-, -, hstep⟩ | ⟨-, hstep⟩ | ⟨-, hstep⟩⟩
  · rw [hsame]
    exact Nat.le_add_right _ _
  · exact Nat.le_refl _
  all_goals
    rw [hstep]
    exact Nat.le_add_right _ _

section Few

variable (sharded : Bool) {events : List FastPathEvent}
  (hfew : (events.map FastPathEvent.writes).sum < 2 ^ 64)

include hfew

theorem states_stepWrapping :
    Runs.states stepWrapping (new sharded) events = Runs.states step (new sharded) events :=
  Runs.states_eq_of_bound stepWrapping_eq seqCounter_step_le events _
    (by rwa [show (new sharded).engine.seqCounter = 0 from rfl, Nat.zero_add])

theorem moves_stepWrapping :
    Runs.moves stepWrapping (new sharded) events = Runs.moves step (new sharded) events :=
  Runs.moves_eq_of_states_eq (states_stepWrapping sharded hfew)

end Few

/-- What every step keeps. -/
structure Sound (w : FastPath) : Prop where
  overdue : Overdue w
  ordered : w.abs.Ordered
  numbered : w.abs.Numbered

theorem sound_new (sharded : Bool) : Sound (new sharded) :=
  ⟨(fun _ hc => nomatch hc), Overlap.ordered_new sharded, Overlap.numbered_new sharded⟩

theorem Sound.step {w : FastPath} (h : Sound w) {ev : FastPathEvent} (hev : Locked w ev) :
    Sound (w.step ev) := by
  have hover := h.overdue.step ev
  rcases step_refines h.overdue ev with hsame | ⟨e, hstep, hok⟩
  · exact ⟨hover, hsame ▸ h.ordered, hsame ▸ h.numbered⟩
  · obtain ⟨hapart, hne⟩ := hok hev
    exact ⟨hover, hstep ▸ h.ordered.step hapart, hstep ▸ h.numbered.step hne⟩

theorem Sound.lastCommitted_le_step {w : FastPath} (h : Sound w) (ev : FastPathEvent) :
    w.engine.lastCommitted ≤ (w.step ev).engine.lastCommitted := by
  show w.abs.engine.lastCommitted ≤ (w.step ev).abs.engine.lastCommitted
  rcases step_refines h.overdue ev with hsame | ⟨e, hstep, -⟩
  · rw [hsame]
  · rw [hstep]
    exact Overlap.lastCommitted_le_step w.abs e

theorem Sound.lastCommitted_le {w : FastPath} (h : Sound w) (ev : FastPathEvent) :
    w.engine.lastCommitted ≤ (w.stepWrapping ev).engine.lastCommitted := by
  cases ev with
  | reserve i ws => exact Nat.le_refl _
  | write n | load n | swap n => exact h.lastCommitted_le_step _

/-- Sequences are distinct, versions are sorted, and while no call is under way the last
sequence reserved is the one published. -/
structure Published (w : FastPath) : Prop where
  distinct : ∀ (m n : Nat) (c d : DirectCall), m ≠ n → w.calls[m]? = some c →
    w.calls[n]? = some d → c.commitSeq ≠ d.commitSeq
  sorted : ∀ i k, Sorted MvccEntry.seq (w.engine.versions i k)
  settled : (∀ c ∈ w.calls, c.phase = .returned) →
    w.engine.lastCommitted = w.engine.seqCounter

theorem Sound.published {w : FastPath} (h : Sound w) : Published w where
  distinct := by
    intro m n c d hmn hc hd heq
    have hnodup : w.abs.numbers.Nodup := h.numbered.ascending.imp Nat.ne_of_lt
    have hnumber : ∀ {n : Nat} {c : DirectCall}, w.calls[n]? = some c →
        w.abs.numbers[n]? = some c.commitSeq := by
      intro n c hc
      rw [Overlap.numbers, List.getElem?_map, abs_getElem? hc]
      rfl
    have hlt : m < w.abs.numbers.length := (List.getElem?_eq_some_iff.mp (hnumber hc)).1
    refine hmn ((List.getElem?_inj hlt hnodup).mp ?_)
    rw [hnumber hc, hnumber hd, heq]
  sorted := h.ordered.sorted
  settled := by
    intro hrest
    refine h.numbered.settled h.ordered fun c hc => ?_
    obtain ⟨d, hd, rfl⟩ := List.mem_map.mp hc
    exact decide_eq_true (hrest d hd)

/-- **The fast path.**  In every interleaving of direct calls with writes, fewer than `2^64` in
all, the calls for one shard one after the other: at every point all commit sequences are
distinct, the versions of every key in every shard are sorted, and if no call is under way
`lastCommitted` is the counter; and no step lowers `lastCommitted`. -/
theorem fast_path_ordered (sharded : Bool) {events : List FastPathEvent}
    (hfew : (events.map FastPathEvent.writes).sum < 2 ^ 64)
    (h : ∀ m ∈ Runs.moves stepWrapping (new sharded) events, Locked m.1 m.2) :
    (∀ w ∈ Runs.states stepWrapping (new sharded) events, Published w) ∧
      ∀ m ∈ Runs.moves stepWrapping (new sharded) events,
        m.1.engine.lastCommitted ≤ (m.1.stepWrapping m.2).engine.lastCommitted := by
  rw [moves_stepWrapping sharded hfew] at h ⊢
  rw [states_stepWrapping sharded hfew]
  have hsound : ∀ w ∈ Runs.states step (new sharded) events, Sound w :=
    Runs.invariant (fun _ _ hw hev => hw.step hev) (sound_new sharded) h
  exact ⟨fun w hw => (hsound w hw).published,
    fun m hm => (hsound m.1 (Runs.mem_states_of_mem_moves hm)).lastCommitted_le m.2⟩

/-- Two calls load `lastCommitted` before either has swapped; the first swap fails and the
call goes round again. -/
def raced : List FastPathEvent :=
  [.reserve (shardFor [0x61]) [.set [0x61] [1]], .reserve (shardFor [0x62]) [.set [0x62] [1]],
    .write 0, .write 1, .load 0, .load 1, .swap 1, .swap 0, .load 0]

theorem raced_published :
    Published (raced.foldl stepWrapping (new true)) ∧
      (raced.foldl stepWrapping (new true)).engine.lastCommitted = 2 := by
  have hlocked : ∀ m ∈ Runs.moves stepWrapping (new true) raced, Locked m.1 m.2 := by decide +kernel
  have hpub : Published (raced.foldl stepWrapping (new true)) :=
    (fast_path_ordered true (by decide) hlocked).1 _ (Runs.foldl_mem_states raced (new true))
  exact ⟨hpub, hpub.settled (by decide +kernel)⟩

end FastPath

end Dpx
