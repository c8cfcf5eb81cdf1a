/-
# `Dpx.Batcher` — how many proposals are held back at once

In distributed mode `runOnce` calls `Batcher.Wait` before it proposes.  A call counts itself in,
compares the counters with the thresholds of the config it has loaded and either goes on at once or
is delayed for a clamped time; when it leaves it counts itself out.  The counters are changed and
read one atomic operation at a time, the config may be replaced at any moment.  The average of the
times between calls, a floating-point number, is not modelled: the age before it is clamped is any
number.

`delays_bounded`: although a call compares after it has counted itself in, and others may do so in
between, the calls that are delayed at one time are fewer than `MaxEntries` and have fewer bytes
than `MaxBytes`.  The argument is about the last of them to look: by then all of them were counted.
-/
import Dpx.Lib.Turns

namespace Dpx

/-- `BatchConfig` without the two parameters of the average. -/
structure BatchConfig where
  maxEntries : Int64
  maxBytes : Int64
  minAge : Int64
  maxAge : Int64
  deriving DecidableEq, Repr

def clampDuration (d min max : Int64) : Int64 :=
  if d < min then min else if d > max then max else d

/-- Where a call of `Wait` stands; a `Bool` is whether it returns the error of its context. -/
inductive WaitPhase where
  | called
  | loaded (cfg : BatchConfig)
  | entered (cfg : BatchConfig)
  | weighed (cfg : BatchConfig)
  | sparse (cfg : BatchConfig)
  | light (cfg : BatchConfig)
  | delayed (cfg : BatchConfig) (age : Int64)
  | leaving (err : Bool)
  | left (err : Bool)
  | returned (err : Bool)
  deriving DecidableEq, Repr

structure WaitCall where
  proposalBytes : Nat
  phase : WaitPhase
  deriving DecidableEq, Repr

structure Batcher where
  cfg : BatchConfig
  inFlight : Int64
  inBytes : Int64
  calls : List WaitCall
  deriving DecidableEq, Repr

/-- A turn of a call comes with what the call finds outside: whether its context is done, and the
flush age before it is clamped, `time.Second * K * ema`. -/
inductive BatchEvent where
  | setConfig (cfg : BatchConfig)
  | wait (proposalBytes : Nat)
  | turn (n : Nat) (ctxDone : Bool) (raw : Int64)
  deriving DecidableEq, Repr

namespace Batcher

def newBatcher (cfg : BatchConfig) : Batcher := ⟨cfg, 0, 0, []⟩

/-- The next operation of a call of `Wait`: the counters, and where the call stands then. -/
def advance (b : Batcher) (c : WaitCall) (ctxDone : Bool) (raw : Int64) :
    Int64 × Int64 × WaitPhase :=
  match c.phase with
  | .called => (b.inFlight, b.inBytes, .loaded b.cfg)
  | .loaded cfg => (b.inFlight + 1, b.inBytes, .entered cfg)
  | .entered cfg => (b.inFlight, b.inBytes + Int64.ofNat c.proposalBytes, .weighed cfg)
  | .weighed cfg =>
      (b.inFlight, b.inBytes, if b.inFlight ≥ cfg.maxEntries then .leaving ctxDone else .sparse cfg)
  | .sparse cfg =>
      (b.inFlight, b.inBytes, if b.inBytes ≥ cfg.maxBytes then .leaving ctxDone else .light cfg)
  | .light cfg =>
      (b.inFlight, b.inBytes, .delayed cfg (clampDuration raw cfg.minAge cfg.maxAge))
  | .delayed _ _ => (b.inFlight, b.inBytes, .leaving ctxDone)
  | .leaving err => (b.inFlight + -1, b.inBytes, .left err)
  | .left err => (b.inFlight, b.inBytes + -Int64.ofNat c.proposalBytes, .returned err)
  | .returned err => (b.inFlight, b.inBytes, .returned err)

def step (b : Batcher) : BatchEvent → Batcher
  | .setConfig cfg => { b with cfg := cfg }
  | .wait proposalBytes => { b with calls := b.calls ++ [⟨proposalBytes, .called⟩] }
  | .turn n ctxDone raw =>
      match b.calls[n]? with
      | none => b
      | some c =>
          let next := b.advance c ctxDone raw
          { b with
            inFlight := next.1
            inBytes := next.2.1
            calls := b.calls.set n { c with phase := next.2.2 } }

end Batcher

/-! ## What the counters count -/

namespace WaitPhase

/-- Between the two changes of `inFlight`. -/
def counted : WaitPhase → Bool
  | .entered _ | .weighed _ | .sparse _ | .light _ | .delayed _ _ | .leaving _ => true
  | _ => false

/-- Between the two changes of `inBytes`. -/
def carried : WaitPhase → Bool
  | .weighed _ | .sparse _ | .light _ | .delayed _ _ | .leaving _ | .left _ => true
  | _ => false

/-- Past the first threshold, and to be delayed unless the second one stops it. -/
def few : WaitPhase → Bool
  | .sparse _ | .light _ | .delayed _ _ => true
  | _ => false

/-- Past both thresholds. -/
def small : WaitPhase → Bool
  | .light _ | .delayed _ _ => true
  | _ => false

/-- The config the call goes by, once it has loaded it. -/
def config? : WaitPhase → Option BatchConfig
  | .loaded cfg | .entered cfg | .weighed cfg => some cfg
  | .sparse cfg | .light cfg | .delayed cfg _ => some cfg
  | _ => none

end WaitPhase

namespace WaitCall

/-- What the call adds to a total over the calls in some phases. -/
def share (size : WaitCall → Nat) (p : WaitPhase → Bool) (c : WaitCall) : Nat :=
  bif p c.phase then size c else 0

variable {size : WaitCall → Nat} {p : WaitPhase → Bool} {c : WaitCall}

theorem share_true (h : p c.phase = true) : c.share size p = size c := by
  rw [share, h]
  rfl

theorem share_false (h : p c.phase = false) : c.share size p = 0 := by
  rw [share, h]
  rfl

end WaitCall

namespace Batcher

def total (b : Batcher) (size : WaitCall → Nat) (p : WaitPhase → Bool) : Nat :=
  (b.calls.map (WaitCall.share size p)).sum

/-- How many calls are in these phases. -/
def number (b : Batcher) (p : WaitPhase → Bool) : Nat := b.total (fun _ => 1) p

/-- How many bytes they have. -/
def weight (b : Batcher) (p : WaitPhase → Bool) : Nat := b.total WaitCall.proposalBytes p

/-- How many bytes all calls have. -/
def volume (b : Batcher) : Nat := (b.calls.map WaitCall.proposalBytes).sum

theorem total_mono (b : Batcher) {size : WaitCall → Nat} {p q : WaitPhase → Bool}
    (h : ∀ ph, p ph = true → q ph = true) : b.total size p ≤ b.total size q := by
  refine List.sum_le_sum fun c _ => ?_
  cases hp : p c.phase with
  | false =>
      rw [WaitCall.share_false hp]
      exact Nat.zero_le _
  | true => rw [WaitCall.share_true hp, WaitCall.share_true (h _ hp)]

theorem number_le_length (b : Batcher) (p : WaitPhase → Bool) : b.number p ≤ b.calls.length := by
  have h : b.number p ≤ b.number fun _ => true := b.total_mono fun _ _ => rfl
  have hall : b.number (fun _ => true) = b.calls.length := by
    show (b.calls.map fun _ => 1).sum = _
    simp
  exact hall ▸ h

theorem weight_le_volume (b : Batcher) (p : WaitPhase → Bool) : b.weight p ≤ b.volume :=
  b.total_mono (q := fun _ => true) fun _ _ => rfl

/-- The counters count the calls between their two changes, modulo `2 ^ 64`. -/
structure Counts (b : Batcher) : Prop where
  inFlight : b.inFlight = Int64.ofNat (b.number WaitPhase.counted)
  inBytes : b.inBytes = Int64.ofNat (b.weight WaitPhase.carried)

section Turn

variable {b : Batcher} {c : WaitCall} (ctxDone : Bool) (raw : Int64)

/-- The call after its turn. -/
def next (b : Batcher) (c : WaitCall) (ctxDone : Bool) (raw : Int64) : WaitCall :=
  { c with phase := (b.advance c ctxDone raw).2.2 }

theorem advance_counters (b : Batcher) (c : WaitCall) :
    (b.advance c ctxDone raw).1 + .ofNat (c.share (fun _ => 1) WaitPhase.counted) =
        b.inFlight + .ofNat ((b.next c ctxDone raw).share (fun _ => 1) WaitPhase.counted) ∧
      (b.advance c ctxDone raw).2.1 + .ofNat (c.share (·.proposalBytes) WaitPhase.carried) =
        b.inBytes + .ofNat ((b.next c ctxDone raw).share (·.proposalBytes) WaitPhase.carried) := by
  obtain ⟨n, ph⟩ := c
  cases ph with
  | weighed cfg =>
      simp only [next, advance, WaitCall.share]
      rcases ite_eq_or_eq (b.inFlight ≥ cfg.maxEntries) (WaitPhase.leaving ctxDone) (.sparse cfg)
        with h | h
      · rw [h]
        exact ⟨rfl, rfl⟩
      · rw [h]
        exact ⟨rfl, rfl⟩
  | sparse cfg =>
      simp only [next, advance, WaitCall.share]
      rcases ite_eq_or_eq (b.inBytes ≥ cfg.maxBytes) (WaitPhase.leaving ctxDone) (.light cfg)
        with h | h
      · rw [h]
        exact ⟨rfl, rfl⟩
      · rw [h]
        exact ⟨rfl, rfl⟩
  | loaded cfg => exact ⟨Int64.add_zero _, rfl⟩
  | entered cfg => exact ⟨rfl, Int64.add_zero _⟩
  | leaving err =>
      refine ⟨?_, rfl⟩
      show b.inFlight + -1 + 1 = b.inFlight + 0
      rw [Int64.add_assoc, Int64.add_left_neg]
  | left err =>
      refine ⟨rfl, ?_⟩
      show b.inBytes + -Int64.ofNat n + Int64.ofNat n = b.inBytes + 0
      rw [Int64.add_assoc, Int64.add_left_neg]
  | _ => exact ⟨rfl, rfl⟩

theorem few_of_next (hnew : (b.next c ctxDone raw).phase.few = true) (hold : c.phase.few = false) :
    ∃ cfg, c.phase = .weighed cfg ∧ b.inFlight < cfg.maxEntries := by
  obtain ⟨n, ph⟩ := c
  cases ph with
  | weighed cfg =>
      refine ⟨cfg, rfl, ?_⟩
      simp only [next, advance] at hnew
      split at hnew
      · cases hnew
      · rename_i hlt
        exact Int64.not_le.mp hlt
  | sparse cfg => cases hold
  | light cfg => cases hold
  | delayed cfg age => cases hold
  | _ => cases hnew

theorem small_of_next (hnew : (b.next c ctxDone raw).phase.small = true)
    (hold : c.phase.small = false) :
    ∃ cfg, c.phase = .sparse cfg ∧ b.inBytes < cfg.maxBytes := by
  obtain ⟨n, ph⟩ := c
  cases ph with
  | sparse cfg =>
      refine ⟨cfg, rfl, ?_⟩
      simp only [next, advance] at hnew
      split at hnew
      · cases hnew
      · rename_i hlt
        exact Int64.not_le.mp hlt
  | weighed cfg =>
      simp only [next, advance] at hnew
      split at hnew <;> cases hnew
  | light cfg => cases hold
  | delayed cfg age => cases hold
  | _ => cases hnew

theorem config_of_next {cfg : BatchConfig}
    (h : (b.next c ctxDone raw).phase.config? = some cfg) :
    cfg = b.cfg ∨ c.phase.config? = some cfg := by
  obtain ⟨n, ph⟩ := c
  cases ph with
  | called =>
      cases h
      exact Or.inl rfl
  | weighed cfg' =>
      simp only [next, advance] at h
      split at h
      · cases h
      · exact Or.inr h
  | sparse cfg' =>
      simp only [next, advance] at h
      split at h
      · cases h
      · exact Or.inr h
  | loaded cfg' => exact Or.inr h
  | entered cfg' => exact Or.inr h
  | light cfg' => exact Or.inr h
  | _ => cases h

theorem age_of_next {cfg : BatchConfig} {age : Int64}
    (h : (b.next c ctxDone raw).phase = .delayed cfg age) :
    c.phase = .light cfg ∧ age = clampDuration raw cfg.minAge cfg.maxAge := by
  obtain ⟨n, ph⟩ := c
  cases ph with
  | light cfg' =>
      cases h
      exact ⟨rfl, rfl⟩
  | weighed cfg' =>
      simp only [next, advance] at h
      split at h <;> cases h
  | sparse cfg' =>
      simp only [next, advance] at h
      split at h <;> cases h
  | _ => cases h

end Turn

theorem clampDuration_bounds {d min max : Int64} (h : min ≤ max) :
    min ≤ clampDuration d min max ∧ clampDuration d min max ≤ max := by
  rw [clampDuration]
  split
  · exact ⟨Int64.le_refl _, h⟩
  · rename_i hmin
    split
    · exact ⟨h, Int64.le_refl _⟩
    · rename_i hmax
      exact ⟨Int64.not_lt.mp hmin, Int64.not_lt.mp hmax⟩

/-! ## Every run -/

/-- The thresholds are at most `M` calls and `B` bytes, and the ages are in order. -/
structure Within (M B : Int) (cfg : BatchConfig) : Prop where
  entries : cfg.maxEntries.toInt ≤ M
  bytes : cfg.maxBytes.toInt ≤ B
  ages : cfg.minAge ≤ cfg.maxAge

/-- The counters are right, and those about to be delayed, or delayed, are below the thresholds. -/
structure Kept (M B : Int) (b : Batcher) : Prop extends Counts b where
  few : b.number WaitPhase.few = 0 ∨ (b.number WaitPhase.few : Int) < M
  small : b.number WaitPhase.small = 0 ∨ (b.weight WaitPhase.small : Int) < B
  cfg : Within M B b.cfg
  configs : ∀ c ∈ b.calls, ∀ cfg, c.phase.config? = some cfg → Within M B cfg
  ages : ∀ c ∈ b.calls, ∀ cfg age, c.phase = .delayed cfg age →
    cfg.minAge ≤ age ∧ age ≤ cfg.maxAge

theorem kept_new {M B : Int} {cfg : BatchConfig} (h : Within M B cfg) :
    Kept M B (newBatcher cfg) where
  inFlight := rfl
  inBytes := rfl
  few := Or.inl rfl
  small := Or.inl rfl
  cfg := h
  configs := fun _ hc => absurd hc List.not_mem_nil
  ages := fun _ hc => absurd hc List.not_mem_nil

theorem size_step (b : Batcher) (ev : BatchEvent) :
    b.calls.length ≤ (b.step ev).calls.length ∧ b.volume ≤ (b.step ev).volume := by
  cases ev with
  | setConfig cfg => exact ⟨Nat.le_refl _, Nat.le_refl _⟩
  | wait n =>
      refine ⟨?_, ?_⟩
      · show b.calls.length ≤ (b.calls ++ [_]).length
        rw [List.length_append]
        exact Nat.le_add_right _ _
      · show b.volume ≤ ((b.calls ++ [_]).map WaitCall.proposalBytes).sum
        rw [List.map_append, List.sum_append]
        exact Nat.le_add_right _ _
  | turn n ctxDone raw =>
      rw [step]
      cases hc : b.calls[n]? with
      | none => exact ⟨Nat.le_refl _, Nat.le_refl _⟩
      | some c =>
          refine ⟨(List.length_set).ge, ?_⟩
          have hsum := Pool.sum_map_set (b := b.next c ctxDone raw) hc WaitCall.proposalBytes
          exact Nat.le_of_add_le_add_right hsum.ge

theorem Kept.wait {M B : Int} {b : Batcher} (h : Kept M B b) (n : Nat) :
    Kept M B (b.step (.wait n)) := by
  have htotal : ∀ (size : WaitCall → Nat) (p : WaitPhase → Bool), p .called = false →
      (b.step (.wait n)).total size p = b.total size p := by
    intro size p hp
    show ((b.calls ++ [_]).map (WaitCall.share size p)).sum = _
    rw [List.map_append, List.sum_append]
    simp [total, WaitCall.share, hp]
  have hnumber : ∀ p : WaitPhase → Bool, p .called = false →
      (b.step (.wait n)).number p = b.number p := htotal _
  have hweight : ∀ p : WaitPhase → Bool, p .called = false →
      (b.step (.wait n)).weight p = b.weight p := htotal _
  refine ⟨⟨?_, ?_⟩, ?_, ?_, h.cfg, ?_, ?_⟩
  · rw [hnumber _ rfl]
    exact h.inFlight
  · rw [hweight _ rfl]
    exact h.inBytes
  · rw [hnumber _ rfl]
    exact h.few
  · rw [hnumber _ rfl, hweight _ rfl]
    exact h.small
  · refine List.forall_mem_append.mpr ⟨h.configs, List.forall_mem_singleton.mpr ?_⟩
    intro cfg hcfg
    cases hcfg
  · refine List.forall_mem_append.mpr ⟨h.ages, List.forall_mem_singleton.mpr ?_⟩
    intro cfg age hage
    cases hage

theorem total_turn {b : Batcher} {n : Nat} {c : WaitCall} (hc : b.calls[n]? = some c)
    (ctxDone : Bool) (raw : Int64) (size : WaitCall → Nat) (p : WaitPhase → Bool) :
    (b.step (.turn n ctxDone raw)).total size p + c.share size p =
      b.total size p + (b.next c ctxDone raw).share size p := by
  rw [step, hc]
  exact Pool.sum_map_set hc (WaitCall.share size p)

section Kept

variable {M B : Int} {b : Batcher} {n : Nat} {c : WaitCall} {ctxDone : Bool} {raw : Int64}

theorem Counts.turn (h : Counts b) (hc : b.calls[n]? = some c) :
    Counts (b.step (.turn n ctxDone raw)) := by
  obtain ⟨hflight, hbytes⟩ := advance_counters ctxDone raw b c
  have hnumber := congrArg Int64.ofNat (total_turn hc ctxDone raw (fun _ => 1) WaitPhase.counted)
  have hweight := congrArg Int64.ofNat
    (total_turn hc ctxDone raw WaitCall.proposalBytes WaitPhase.carried)
  rw [Int64.ofNat_add, Int64.ofNat_add] at hnumber hweight
  have hstep : (b.step (.turn n ctxDone raw)).inFlight = (b.advance c ctxDone raw).1 ∧
      (b.step (.turn n ctxDone raw)).inBytes = (b.advance c ctxDone raw).2.1 := by
    rw [step, hc]
    exact ⟨rfl, rfl⟩
  refine ⟨?_, ?_⟩
  · rw [hstep.1]
    refine (Int64.add_left_inj (.ofNat (c.share (fun _ => 1) WaitPhase.counted))).mp ?_
    rw [hflight, h.inFlight]
    exact hnumber.symm
  · rw [hstep.2]
    refine (Int64.add_left_inj (.ofNat (c.share (·.proposalBytes) WaitPhase.carried))).mp ?_
    rw [hbytes, h.inBytes]
    exact hweight.symm

theorem counted_of_few (ph : WaitPhase) (h : ph.few = true) : ph.counted = true := by
  cases ph with
  | sparse | light | delayed => rfl
  | _ => cases h

theorem carried_of_small (ph : WaitPhase) (h : ph.small = true) : ph.carried = true := by
  cases ph with
  | light | delayed => rfl
  | _ => cases h

/-- Those past the first threshold have all been counted when the last of them looked. -/
theorem Kept.few_turn (h : Kept M B b) (hlen : b.calls.length < 2 ^ 63)
    (hc : b.calls[n]? = some c) :
    (b.step (.turn n ctxDone raw)).number WaitPhase.few = 0 ∨
      ((b.step (.turn n ctxDone raw)).number WaitPhase.few : Int) < M := by
  have hfew : (b.step (.turn n ctxDone raw)).number WaitPhase.few + _ =
      b.number WaitPhase.few + _ := total_turn hc ctxDone raw (fun _ => 1) WaitPhase.few
  have hkept := h.few
  cases hnew : (b.next c ctxDone raw).phase.few with
  | false =>
      rw [WaitCall.share_false hnew] at hfew
      omega
  | true =>
      cases hold : c.phase.few with
      | true =>
          rw [WaitCall.share_true hnew, WaitCall.share_true hold] at hfew
          omega
      | false =>
          obtain ⟨cfg, hphase, hlt⟩ := few_of_next ctxDone raw hnew hold
          have hle : (b.step (.turn n ctxDone raw)).number WaitPhase.few ≤
              (b.step (.turn n ctxDone raw)).number WaitPhase.counted :=
            total_mono _ counted_of_few
          have hcount : (b.step (.turn n ctxDone raw)).number WaitPhase.counted + _ =
              b.number WaitPhase.counted + _ :=
            total_turn hc ctxDone raw (fun _ => 1) WaitPhase.counted
          rw [WaitCall.share_true (counted_of_few _ hnew),
            WaitCall.share_true (hphase ▸ rfl)] at hcount
          have hflight : b.inFlight.toInt = b.number WaitPhase.counted := by
            rw [h.inFlight]
            exact Int64.toInt_ofNat_of_lt (Nat.lt_of_le_of_lt (b.number_le_length _) hlen)
          have hmax := (h.configs c (List.mem_of_getElem? hc) cfg (hphase ▸ rfl)).entries
          have hlt' := Int64.lt_iff_toInt_lt.mp hlt
          omega

/-- The bytes of those past both have all been counted when the last of them looked. -/
theorem Kept.small_turn (h : Kept M B b) (hvol : b.volume < 2 ^ 63)
    (hc : b.calls[n]? = some c) :
    (b.step (.turn n ctxDone raw)).number WaitPhase.small = 0 ∨
      ((b.step (.turn n ctxDone raw)).weight WaitPhase.small : Int) < B := by
  have hnumber : (b.step (.turn n ctxDone raw)).number WaitPhase.small + _ =
      b.number WaitPhase.small + _ := total_turn hc ctxDone raw (fun _ => 1) WaitPhase.small
  have hweight : (b.step (.turn n ctxDone raw)).weight WaitPhase.small + _ =
      b.weight WaitPhase.small + _ := total_turn hc ctxDone raw (·.proposalBytes) WaitPhase.small
  have hkept := h.small
  cases hnew : (b.next c ctxDone raw).phase.small with
  | false =>
      rw [WaitCall.share_false hnew] at hnumber
      rw [WaitCall.share_false hnew] at hweight
      omega
  | true =>
      cases hold : c.phase.small with
      | true =>
          rw [WaitCall.share_true hnew, WaitCall.share_true hold] at hnumber
          rw [WaitCall.share_true hnew, WaitCall.share_true hold] at hweight
          have hsize : (b.next c ctxDone raw).proposalBytes = c.proposalBytes := rfl
          omega
      | false =>
          obtain ⟨cfg, hphase, hlt⟩ := small_of_next ctxDone raw hnew hold
          have hle : (b.step (.turn n ctxDone raw)).weight WaitPhase.small ≤
              (b.step (.turn n ctxDone raw)).weight WaitPhase.carried :=
            total_mono _ carried_of_small
          have hcount : (b.step (.turn n ctxDone raw)).weight WaitPhase.carried + _ =
              b.weight WaitPhase.carried + _ :=
            total_turn hc ctxDone raw WaitCall.proposalBytes WaitPhase.carried
          rw [WaitCall.share_true (carried_of_small _ hnew),
            WaitCall.share_true (hphase ▸ rfl)] at hcount
          have hsize : (b.next c ctxDone raw).proposalBytes = c.proposalBytes := rfl
          have hbytes : b.inBytes.toInt = b.weight WaitPhase.carried := by
            rw [h.inBytes]
            exact Int64.toInt_ofNat_of_lt (Nat.lt_of_le_of_lt (b.weight_le_volume _) hvol)
          have hmax := (h.configs c (List.mem_of_getElem? hc) cfg (hphase ▸ rfl)).bytes
          have hlt' := Int64.lt_iff_toInt_lt.mp hlt
          omega

theorem Kept.step {ev : BatchEvent} (h : Kept M B b) (hlen : b.calls.length < 2 ^ 63)
    (hvol : b.volume < 2 ^ 63) (hev : ∀ cfg, ev = .setConfig cfg → Within M B cfg) :
    Kept M B (b.step ev) := by
  cases ev with
  | setConfig cfg =>
      exact ⟨⟨h.inFlight, h.inBytes⟩, h.few, h.small, hev cfg rfl, h.configs, h.ages⟩
  | wait size => exact h.wait size
  | turn n ctxDone raw =>
      cases hc : b.calls[n]? with
      | none =>
          rw [Batcher.step, hc]
          exact h
      | some c =>
          have hcalls : (b.step (.turn n ctxDone raw)).calls =
              b.calls.set n (b.next c ctxDone raw) := by
            rw [Batcher.step, hc]
            rfl
          have hcfg : (b.step (.turn n ctxDone raw)).cfg = b.cfg := by
            rw [Batcher.step, hc]
          refine ⟨h.toCounts.turn hc, h.few_turn hlen hc, h.small_turn hvol hc, hcfg ▸ h.cfg,
            fun c' hc' => ?_, fun c' hc' => ?_⟩
          · intro cfg hload
            rw [hcalls] at hc'
            rcases List.mem_or_eq_of_mem_set hc' with hold | rfl
            · exact h.configs c' hold cfg hload
            · rcases config_of_next ctxDone raw hload with rfl | hold
              · exact h.cfg
              · exact h.configs c (List.mem_of_getElem? hc) cfg hold
          · intro cfg age hage
            rw [hcalls] at hc'
            rcases List.mem_or_eq_of_mem_set hc' with hold | rfl
            · exact h.ages c' hold cfg age hage
            · obtain ⟨hlight, rfl⟩ := age_of_next ctxDone raw hage
              exact clampDuration_bounds
                (h.configs c (List.mem_of_getElem? hc) cfg (hlight ▸ rfl)).ages

end Kept

theorem kept_run {M B : Int} {cfg : BatchConfig} (hcfg : Within M B cfg) {events : List BatchEvent}
    (hset : ∀ cfg', .setConfig cfg' ∈ events → Within M B cfg')
    (hlen : (events.foldl step (newBatcher cfg)).calls.length < 2 ^ 63)
    (hvol : (events.foldl step (newBatcher cfg)).volume < 2 ^ 63) :
    Kept M B (events.foldl step (newBatcher cfg)) := by
  induction events using List.reverseRecOn with
  | nil => exact kept_new hcfg
  | append_singleton events ev ih =>
      rw [List.foldl_append] at hlen hvol ⊢
      obtain ⟨hle, hle'⟩ := size_step (events.foldl step (newBatcher cfg)) ev
      have hlen' := Nat.lt_of_le_of_lt hle hlen
      have hvol' := Nat.lt_of_le_of_lt hle' hvol
      have hkept := ih (fun cfg' h => hset cfg' (List.mem_append_left _ h)) hlen' hvol'
      refine hkept.step hlen' hvol' fun cfg' heq => ?_
      exact hset cfg' (List.mem_append_right _ (List.mem_singleton.mpr heq.symm))

/-- **Delays are bounded.**  In every interleaving of calls of `Wait` and `SetConfig`, the calls
that are being delayed are none, or fewer than the largest `MaxEntries` and with fewer bytes than
the largest `MaxBytes`; every delay is between the two ages of its config; and when all calls have
returned both counters are zero again. -/
theorem delays_bounded {M B : Int} {cfg : BatchConfig} (hcfg : Within M B cfg)
    {events : List BatchEvent} (hset : ∀ cfg', .setConfig cfg' ∈ events → Within M B cfg')
    (hlen : (events.foldl step (newBatcher cfg)).calls.length < 2 ^ 63)
    (hvol : (events.foldl step (newBatcher cfg)).volume < 2 ^ 63) :
    ((events.foldl step (newBatcher cfg)).number WaitPhase.small = 0 ∨
      ((events.foldl step (newBatcher cfg)).number WaitPhase.small : Int) < M ∧
      ((events.foldl step (newBatcher cfg)).weight WaitPhase.small : Int) < B) ∧
    (∀ c ∈ (events.foldl step (newBatcher cfg)).calls, ∀ cfg age, c.phase = .delayed cfg age →
      cfg.minAge ≤ age ∧ age ≤ cfg.maxAge) ∧
    ((∀ c ∈ (events.foldl step (newBatcher cfg)).calls, ∃ err, c.phase = .returned err) →
      (events.foldl step (newBatcher cfg)).inFlight = 0 ∧
      (events.foldl step (newBatcher cfg)).inBytes = 0) := by
  have h := kept_run hcfg hset hlen hvol
  generalize events.foldl step (newBatcher cfg) = b at h ⊢
  refine ⟨?_, h.ages, fun hrest => ?_⟩
  · have hle : b.number WaitPhase.small ≤ b.number WaitPhase.few := by
      refine b.total_mono fun ph hph => ?_
      cases ph with
      | light | delayed => rfl
      | _ => cases hph
    have hfew := h.few
    have hsmall := h.small
    omega
  · have hnone : ∀ (size : WaitCall → Nat) (p : WaitPhase → Bool),
        (∀ err, p (.returned err) = false) → b.total size p = 0 := by
      intro size p hp
      refine List.sum_eq_zero fun x hx => ?_
      obtain ⟨c, hc, rfl⟩ := List.mem_map.mp hx
      obtain ⟨err, herr⟩ := hrest c hc
      exact WaitCall.share_false (herr ▸ hp err)
    rw [h.inFlight, h.inBytes, number, weight, hnone _ _ fun _ => rfl, hnone _ _ fun _ => rfl]
    exact ⟨rfl, rfl⟩

/-- Two calls may be in flight, with 100 bytes; a delay takes 10 to 500. -/
def pairConfig : BatchConfig := ⟨2, 100, 10, 500⟩

/-- The first of two calls is delayed, the second finds both in flight and goes on. -/
def crowded : List BatchEvent :=
  [.wait 10, .wait 20] ++ List.replicate 6 (.turn 0 false 5) ++ List.replicate 6 (.turn 1 false 5)

theorem one_of_two_delayed :
    (crowded.foldl step (newBatcher pairConfig)).calls =
      [⟨10, .delayed pairConfig 10⟩, ⟨20, .returned false⟩] ∧
    ((crowded.foldl step (newBatcher pairConfig)).number WaitPhase.small : Int) < 2 ∧
    ((crowded.foldl step (newBatcher pairConfig)).weight WaitPhase.small : Int) < 100 := by
  have hcfg : Within 2 100 pairConfig := ⟨by decide, by decide, by decide⟩
  have hset : ∀ cfg', BatchEvent.setConfig cfg' ∈ crowded → Within 2 100 cfg' := by
    intro cfg' h
    simp [crowded] at h
  obtain ⟨hnone | hsome, -⟩ := delays_bounded hcfg hset (by decide +kernel) (by decide +kernel)
  · exact absurd hnone (by decide +kernel)
  · exact ⟨by decide +kernel, hsome⟩

end Batcher

end Dpx
