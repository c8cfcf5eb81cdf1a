/-
# `Dpx.Shared.Telemetry` — stage timers under concurrent observations

`StageTimer.Record` adds to a sum and to a count and then runs two compare-and-swap loops, one that
lowers the minimum and one that raises the maximum; any number of calls interleave, one atomic
operation at a time.  `record_cases` says what one turn can do: nothing to any register, or the
effect of its observation on one of them.  So at any time each register is what those calls that are
past it have made of it (`StageTimer.Exact`).

`timer_exact`: once all calls have returned, count, sum, least, greatest and mean are those of the
observations.  Durations have to be positive: the zero in `minNs` also says that nothing has been
observed yet, and an observation of zero makes the loop forget the least so far.
-/
import Dpx.Lib.Turns
import Dpx.Lib.Word

namespace Dpx

/-- `StageTimer`; the zero of `minNs` stands for no observation yet. -/
structure StageTimer where
  sumNs : Int64
  count : Int64
  minNs : Int64
  maxNs : Int64
  deriving DecidableEq, Repr

/-- The body of the first loop of `Record`. -/
def lowerMin (cur ns : Int64) : Option Int64 := if cur ≠ 0 ∧ cur ≤ ns then none else some ns

/-- The body of the second loop of `Record`. -/
def raiseMax (cur ns : Int64) : Option Int64 := if cur ≥ ns then none else some ns

inductive RecordPc where
  | sum
  | count
  | min (pc : CasLoop.Pc Int64)
  | max (pc : CasLoop.Pc Int64)
  | returned
  deriving DecidableEq, Repr

/-- A call of `Record`. -/
structure RecordCall where
  ns : Int64
  pc : RecordPc
  deriving DecidableEq, Repr

namespace StageTimer

/-- The next atomic operation of a call. -/
def record (t : StageTimer) (c : RecordCall) : StageTimer × RecordCall :=
  match c.pc with
  | .sum => ({ t with sumNs := t.sumNs + c.ns }, { c with pc := .count })
  | .count => ({ t with count := t.count + 1 }, { c with pc := .min .load })
  | .min pc =>
      let next := CasLoop.turn lowerMin c.ns t.minNs pc
      ({ t with minNs := next.1 }, { c with pc := next.2.elim (.max .load) .min })
  | .max pc =>
      let next := CasLoop.turn raiseMax c.ns t.maxNs pc
      ({ t with maxNs := next.1 }, { c with pc := next.2.elim .returned .max })
  | .returned => (t, c)

def mean (t : StageTimer) : Int64 := if t.count = 0 then 0 else t.sumNs / t.count

def min (t : StageTimer) : Int64 := t.minNs

def max (t : StageTimer) : Int64 := t.maxNs

end StageTimer

/-- Calls of `Record` on one timer. -/
structure Recording where
  timer : StageTimer
  calls : List RecordCall
  deriving DecidableEq, Repr

namespace Recording

/-- A new timer; a call that has not had a turn has not begun. -/
def start (ns : List Int64) : Recording := ⟨⟨0, 0, 0, 0⟩, ns.map fun d => ⟨d, .sum⟩⟩

/-- It is the turn of the `n`-th call. -/
def step (w : Recording) (n : Nat) : Recording :=
  match w.calls[n]? with
  | none => w
  | some c => ⟨(w.timer.record c).1, w.calls.set n (w.timer.record c).2⟩

def after (ns : List Int64) (turns : List Nat) : Recording := turns.foldl step (start ns)

def AtRest (w : Recording) : Prop := ∀ c ∈ w.calls, c.pc = .returned

end Recording

/-! ## How far a call is -/

/-- How many of the four registers the call has done with. -/
def RecordPc.rank : RecordPc → Nat
  | .sum => 0
  | .count => 1
  | .min _ => 2
  | .max _ => 3
  | .returned => 4

/-- What the call has observed, once it is past the `k`-th register. -/
def RecordCall.past (k : Nat) (c : RecordCall) : Option Int64 :=
  if k < c.pc.rank then some c.ns else none

/-- The effect of a call on the register of its rank. -/
def StageTimer.observe (t : StageTimer) (ns : Int64) : Nat → StageTimer
  | 0 => { t with sumNs := t.sumNs + ns }
  | 1 => { t with count := t.count + 1 }
  | 2 => { t with minNs := CasLoop.apply lowerMin t.minNs ns }
  | 3 => { t with maxNs := CasLoop.apply raiseMax t.maxNs ns }
  | _ => t

/-- A turn leaves everything as it is, or has its effect and takes the call on to the next
register. -/
theorem StageTimer.record_cases (t : StageTimer) (c : RecordCall) :
    (t.record c).2.ns = c.ns ∧
      ((t.record c).1 = t ∧ (t.record c).2.pc.rank = c.pc.rank ∨
        c.pc.rank < 4 ∧ (t.record c).1 = t.observe c.ns c.pc.rank ∧
          (t.record c).2.pc.rank = c.pc.rank + 1) := by
  obtain ⟨ns, pc⟩ := c
  cases pc with
  | sum => exact ⟨rfl, Or.inr ⟨by simp [RecordPc.rank], rfl, rfl⟩⟩
  | count => exact ⟨rfl, Or.inr ⟨by simp [RecordPc.rank], rfl, rfl⟩⟩
  | returned => exact ⟨rfl, Or.inl ⟨rfl, rfl⟩⟩
  | min pc =>
      refine ⟨rfl, ?_⟩
      simp only [record]
      rcases CasLoop.turn_cases lowerMin ns t.minNs pc with h | ⟨pc', h⟩
      · rw [h]
        exact Or.inr ⟨by simp [RecordPc.rank], rfl, rfl⟩
      · rw [h]
        exact Or.inl ⟨rfl, rfl⟩
  | max pc =>
      refine ⟨rfl, ?_⟩
      simp only [record]
      rcases CasLoop.turn_cases raiseMax ns t.maxNs pc with h | ⟨pc', h⟩
      · rw [h]
        exact Or.inr ⟨by simp [RecordPc.rank], rfl, rfl⟩
      · rw [h]
        exact Or.inl ⟨rfl, rfl⟩

/-! ## Every interleaving -/

open scoped Word in
/-- Each register holds what was made of it by the calls that are past it; `past k` is what those
past the `k`-th have observed. -/
structure StageTimer.Exact (t : StageTimer) (past : Nat → List Int64) : Prop where
  sum : t.sumNs = (past 0).sum
  count : t.count = Int64.ofNat (past 1).length
  min : CasLoop.Folds lowerMin 0 t.minNs (past 2)
  max : CasLoop.Folds raiseMax 0 t.maxNs (past 3)

open scoped Word in
theorem StageTimer.Exact.observe {t : StageTimer} {past past' : Nat → List Int64} {ns : Int64}
    (h : t.Exact past) {r : Nat} (hr : r < 4) (hnew : (past' r).Perm (ns :: past r))
    (hsame : ∀ k, k ≠ r → past' k = past k) : (t.observe ns r).Exact past' := by
  -- the registers that are not this one
  have hsum : 0 ≠ r → t.sumNs = (past' 0).sum := by
    intro hk
    rw [hsame 0 hk]
    exact h.sum
  have hcount : 1 ≠ r → t.count = Int64.ofNat (past' 1).length := by
    intro hk
    rw [hsame 1 hk]
    exact h.count
  have hmin : 2 ≠ r → CasLoop.Folds lowerMin 0 t.minNs (past' 2) := by
    intro hk
    rw [hsame 2 hk]
    exact h.min
  have hmax : 3 ≠ r → CasLoop.Folds raiseMax 0 t.maxNs (past' 3) := by
    intro hk
    rw [hsame 3 hk]
    exact h.max
  obtain rfl | rfl | rfl | rfl : r = 0 ∨ r = 1 ∨ r = 2 ∨ r = 3 := by omega
  · refine ⟨?_, hcount (by simp), hmin (by simp), hmax (by simp)⟩
    show t.sumNs + ns = _
    rw [hnew.sum_eq, List.sum_cons, h.sum, Int64.add_comm]
  · refine ⟨hsum (by simp), ?_, hmin (by simp), hmax (by simp)⟩
    show t.count + 1 = _
    rw [hnew.length_eq, List.length_cons, h.count, Int64.ofNat_add]
    rfl
  · exact ⟨hsum (by simp), hcount (by simp), h.min.update hnew, hmax (by simp)⟩
  · exact ⟨hsum (by simp), hcount (by simp), hmin (by simp), h.max.update hnew⟩

namespace Recording

/-- What has been observed by the calls that are past the `k`-th register. -/
def past (w : Recording) (k : Nat) : List Int64 := w.calls.filterMap (RecordCall.past k)

/-- The timer is exact, and `ns` is what the calls observe. -/
structure Kept (ns : List Int64) (w : Recording) : Prop where
  exact : w.timer.Exact w.past
  durations : w.calls.map RecordCall.ns = ns

theorem kept_start (ns : List Int64) : Kept ns (start ns) := by
  have hpast : (start ns).past = fun _ => [] := by
    refine funext fun k => List.filterMap_eq_nil_iff.mpr fun c hc => ?_
    obtain ⟨d, -, rfl⟩ := List.mem_map.mp hc
    rfl
  refine ⟨?_, ?_⟩
  · rw [hpast]
    exact ⟨rfl, rfl, .nil, .nil⟩
  · show (ns.map fun d => (⟨d, .sum⟩ : RecordCall)).map RecordCall.ns = ns
    rw [List.map_map]
    exact List.map_id' ns

theorem Kept.step {ns : List Int64} {w : Recording} (h : Kept ns w) (n : Nat) :
    Kept ns (w.step n) := by
  rw [Recording.step]
  cases hc : w.calls[n]? with
  | none => exact h
  | some c =>
      obtain ⟨hns, hcases⟩ := w.timer.record_cases c
      refine ⟨?_, ?_⟩
      · rcases hcases with ⟨htimer, hrank⟩ | ⟨hlt, htimer, hrank⟩
        · -- nothing but perhaps a load has happened
          have hpast : Recording.past ⟨(w.timer.record c).1,
              w.calls.set n (w.timer.record c).2⟩ = w.past := by
            refine funext fun k => Pool.filterMap_set_same hc ?_
            rw [RecordCall.past, RecordCall.past, hns, hrank]
          rw [hpast]
          show (w.timer.record c).1.Exact w.past
          rw [htimer]
          exact h.exact
        · show (w.timer.record c).1.Exact _
          rw [htimer]
          refine h.exact.observe hlt (Pool.filterMap_set_new hc ?_ ?_) fun k hk => ?_
          · exact if_neg (Nat.lt_irrefl _)
          · rw [RecordCall.past, hns, hrank]
            exact if_pos (Nat.lt_succ_self _)
          · refine Pool.filterMap_set_same hc ?_
            rw [RecordCall.past, RecordCall.past, hns, hrank]
            exact if_congr ⟨fun h => by omega, fun h => by omega⟩ rfl rfl
      · show (w.calls.set n _).map RecordCall.ns = ns
        have hmap : (w.calls.set n (w.timer.record c).2).filterMap (some ∘ RecordCall.ns) =
            w.calls.filterMap (some ∘ RecordCall.ns) :=
          Pool.filterMap_set_same hc (congrArg some hns)
        rw [List.filterMap_eq_map] at hmap
        rw [hmap, h.durations]

theorem kept_after (ns : List Int64) (turns : List Nat) : Kept ns (after ns turns) := by
  exact List.foldlRecOn turns step (kept_start ns) fun w h n _ => h.step n

theorem Kept.past_eq {ns : List Int64} {w : Recording} (h : Kept ns w) (hrest : w.AtRest) {k : Nat}
    (hk : k < 4) : w.past k = ns := by
  rw [past, ← h.durations, ← List.filterMap_eq_map]
  refine List.filterMap_congr fun c hc => ?_
  rw [RecordCall.past, hrest c hc]
  exact if_pos hk

end Recording

/-! ## What the registers say at rest -/

theorem max_folds {v : Int64} {xs : List Int64} (h : CasLoop.Folds raiseMax 0 v xs) :
    (∀ x ∈ xs, x ≤ v) ∧ (v = 0 ∨ v ∈ xs) := by
  have hupd : ∀ (w : Int64) (ys : List Int64), ∀ x ∈ xs,
      ((∀ y ∈ ys, y ≤ w) ∧ (w = 0 ∨ w ∈ ys)) →
      (∀ y ∈ ys ++ [x], y ≤ CasLoop.apply raiseMax w x) ∧
        (CasLoop.apply raiseMax w x = 0 ∨ CasLoop.apply raiseMax w x ∈ ys ++ [x]) := by
    rintro w ys x - ⟨hle, hmem⟩
    rw [CasLoop.apply, raiseMax, List.forall_mem_append, List.forall_mem_singleton]
    split
    · rename_i hge
      exact ⟨⟨hle, hge⟩, hmem.imp_right (List.mem_append_left _)⟩
    · rename_i hlt
      have hw : w ≤ x := Int64.le_of_lt (Int64.not_le.mp hlt)
      refine ⟨⟨fun y hy => Int64.le_trans (hle y hy) hw, Int64.le_refl x⟩, Or.inr ?_⟩
      exact List.mem_append_right _ (List.mem_singleton.mpr rfl)
  obtain ⟨order, hperm, hle, hmem⟩ := h.holds
    ⟨fun y hy => absurd hy List.not_mem_nil, Or.inl rfl⟩ hupd
  exact ⟨fun x hx => hle x (hperm.mem_iff.mpr hx), hmem.imp_right hperm.mem_iff.mp⟩

theorem min_folds {v : Int64} {xs : List Int64} (h : CasLoop.Folds lowerMin 0 v xs)
    (hpos : ∀ x ∈ xs, 0 < x) (hne : xs ≠ []) : v ∈ xs ∧ ∀ x ∈ xs, v ≤ x := by
  have hupd : ∀ (w : Int64) (ys : List Int64), ∀ x ∈ xs,
      (ys = [] ∧ w = 0 ∨ 0 < w ∧ w ∈ ys ∧ ∀ y ∈ ys, w ≤ y) →
      (ys ++ [x] = [] ∧ CasLoop.apply lowerMin w x = 0 ∨ 0 < CasLoop.apply lowerMin w x ∧
        CasLoop.apply lowerMin w x ∈ ys ++ [x] ∧
        ∀ y ∈ ys ++ [x], CasLoop.apply lowerMin w x ≤ y) := by
    intro w ys x hx hw
    refine Or.inr ?_
    have hnew : x ∈ ys ++ [x] := List.mem_append_right _ (List.mem_singleton.mpr rfl)
    rw [CasLoop.apply, lowerMin, List.forall_mem_append, List.forall_mem_singleton]
    rcases hw with ⟨rfl, rfl⟩ | ⟨hw, hmem, hle⟩
    · simp [hpos x hx]
    · have hw0 : w ≠ 0 := fun h => Int64.lt_irrefl (h ▸ hw)
      split
      · rename_i hkeep
        exact ⟨hw, List.mem_append_left _ hmem, hle, hkeep.2⟩
      · rename_i hlower
        have hxw : x ≤ w := Int64.le_of_lt (Int64.not_le.mp fun hwx => hlower ⟨hw0, hwx⟩)
        exact ⟨hpos x hx, hnew, fun y hy => Int64.le_trans hxw (hle y hy), Int64.le_refl x⟩
  obtain ⟨order, hperm, hinv⟩ := h.holds (Or.inl ⟨rfl, rfl⟩) hupd
  rcases hinv with ⟨rfl, -⟩ | ⟨-, hmem, hle⟩
  · exact absurd hperm.nil_eq.symm hne
  · exact ⟨hperm.mem_iff.mp hmem, fun x hx => hle x (hperm.mem_iff.mpr hx)⟩

theorem mean_between {t : StageTimer} {ns : List Int64} {lo hi : Int64} (hne : ns ≠ [])
    (hcount : t.count.toInt = ns.length)
    (hsum : t.sumNs.toInt = (ns.map Int64.toInt).sum) (hnonneg : 0 ≤ t.sumNs.toInt)
    (hlo : ∀ x ∈ ns, lo ≤ x) (hhi : ∀ x ∈ ns, x ≤ hi) : lo ≤ t.mean ∧ t.mean ≤ hi := by
  have hlen : (0 : Int) < ns.length := Int.natCast_pos.mpr (List.length_pos_iff.mpr hne)
  have hzero : t.count ≠ 0 := by
    intro h
    rw [h] at hcount
    exact absurd hcount (Int.ne_of_lt hlen)
  have hneg : t.count ≠ -1 := by
    intro h
    rw [h] at hcount
    have : (-1 : Int64).toInt = -1 := by decide
    omega
  have hmean : t.mean.toInt = (ns.map Int64.toInt).sum / ns.length := by
    rw [StageTimer.mean, if_neg hzero, Int64.toInt_div_of_ne_right _ _ hneg, hcount,
      Int.tdiv_eq_ediv_of_nonneg hnonneg, hsum]
  rw [Int64.le_iff_toInt_le, Int64.le_iff_toInt_le, hmean]
  constructor
  · refine (Int.le_ediv_iff_mul_le hlen).mpr ?_
    have h := List.card_nsmul_le_sum (ns.map Int64.toInt) lo.toInt
      (List.forall_mem_map.mpr fun d hd => Int64.le_iff_toInt_le.mp (hlo d hd))
    simpa [mul_comm] using h
  · refine Int.ediv_le_of_le_mul hlen ?_
    have h := List.sum_le_card_nsmul (ns.map Int64.toInt) hi.toInt
      (List.forall_mem_map.mpr fun d hd => Int64.le_iff_toInt_le.mp (hhi d hd))
    simpa [mul_comm] using h

open scoped Word in
/-- **A timer at rest is exact.**  Whatever the interleaving of calls of `Record` with positive
durations, once all have returned the timer has counted them, holds their least, their greatest and
their sum, and the mean is between the two. -/
theorem Recording.timer_exact {ns : List Int64} {turns : List Nat} (hrest : (after ns turns).AtRest)
    (hne : ns ≠ []) (hpos : ∀ d ∈ ns, 0 < d) (hlen : ns.length < 2 ^ 63)
    (hfits : Word.Fits (ns.map Int64.toInt).sum) :
    (after ns turns).timer.count.toInt = ns.length ∧
      (after ns turns).timer.sumNs.toInt = (ns.map Int64.toInt).sum ∧
      ((after ns turns).timer.min ∈ ns ∧ ∀ d ∈ ns, (after ns turns).timer.min ≤ d) ∧
      ((after ns turns).timer.max ∈ ns ∧ ∀ d ∈ ns, d ≤ (after ns turns).timer.max) ∧
      (after ns turns).timer.min ≤ (after ns turns).timer.mean ∧
      (after ns turns).timer.mean ≤ (after ns turns).timer.max := by
  have h := kept_after ns turns
  have hexact := h.exact
  generalize after ns turns = w at h hexact hrest ⊢
  have hcount : w.timer.count.toInt = ns.length := by
    rw [hexact.count, h.past_eq hrest (by decide)]
    exact Int64.toInt_ofNat_of_lt hlen
  have hsum : w.timer.sumNs.toInt = (ns.map Int64.toInt).sum := by
    rw [hexact.sum, h.past_eq hrest (by decide)]
    exact (Word.toInt_sum_eq_iff ns).mpr hfits
  have hmin := min_folds (h.past_eq hrest (by decide : 2 < 4) ▸ hexact.min) hpos hne
  obtain ⟨hmax, hmem⟩ := max_folds (h.past_eq hrest (by decide : 3 < 4) ▸ hexact.max)
  have hpos' : ∀ x ∈ ns.map Int64.toInt, 0 ≤ x := by
    refine List.forall_mem_map.mpr fun d hd => ?_
    exact Int64.le_iff_toInt_le.mp (Int64.le_of_lt (hpos d hd))
  refine ⟨hcount, hsum, hmin, ⟨?_, hmax⟩, ?_⟩
  · rcases hmem with hzero | hmem
    · -- the first observation is above zero
      obtain ⟨d, hd⟩ := List.exists_mem_of_ne_nil ns hne
      have hlt := Int64.lt_of_lt_of_le (hpos d hd) (hmax d hd)
      rw [hzero] at hlt
      exact absurd hlt Int64.lt_irrefl
    · exact hmem
  · exact mean_between hne hcount hsum (hsum ▸ List.sum_nonneg hpos') hmin.2 hmax

/-- Two calls that get in each other's way: each has to start one of its loops over. -/
def Recording.contended : List Nat := [0, 1, 0, 1, 0, 1, 0, 1, 1, 1, 0, 1, 1, 0, 0, 0]

theorem Recording.contended_exact :
    (after [5, 3] contended).timer = ⟨8, 2, 3, 5⟩ ∧
      (after [5, 3] contended).timer.min ≤ (after [5, 3] contended).timer.mean ∧
      (after [5, 3] contended).timer.mean ≤ (after [5, 3] contended).timer.max := by
  have hrest : ∀ c ∈ (after [5, 3] contended).calls, c.pc = .returned := by decide +kernel
  have hpos : ∀ d ∈ ([5, 3] : List Int64), 0 < d := by
    intro d hd
    obtain rfl | rfl : d = 5 ∨ d = 3 := by simpa using hd
    · decide
    · decide
  have h := timer_exact hrest (by decide) hpos (by decide) (by decide)
  exact ⟨by decide +kernel, h.2.2.2.2⟩

end Dpx
