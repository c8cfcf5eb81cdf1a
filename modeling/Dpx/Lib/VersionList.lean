/-
# `Dpx.Lib.VersionList` — the versions of one cell

A multi-version store keeps, for each cell, the list of its versions, oldest first,
each with a sequence number.  A reader holds a number `s` and is shown the last
version numbered at most `s`: `newest`.

Three things can happen to the list under a reader.  Versions above `s` are appended:
the reader does not notice (`newest_append_above`).  Versions are dropped from the
front: the reader notices exactly when its own version is among them
(`Sorted.newest_drop`).  The reader looks its version up by bisection: on a list whose
numbers never fall, that is `newest` (`Sorted.bisect_newest`).
-/
import Mathlib.Data.List.Basic

namespace VersionList

variable {V : Type} (seq : V → Nat)

/-- Sequence numbers never fall along the list. -/
def Sorted (l : List V) : Prop := l.Pairwise fun a b => seq a ≤ seq b

/-- The versions a reader at `s` may see. -/
def upTo (s : Nat) (l : List V) : List V := l.filter fun v => seq v ≤ s

/-- The versions above a reader at `s`. -/
def above (s : Nat) (l : List V) : List V := l.filter fun v => s < seq v

/-- The version a reader at `s` is shown. -/
def newest (s : Nat) (l : List V) : Option V := (upTo seq s l).getLast?

variable {seq}

theorem newest_append_above (old : List V) {new : List V} {s : Nat} (h : ∀ v ∈ new, s < seq v) :
    newest seq s (old ++ new) = newest seq s old := by
  have hnil : upTo seq s new = [] := by
    refine List.filter_eq_nil_iff.mpr fun v hv hle => ?_
    have hlt := h v hv
    have hle' : seq v ≤ s := of_decide_eq_true hle
    omega
  show (upTo seq s (old ++ new)).getLast? = _
  rw [upTo, List.filter_append]
  show (upTo seq s old ++ upTo seq s new).getLast? = _
  rw [hnil, List.append_nil]
  rfl

theorem newest_of_all {l : List V} {s : Nat} (h : ∀ v ∈ l, seq v ≤ s) :
    newest seq s l = l.getLast? := by
  have hall : upTo seq s l = l := List.filter_eq_self.mpr fun v hv => decide_eq_true (h v hv)
  rw [newest, hall]

theorem newest_mem {l : List V} {s : Nat} {v : V} (h : newest seq s l = some v) :
    v ∈ l ∧ seq v ≤ s := by
  have hv := List.mem_filter.mp (List.mem_of_getLast? h)
  exact ⟨hv.1, of_decide_eq_true hv.2⟩

/-! ## Sorted lists -/

theorem Sorted.split {l : List V} (h : Sorted seq l) (s : Nat) :
    l = upTo seq s l ++ above seq s l := by
  induction l with
  | nil => rfl
  | cons v l ih =>
      obtain ⟨hv, hl⟩ := List.pairwise_cons.mp h
      by_cases hs : seq v ≤ s
      · have hnot : ¬ s < seq v := by omega
        simp only [upTo, above, List.filter_cons, hs, hnot, decide_true, decide_false, if_true,
          Bool.false_eq_true, if_false, List.cons_append]
        exact congrArg (v :: ·) (ih hl)
      · -- everything after `v` is above `s` as well
        have hnil : upTo seq s (v :: l) = [] := by
          refine List.filter_eq_nil_iff.mpr fun w hw hle => ?_
          have hle' : seq w ≤ s := of_decide_eq_true hle
          rcases List.mem_cons.mp hw with rfl | hw
          · exact hs hle'
          · have := hv w hw
            omega
        rw [hnil, List.nil_append]
        refine (List.filter_eq_self.mpr fun w hw => ?_).symm
        have hmem := List.filter_eq_nil_iff.mp hnil w hw
        have : ¬ seq w ≤ s := fun hle => hmem (decide_eq_true hle)
        exact decide_eq_true (by omega)

theorem length_upTo_add_above (seq : V → Nat) (l : List V) (s : Nat) :
    (upTo seq s l).length + (above seq s l).length = l.length := by
  have habove : above seq s l = l.filter fun v => !decide (seq v ≤ s) := by
    refine List.filter_congr fun v _ => ?_
    rw [← decide_not]
    exact decide_eq_decide.mpr (by omega)
  rw [habove]
  exact (List.length_eq_length_filter_add _).symm

/-- Dropping from the front hides a reader's version exactly when it drops all the
versions the reader may see. -/
theorem Sorted.newest_drop {l : List V} (h : Sorted seq l) (s n : Nat) :
    newest seq s (l.drop n) =
      if (upTo seq s l).length ≤ n then none else newest seq s l := by
  have hsub : upTo seq s (l.drop n) = (upTo seq s l).drop n := by
    have habove : ∀ v ∈ (above seq s l).drop (n - (upTo seq s l).length), s < seq v :=
      fun v hv => of_decide_eq_true (List.mem_filter.mp (List.mem_of_mem_drop hv)).2
    have hupTo : ∀ v ∈ (upTo seq s l).drop n, seq v ≤ s :=
      fun v hv => of_decide_eq_true (List.mem_filter.mp (List.mem_of_mem_drop hv)).2
    have hdrop : l.drop n =
        (upTo seq s l).drop n ++ (above seq s l).drop (n - (upTo seq s l).length) := by
      conv_lhs => rw [h.split s]
      exact List.drop_append
    rw [hdrop]
    show List.filter _ (_ ++ _) = _
    rw [List.filter_append, List.filter_eq_self.mpr fun v hv => decide_eq_true (hupTo v hv),
      List.filter_eq_nil_iff.mpr fun v hv hle => ?_, List.append_nil]
    have hlt := habove v hv
    have hle' : seq v ≤ s := of_decide_eq_true hle
    omega
  rw [newest, hsub, List.getLast?_drop]
  rfl

theorem Sorted.exists_upTo {l : List V} (h : Sorted seq l) {s : Nat} {v : V}
    (hv : newest seq s l = some v) :
    ∃ front, upTo seq s l = front ++ [v] ∧ ∀ w ∈ front, seq w ≤ seq v := by
  refine ⟨(upTo seq s l).dropLast, (List.dropLast_append_getLast? v hv).symm, ?_⟩
  have hsorted : Sorted seq (upTo seq s l) := List.Pairwise.filter _ h
  rw [← List.dropLast_append_getLast? v hv] at hsorted
  intro w hw
  exact (List.pairwise_append.mp hsorted).2.2 w hw v (List.mem_singleton_self v)

theorem Sorted.exists_newest {l : List V} (h : Sorted seq l) {s : Nat} {v : V} (hv : v ∈ l)
    (hle : seq v ≤ s) : ∃ u, newest seq s l = some u ∧ seq v ≤ seq u := by
  have hmem : v ∈ upTo seq s l := List.mem_filter.mpr ⟨hv, decide_eq_true hle⟩
  cases hu : newest seq s l with
  | none =>
      rw [List.getLast?_eq_none_iff.mp hu] at hmem
      exact absurd hmem List.not_mem_nil
  | some u =>
      obtain ⟨front, hfront, htop⟩ := h.exists_upTo hu
      rw [hfront] at hmem
      refine ⟨u, rfl, ?_⟩
      rcases List.mem_append.mp hmem with hin | hin
      · exact htop v hin
      · exact Nat.le_of_eq (congrArg seq (List.mem_singleton.mp hin))

/-- Where a count of the leading versions below `b` stops, for a bound the reader
passes: short of the reader's version if that has reached `b`, right behind it if not. -/
theorem Sorted.length_takeWhile {l : List V} (h : Sorted seq l) {b s : Nat} (hb : b ≤ s) {v : V}
    (hv : newest seq s l = some v) :
    (b ≤ seq v → (l.takeWhile fun w => seq w < b).length < (upTo seq s l).length) ∧
      (seq v < b → (l.takeWhile fun w => seq w < b).length = (upTo seq s l).length) := by
  obtain ⟨front, hfront, hle⟩ := h.exists_upTo hv
  have hsplit := h.split s
  constructor
  · intro hreach
    have hnot : decide (seq v < b) = false := decide_eq_false (by omega)
    have hlen : (upTo seq s l).length = front.length + 1 := by
      rw [hfront, List.length_append, List.length_singleton]
    rw [hlen]
    conv_lhs => rw [hsplit, hfront, List.append_assoc, List.singleton_append,
      List.takeWhile_append, List.takeWhile_cons, hnot]
    have hshort := (List.takeWhile_prefix (l := front) fun w => decide (seq w < b)).length_le
    split
    · simp
    · omega
  · intro hlt
    have hall : ∀ w ∈ upTo seq s l, decide (seq w < b) = true := by
      intro w hw
      rw [hfront] at hw
      rcases List.mem_append.mp hw with hw | hw
      · have := hle w hw
        exact decide_eq_true (by omega)
      · rw [List.mem_singleton.mp hw]
        exact decide_eq_true hlt
    have hnone : (above seq s l).takeWhile (fun w => decide (seq w < b)) = [] := by
      cases habove : above seq s l with
      | nil => rfl
      | cons w rest =>
          have hw : w ∈ above seq s l := by rw [habove]; exact List.mem_cons_self
          have hw' : s < seq w := of_decide_eq_true (List.mem_filter.mp hw).2
          rw [List.takeWhile_cons, decide_eq_false (by omega)]
          rfl
    conv_lhs => rw [hsplit]
    rw [List.takeWhile_append_of_pos hall, hnone, List.append_nil]

theorem Sorted.le_of_mem_drop {l : List V} (h : Sorted seq l) {b : Nat} {v : V}
    (hv : v ∈ l.drop (l.takeWhile fun w => seq w < b).length) : b ≤ seq v := by
  induction l with
  | nil => cases hv
  | cons w l ih =>
      obtain ⟨hw, hl⟩ := List.pairwise_cons.mp h
      by_cases hb : seq w < b
      · rw [List.takeWhile_cons, if_pos (decide_eq_true hb)] at hv
        exact ih hl hv
      · rw [List.takeWhile_cons, if_neg (by simpa using hb)] at hv
        rcases List.mem_cons.mp hv with rfl | hv
        · omega
        · have := hw v hv
          omega

/-! ## Bisection -/

/-- The index before `n`. -/
def before : Nat → Option Nat
  | 0 => none
  | n + 1 => some n

/-- Bisection for the last index in `[low, hi)` at which `p` holds, `r` if there is
none; `fuel` bounds the halvings. -/
def bisect (p : Nat → Bool) : Nat → Nat → Nat → Option Nat → Option Nat
  | 0, _, _, r => r
  | fuel + 1, low, hi, r =>
      if low < hi then
        let mid := low + (hi - 1 - low) / 2
        if p mid then bisect p fuel (mid + 1) hi (some mid) else bisect p fuel low mid r
      else r

/-- If `p` holds exactly below `c`, bisection finds the index before `c`. -/
theorem bisect_eq_before {p : Nat → Bool} {c : Nat} (hp : ∀ i, p i = true ↔ i < c) :
    ∀ (fuel low hi : Nat), low ≤ c → c ≤ hi → hi - low ≤ fuel →
      bisect p fuel low hi (before low) = before c := by
  intro fuel
  induction fuel with
  | zero =>
      intro low hi hlow hhi hfuel
      have hc : low = c := by omega
      rw [hc]
      rfl
  | succ fuel ih =>
      intro low hi hlow hhi hfuel
      rw [bisect]
      by_cases hlt : low < hi
      · simp only [if_pos hlt]
        by_cases hmid : p (low + (hi - 1 - low) / 2) = true
        · rw [if_pos hmid]
          exact ih _ hi ((hp _).mp hmid) hhi (by omega)
        · rw [if_neg hmid]
          have hge : ¬ low + (hi - 1 - low) / 2 < c := fun hc => hmid ((hp _).mpr hc)
          exact ih low _ hlow (by omega) (by omega)
      · have hc : low = c := by omega
        rw [if_neg hlt, hc]

theorem find?_reverse_range_eq_before {p : Nat → Bool} {c : Nat} (hp : ∀ i, p i = true ↔ i < c) :
    ∀ n, c ≤ n → (List.range n).reverse.find? p = before c := by
  intro n
  induction n with
  | zero =>
      intro hc
      rw [Nat.le_zero.mp hc]
      rfl
  | succ n ih =>
      intro hc
      rw [List.range_succ, List.reverse_append, List.reverse_singleton, List.singleton_append,
        List.find?_cons]
      cases hn : p n with
      | true =>
          have hlt := (hp n).mp hn
          rw [show c = n + 1 by omega]
          rfl
      | false =>
          have hge : ¬ n < c := fun hlt => Bool.noConfusion (hn.symm.trans ((hp n).mpr hlt))
          exact ih (by omega)

theorem Sorted.any_getElem?_iff {l : List V} (h : Sorted seq l) (s i : Nat) :
    (l[i]?).any (fun v => seq v ≤ s) = true ↔ i < (upTo seq s l).length := by
  conv_lhs => rw [h.split s]
  by_cases hi : i < (upTo seq s l).length
  · have hv := (List.mem_filter.mp (List.getElem_mem hi)).2
    rw [List.getElem?_append_left hi, List.getElem?_eq_getElem hi]
    exact ⟨fun _ => hi, fun _ => hv⟩
  · rw [List.getElem?_append_right (by omega)]
    refine ⟨fun hany => ?_, fun hlt => absurd hlt hi⟩
    obtain ⟨v, hget, hle⟩ := (Option.any_eq_true _ _).mp hany
    have hlt := (List.mem_filter.mp (List.mem_of_getElem? hget)).2
    have hlt' : s < seq v := of_decide_eq_true hlt
    have hle' : seq v ≤ s := of_decide_eq_true hle
    omega

theorem Sorted.bisect_eq_find? {l : List V} (h : Sorted seq l) (s : Nat) :
    bisect (fun i => (l[i]?).any fun v => seq v ≤ s) l.length 0 l.length none =
      (List.range l.length).reverse.find? fun i => (l[i]?).any fun v => seq v ≤ s := by
  have hlen : (upTo seq s l).length ≤ l.length := List.length_filter_le _ _
  rw [show (none : Option Nat) = before 0 from rfl,
    bisect_eq_before (h.any_getElem?_iff s) l.length 0 l.length (Nat.zero_le _) hlen (by omega),
    find?_reverse_range_eq_before (h.any_getElem?_iff s) l.length hlen]

theorem Sorted.bisect_newest {l : List V} (h : Sorted seq l) (s : Nat) :
    (bisect (fun i => (l[i]?).any fun v => seq v ≤ s) l.length 0 l.length none).bind (l[·]?) =
      newest seq s l := by
  have hlen : (upTo seq s l).length ≤ l.length := List.length_filter_le _ _
  rw [show (none : Option Nat) = before 0 from rfl,
    bisect_eq_before (h.any_getElem?_iff s) l.length 0 l.length (Nat.zero_le _) hlen (by omega)]
  cases hc : (upTo seq s l).length with
  | zero => rw [newest, List.length_eq_zero_iff.mp hc]; rfl
  | succ n =>
      show l[n]? = _
      conv_lhs => rw [h.split s]
      rw [List.getElem?_append_left (by omega), newest, List.getLast?_eq_getElem?, hc]
      rfl

end VersionList
