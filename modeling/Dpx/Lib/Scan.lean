/-
# `Dpx.Lib.Scan` — what a range scan of an ordered store lists

A scan yields pairs in ascending key order.  What it should yield is a relation between
keys and values; `Lists R l` says that `l` is the scan of `R`: ascending, and holding
exactly its pairs.  There is at most one such list (`Lists.unique`), so two stores scan
alike as soon as they relate the same pairs, however each of them computes its list:

  * a walk from a start to a bound, `dropWhile` then `takeWhile` (`Lists.walk`);
  * a full walk that passes over what it does not want (`Lists.filter`, `Lists.filterMap`);
  * several partial scans, concatenated and sorted (`Lists.merge`).

Partial scans that share keys make a list that still ascends, but may have a key twice
(`Weakly`).  Taking from its front and reading backwards is reading backwards and taking from
there only in the few cases `Weakly.reverse_take_iff` names.
-/
import Std.Data.ExtTreeMap
import Mathlib.Data.List.Sort
import Mathlib.Data.List.TakeWhile

namespace Scan

variable {K V : Type} [Ord K]

/-- The first key comes strictly before the second. -/
def below (a b : K) : Bool := compare a b == .lt

/-- Keys ascend. -/
def Ascending (l : List (K × V)) : Prop := l.Pairwise fun a b => below a.1 b.1 = true

/-- `l` is the scan of `R`. -/
structure Lists (R : K → V → Prop) (l : List (K × V)) : Prop where
  ascending : Ascending l
  mem_iff : ∀ k v, (k, v) ∈ l ↔ R k v

theorem below_iff {a b : K} : below a b = true ↔ compare a b = .lt := by
  simp [below]

section Order
variable [Std.TransOrd K]

theorem below_trans {a b c : K} (hab : below a b = true) (hbc : below b c = true) :
    below a c = true := by
  rw [below_iff] at hab hbc ⊢
  exact Std.TransCmp.lt_trans hab hbc

theorem not_below_of_below {a b : K} (h : below a b = true) : below b a = false := by
  have hgt : compare b a = .gt := Std.OrientedCmp.gt_of_lt (below_iff.mp h)
  simp [below, hgt]

theorem not_below_self (a : K) : below a a = false := by
  simp [below]

theorem not_below_iff {a b : K} : below b a = false ↔ (compare a b).isLE = true := by
  have hswap : compare b a = (compare a b).swap := Std.OrientedCmp.eq_swap
  rw [below, hswap]
  cases compare a b <;> simp

theorem Ascending.nodup {l : List (K × V)} (h : Ascending l) : l.Nodup := by
  refine List.Pairwise.imp ?_ h
  rintro a b hab rfl
  rw [not_below_self] at hab
  exact Bool.noConfusion hab

end Order

variable {R : K → V → Prop} {l l' : List (K × V)}

theorem Lists.unique [Std.TransOrd K] (h : Lists R l) (h' : Lists R l') : l = l' := by
  have hperm : l.Perm l' := by
    refine (List.perm_ext_iff_of_nodup h.ascending.nodup h'.ascending.nodup).mpr ?_
    rintro ⟨k, v⟩
    rw [h.mem_iff, h'.mem_iff]
  refine hperm.eq_of_pairwise ?_ h.ascending h'.ascending
  intro a b _ _ hab hba
  rw [not_below_of_below hab] at hba
  exact Bool.noConfusion hba

theorem Lists.congr {R' : K → V → Prop} (h : Lists R l) (hR : ∀ k v, R k v ↔ R' k v) :
    Lists R' l :=
  ⟨h.ascending, fun k v => (h.mem_iff k v).trans (hR k v)⟩

theorem Lists.filter (h : Lists R l) (p : K → Bool) :
    Lists (fun k v => R k v ∧ p k = true) (l.filter fun it => p it.1) := by
  constructor
  · exact List.Pairwise.filter _ h.ascending
  · intro k v
    simp [h.mem_iff]

theorem Lists.filterMap {W : Type} (h : Lists R l) (f : K → V → Option W) :
    Lists (fun k w => ∃ v, R k v ∧ f k v = some w)
      (l.filterMap fun it => (f it.1 it.2).map (Prod.mk it.1)) := by
  constructor
  · refine List.pairwise_filterMap.mpr (List.Pairwise.imp (fun {a b} hab c hc d hd => ?_)
      h.ascending)
    obtain ⟨w, -, rfl⟩ := Option.map_eq_some_iff.mp hc
    obtain ⟨x, -, rfl⟩ := Option.map_eq_some_iff.mp hd
    exact hab
  · intro k w
    rw [List.mem_filterMap]
    constructor
    · rintro ⟨⟨j, v⟩, hmem, hw⟩
      obtain ⟨x, hx, heq⟩ := Option.map_eq_some_iff.mp hw
      cases heq
      exact ⟨v, (h.mem_iff j v).mp hmem, hx⟩
    · rintro ⟨v, hR, hw⟩
      exact ⟨(k, v), (h.mem_iff k v).mpr hR, Option.map_eq_some_iff.mpr ⟨w, hw, rfl⟩⟩

/-! ## Walks -/

theorem Ascending.dropWhile_eq_filter [Std.TransOrd K] (h : Ascending l) (start : K) :
    (l.dropWhile fun it => below it.1 start) = l.filter fun it => !below it.1 start := by
  induction l with
  | nil => rfl
  | cons a l ih =>
      obtain ⟨ha, hl⟩ := List.pairwise_cons.mp h
      cases hb : below a.1 start with
      | true => simp [hb, ih hl]
      | false =>
          -- everything after `a` is past the start, too
          have hall : ∀ b ∈ l, below b.1 start = false := by
            intro b hmem
            cases hbs : below b.1 start with
            | false => rfl
            | true => rw [below_trans (ha b hmem) hbs] at hb; exact hb
          have hself : (l.filter fun it => !below it.1 start) = l :=
            List.filter_eq_self.mpr fun b hmem => by simp [hall b hmem]
          simp [hb, hself]

theorem Ascending.takeWhile_eq_filter [Std.TransOrd K] (h : Ascending l) (fin : K) :
    (l.takeWhile fun it => below it.1 fin) = l.filter fun it => below it.1 fin := by
  induction l with
  | nil => rfl
  | cons a l ih =>
      obtain ⟨ha, hl⟩ := List.pairwise_cons.mp h
      cases hb : below a.1 fin with
      | true => simp [hb, ih hl]
      | false =>
          have hnone : ∀ b ∈ l, below b.1 fin = false := by
            intro b hmem
            cases hbf : below b.1 fin with
            | false => rfl
            | true => rw [below_trans (ha b hmem) hbf] at hb; exact hb
          have hnil : (l.filter fun it => below it.1 fin) = [] :=
            List.filter_eq_nil_iff.mpr fun b hmem => by simp [hnone b hmem]
          rw [List.takeWhile_cons_of_neg (by simp [hb]), List.filter_cons_of_neg (by simp [hb]),
            hnil]

theorem Ascending.filter_below [Std.TransOrd K] {front rest : List (K × V)} {it : K × V}
    (h : Ascending (front ++ it :: rest)) :
    (front ++ it :: rest).filter (fun x => below it.1 x.1) = rest := by
  obtain ⟨-, hit, hfront⟩ := List.pairwise_append.mp h
  have hnone : front.filter (fun x => below it.1 x.1) = [] := by
    refine List.filter_eq_nil_iff.mpr fun x hx hlt => ?_
    rw [not_below_of_below (hfront x hx it List.mem_cons_self)] at hlt
    cases hlt
  rw [List.filter_append, hnone, List.nil_append,
    List.filter_cons_of_neg (by simp [not_below_self])]
  exact List.filter_eq_self.mpr (List.pairwise_cons.mp hit).1

theorem Lists.walk [Std.TransOrd K] (h : Lists R l) (start fin : K) :
    Lists (fun k v => R k v ∧ below k start = false ∧ below k fin = true)
      ((l.dropWhile fun it => below it.1 start).takeWhile fun it => below it.1 fin) := by
  rw [h.ascending.dropWhile_eq_filter]
  have hfrom := h.filter fun k => !below k start
  rw [hfrom.ascending.takeWhile_eq_filter]
  refine (hfrom.filter fun k => below k fin).congr fun k v => ?_
  simp [and_assoc]

/-! ## Partial scans -/

/-- No key comes before an earlier one. -/
def Weakly (l : List (K × V)) : Prop := l.Pairwise fun a b => below b.1 a.1 = false

theorem weakly_mergeSort [Std.TransOrd K] (l : List (K × V)) :
    Weakly (l.mergeSort fun a b => !below b.1 a.1) := by
  have hsorted : (l.mergeSort fun a b => !below b.1 a.1).Pairwise
      fun a b => (!below b.1 a.1) = true := by
    refine List.pairwise_mergeSort ?_ ?_ _
    · intro a b c hab hbc
      simp only [Bool.not_eq_true', not_below_iff] at hab hbc ⊢
      exact Std.TransCmp.isLE_trans hab hbc
    · intro a b
      cases hab : below b.1 a.1 with
      | false => rfl
      | true => simp [not_below_of_below hab]
  exact hsorted.imp fun h => (Bool.not_eq_true' _).mp h

theorem Ascending.weakly [Std.TransOrd K] (h : Ascending l) : Weakly l :=
  List.Pairwise.imp not_below_of_below h

theorem Ascending.nodup_keys [Std.TransOrd K] (h : Ascending l) : (l.map Prod.fst).Nodup := by
  refine List.pairwise_map.mpr (List.Pairwise.imp (fun {a b} hab heq => ?_) h)
  rw [heq, not_below_self] at hab
  exact Bool.noConfusion hab

section Twice

variable [Std.TransOrd K] [Std.LawfulEqOrd K]

theorem eq_of_not_below {a b : K} (hab : below a b = false) (hba : below b a = false) :
    a = b := by
  refine Std.LawfulEqOrd.compare_eq_iff_eq.mp ?_
  have hle := not_below_iff.mp hba
  cases hcmp : compare a b with
  | eq => rfl
  | lt => rw [below_iff.mpr hcmp] at hab; cases hab
  | gt => rw [hcmp] at hle; cases hle

theorem Weakly.ascending (h : Weakly l) (hnodup : (l.map Prod.fst).Nodup) : Ascending l := by
  refine List.Pairwise.imp₂ (fun a b hle hne => ?_) h (List.pairwise_map.mp hnodup)
  cases hab : below a.1 b.1 with
  | true => rfl
  | false => exact absurd (eq_of_not_below hab hle) hne

/-- The first `n` pairs have no key twice and, read backwards, are the first `n` of the list read
backwards: this is so if the list has no key twice and no more than `n` pairs, or if `n` is one and
the list begins and ends with the same pair. -/
theorem Weakly.reverse_take_iff (h : Weakly l) {n : Nat} (hn : 0 < n) :
    Ascending (l.take n) ∧ (l.take n).reverse = l.reverse.take n ↔
      ((l.map Prod.fst).Nodup ∧ l.length ≤ n) ∨ (n = 1 ∧ l.head? = l.getLast?) := by
  rw [List.take_reverse, List.reverse_inj]
  constructor
  · rintro ⟨hasc, htake⟩
    by_cases hle : l.length ≤ n
    · rw [List.take_of_length_le hle] at hasc
      exact Or.inl ⟨hasc.nodup_keys, hle⟩
    · have hlt : n < l.length := Nat.lt_of_not_le hle
      -- the first pair is the one the last `n` begin with
      have hfirst : l[0] = l[l.length - n] := by
        have hhead := congrArg (fun l => l[0]?) htake
        simp only [List.getElem?_take, hn, if_true, List.getElem?_drop, Nat.add_zero] at hhead
        rw [List.getElem?_eq_getElem (by omega), List.getElem?_eq_getElem (by omega)] at hhead
        exact Option.some.inj hhead
      rcases Nat.lt_or_ge 1 n with htwo | hone
      · -- so the second one is not behind it
        exfalso
        have hstrict : below l[0].1 l[1].1 = true := by
          have hpair := List.pairwise_iff_getElem.mp hasc 0 1
            (by rw [List.length_take]; omega) (by rw [List.length_take]; omega) (by omega)
          simpa using hpair
        have hback : below l[l.length - n].1 l[1].1 = false := by
          rcases Nat.lt_or_ge 1 (l.length - n) with hbetween | hnext
          · exact List.pairwise_iff_getElem.mp h 1 (l.length - n) (by omega) (by omega) hbetween
          · have heq : l.length - n = 1 := by omega
            simp only [heq, not_below_self]
        rw [← hfirst, hstrict] at hback
        cases hback
      · have heq : n = 1 := by omega
        subst heq
        refine Or.inr ⟨rfl, ?_⟩
        rw [List.head?_eq_getElem?, List.getLast?_eq_getElem?, List.getElem?_eq_getElem (by omega),
          List.getElem?_eq_getElem (by omega), hfirst]
  · rintro (⟨hnodup, hle⟩ | ⟨rfl, hends⟩)
    · rw [List.take_of_length_le hle, Nat.sub_eq_zero_of_le hle, List.drop_zero]
      exact ⟨h.ascending hnodup, rfl⟩
    · cases l with
      | nil => exact ⟨List.Pairwise.nil, rfl⟩
      | cons a l =>
          refine ⟨List.pairwise_singleton _ _, ?_⟩
          obtain ⟨front, hfront⟩ := List.getLast?_eq_some_iff.mp hends.symm
          have hlast : (a :: l).drop ((a :: l).length - 1) = [a] := by
            rw [hfront]
            simp
          rw [hlast]
          rfl

end Twice

/-- Scans of parts that share no key, concatenated and sorted. -/
theorem Lists.merge [Std.TransOrd K] [Std.LawfulEqOrd K] {I : Type} {is : List I}
    {part : I → List (K × V)} (home : K → I) (hnodup : is.Nodup)
    (hpart : ∀ i ∈ is, Lists (fun k v => R k v ∧ home k = i) (part i))
    (hall : ∀ k, home k ∈ is) :
    Lists R ((is.flatMap part).mergeSort fun a b => !below b.1 a.1) := by
  have hmem : ∀ k v, (k, v) ∈ is.flatMap part ↔ R k v := by
    intro k v
    rw [List.mem_flatMap]
    constructor
    · rintro ⟨i, hi, hkv⟩
      exact ((hpart i hi).mem_iff k v).mp hkv |>.1
    · intro hR
      exact ⟨home k, hall k, ((hpart _ (hall k)).mem_iff k v).mpr ⟨hR, rfl⟩⟩
  -- no key occurs twice: within a part keys ascend, and parts have their own keys
  have hkeys : (is.flatMap part).Pairwise fun a b => a.1 ≠ b.1 := by
    refine List.pairwise_flatMap.mpr ⟨fun i hi => ?_, ?_⟩
    · refine List.Pairwise.imp (fun {a b} hab heq => ?_) (hpart i hi).ascending
      rw [heq, not_below_self] at hab
      exact Bool.noConfusion hab
    · refine List.Pairwise.imp_of_mem (fun {i j} hi hj hij a ha b hb heq => hij ?_) hnodup
      have hai := ((hpart i hi).mem_iff a.1 a.2).mp ha
      have hbj := ((hpart j hj).mem_iff b.1 b.2).mp hb
      rw [← hai.2, ← hbj.2, heq]
  have hperm := List.mergeSort_perm (is.flatMap part) fun a b => !below b.1 a.1
  refine ⟨(weakly_mergeSort _).ascending ?_, fun k v => (hperm.mem_iff).trans (hmem k v)⟩
  exact List.pairwise_map.mpr ((hperm.pairwise_iff fun h => Ne.symm h).mpr hkeys)

/-! ## Ordered maps -/

/-- The list of an ordered map is the scan of its lookups. -/
theorem lists_toList [Std.TransOrd K] [Std.LawfulEqOrd K] (m : Std.ExtTreeMap K V) :
    Lists (fun k v => m[k]? = some v) m.toList := by
  constructor
  · refine List.Pairwise.imp (fun {a b} h => ?_) m.ordered_keys_toList
    exact below_iff.mpr h
  · intro k v
    exact Std.ExtTreeMap.mem_toList_iff_getElem?_eq_some

theorem filter_toList [Std.TransOrd K] [Std.LawfulEqOrd K] [DecidableEq K]
    (m : Std.ExtTreeMap K V) (k : K) :
    m.toList.filter (fun e => e.1 = k) = (m[k]?.map (Prod.mk k)).toList := by
  refine ((lists_toList m).filter fun j => j = k).unique ⟨?_, fun j v => ?_⟩
  · cases m[k]? with
    | none => exact List.Pairwise.nil
    | some v => exact List.pairwise_singleton _ _
  · simp only [Option.mem_toList, Option.map_eq_some_iff, Prod.mk.injEq, decide_eq_true_eq]
    constructor
    · rintro ⟨u, hu, rfl, rfl⟩
      exact ⟨hu, rfl⟩
    · rintro ⟨hv, rfl⟩
      exact ⟨v, hv, rfl, rfl⟩

end Scan
