/-
# `Dpx.Lib.RangeOrder` — ranging over a map

A loop over a hash map meets every entry once, in an order the language does not fix and
that may be another one next time.  A `RangeOrder` is one such order for every map; code
that ranges takes it as an argument, and a statement about the code is for all of them.

A loop whose turns each concern the key of their entry does to a key what the one turn of
that key does, whatever the order (`look_foldl_entries`), because no key comes twice; entries
put into another map one by one arrive there (`getElem?_insertMany_entries`).
-/
import Std.Data.ExtTreeMap

/-- An order of the entries, for every map. -/
structure RangeOrder (K V : Type) [Ord K] [Std.TransOrd K] where
  entries : Std.ExtTreeMap K V → List (K × V)
  perm : ∀ m, (entries m).Perm m.toList

theorem Std.ExtTreeMap.mem_or_of_getElem?_insertMany {K V : Type} [Ord K] [Std.TransOrd K]
    [Std.LawfulEqOrd K] {l : List (K × V)} {k : K} {v : V} :
    ∀ {t : Std.ExtTreeMap K V}, (t.insertMany l)[k]? = some v → (k, v) ∈ l ∨ t[k]? = some v := by
  induction l with
  | nil => exact fun h => Or.inr h
  | cons kv l ih =>
      intro t h
      obtain ⟨k', v'⟩ := kv
      rw [Std.ExtTreeMap.insertMany_cons] at h
      rcases ih h with hin | hget
      · exact Or.inl (List.mem_cons_of_mem _ hin)
      · rw [Std.ExtTreeMap.getElem?_insert] at hget
        split at hget
        · rename_i heq
          cases hget
          rw [Std.LawfulEqOrd.compare_eq_iff_eq.mp heq]
          exact Or.inl List.mem_cons_self
        · exact Or.inr hget

theorem Std.ExtTreeMap.getElem?_insertMany_insert_of_ne {K V : Type} [Ord K] [Std.TransOrd K]
    [Std.LawfulEqOrd K] [BEq K] [Std.LawfulBEqOrd K] {t : Std.ExtTreeMap K V} {l : List (K × V)}
    {k k' : K} {v : V} (h : k' ≠ k) :
    ((t.insert k' v).insertMany l)[k]? = (t.insertMany l)[k]? := by
  have hne : compare k' k ≠ .eq := fun heq => h (Std.LawfulEqOrd.compare_eq_iff_eq.mp heq)
  rw [Std.ExtTreeMap.getElem?_insertMany_list, Std.ExtTreeMap.getElem?_insertMany_list,
    Std.ExtTreeMap.getElem?_insert, if_neg hne]

namespace RangeOrder

variable {K V : Type} [Ord K] [Std.TransOrd K]

/-- The order of the keys. -/
def ascending : RangeOrder K V := ⟨fun m => m.toList, fun _ => .refl _⟩

variable [Std.LawfulEqOrd K] (o : RangeOrder K V)

theorem mem_entries (m : Std.ExtTreeMap K V) (k : K) (v : V) :
    (k, v) ∈ o.entries m ↔ m[k]? = some v :=
  (o.perm m).mem_iff.trans Std.ExtTreeMap.mem_toList_iff_getElem?_eq_some

omit [Std.LawfulEqOrd K] in
theorem length_entries (m : Std.ExtTreeMap K V) : (o.entries m).length = m.size :=
  (o.perm m).length_eq.trans Std.ExtTreeMap.length_toList

omit [Std.LawfulEqOrd K] in
theorem distinct_entries (m : Std.ExtTreeMap K V) :
    (o.entries m).Pairwise fun a b => ¬ compare a.1 b.1 = .eq := by
  refine ((o.perm m).pairwise_iff ?_).mpr m.distinct_keys_toList
  intro a b hab heq
  exact hab (Std.OrientedCmp.eq_symm heq)

section Fold
variable {A B : Type} {look : A → B} {turn : A → K × V → A} {k : K}

omit [Ord K] [Std.TransOrd K] [Std.LawfulEqOrd K] in
theorem look_foldl_of_forall_ne (hother : ∀ acc kv, kv.1 ≠ k → look (turn acc kv) = look acc)
    (kvs : List (K × V)) (h : ∀ kv ∈ kvs, kv.1 ≠ k) :
    ∀ acc, look (kvs.foldl turn acc) = look acc := by
  induction kvs with
  | nil => exact fun _ => rfl
  | cons kv kvs ih =>
      intro acc
      obtain ⟨hkv, hkvs⟩ := List.forall_mem_cons.mp h
      rw [List.foldl_cons, ih hkvs, hother acc kv hkv]

/-- What the loop does to `k` is what its turn at `k` does. -/
theorem look_foldl_entries (look : A → B) (own : V → B → B)
    (hother : ∀ acc kv, kv.1 ≠ k → look (turn acc kv) = look acc)
    (hown : ∀ acc v, look (turn acc (k, v)) = own v (look acc)) (m : Std.ExtTreeMap K V)
    (acc : A) :
    look ((o.entries m).foldl turn acc) = (m[k]?).elim (look acc) fun v => own v (look acc) := by
  cases hk : m[k]? with
  | none =>
      refine look_foldl_of_forall_ne hother _ ?_ acc
      rintro ⟨k, v⟩ hmem rfl
      rw [(o.mem_entries m k v).mp hmem] at hk
      cases hk
  | some v =>
      -- the key is met once, and what is met before and after leaves it alone
      obtain ⟨a, b, hab⟩ := List.append_of_mem ((o.mem_entries m k v).mpr hk)
      have hdistinct := o.distinct_entries m
      rw [hab, List.pairwise_append, List.pairwise_cons] at hdistinct
      obtain ⟨-, ⟨hb, -⟩, ha⟩ := hdistinct
      rw [hab, List.foldl_append, List.foldl_cons, look_foldl_of_forall_ne hother b, hown,
        look_foldl_of_forall_ne hother a]
      · rfl
      · rintro kv hkv rfl
        exact ha kv hkv _ List.mem_cons_self Std.ReflCmp.compare_self
      · rintro kv hkv rfl
        exact hb kv hkv Std.ReflCmp.compare_self

end Fold

theorem getElem?_insertMany_entries [BEq K] [Std.LawfulBEqOrd K] (m t : Std.ExtTreeMap K V)
    (k : K) : (t.insertMany (o.entries m))[k]? = (m[k]?).or t[k]? := by
  cases hk : m[k]? with
  | some v =>
      rw [Std.ExtTreeMap.getElem?_insertMany_list_of_mem Std.ReflCmp.compare_self
        (o.distinct_entries m) ((o.mem_entries m k v).mpr hk)]
      rfl
  | none =>
      rw [Std.ExtTreeMap.getElem?_insertMany_list_of_contains_eq_false]
      · rfl
      · refine Bool.eq_false_iff.mpr fun hin => ?_
        obtain ⟨⟨k, v⟩, hmem, rfl⟩ := List.mem_map.mp (List.contains_iff_mem.mp hin)
        rw [(o.mem_entries m k v).mp hmem] at hk
        cases hk

theorem insertMany_entries_empty [BEq K] [Std.LawfulBEqOrd K] (m : Std.ExtTreeMap K V) :
    (∅ : Std.ExtTreeMap K V).insertMany (o.entries m) = m := by
  refine Std.ExtTreeMap.ext_getElem? fun k => ?_
  rw [getElem?_insertMany_entries, Std.ExtTreeMap.getElem?_empty, Option.or_none]

end RangeOrder
