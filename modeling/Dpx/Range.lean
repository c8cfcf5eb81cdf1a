/-
# `Dpx.Range` — range scans of a node

`helpers.go` and `dpx.go`: `GetRange` and `GetRangeReverse` take a snapshot, open an
iterator on it and hand it to `collectIter`, which collects pairs up to the limit and
reverses them at the end if it was told to.

So the limit is spent from the front.  With a limit a reverse scan answers with the SMALLEST
keys of the range, in descending order; it is the top of the range exactly if the limit does
not bite and no key is listed twice (`reverse_scan_iff`, `reverse_scan_bottom`).  The MVCC engine
lists a key twice when it has live versions in two shards, as after writes on the fast path.

Forward, a limit is harmless: a client that goes on from behind the last key of each page reads
the whole range (`pages_cover`), since nothing lies between a key and that key followed by a
zero byte.

`Iterating` is what all snapshots have: an iterator whose keys ascend, perhaps not strictly.
`RangeSnapshot` adds the reads, and that the iterator walks the user keys of the range once each.
The three memory engines are instances; the two that keep shards are instances of the second in
the states where every key is in its own shard.
-/
import Mathlib.Data.Set.Card
import Dpx.Engine.Equivalence
import Dpx.Engine.MvccCheckpoint

namespace Dpx

/-! ## Iterators over a slice -/

abbrev KVPair := Bytes × Bytes

/-- `memIter`, and `mvccIter`, which is the same. -/
structure SliceIter where
  pairs : List KVPair
  pos : Int
  deriving DecidableEq, Repr

namespace SliceIter

def first (it : SliceIter) : Bool × SliceIter := (0 < (it.pairs.length : Int), { it with pos := 0 })

def next (it : SliceIter) : Bool × SliceIter :=
  (it.pos + 1 < it.pairs.length, { it with pos := it.pos + 1 })

def valid (it : SliceIter) : Bool := 0 ≤ it.pos ∧ it.pos < it.pairs.length

def key (it : SliceIter) : Bytes :=
  if it.valid then (it.pairs[it.pos.toNat]?.map Prod.fst).getD [] else []

def value (it : SliceIter) : Bytes :=
  if it.valid then (it.pairs[it.pos.toNat]?.map Prod.snd).getD [] else []

end SliceIter

/-- The loop of `collectIter`; `ok` is what `First` or `Next` returned. -/
def collectLoop (limit : Int) (ok : Bool) (it : SliceIter) (pairs : List KVPair) : List KVPair :=
  if ok = true ∧ it.valid = true then
    if 0 < limit ∧ limit ≤ pairs.length then pairs
    else collectLoop limit it.next.1 it.next.2 (pairs ++ [(it.key, it.value)])
  else pairs
termination_by it.pairs.length - it.pos.toNat
decreasing_by
  rename_i hv _
  simp only [SliceIter.valid, decide_eq_true_eq] at hv
  simp only [SliceIter.next]
  omega

/-- `collectIter`.  The loop that swaps from both ends is `Array.reverse`; the iterators of
the memory engines never have an error to report. -/
def collectIter (it : SliceIter) (limit : Int) (reverse : Bool) : List KVPair :=
  let pairs := collectLoop limit it.first.1 it.first.2 []
  if reverse then pairs.toArray.reverse.toList else pairs

/-- A limit that is not positive is none. -/
def limited (limit : Int) (l : List KVPair) : List KVPair :=
  if 0 < limit then l.take limit.toNat else l

theorem collectLoop_eq (limit : Int) (rest : List KVPair) :
    ∀ (it : SliceIter) (acc : List KVPair), 0 ≤ it.pos → it.pairs.drop it.pos.toNat = rest →
      collectLoop limit (it.pos < it.pairs.length) it acc =
        acc ++ if 0 < limit then rest.take (limit.toNat - acc.length) else rest := by
  induction rest with
  | nil =>
      intro it acc hpos hrest
      have hend : ¬ it.pos < it.pairs.length := by
        have hlen := List.drop_eq_nil_iff.mp hrest
        omega
      rw [collectLoop, if_neg (by simp [hend])]
      simp
  | cons kv rest ih =>
      intro it acc hpos hrest
      have hlt : it.pos.toNat < it.pairs.length := by
        have hlen := congrArg List.length hrest
        rw [List.length_drop, List.length_cons] at hlen
        omega
      have hin : it.pos < it.pairs.length := by omega
      have hvalid : it.valid = true := by simp [SliceIter.valid, hpos, hin]
      have hkv : it.pairs[it.pos.toNat]? = some kv := by
        rw [← List.head?_drop, hrest]
        rfl
      have hpair : (it.key, it.value) = kv := by
        rw [SliceIter.key, SliceIter.value, hvalid, hkv]
        rfl
      rw [collectLoop, if_pos ⟨decide_eq_true hin, hvalid⟩, hpair]
      split
      · rename_i hfull
        have hzero : limit.toNat - acc.length = 0 := by omega
        rw [if_pos hfull.1, hzero, List.take_zero, List.append_nil]
      · rename_i hroom
        have hnext : it.next.2.pairs.drop it.next.2.pos.toNat = rest := by
          have hsucc : (it.pos + 1).toNat = it.pos.toNat + 1 := by omega
          show it.pairs.drop (it.pos + 1).toNat = rest
          rw [hsucc, ← List.drop_drop, hrest]
          rfl
        have hstep := ih it.next.2 (acc ++ [kv]) (by show 0 ≤ it.pos + 1; omega) hnext
        rw [List.length_append, List.length_singleton] at hstep
        refine hstep.trans ?_
        split
        · rename_i hpositive
          have hmore : limit.toNat - acc.length = (limit.toNat - (acc.length + 1)) + 1 := by
            omega
          rw [hmore, List.take_succ_cons, List.append_assoc]
          rfl
        · rw [List.append_assoc]
          rfl

theorem collectIter_eq (pairs : List KVPair) (pos limit : Int) (reverse : Bool) :
    collectIter ⟨pairs, pos⟩ limit reverse =
      if reverse then (limited limit pairs).reverse else limited limit pairs := by
  have hloop := collectLoop_eq limit pairs ⟨pairs, 0⟩ [] (Int.le_refl 0) rfl
  rw [List.nil_append, List.length_nil, Nat.sub_zero] at hloop
  have hloop' : collectLoop limit (SliceIter.first ⟨pairs, pos⟩).1
      (SliceIter.first ⟨pairs, pos⟩).2 [] = limited limit pairs := hloop
  rw [collectIter, hloop']
  cases reverse <;> simp

/-! ## Snapshots with an iterator -/

/-- The user keys of `[start, fin)` that have a value. -/
def userKeys (get : Key → Option Bytes) (start fin : Bytes) : Set Key :=
  {k | (get k).isSome = true ∧ (inRange start fin k && !isReserved k) = true}

/-- A snapshot's iterator: the pairs are sorted by key. -/
class Iterating (σ : Type) where
  newIter : σ → Bytes → Bytes → List KVPair
  weakly : ∀ s start fin, Scan.Weakly (newIter s start fin)

instance : Iterating ShardedEngine where
  newIter := ShardedEngine.newIter
  weakly _ _ _ := Scan.weakly_mergeSort _

instance : Iterating (MvccSnapshot × MVCCEngine) where
  newIter s start fin := s.2.newIterator start fin s.1.seq
  weakly _ _ _ := Scan.weakly_mergeSort _

/-- A snapshot's reads, and what its iterator walks. -/
class RangeSnapshot (σ : Type) extends Iterating σ where
  get : σ → Key → Option Bytes
  lists_newIter : ∀ s start fin, Scan.Lists
    (fun k v => get s k = some v ∧ (inRange start fin k && !isReserved k) = true)
    (newIter s start fin)

instance : RangeSnapshot State where
  newIter := State.newIter
  weakly s start fin := (s.lists_newIter start fin).ascending.weakly
  get := State.get
  lists_newIter := State.lists_newIter

instance : RangeSnapshot { e : ShardedEngine // e.Homed } where
  newIter e := e.1.newIter
  weakly _ _ _ := Scan.weakly_mergeSort _
  get e := e.1.get
  lists_newIter e := e.2.lists_newIter

/-! ### The MVCC engine -/

theorem findVersionLinear_concat (entries : List MvccEntry) (v : MvccEntry) (seq : Nat) :
    findVersionLinear (entries ++ [v]) seq =
      if v.seq ≤ seq then some entries.length else findVersionLinear entries seq := by
  have hold : ∀ i ∈ (List.range entries.length).reverse,
      ((entries ++ [v])[i]?.any fun v => v.seq ≤ seq) = entries[i]?.any fun v => v.seq ≤ seq := by
    intro i hi
    rw [List.getElem?_append_left (List.mem_range.mp (List.mem_reverse.mp hi))]
  rw [findVersionLinear, List.length_append, List.length_singleton, List.range_succ,
    List.reverse_append, List.reverse_singleton, List.singleton_append, List.find?_cons,
    ← List.head?_filter, List.filter_congr hold, List.head?_filter, List.getElem?_concat_length,
    Option.any_some]
  split
  · rename_i hle
    rw [if_pos (of_decide_eq_true hle)]
  · rename_i hle
    rw [if_neg (of_decide_eq_false hle)]
    rfl

theorem findVersionLinear_lt {entries : List MvccEntry} {seq i : Nat}
    (h : findVersionLinear entries seq = some i) : i < entries.length :=
  List.mem_range.mp (List.mem_reverse.mp (List.mem_of_find?_eq_some h))

theorem findVersionLinear_newest (entries : List MvccEntry) (seq : Nat) :
    (findVersionLinear entries seq).bind (entries[·]?) =
      VersionList.newest MvccEntry.seq seq entries := by
  induction entries using List.reverseRecOn with
  | nil => rfl
  | append_singleton entries v ih =>
      rw [findVersionLinear_concat, VersionList.newest, VersionList.upTo, List.filter_append,
        List.filter_singleton]
      split
      · rename_i hle
        rw [decide_eq_true hle, Option.bind_some, List.getElem?_concat_length]
        simp
      · rename_i hle
        rw [decide_eq_false hle, Bool.cond_false, List.append_nil]
        refine Eq.trans ?_ ih
        cases hi : findVersionLinear entries seq with
        | none => rfl
        | some i => exact List.getElem?_append_left (findVersionLinear_lt hi)

/-- A snapshot on an engine that keeps sorted versions, each key in its own shard. -/
structure MvccView where
  snap : MvccSnapshot
  engine : MVCCEngine
  homed : engine.Homed
  sorted : ∀ i k, VersionList.Sorted MvccEntry.seq (engine.versions i k)

namespace MvccView

/-- What the iterator makes of one key. -/
def scanned (start fin : Bytes) (seq : Nat) (k : Key) (entries : List MvccEntry) :
    Option Bytes :=
  if inRange start fin k && !isReserved k then
    (VersionList.newest MvccEntry.seq seq entries).bind MvccEntry.live
  else none

theorem map_scanned (start fin : Bytes) (seq : Nat) (k : Key) (entries : List MvccEntry) :
    (scanned start fin seq k entries).map (Prod.mk k) =
      if less k start then none
      else if fin ≠ [] ∧ !less k fin then none
      else if isReserved k then none
      else
        match findVersionLinear entries seq with
        | none => none
        | some idx =>
            match entries[idx]? with
            | none => none
            | some v => v.live.map fun value => (k, value) := by
  have hfound : (match findVersionLinear entries seq with
      | none => none
      | some idx =>
          match entries[idx]? with
          | none => none
          | some v => v.live.map fun value => (k, value)) =
      ((VersionList.newest MvccEntry.seq seq entries).bind MvccEntry.live).map (Prod.mk k) := by
    rw [← findVersionLinear_newest]
    cases findVersionLinear entries seq with
    | none => rfl
    | some idx =>
        simp only [Option.bind_some]
        cases entries[idx]? <;> rfl
  rw [hfound, scanned, inRange]
  cases less k start with
  | true => simp
  | false =>
      cases isReserved k with
      | true => simp
      | false =>
          by_cases hfin : fin = []
          · simp [hfin]
          · cases less k fin <;> simp [hfin]

theorem scanned_iff (w : MvccView) (start fin : Bytes) (i : ShardId) (k : Key) (v : Bytes) :
    (∃ entries, (w.engine.shards i)[k]? = some entries ∧
        scanned start fin w.snap.seq k entries = some v) ↔
      (w.snap.get w.engine k = some v ∧ (inRange start fin k && !isReserved k) = true) ∧
        shardFor k = i := by
  have hget := MvccSnapshot.get_eq_shown (s := w.snap) (w.sorted (shardFor k) k)
  constructor
  · rintro ⟨entries, hentries, hv⟩
    have hversions : w.engine.versions i k = entries := by
      rw [MVCCEngine.versions, hentries, Option.getD_some]
    have hhome : shardFor k = i := by
      by_contra hne
      rw [w.homed i k fun h => hne h.symm] at hversions
      rw [← hversions, scanned] at hv
      split at hv <;> cases hv
    rw [scanned] at hv
    split at hv
    · rename_i hrange
      refine ⟨⟨?_, hrange⟩, hhome⟩
      rw [hget, MvccSnapshot.shown, hhome, hversions, hv]
    · cases hv
  · rintro ⟨⟨hv, hrange⟩, rfl⟩
    rw [hget, MvccSnapshot.shown, MVCCEngine.versions] at hv
    cases hentries : (w.engine.shards (shardFor k))[k]? with
    | none =>
        rw [hentries] at hv
        cases hv
    | some entries =>
        rw [hentries, Option.getD_some] at hv
        exact ⟨entries, rfl, by rw [scanned, if_pos hrange, hv]⟩

theorem lists_newIterator (w : MvccView) (start fin : Bytes) :
    Scan.Lists (fun k v => w.snap.get w.engine k = some v ∧
      (inRange start fin k && !isReserved k) = true)
      (w.engine.newIterator start fin w.snap.seq) := by
  refine Scan.Lists.merge shardFor (List.nodup_finRange _) (fun i _ => ?_)
    fun k => List.mem_finRange _
  have hshard : Scan.Lists (fun k entries => (w.engine.shards i)[k]? = some entries)
      (w.engine.shards i).toList := Scan.lists_toList (w.engine.shards i)
  have hpart := (hshard.filterMap (scanned start fin w.snap.seq)).congr
    (w.scanned_iff start fin i)
  simp only [map_scanned] at hpart
  exact hpart

end MvccView

instance : RangeSnapshot MvccView where
  newIter w start fin := w.engine.newIterator start fin w.snap.seq
  weakly _ _ _ := Scan.weakly_mergeSort _
  get w := w.snap.get w.engine
  lists_newIter := MvccView.lists_newIterator

/-! ## The scans of a node -/

/-- `ErrStoreClosed`. -/
inductive RangeError where
  | storeClosed
  deriving DecidableEq, Repr

section Scans

variable {σ : Type} [Iterating σ]

/-- `GetRange`, on the snapshot it takes; `closed` is the flag of the node. -/
def getRange (closed : Bool) (snap : σ) (start fin : Bytes) (limit : Int) :
    Except RangeError (List KVPair) :=
  if closed then .error .storeClosed
  else .ok (collectIter ⟨Iterating.newIter snap start fin, -1⟩ limit false)

def getRangeReverse (closed : Bool) (snap : σ) (start fin : Bytes) (limit : Int) :
    Except RangeError (List KVPair) :=
  if closed then .error .storeClosed
  else .ok (collectIter ⟨Iterating.newIter snap start fin, -1⟩ limit true)

theorem getRange_eq (snap : σ) (start fin : Bytes) (limit : Int) :
    getRange false snap start fin limit =
      .ok (limited limit (Iterating.newIter snap start fin)) := by
  rw [getRange, collectIter_eq]
  rfl

theorem getRangeReverse_eq (snap : σ) (start fin : Bytes) (limit : Int) :
    getRangeReverse false snap start fin limit =
      .ok (limited limit (Iterating.newIter snap start fin)).reverse := by
  rw [getRangeReverse, collectIter_eq]
  rfl

/-- The user keys the unlimited scan of `[start, fin)` finds. -/
def listedKeys (snap : σ) (start fin : Bytes) : Set Key :=
  {k | ∃ v, (k, v) ∈ Iterating.newIter snap start fin}

/-- No user key is found twice. -/
def ListedOnce (snap : σ) (start fin : Bytes) : Prop :=
  ((Iterating.newIter snap start fin).map Prod.fst).Nodup

theorem ListedOnce.ncard_listedKeys {snap : σ} {start fin : Bytes}
    (h : ListedOnce snap start fin) :
    (listedKeys snap start fin).ncard = (Iterating.newIter snap start fin).length := by
  have hset : listedKeys snap start fin =
      ↑((Iterating.newIter snap start fin).map Prod.fst).toFinset := by
    ext k
    simp [listedKeys]
  rw [hset, Set.ncard_coe_finset, List.toFinset_card_of_nodup h, List.length_map]

/-- The reverse scan with a limit is strictly descending, and it is the reversed unlimited forward
scan up to the limit. -/
def ReturnsTop (snap : σ) (start fin : Bytes) (n : Int) : Prop :=
  ∃ top all, getRangeReverse false snap start fin n = .ok top ∧
    getRange false snap start fin 0 = .ok all ∧
    top.Pairwise (fun a b => less b.1 a.1 = true) ∧ top = all.reverse.take n.toNat

/-- **Reverse scans.**  With a limit a reverse scan returns the top of the range if and only if
there are no more user keys in the range than that and none is found twice; or the limit is one,
and the range begins and ends with the same pair. -/
theorem reverse_scan_iff (snap : σ) (start fin : Bytes) {n : Int} (hn : 0 < n) :
    ReturnsTop snap start fin n ↔
      ((listedKeys snap start fin).ncard ≤ n.toNat ∧ ListedOnce snap start fin) ∨
        (n = 1 ∧ (Iterating.newIter snap start fin).head? =
          (Iterating.newIter snap start fin).getLast?) := by
  have htop : ReturnsTop snap start fin n ↔
      Scan.Ascending ((Iterating.newIter snap start fin).take n.toNat) ∧
        ((Iterating.newIter snap start fin).take n.toNat).reverse =
          (Iterating.newIter snap start fin).reverse.take n.toNat := by
    rw [ReturnsTop, getRange_eq, getRangeReverse_eq, limited, limited, if_pos hn,
      if_neg (Int.lt_irrefl 0)]
    simp only [Except.ok.injEq, exists_and_left, exists_eq_left', List.pairwise_reverse]
    rfl
  have hone : n.toNat = 1 ↔ n = 1 := by omega
  rw [htop, (Iterating.weakly snap start fin).reverse_take_iff (by omega), hone]
  refine or_congr_left (and_comm.trans (and_congr_left fun hnodup => ?_))
  rw [ListedOnce.ncard_listedKeys hnodup]

end Scans

section Listed

variable {σ : Type} [RangeSnapshot σ]

theorem listedOnce (snap : σ) (start fin : Bytes) : ListedOnce snap start fin :=
  (RangeSnapshot.lists_newIter snap start fin).ascending.nodup_keys

theorem listedKeys_eq (snap : σ) (start fin : Bytes) :
    listedKeys snap start fin = userKeys (RangeSnapshot.get snap) start fin := by
  ext k
  simp only [listedKeys, userKeys, Set.mem_ofPred_eq, Option.isSome_iff_exists,
    (RangeSnapshot.lists_newIter snap start fin).mem_iff, exists_and_right]

theorem ncard_userKeys (snap : σ) (start fin : Bytes) :
    (userKeys (RangeSnapshot.get snap) start fin).ncard =
      (Iterating.newIter snap start fin).length := by
  rw [← listedKeys_eq, (listedOnce snap start fin).ncard_listedKeys]

end Listed

/-- Two keys. -/
def twoKeys : State := State.empty.applyOps [.set [0x61] [1], .set [0x62] [2]]

theorem newIter_twoKeys :
    Iterating.newIter twoKeys [] [] = [([0x61], [1]), ([0x62], [2])] := by
  decide +kernel

theorem reverse_scan_twoKeys :
    ReturnsTop twoKeys [] [] 2 ∧
      getRangeReverse false twoKeys [] [] 2 = .ok [([0x62], [2]), ([0x61], [1])] := by
  refine ⟨(reverse_scan_iff twoKeys [] [] (n := 2) (by decide)).mpr (Or.inl ⟨?_, ?_⟩), ?_⟩
  · rw [listedKeys_eq, ncard_userKeys, newIter_twoKeys]
    decide
  · exact listedOnce twoKeys [] []
  · rw [getRangeReverse_eq, newIter_twoKeys]
    rfl

/-- With room for one, the scan from the top returns the bottom. -/
theorem reverse_scan_bottom :
    getRangeReverse false twoKeys [] [] 1 = .ok [([0x61], [1])] ∧
      (getRange false twoKeys [] [] 0).map (fun all => all.reverse.take 1) =
        .ok [([0x62], [2])] := by
  rw [getRangeReverse_eq, getRange_eq, newIter_twoKeys]
  exact ⟨rfl, rfl⟩

/-! ## Pages -/

/-- The keys below `k` followed by a zero byte are those up to `k`. -/
theorem less_concat_zero (k : Key) : ∀ j : Key, less j (k ++ [0]) = !less k j := by
  induction k with
  | nil =>
      intro j
      cases j with
      | nil => rfl
      | cons y j =>
          have hzero : compare y 0 ≠ .lt := by
            rw [Ne, Std.compare_eq_lt]
            exact UInt8.not_lt_zero
          show (compare (y :: j) [0] == .lt) = !(compare [] (y :: j) == .lt)
          rw [List.compare_cons_cons]
          cases hy : compare y 0 with
          | lt => exact absurd hy hzero
          | gt => rfl
          | eq => cases j <;> rfl
  | cons x k ih =>
      intro j
      cases j with
      | nil => rfl
      | cons y j =>
          have hswap : compare y x = (compare x y).swap := Std.OrientedCmp.eq_swap
          show (compare (y :: j) (x :: (k ++ [0])) == .lt) = !(compare (x :: k) (y :: j) == .lt)
          rw [List.compare_cons_cons, List.compare_cons_cons, hswap]
          cases compare x y with
          | lt => rfl
          | gt => rfl
          | eq => exact ih j

theorem inRange_concat_zero {start fin : Bytes} {k : Key} (hk : less k start = false) (j : Key) :
    inRange (k ++ [0]) fin j = (inRange start fin j && less k j) := by
  rw [inRange, inRange, less_concat_zero, Bool.not_not]
  cases hkj : less k j with
  | false => simp
  | true =>
      -- `start` is at or before `k`, and `k` before `j`
      have hj : less j start = false := by
        cases hjs : less j start with
        | false => rfl
        | true =>
            have hks : less k start = true := Scan.below_trans hkj hjs
            rw [hk] at hks
            cases hks
      simp [hj]

section Pages

variable {σ : Type} [RangeSnapshot σ]

/-- A client that reads a range page by page, each time from behind the last key it has, until
a page is not full.  `none` is a client that is not done after `fuel` pages. -/
def paginate (snap : σ) (fin : Bytes) (limit : Int) : Nat → Bytes → Option (List (List KVPair))
  | 0, _ => none
  | fuel + 1, start =>
      match getRange false snap start fin limit with
      | .error _ => none
      | .ok page =>
          if page.length < limit then some [page]
          else
            match page.getLast? with
            | none => none
            | some last => (paginate snap fin limit fuel (last.1 ++ [0])).map (page :: ·)

theorem newIter_concat_zero {snap : σ} {start fin : Bytes} {front rest : List KVPair}
    {kv : KVPair} (h : Iterating.newIter snap start fin = front ++ kv :: rest) :
    Iterating.newIter snap (kv.1 ++ [0]) fin = rest := by
  have hlists := RangeSnapshot.lists_newIter snap start fin
  have hmem : kv ∈ Iterating.newIter snap start fin := by
    rw [h]
    exact List.mem_append_right _ List.mem_cons_self
  have hstart : less kv.1 start = false := by
    have hrange := ((hlists.mem_iff kv.1 kv.2).mp hmem).2
    simp only [inRange, Bool.and_eq_true, Bool.not_eq_true'] at hrange
    exact hrange.1.1
  have hafter := hlists.filter fun j => Scan.below kv.1 j
  rw [h, Scan.Ascending.filter_below (h ▸ hlists.ascending)] at hafter
  refine (RangeSnapshot.lists_newIter snap (kv.1 ++ [0]) fin).unique (hafter.congr fun j v => ?_)
  rw [inRange_concat_zero hstart]
  show _ ∧ less kv.1 j = true ↔ _
  simp only [Bool.and_eq_true]
  tauto

theorem paginate_eq (snap : σ) (fin : Bytes) {n : Int} (hn : 0 < n) (fuel : Nat) :
    ∀ start, (Iterating.newIter snap start fin).length < fuel →
      ∃ pages, paginate snap fin n fuel start = some pages ∧
        pages.flatten = Iterating.newIter snap start fin := by
  induction fuel with
  | zero => exact fun _ h => absurd h (Nat.not_lt_zero _)
  | succ fuel ih =>
      intro start hfuel
      rw [paginate, getRange_eq, limited, if_pos hn]
      simp only
      split
      · rename_i hshort
        refine ⟨_, rfl, ?_⟩
        rw [List.length_take] at hshort
        rw [List.flatten_singleton, List.take_of_length_le (by omega)]
      · rename_i hfull
        -- a full page has a last pair, and the rest of the range comes behind it
        obtain ⟨front, kv, hpage⟩ := (List.eq_nil_or_concat
          ((Iterating.newIter snap start fin).take n.toNat)).resolve_left fun hnil => by
            rw [hnil] at hfull
            exact hfull hn
        rw [List.concat_eq_append] at hpage
        have hsplit : Iterating.newIter snap start fin =
            front ++ kv :: (Iterating.newIter snap start fin).drop n.toNat := by
          conv_lhs => rw [← List.take_append_drop n.toNat (Iterating.newIter snap start fin),
            hpage]
          rw [List.append_assoc, List.singleton_append]
        have hrest := newIter_concat_zero hsplit
        have hlen := congrArg List.length hsplit
        rw [List.length_append, List.length_cons] at hlen
        obtain ⟨pages, hpages, hflat⟩ := ih (kv.1 ++ [0]) (by rw [hrest]; omega)
        refine ⟨(front ++ [kv]) :: pages, ?_, ?_⟩
        · simp only [hpage, List.getLast?_concat, hpages, Option.map_some]
        · rw [List.flatten_cons, hflat, hrest, List.append_assoc, List.singleton_append, ← hsplit]

/-- **Pages.**  A client with any page size comes to the end, and its pages, one after the
other, are the unlimited scan: every user key of the range once, in ascending order. -/
theorem pages_cover (snap : σ) (start fin : Bytes) {n : Int} (hn : 0 < n) {fuel : Nat}
    (hfuel : (userKeys (RangeSnapshot.get snap) start fin).ncard < fuel) :
    ∃ pages, paginate snap fin n fuel start = some pages ∧
      getRange false snap start fin 0 = .ok pages.flatten ∧
      Scan.Lists (fun k v => RangeSnapshot.get snap k = some v ∧
        (inRange start fin k && !isReserved k) = true) pages.flatten := by
  rw [ncard_userKeys] at hfuel
  obtain ⟨pages, hpages, hflat⟩ := paginate_eq snap fin hn fuel start hfuel
  refine ⟨pages, hpages, ?_, ?_⟩
  · rw [getRange_eq, hflat]
    rfl
  · rw [hflat]
    exact RangeSnapshot.lists_newIter snap start fin

end Pages

/-- One pair a page, and a last page that is empty. -/
theorem pages_twoKeys :
    ∃ pages, paginate twoKeys [] 1 3 [] = some pages ∧
      pages.flatten = [([0x61], [1]), ([0x62], [2])] := by
  have hfuel : (userKeys (RangeSnapshot.get twoKeys) [] []).ncard < 3 := by
    rw [ncard_userKeys, newIter_twoKeys]
    decide
  obtain ⟨pages, hpages, hall, -⟩ := pages_cover twoKeys [] [] (n := 1) (by decide) hfuel
  refine ⟨pages, hpages, ?_⟩
  rw [getRange_eq, newIter_twoKeys] at hall
  exact (Except.ok.inj hall).symm

end Dpx
