/-
# `Dpx.Engine.Checkpoint` — checkpoint and restore of the B-tree engines

`CreateCheckpoint` and `Open` of `engine/memory/memory.go`.  A checkpoint is one dump of all
keys and the applied index.  `Open` loads it into a live engine:

  * the plain engine builds a new tree and drops the old one;
  * the sharded engine sets the loaded keys in the trees it has, and gives every shard the
    applied index.  Nothing is removed from the old trees.

`checkpoint_restores_iff`: what a restored engine answers is what the source answered exactly
if the contents fit the dump format and, in the sharded engine, the target held no key that
the source does not hold.  Version keys are ten bytes longer than their user keys, so a user
key of 65526 bytes is already too long.
-/
import Dpx.Engine.Dump
import Dpx.Engine.Equivalence

namespace Dpx

open Dump Memory

/-- Everything the engine and a snapshot taken now answer. -/
structure Answers where
  get : Key → Option Bytes
  getVersion : Key → EpochRecord
  rawIter : Bytes → Bytes → List (Bytes × Bytes)
  newIter : Bytes → Bytes → List (Bytes × Bytes)
  currentSequence : UInt64
  sequence : UInt64

/-! ## The plain engine -/

namespace State

def answers (s : State) : Answers :=
  ⟨s.get, s.getVersion, s.rawIter, s.newIter, s.applied, s.sequence⟩

/-- `CreateCheckpoint`: the bytes of the dump file. -/
def createCheckpoint (s : State) (o : RangeOrder Key Bytes) : Bytes :=
  encodeDump o ((∅ : GoMap Bytes).insertMany s.tree.toList) s.applied

/-- `Open`. -/
def «open» (s : State) (o : RangeOrder Key Bytes) (file : FileRead) : Option LoadError × State :=
  match loadDump file with
  | .error e => (some e, s)
  | .ok none => (none, s)
  | .ok (some (data, applied)) => (none, ⟨(∅ : GoMap Bytes).insertMany (o.entries data), applied⟩)

theorem createCheckpoint_eq (s : State) (o : RangeOrder Key Bytes) :
    s.createCheckpoint o = encodeDump o s.tree s.applied :=
  congrArg (fun m => encodeDump o m s.applied)
    (RangeOrder.ascending.insertMany_entries_empty s.tree)

theorem restore_iff (s t : State) (o₁ o₂ : RangeOrder Key Bytes) :
    ((t.open o₂ (.contents (s.createCheckpoint o₁))).1 = none ∧
      (t.open o₂ (.contents (s.createCheckpoint o₁))).2.answers = s.answers) ↔ Fits s.tree := by
  rw [createCheckpoint_eq, State.open]
  constructor
  · rintro ⟨hok, hanswers⟩
    cases hload : loadDump (.contents (encodeDump o₁ s.tree s.applied)) with
    | error e =>
        rw [hload] at hok
        cases hok
    | ok r =>
        obtain ⟨m, applied, rfl, hfits⟩ := loadDump_contents hload
        rw [hload] at hanswers
        have hget := congrArg Answers.get hanswers
        have htree : m = s.tree := by
          refine Std.ExtTreeMap.ext_getElem? fun k => ?_
          rw [← o₂.insertMany_entries_empty m]
          exact congrFun hget k
        exact htree ▸ hfits
  · intro h
    rw [loadDump_encodeDump h]
    simp only [o₂.insertMany_entries_empty]
    exact ⟨trivial, trivial⟩

end State

/-! ## The sharded engine -/

namespace ShardedEngine

def answers (e : ShardedEngine) : Answers :=
  ⟨e.get, e.getVersion, e.rawIter, e.newIter, e.currentSequence, e.sequence⟩

/-- The map `CreateCheckpoint` collects: the trees of all shards, one after the other. -/
def allData (e : ShardedEngine) : GoMap Bytes :=
  (List.finRange numShards).foldl (fun m i => m.insertMany (e.shards i).tree.toList) ∅

/-- `CreateCheckpoint`: the largest applied index goes with the collected map. -/
def createCheckpoint (e : ShardedEngine) (o : RangeOrder Key Bytes) : Bytes :=
  encodeDump o e.allData ((List.finRange numShards).foldl
    (fun m i => if m < (e.shards i).applied then (e.shards i).applied else m) 0)

/-- One turn of the loop in `Open`: the key is set in a clone of its shard. -/
def loadItem (e : ShardedEngine) (kv : Key × Bytes) : ShardedEngine :=
  let s := e.shards (shardFor kv.1)
  ⟨Function.update e.shards (shardFor kv.1) { s with tree := s.tree.insert kv.1 kv.2 }⟩

/-- `Open`. -/
def «open» (e : ShardedEngine) (o : RangeOrder Key Bytes) (file : FileRead) :
    Option LoadError × ShardedEngine :=
  match loadDump file with
  | .error err => (some err, e)
  | .ok none => (none, e)
  | .ok (some (data, applied)) =>
      let e := (o.entries data).foldl loadItem e
      (none, ⟨fun i => { e.shards i with applied := applied }⟩)

/-! ### What is collected -/

theorem Homed.getElem?_allData {e : ShardedEngine} (h : e.Homed) (k : Key) :
    e.allData[k]? = e.get k := by
  have hstep : ∀ (m : GoMap Bytes) i,
      (m.insertMany (e.shards i).tree.toList)[k]? = ((e.shards i).get k).or m[k]? :=
    fun m i => RangeOrder.ascending.getElem?_insertMany_entries _ m k
  have hother : ∀ i, i ≠ shardFor k → (e.shards i).get k = none := by
    intro i hi
    refine Option.eq_none_iff_forall_ne_some.mpr fun v hv => hi ?_
    exact (h i k v hv).symm
  rw [allData, foldl_or_single (r := fun m : GoMap Bytes => m[k]?) hstep hother,
    if_pos (List.mem_finRange _), Std.ExtTreeMap.getElem?_empty, Option.or_none]
  rfl

/-! ### What is loaded -/

theorem get_foldl_loadItem (i : ShardId) (k : Key) (kvs : List (Key × Bytes)) :
    ∀ e : ShardedEngine, ((kvs.foldl loadItem e).shards i).get k =
      if shardFor k = i then ((e.shards i).tree.insertMany kvs)[k]? else (e.shards i).get k := by
  induction kvs with
  | nil =>
      intro e
      simp [State.get]
  | cons kv kvs ih =>
      intro e
      obtain ⟨k', v⟩ := kv
      rw [List.foldl_cons, ih, Std.ExtTreeMap.insertMany_cons]
      by_cases hi : i = shardFor k'
      · subst hi
        simp only [loadItem, Function.update_self]
        by_cases hk : shardFor k = shardFor k'
        · rw [if_pos hk, if_pos hk]
        · have hne : k' ≠ k := fun heq => hk (heq ▸ rfl)
          rw [if_neg hk, if_neg hk, State.get, State.get, Std.ExtTreeMap.getElem?_insert,
            if_neg (mt Std.LawfulEqOrd.compare_eq_iff_eq.mp hne)]
      · simp only [loadItem, Function.update_of_ne hi]
        by_cases hk : shardFor k = i
        · have hne : k' ≠ k := fun heq => hi (heq ▸ hk.symm)
          rw [if_pos hk, if_pos hk, Std.ExtTreeMap.getElem?_insertMany_insert_of_ne hne]
        · rw [if_neg hk, if_neg hk]

/-- The engine after loading a map: the map where it says something, else what was there. -/
theorem get_loaded (e : ShardedEngine) (o : RangeOrder Key Bytes) (data : GoMap Bytes)
    (i : ShardId) (k : Key) :
    (((o.entries data).foldl loadItem e).shards i).get k =
      if shardFor k = i then (data[k]?).or ((e.shards i).get k) else (e.shards i).get k := by
  rw [get_foldl_loadItem, o.getElem?_insertMany_entries]
  rfl

theorem Homed.loaded {e : ShardedEngine} (h : e.Homed) (o : RangeOrder Key Bytes)
    (data : GoMap Bytes) (applied : UInt64) :
    Homed ⟨fun i => { ((o.entries data).foldl loadItem e).shards i with applied := applied }⟩ := by
  intro i k v hget
  by_contra hi
  have hold : (((o.entries data).foldl loadItem e).shards i).get k = (e.shards i).get k := by
    rw [get_loaded, if_neg hi]
  exact hi (h i k v (hold.symm.trans hget))

theorem foldl_max_const {I : Type} {x : UInt64} (is : List I) :
    ∀ m : UInt64, m ≤ x → is ≠ [] ∨ m = x →
      is.foldl (fun m _ => if m < x then x else m) m = x := by
  induction is with
  | nil =>
      rintro m - (hne | rfl)
      · exact absurd rfl hne
      · rfl
  | cons i is ih =>
      intro m hm _
      have hstep : (if m < x then x else m) = x := by
        split
        · rfl
        · rename_i hlt
          exact UInt64.le_antisymm hm (UInt64.not_lt.mp hlt)
      rw [List.foldl_cons, hstep]
      exact ih x UInt64.le_rfl (Or.inr rfl)

theorem currentSequence_loaded (e : ShardedEngine) (applied : UInt64) :
    currentSequence ⟨fun i => { e.shards i with applied := applied }⟩ = applied :=
  foldl_max_const _ 0 UInt64.zero_le (Or.inl (by decide))

/-! ### Reachable engines -/

/-- The calls that change an engine. -/
inductive EngineCall where
  | applyBatch (ops : List BatchOp)
  | load (o : RangeOrder Key Bytes) (file : FileRead)

def call (e : ShardedEngine) : EngineCall → ShardedEngine
  | .applyBatch ops => e.applyBatch ops
  | .load o file => (e.open o file).2

/-- A sharded engine after some calls. -/
def after (calls : List EngineCall) : ShardedEngine := calls.foldl call new

theorem Homed.call {e : ShardedEngine} (h : e.Homed) (c : EngineCall) : (e.call c).Homed := by
  cases c with
  | applyBatch ops => exact h.applyBatch ops
  | load o file =>
      rw [ShardedEngine.call, ShardedEngine.open]
      cases loadDump file with
      | error err => exact h
      | ok r =>
          cases r with
          | none => exact h
          | some dump => exact h.loaded o dump.1 dump.2

theorem homed_after (calls : List EngineCall) : (after calls).Homed := by
  have hfold : ∀ (calls : List EngineCall) {e : ShardedEngine}, e.Homed →
      (calls.foldl ShardedEngine.call e).Homed := by
    intro calls
    induction calls with
    | nil => exact fun h => h
    | cons c calls ih => exact fun h => ih (h.call c)
  exact hfold calls homed_new

/-! ### Restoring -/

theorem Homed.answers_iff {a b : ShardedEngine} (ha : a.Homed) (hb : b.Homed) :
    a.answers = b.answers ↔
      (∀ k, a.get k = b.get k) ∧ a.currentSequence = b.currentSequence := by
  constructor
  · intro h
    exact ⟨congrFun (congrArg Answers.get h), congrArg Answers.currentSequence h⟩
  · rintro ⟨hget, hseq⟩
    have hversion : a.getVersion = b.getVersion := by
      funext k
      rw [getVersion_eq, getVersion_eq, hget]
    have hraw : a.rawIter = b.rawIter := by
      funext start fin
      refine (ha.lists_rawIter start fin).unique ((hb.lists_rawIter start fin).congr ?_)
      simp [hget]
    have hnew : a.newIter = b.newIter := by
      funext start fin
      refine (ha.lists_newIter start fin).unique ((hb.lists_newIter start fin).congr ?_)
      simp [hget]
    have hsequence : a.sequence = b.sequence := hseq
    rw [answers, answers, funext hget, hversion, hraw, hnew, hseq, hsequence]

/-- `Open` on the dump of `s` succeeds, and the engine answers as `s` does. -/
def Restores (s t : ShardedEngine) (o₁ o₂ : RangeOrder Key Bytes) : Prop :=
  let r := t.open o₂ (.contents (s.createCheckpoint o₁))
  r.1 = none ∧ r.2.answers = s.answers

/-- After loading the dump of `s`, its keys are as in `s`; others are left alone. -/
theorem restores_iff_subset {s t : ShardedEngine} (hs : s.Homed) (ht : t.Homed)
    (hfits : Fits s.allData) (o₁ o₂ : RangeOrder Key Bytes) :
    Restores s t o₁ o₂ ↔ ∀ k, t.get k ≠ none → s.get k ≠ none := by
  have hload : t.open o₂ (.contents (s.createCheckpoint o₁)) =
      (none, ⟨fun i => { ((o₂.entries s.allData).foldl loadItem t).shards i with
        applied := s.currentSequence }⟩) := by
    rw [ShardedEngine.open, createCheckpoint, loadDump_encodeDump hfits]
    rfl
  have hget : ∀ k, get ⟨fun i => { ((o₂.entries s.allData).foldl loadItem t).shards i with
      applied := s.currentSequence }⟩ k = (s.get k).or (t.get k) := by
    intro k
    have hhome := t.get_loaded o₂ s.allData (shardFor k) k
    rw [if_pos rfl, hs.getElem?_allData] at hhome
    exact hhome
  rw [Restores, hload]
  simp only [(ht.loaded o₂ s.allData s.currentSequence).answers_iff hs, currentSequence_loaded,
    hget, and_true, true_and]
  refine forall_congr' fun k => ?_
  cases s.get k <;> simp

/-- Onto an empty engine everything that fits is restored, and nothing else. -/
theorem restores_new_iff {s : ShardedEngine} (hs : s.Homed) (o₁ o₂ : RangeOrder Key Bytes) :
    Restores s new o₁ o₂ ↔ Fits s.allData := by
  constructor
  · rintro ⟨hok, hanswers⟩
    rw [ShardedEngine.open] at hok hanswers
    cases hload : loadDump (.contents (s.createCheckpoint o₁)) with
    | error e =>
        rw [hload] at hok
        cases hok
    | ok r =>
        obtain ⟨m, applied, rfl, hfits⟩ := loadDump_contents hload
        rw [hload] at hanswers
        have hmap : m = s.allData := by
          refine Std.ExtTreeMap.ext_getElem? fun k => ?_
          have hhome := new.get_loaded o₂ m (shardFor k) k
          rw [if_pos rfl] at hhome
          have hnew : (new.shards (shardFor k)).get k = none := State.get_empty k
          rw [hnew, Option.or_none] at hhome
          rw [← hhome, hs.getElem?_allData]
          exact congrFun (congrArg Answers.get hanswers) k
        exact hmap ▸ hfits
  · intro hfits
    refine (restores_iff_subset hs homed_new hfits o₁ o₂).mpr fun k hk => ?_
    exact absurd (State.get_empty k) hk

end ShardedEngine

/-! ## Both engines -/

/-- **Checkpoint and restore.**  On the plain engine, whatever the states: the restored engine
answers as the source did if and only if the source's contents fit.  On the sharded engine,
whatever calls made source and target: if the contents fit, it does so if and only if the
target held no key the source does not hold; and onto a new engine, if and only if they fit. -/
theorem checkpoint_restores_iff (o₁ o₂ : RangeOrder Key Bytes) :
    (∀ s t : State,
      ((t.open o₂ (.contents (s.createCheckpoint o₁))).1 = none ∧
        (t.open o₂ (.contents (s.createCheckpoint o₁))).2.answers = s.answers) ↔ Fits s.tree) ∧
    (∀ source target : List ShardedEngine.EngineCall,
      let s := ShardedEngine.after source
      let t := ShardedEngine.after target
      Fits s.allData →
        (ShardedEngine.Restores s t o₁ o₂ ↔ ∀ k, t.get k ≠ none → s.get k ≠ none)) ∧
    ∀ source : List ShardedEngine.EngineCall,
      let s := ShardedEngine.after source
      ShardedEngine.Restores s ShardedEngine.new o₁ o₂ ↔ Fits s.allData := by
  refine ⟨fun s t => s.restore_iff t o₁ o₂, ?_, ?_⟩
  · intro source target s t hfits
    exact ShardedEngine.restores_iff_subset (ShardedEngine.homed_after source)
      (ShardedEngine.homed_after target) hfits o₁ o₂
  · intro source s
    exact ShardedEngine.restores_new_iff (ShardedEngine.homed_after source) o₁ o₂

/-- A key the dump format is too narrow for. -/
def longKey : Key := List.replicate 65536 0

/-- A replica that still holds `b` is restored from one that has deleted it, and holds it
still.  A key of 65536 bytes is not restored at all. -/
theorem deleted_key_survives :
    (let s := ShardedEngine.after
        [.applyBatch [.set [0x62] [1]], .applyBatch [.delete [0x62], .set [0x61] [1]]]
      let t := ShardedEngine.after [.applyBatch [.set [0x62] [1]]]
      let r := t.open .ascending (.contents (s.createCheckpoint .ascending))
      r.1 = none ∧ s.get [0x62] = none ∧ r.2.get [0x62] = some [1]) ∧
    ¬ (let s : State := ⟨(∅ : GoMap Bytes).insert longKey [], 0⟩
      let r := State.empty.open .ascending (.contents (s.createCheckpoint .ascending))
      r.1 = none ∧ r.2.answers = s.answers) := by
  constructor
  · decide +kernel
  · intro h
    have hfits := (State.restore_iff _ _ _ _).mp h
    have hlt := hfits.keys longKey [] (by simp)
    rw [longKey, List.length_replicate] at hlt
    exact absurd hlt (by decide)

end Dpx
