/-
# `Dpx.Engine.Dump` — the dump files of the engines

`engine/memory/dump.go` and `engine/badger/dump.go`: a key/value map as bytes.  The two
files share the code of an entry and differ in the header:

    memory    applied 8 · count 8 · (keylen 2 · key · vallen 4 · value)*
    badger    count 8 · (keylen 2 · key · vallen 4 · value)*

The entries stand in the order the encoder's loop met them in (`RangeOrder`).  The decoder
puts them into a map, the last of a key winning, and does not look behind the last entry.

`Memory.decodeDump_encodeDump_iff` and its namesake: a map comes back exactly if its keys are
shorter than `2 ^ 16`, its values shorter than `2 ^ 32` and its entries fewer than `2 ^ 64`
(`Dump.Fits`).  The converse holds because whatever is decoded fits.

`Memory.loadDump` is how `Open` of the memory engines and of the MVCC engine begins.
-/
import Dpx.Lib.Counted
import Dpx.Lib.RangeOrder
import Dpx.Engine.Interface

namespace Dpx

open Framing LittleEndian

/-- What is wrong with a dump, with the length of the file or the number of the entry. -/
inductive DumpError where
  | shortHeader (len : Nat)
  | truncatedKeyLength (entry : Nat)
  | truncatedKey (entry : Nat)
  | truncatedValue (entry : Nat)
  deriving DecidableEq, Repr

namespace Dump

/-! ## Entries -/

/-- The lengths are cut to their words, the bytes are not. -/
def putEntry (kv : Key × Bytes) : Bytes :=
  putUint16 (UInt16.ofNat kv.1.length) ++ kv.1 ++ putUint32 (UInt32.ofNat kv.2.length) ++ kv.2

/-- One turn of the decoder's loop. -/
def getEntry (buf : Bytes) (i pos : Nat) : Except DumpError ((Key × Bytes) × Nat) :=
  if pos + 2 > buf.length then .error (.truncatedKeyLength i)
  else
    let kLen := (uint16 (buf.drop pos)).toNat
    let pos := pos + 2
    if pos + kLen + 4 > buf.length then .error (.truncatedKey i)
    else
      let k := (buf.drop pos).take kLen
      let pos := pos + kLen
      let vLen := (uint32 (buf.drop pos)).toNat
      let pos := pos + 4
      if pos + vLen > buf.length then .error (.truncatedValue i)
      else .ok ((k, (buf.drop pos).take vLen), pos + vLen)

/-- The decoder's loop, from a position behind the header. -/
def getEntries (buf : Bytes) (count pos : Nat) : Except DumpError (GoMap Bytes) := do
  let (kvs, _) ← many (getEntry buf) count 0 pos
  return (∅ : GoMap Bytes).insertMany kvs

/-- What an entry spells. -/
inductive IsEntry : Bytes → Key × Bytes → Prop
  | mk (k v : Bytes) (hk : k.length < 2 ^ 16) (hv : v.length < 2 ^ 32) :
      IsEntry (LengthField.u16.counted k ++ LengthField.u32.counted v) (k, v)

theorem isEntry_putEntry {kv : Key × Bytes} (hk : kv.1.length < 2 ^ 16)
    (hv : kv.2.length < 2 ^ 32) : IsEntry (putEntry kv) kv := by
  have hmk := IsEntry.mk kv.1 kv.2 hk hv
  simpa only [putEntry, LengthField.counted, LengthField.u16, LengthField.u32,
    List.append_assoc] using hmk

/-- **Entries are read exactly.** -/
theorem reads_getEntry (buf : Bytes) (i : Nat) : Reads buf IsEntry (getEntry buf i) := by
  intro pos kv fin
  rw [getEntry]
  simp only
  constructor
  · intro h
    split at h
    · cases h
    · split at h
      · cases h
      · split at h
        · cases h
        · rename_i hkey hmid hvalue
          have hkIn : pos + 2 + (uint16 (buf.drop pos)).toNat ≤ buf.length := by omega
          have hvIn : pos + 2 + (uint16 (buf.drop pos)).toNat + 4 +
              (uint32 (buf.drop (pos + 2 + (uint16 (buf.drop pos)).toNat))).toNat ≤ buf.length := by
            omega
          obtain ⟨hkLen, hk, hkStand⟩ := LengthField.u16.field_spec hkIn
          obtain ⟨hvLen, hv, hvStand⟩ := LengthField.u32.field_spec hvIn
          cases h
          refine ⟨LengthField.u16.counted (LengthField.u16.field buf pos) ++
            LengthField.u32.counted (LengthField.u32.field buf _), .mk _ _ hk hv,
            append_isPrefix_drop_iff.mpr ⟨hkStand, ?_⟩, ?_⟩
          · rw [LengthField.length_counted, hkLen, ← Nat.add_assoc]
            exact hvStand
          · rw [List.length_append, LengthField.length_counted, LengthField.length_counted, hkLen,
              hvLen]
            simp only [LengthField.u16, LengthField.u32]
            omega
  · rintro ⟨e, ⟨k, v, hk, hv⟩, hstand, rfl⟩
    obtain ⟨hfirst, hsecond⟩ := append_isPrefix_drop_iff.mp hstand
    rw [LengthField.length_counted, ← Nat.add_assoc] at hsecond
    obtain ⟨hkLen, hkField, hkIn⟩ := LengthField.u16.field_eq hk hfirst
    obtain ⟨hvLen, hvField, hvIn⟩ := LengthField.u32.field_eq hv hsecond
    rw [List.length_append, LengthField.length_counted, LengthField.length_counted]
    simp only [LengthField.field, LengthField.u16, LengthField.u32] at *
    rw [hkLen] at hkField ⊢
    rw [hvLen] at hvField ⊢
    rw [if_neg (by omega), if_neg (by omega), if_neg (by omega), hkField, hvField]
    simp only [Except.ok.injEq, Prod.mk.injEq, true_and]
    omega

/-! ## The loop -/

theorem getEntries_ok_iff {buf : Bytes} {count pos : Nat} {m : GoMap Bytes} :
    getEntries buf count pos = .ok m ↔ ∃ e kvs, Seq IsEntry e kvs ∧ kvs.length = count ∧
      e <+: buf.drop pos ∧ m = (∅ : GoMap Bytes).insertMany kvs := by
  rw [getEntries]
  constructor
  · intro h
    cases hmany : many (getEntry buf) count 0 pos with
    | error e =>
        rw [hmany] at h
        cases h
    | ok r =>
        obtain ⟨kvs, fin⟩ := r
        rw [hmany] at h
        cases h
        obtain ⟨e, ⟨hseq, hlen⟩, hstand, -⟩ := (reads_many (reads_getEntry buf) _ _ _ _ _).mp hmany
        exact ⟨e, kvs, hseq, hlen, hstand, rfl⟩
  · rintro ⟨e, kvs, hseq, hlen, hstand, rfl⟩
    rw [(reads_many (reads_getEntry buf) _ _ _ _ _).mpr ⟨e, ⟨hseq, hlen⟩, hstand, rfl⟩]
    rfl

/-- The map can be written without cutting a length. -/
structure Fits (m : GoMap Bytes) : Prop where
  count : m.size < 2 ^ 64
  keys : ∀ (k : Key) (v : Bytes), m[k]? = some v → k.length < 2 ^ 16
  values : ∀ (k : Key) (v : Bytes), m[k]? = some v → v.length < 2 ^ 32

theorem fits_empty : Fits ∅ := by
  refine ⟨by simp, ?_, ?_⟩ <;> simp

theorem fits_of_getEntries {buf : Bytes} {count pos : Nat} {m : GoMap Bytes}
    (hcount : count < 2 ^ 64) (h : getEntries buf count pos = .ok m) : Fits m := by
  obtain ⟨e, kvs, hseq, hlen, -, rfl⟩ := getEntries_ok_iff.mp h
  have hmem : ∀ (k : Key) v, ((∅ : GoMap Bytes).insertMany kvs)[k]? = some v → (k, v) ∈ kvs := by
    intro k v hget
    rcases Std.ExtTreeMap.mem_or_of_getElem?_insertMany hget with hin | hempty
    · exact hin
    · rw [Std.ExtTreeMap.getElem?_empty] at hempty
      cases hempty
  have hfit : ∀ kv ∈ kvs, kv.1.length < 2 ^ 16 ∧ kv.2.length < 2 ^ 32 := by
    refine hseq.forall_mem ?_
    rintro e kv ⟨k, v, hk, hv⟩
    exact ⟨hk, hv⟩
  constructor
  · rw [← Std.ExtTreeMap.ofList_eq_insertMany_empty]
    exact (Std.ExtTreeMap.size_ofList_le.trans hlen.le).trans_lt hcount
  · exact fun k v hget => (hfit _ (hmem k v hget)).1
  · exact fun k v hget => (hfit _ (hmem k v hget)).2

/-! ## The count and the entries -/

/-- The number of entries, and the entries in the order of the loop. -/
def putBlock (o : RangeOrder Key Bytes) (data : GoMap Bytes) : Bytes :=
  putUint64 (UInt64.ofNat data.size) ++ (o.entries data).flatMap putEntry

/-- A block at a position; the count is there. -/
def getBlock (buf : Bytes) (pos : Nat) : Except DumpError (GoMap Bytes) :=
  let count := uint64 (buf.drop pos)
  getEntries buf count.toNat (pos + 8)

theorem fits_of_getBlock {buf : Bytes} {pos : Nat} {m : GoMap Bytes}
    (h : getBlock buf pos = .ok m) : Fits m :=
  fits_of_getEntries (UInt64.toNat_lt _) h

theorem Fits.getBlock {m : GoMap Bytes} (h : Fits m) (o : RangeOrder Key Bytes) {buf : Bytes}
    {pos : Nat} (hbuf : buf.drop pos = putBlock o m) : getBlock buf pos = .ok m := by
  have hcount : (uint64 (buf.drop pos)).toNat = m.size := by
    rw [hbuf, putBlock, uint64_putUint64_append]
    exact UInt64.toNat_ofNat_of_lt h.count
  have hentries : buf.drop (pos + 8) = (o.entries m).flatMap putEntry := by
    rw [← List.drop_drop, hbuf, putBlock, List.drop_left' (length_putUint64 _)]
  simp only [Dump.getBlock, hcount]
  refine getEntries_ok_iff.mpr ⟨(o.entries m).flatMap putEntry, o.entries m, seq_flatMap ?_,
    o.length_entries m, hentries ▸ List.prefix_rfl, (o.insertMany_entries_empty m).symm⟩
  rintro ⟨k, v⟩ hkv
  have hget := (o.mem_entries m k v).mp hkv
  exact isEntry_putEntry (h.keys k v hget) (h.values k v hget)

theorem length_putBlock (o : RangeOrder Key Bytes) (m : GoMap Bytes) :
    8 ≤ (putBlock o m).length := by
  rw [putBlock, List.length_append, length_putUint64]
  exact Nat.le_add_right 8 _

end Dump

/-! ## The memory engine -/

namespace Memory

open Dump

/-- `encodeDump`. -/
def encodeDump (o : RangeOrder Key Bytes) (data : GoMap Bytes) (applied : UInt64) : Bytes :=
  putUint64 applied ++ putBlock o data

/-- `decodeDump`. -/
def decodeDump (buf : Bytes) : Except DumpError (GoMap Bytes × UInt64) :=
  if buf.length = 0 then .ok (∅, 0)
  else if buf.length < 16 then .error (.shortHeader buf.length)
  else
    match getBlock buf 8 with
    | .error e => .error e
    | .ok data => .ok (data, uint64 buf)

theorem fits_of_decodeDump {buf : Bytes} {m : GoMap Bytes} {applied : UInt64}
    (h : decodeDump buf = .ok (m, applied)) : Fits m := by
  rw [decodeDump] at h
  split at h
  · cases h
    exact fits_empty
  · split at h
    · cases h
    · cases hget : getBlock buf 8 with
      | error e =>
          rw [hget] at h
          cases h
      | ok data =>
          rw [hget] at h
          cases h
          exact fits_of_getBlock hget

/-- **The round trip of a memory dump.** -/
theorem decodeDump_encodeDump_iff (o : RangeOrder Key Bytes) (m : GoMap Bytes)
    (applied : UInt64) : decodeDump (encodeDump o m applied) = .ok (m, applied) ↔ Fits m := by
  refine ⟨fits_of_decodeDump, fun h => ?_⟩
  have hlen : 16 ≤ (encodeDump o m applied).length := by
    have := length_putBlock o m
    rw [encodeDump, List.length_append, length_putUint64]
    omega
  have happlied : uint64 (encodeDump o m applied) = applied := uint64_putUint64_append _ _
  have hblock : (encodeDump o m applied).drop 8 = putBlock o m :=
    List.drop_left' (length_putUint64 applied)
  rw [decodeDump, if_neg (by omega), if_neg (by omega), h.getBlock o hblock, happlied]

/-- What `os.ReadFile` answers. -/
inductive FileRead where
  | notExist
  | failed (err : String)
  | contents (b : Bytes)

/-- Why `Open` fails. -/
inductive LoadError where
  | read (err : String)
  | dump (e : DumpError)
  deriving DecidableEq

/-- The first part of `Open`: without a file there is nothing to load. -/
def loadDump : FileRead → Except LoadError (Option (GoMap Bytes × UInt64))
  | .notExist => .ok none
  | .failed err => .error (.read err)
  | .contents b =>
      match decodeDump b with
      | .error e => .error (.dump e)
      | .ok dump => .ok (some dump)

theorem loadDump_encodeDump {m : GoMap Bytes} (h : Fits m) (o : RangeOrder Key Bytes)
    (applied : UInt64) :
    loadDump (.contents (encodeDump o m applied)) = .ok (some (m, applied)) := by
  rw [loadDump, (decodeDump_encodeDump_iff o m applied).mpr h]

theorem loadDump_contents {b : Bytes} {r : Option (GoMap Bytes × UInt64)}
    (h : loadDump (.contents b) = .ok r) : ∃ m applied, r = some (m, applied) ∧ Fits m := by
  rw [loadDump] at h
  cases hdec : decodeDump b with
  | error e =>
      rw [hdec] at h
      cases h
  | ok dump =>
      rw [hdec] at h
      cases h
      exact ⟨dump.1, dump.2, rfl, fits_of_decodeDump hdec⟩

end Memory

/-! ## The Badger engine -/

namespace Badger

open Dump

/-- `encodeDump`: no applied index. -/
def encodeDump (o : RangeOrder Key Bytes) (data : GoMap Bytes) : Bytes := putBlock o data

/-- `decodeDump`. -/
def decodeDump (buf : Bytes) : Except DumpError (GoMap Bytes) :=
  if buf.length = 0 then .ok ∅
  else if buf.length < 8 then .error (.shortHeader buf.length)
  else getBlock buf 0

/-- **The round trip of a Badger dump.** -/
theorem decodeDump_encodeDump_iff (o : RangeOrder Key Bytes) (m : GoMap Bytes) :
    decodeDump (encodeDump o m) = .ok m ↔ Fits m := by
  have hlen : 8 ≤ (encodeDump o m).length := length_putBlock o m
  rw [decodeDump, if_neg (by omega), if_neg (by omega)]
  exact ⟨fits_of_getBlock, fun h => h.getBlock o List.drop_zero⟩

end Badger

end Dpx
