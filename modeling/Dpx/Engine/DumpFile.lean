/-
# `Dpx.Engine.DumpFile` — dump files, byte by byte

`engine/memory/dump.go` once more, now as the code walks its buffer.  `encodeDump` sums the
size in one loop over the map, makes the buffer, and writes into it at a position of its own in
a second loop; the two loops may meet the entries in different orders.  `decodeDump` checks each
length and then reads.  An access outside the buffer is `Fault.outOfRange` (`Dpx.Lib.Buffer`).

Both are the functions of `Dpx.Engine.Dump` (`InBuffer.encodeDump_eq`,
`InBuffer.decodeDump_eq`), so no access ever leaves the buffer, whatever the bytes are, and a
map comes back.  Memory is not modelled: the hint in `make(map, count)` has no effect here.

The file is written in place, so a crash can leave any start of it.  A start that reaches into
the count is rejected: the entries that are there would have to be all of them, since a
position has one reading (`Dump.Fits.getBlock_error`).  A start of fewer than 16 bytes is
rejected by its length, unless it is empty.  An empty file is a dump of nothing.  The dumps of
`badger/dump.go` are cut with the same effect (`Badger.decodeDump_cut_iff`): there the first word
is the count, and an empty file is a dump of nothing too.
-/
import Dpx.Lib.Buffer
import Dpx.Engine.Dump

namespace Dpx

open Framing LittleEndian Buffer

namespace Dump

/-- A Go map that the length fields can count; `len` is an `int`. -/
structure Dumpable (m : GoMap Bytes) : Prop where
  len : m.size < 2 ^ 63
  keys : ∀ (k : Key) (v : Bytes), m[k]? = some v → k.length ≤ 65535
  values : ∀ (k : Key) (v : Bytes), m[k]? = some v → v.length < 2 ^ 32

theorem Dumpable.fits {m : GoMap Bytes} (h : Dumpable m) : Fits m where
  count := h.len.trans (by decide)
  keys := fun k v hk => Nat.lt_succ_of_le (h.keys k v hk)
  values := h.values

/-- One key and one byte. -/
def oneKey : GoMap Bytes := (∅ : GoMap Bytes).insert [0x6b] [1]

theorem dumpable_oneKey : Dumpable oneKey := by
  have hget : ∀ (k : Key) (v : Bytes), oneKey[k]? = some v → k = [0x6b] ∧ v = [1] := by
    intro k v h
    rw [oneKey, Std.ExtTreeMap.getElem?_insert] at h
    split at h
    · rename_i heq
      exact ⟨(Std.LawfulEqOrd.compare_eq_iff_eq.mp heq).symm, (Option.some.inj h).symm⟩
    · simp at h
  refine ⟨by decide +kernel, fun k v h => ?_, fun k v h => ?_⟩
  · rw [(hget k v h).1]
    decide
  · rw [(hget k v h).2]
    decide

end Dump

/-! ## Writing -/

namespace Memory.InBuffer

def entrySize (kv : Key × Bytes) : Nat := 2 + kv.1.length + 4 + kv.2.length

/-- One turn of the writing loop, on the buffer and the position. -/
def putEntry (s : Bytes × Nat) (kv : Key × Bytes) : Except (Fault Empty) (Bytes × Nat) := do
  let (buf, pos) := s
  let buf ← putAt buf pos (putUint16 (UInt16.ofNat kv.1.length))
  let pos := pos + 2
  let buf ← copyAt buf pos kv.1
  let pos := pos + kv.1.length
  let buf ← putAt buf pos (putUint32 (UInt32.ofNat kv.2.length))
  let pos := pos + 4
  let buf ← copyAt buf pos kv.2
  return (buf, pos + kv.2.length)

/-- `encodeDump`; the loops range in the orders `sized` and `written`. -/
def encodeDump (sized written : RangeOrder Key Bytes) (data : GoMap Bytes) (applied : UInt64) :
    Except (Fault Empty) Bytes := do
  let size := (sized.entries data).foldl (fun size kv => size + entrySize kv) (8 + 8)
  let buf := List.replicate size 0
  let pos := 0
  let buf ← putAt buf pos (putUint64 applied)
  let pos := pos + 8
  let buf ← putAt buf pos (putUint64 (UInt64.ofNat data.size))
  let pos := pos + 8
  let (buf, _) ← (written.entries data).foldlM putEntry (buf, pos)
  return buf

theorem putEntry_fill (done : Bytes) (kv : Key × Bytes) (n : Nat) :
    putEntry (fill done (entrySize kv + n), done.length) kv =
      .ok (fill (done ++ Dump.putEntry kv) n, (done ++ Dump.putEntry kv).length) := by
  obtain ⟨k, v⟩ := kv
  have hkeyLen := putAt_fill (E := Empty) done (putUint16 (UInt16.ofNat k.length))
    (k.length + (4 + (v.length + n)))
  have hkey := copyAt_fill (E := Empty) (done ++ putUint16 (UInt16.ofNat k.length)) k
    (4 + (v.length + n))
  have hvalueLen := putAt_fill (E := Empty) (done ++ putUint16 (UInt16.ofNat k.length) ++ k)
    (putUint32 (UInt32.ofNat v.length)) (v.length + n)
  have hvalue := copyAt_fill (E := Empty) (done ++ putUint16 (UInt16.ofNat k.length) ++ k ++
    putUint32 (UInt32.ofNat v.length)) v n
  have hsize : entrySize (k, v) + n = 2 + (k.length + (4 + (v.length + n))) := by
    simp only [entrySize]
    omega
  simp only [List.length_append, length_putUint16, length_putUint32]
    at hkeyLen hkey hvalueLen hvalue
  simp only [putEntry, hsize, hkeyLen, bind, Except.bind, hkey, hvalueLen, hvalue]
  simp only [pure, Except.pure, Dump.putEntry, List.length_append, length_putUint16,
    length_putUint32, List.append_assoc, Nat.add_assoc]

theorem foldlM_putEntry (kvs : List (Key × Bytes)) :
    ∀ done : Bytes, kvs.foldlM putEntry (fill done (kvs.map entrySize).sum, done.length) =
      .ok (done ++ kvs.flatMap Dump.putEntry, (done ++ kvs.flatMap Dump.putEntry).length) := by
  induction kvs with
  | nil =>
      intro done
      simp only [List.map_nil, List.sum_nil, fill, List.replicate_zero, List.append_nil,
        List.foldlM_nil, List.flatMap_nil]
      rfl
  | cons kv kvs ih =>
      intro done
      rw [List.map_cons, List.sum_cons, List.foldlM_cons, putEntry_fill]
      show kvs.foldlM putEntry _ = _
      rw [ih, List.flatMap_cons, List.append_assoc]

theorem foldl_entrySize (kvs : List (Key × Bytes)) :
    ∀ size, kvs.foldl (fun size kv => size + entrySize kv) size =
      size + (kvs.map entrySize).sum := by
  induction kvs with
  | nil => exact fun size => rfl
  | cons kv kvs ih =>
      intro size
      rw [List.foldl_cons, ih, List.map_cons, List.sum_cons, Nat.add_assoc]

/-- **The encoder fills its buffer exactly**, whatever the orders of its two loops. -/
theorem encodeDump_eq (sized written : RangeOrder Key Bytes) (data : GoMap Bytes)
    (applied : UInt64) :
    encodeDump sized written data applied = .ok (Memory.encodeDump written data applied) := by
  have hperm : (sized.entries data).Perm (written.entries data) :=
    (sized.perm data).trans (written.perm data).symm
  have hsize : (sized.entries data).foldl (fun size kv => size + entrySize kv) (8 + 8) =
      8 + (8 + ((written.entries data).map entrySize).sum) := by
    rw [foldl_entrySize, (hperm.map entrySize).sum_nat, Nat.add_assoc]
  have hblank : ∀ n, List.replicate n (0 : UInt8) = fill [] n := fun _ => rfl
  have happlied := putAt_fill (E := Empty) [] (putUint64 applied)
    (8 + ((written.entries data).map entrySize).sum)
  have hcount := putAt_fill (E := Empty) (putUint64 applied) (putUint64 (UInt64.ofNat data.size))
    ((written.entries data).map entrySize).sum
  have hentries := foldlM_putEntry (written.entries data)
    (putUint64 applied ++ putUint64 (UInt64.ofNat data.size))
  simp only [length_putUint64, List.length_append, List.nil_append, List.length_nil]
    at happlied hcount hentries
  simp only [encodeDump, hsize, hblank, happlied, bind, Except.bind, Nat.zero_add, hcount, hentries]
  rw [Memory.encodeDump, Dump.putBlock, List.append_assoc]
  rfl

/-! ## Reading -/

/-- One turn of the reading loop. -/
def getEntry (buf : Bytes) (i pos : Nat) : Except (Fault DumpError) ((Key × Bytes) × Nat) := do
  if pos + 2 > buf.length then throw (.failed (.truncatedKeyLength i))
  let kLen := (← wordAt 2 uint16 buf pos).toNat
  let pos := pos + 2
  if pos + kLen + 4 > buf.length then throw (.failed (.truncatedKey i))
  let k ← slice buf pos (pos + kLen)
  let pos := pos + kLen
  let vLen := (← wordAt 4 uint32 buf pos).toNat
  let pos := pos + 4
  if pos + vLen > buf.length then throw (.failed (.truncatedValue i))
  let v ← slice buf pos (pos + vLen)
  return ((k, v), pos + vLen)

/-- The reading loop: how many entries are left, the entry number, the position, the map. -/
def getEntries (buf : Bytes) :
    Nat → Nat → Nat → GoMap Bytes → Except (Fault DumpError) (GoMap Bytes)
  | 0, _, _, data => return data
  | n + 1, i, pos, data => do
      let ((k, v), pos) ← getEntry buf i pos
      getEntries buf n (i + 1) pos (data.insert k v)

/-- `decodeDump` -/
def decodeDump (buf : Bytes) : Except (Fault DumpError) (GoMap Bytes × UInt64) := do
  if buf.length = 0 then return (∅, 0)
  if buf.length < 16 then throw (.failed (.shortHeader buf.length))
  let pos := 0
  let applied ← wordAt 8 uint64 buf pos
  let pos := pos + 8
  let count ← wordAt 8 uint64 buf pos
  let pos := pos + 8
  let data ← getEntries buf count.toNat 0 pos ∅
  return (data, applied)

theorem getEntry_eq (buf : Bytes) (i pos : Nat) :
    getEntry buf i pos = (Dump.getEntry buf i pos).mapError Fault.failed := by
  rw [Dump.getEntry]
  simp only [getEntry]
  split
  · rfl
  · rename_i hkeyLen
    rw [wordAt_of_le (by omega)]
    simp only [bind, Except.bind, pure, Except.pure]
    split
    · rfl
    · rename_i hkey
      rw [slice_of_le (by omega), wordAt_of_le (by omega)]
      simp only
      split
      · rfl
      · rename_i hvalue
        rw [slice_of_le (by omega)]
        rfl

theorem getEntries_eq (buf : Bytes) (n : Nat) : ∀ (i pos : Nat) (data : GoMap Bytes),
    getEntries buf n i pos data =
      ((many (Dump.getEntry buf) n i pos).map fun r => data.insertMany r.1).mapError
        Fault.failed := by
  induction n with
  | zero => exact fun i pos data => rfl
  | succ n ih =>
      intro i pos data
      rw [getEntries, many, getEntry_eq]
      cases Dump.getEntry buf i pos with
      | error e => rfl
      | ok r =>
          obtain ⟨⟨k, v⟩, pos⟩ := r
          show getEntries buf n (i + 1) pos (data.insert k v) = _
          rw [ih]
          simp only [bind, Except.bind]
          cases many (Dump.getEntry buf) n (i + 1) pos with
          | error e => rfl
          | ok r =>
              show Except.ok _ = Except.ok (data.insertMany ((k, v) :: r.1))
              rw [Std.ExtTreeMap.insertMany_cons]

/-- **No access leaves the buffer.** -/
theorem decodeDump_eq (buf : Bytes) :
    decodeDump buf = (Memory.decodeDump buf).mapError Fault.failed := by
  rw [Memory.decodeDump]
  simp only [decodeDump]
  split
  · rfl
  · split
    · rfl
    · rename_i hlen
      rw [wordAt_of_le (by omega), wordAt_of_le (by omega)]
      show (getEntries buf (uint64 (buf.drop 8)).toNat 0 16 ∅).bind _ = _
      rw [getEntries_eq, Dump.getBlock]
      simp only [Dump.getEntries, bind, Except.bind]
      cases many (Dump.getEntry buf) (uint64 (buf.drop 8)).toNat 0 16 with
      | error e => rfl
      | ok r => rfl

/-- **A dump comes back, and any bytes are answered** with a map or an error. -/
theorem dump_round_trip {data : GoMap Bytes} (h : Dump.Dumpable data) (applied : UInt64)
    (sized written : RangeOrder Key Bytes) :
    (∃ buf, encodeDump sized written data applied = .ok buf ∧
      decodeDump buf = .ok (data, applied)) ∧
    ∀ buf : Bytes, (∃ r, decodeDump buf = .ok r) ∨ ∃ e, decodeDump buf = .error (.failed e) := by
  constructor
  · refine ⟨_, encodeDump_eq sized written data applied, ?_⟩
    rw [decodeDump_eq, (decodeDump_encodeDump_iff written data applied).mpr h.fits]
    rfl
  · intro buf
    rw [decodeDump_eq]
    cases Memory.decodeDump buf with
    | ok r => exact Or.inl ⟨r, rfl⟩
    | error e => exact Or.inr ⟨e, rfl⟩

theorem oneKey_comes_back :
    ∃ buf, encodeDump .ascending .ascending Dump.oneKey 7 = .ok buf ∧
      decodeDump buf = .ok (Dump.oneKey, 7) :=
  (dump_round_trip Dump.dumpable_oneKey 7 .ascending .ascending).1

end Memory.InBuffer

/-! ## A file cut short -/

namespace Dump

/-- A block cut behind its count: the entries in front of the cut would have to be all. -/
theorem Fits.getBlock_error {m : GoMap Bytes} (h : Fits m) (o : RangeOrder Key Bytes)
    {buf p : Bytes} {pos : Nat} (hbuf : buf.drop pos = putBlock o m) (hp : p <+: buf)
    (hne : p ≠ buf) (hlen : pos + 8 ≤ p.length) : ∃ e, Dump.getBlock p pos = .error e := by
  obtain ⟨t, rfl⟩ := hp
  rw [List.drop_append_of_le_length (by omega), putBlock] at hbuf
  obtain ⟨rest, hrest⟩ : putUint64 (UInt64.ofNat m.size) <+: p.drop pos := by
    refine List.prefix_of_prefix_length_le ⟨_, rfl⟩ ⟨t, hbuf⟩ ?_
    rw [length_putUint64, List.length_drop]
    omega
  rw [← hrest, List.append_assoc, List.append_cancel_left_eq] at hbuf
  have hcount : (uint64 (p.drop pos)).toNat = m.size := by
    rw [← hrest, uint64_putUint64_append]
    exact UInt64.toNat_ofNat_of_lt h.count
  have hdrop : p.drop (pos + 8) = rest := by
    rw [← List.drop_drop, ← hrest, List.drop_left' (length_putUint64 _)]
  cases hget : Dump.getBlock p pos with
  | error e => exact ⟨e, rfl⟩
  | ok m' =>
      exfalso
      simp only [Dump.getBlock, hcount] at hget
      obtain ⟨e, kvs, hseq, hkvs, hstand, -⟩ := getEntries_ok_iff.mp hget
      rw [hdrop] at hstand
      have hall : Seq IsEntry (rest ++ t) (o.entries m) := by
        rw [hbuf]
        refine seq_flatMap fun kv hkv => ?_
        have hkv := (o.mem_entries m kv.1 kv.2).mp hkv
        exact isEntry_putEntry (h.keys _ _ hkv) (h.values _ _ hkv)
      have hread := reads_many (reads_getEntry (rest ++ t)) m.size 0
      have hfront : e <+: (rest ++ t).drop 0 := hstand.trans ⟨t, rfl⟩
      -- two readings of the same place
      obtain ⟨-, hsame⟩ := hread.unique ⟨hseq, hkvs⟩ hfront ⟨hall, o.length_entries m⟩ ⟨[], by simp⟩
      have hle := hstand.length_le
      rw [hsame, List.length_append] at hle
      have ht : t = [] := List.eq_nil_of_length_eq_zero (by omega)
      exact hne (by rw [ht, List.append_nil])

end Dump

namespace Memory

open Dump

/-- **A dump that is cut short is rejected unless nothing is left of it.** -/
theorem truncated_rejected_iff {data : GoMap Bytes} (h : Dumpable data) (applied : UInt64)
    (o : RangeOrder Key Bytes) {p : Bytes} (hp : p <+: encodeDump o data applied)
    (hne : p ≠ encodeDump o data applied) : (∃ e, decodeDump p = .error e) ↔ p ≠ [] := by
  constructor
  · rintro ⟨e, he⟩ rfl
    cases he
  · intro hpos
    rw [decodeDump, if_neg (mt List.eq_nil_of_length_eq_zero hpos)]
    split
    · exact ⟨_, rfl⟩
    · rename_i hlen
      have hblock : (encodeDump o data applied).drop 8 = putBlock o data :=
        List.drop_left' (length_putUint64 applied)
      obtain ⟨e, he⟩ := h.fits.getBlock_error o hblock hp hne (by omega)
      rw [he]
      exact ⟨e, rfl⟩

theorem oneKey_cut_rejected :
    ∃ e, decodeDump ((encodeDump .ascending oneKey 7).take 20) = .error e :=
  (truncated_rejected_iff dumpable_oneKey 7 .ascending ( List.take_prefix 20 _)
    (by decide +kernel)).mpr (by decide +kernel)

/-- The file was created and nothing was written: the engine opens without the key. -/
theorem oneKey_lost :
    Dumpable oneKey ∧ [] <+: encodeDump .ascending oneKey 7 ∧ [] ≠ encodeDump .ascending oneKey 7 ∧
      decodeDump [] = .ok (∅, 0) ∧ loadDump (.contents []) = .ok (some (∅, 0)) := by
  refine ⟨dumpable_oneKey, List.nil_prefix, by decide +kernel, rfl, rfl⟩

end Memory

theorem Badger.decodeDump_cut_iff {data : GoMap Bytes} (h : Dump.Fits data)
    (o : RangeOrder Key Bytes) {p : Bytes} (hp : p <+: encodeDump o data)
    (hne : p ≠ encodeDump o data) : (∃ e, decodeDump p = .error e) ↔ p ≠ [] := by
  constructor
  · rintro ⟨e, he⟩ rfl
    cases he
  · intro hpos
    rw [decodeDump, if_neg (mt List.eq_nil_of_length_eq_zero hpos)]
    split
    · exact ⟨_, rfl⟩
    · exact h.getBlock_error o List.drop_zero hp hne (by omega)

end Dpx
