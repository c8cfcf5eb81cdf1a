/-
# `Dpx.Shared.Wire` — the wire grammar of proposals

The layout in the header of `shared/proposal.go`, as relations between byte strings and
what they spell:

    wall 8 · counter 2 · #reads 2 · (keylen 2 · key · epoch 8 · flag 1)*
                       · #writes 2 · (op 1 · keylen 2 · key · vallen 2 · value)*

A flag byte other than zero spells a debit, and every op byte spells an operation.

`Proposal.unmarshal_ok_iff`: `Unmarshal` succeeds on the empty string, and on a string that
begins with a spelled proposal, whatever follows.  `unmarshal_in_range`: its five checks
cover every access.  `unmarshal_marshal_iff`: a proposal comes back from the wire exactly if
every key, every value and both counts are below `2 ^ 16` (`Proposal.Fits`): a larger length is
cut to its low sixteen bits, and what does not fit is read as if it were the next field, or
is passed over as trailing bytes.
-/
import Dpx.Lib.Counted
import Dpx.Shared.Proposal

namespace Dpx

open Framing LittleEndian

namespace Wire

/-! ## The layout -/

/-- A length field followed by that many bytes. -/
def counted (b : Bytes) : Bytes := LengthField.u16.counted b

inductive IsRead : Bytes → ReadEntry → Prop
  | mk (key : Key) (epoch : UInt64) (flag : UInt8) (hkey : key.length < 2 ^ 16) :
      IsRead (counted key ++ putUint64 epoch ++ [flag]) ⟨key, epoch, flag != 0⟩

inductive IsWrite : Bytes → WriteEntry → Prop
  | mk (op : UInt8) (key value : Bytes) (hkey : key.length < 2 ^ 16)
      (hvalue : value.length < 2 ^ 16) :
      IsWrite ([op] ++ counted key ++ counted value) ⟨.ofByte op, key, value⟩

inductive Layout : Bytes → Proposal → Prop
  | mk (wall : UInt64) (counter : UInt16) {rs ws : Bytes} {reads : List ReadEntry}
      {writes : List WriteEntry} (hreads : Seq IsRead rs reads) (hwrites : Seq IsWrite ws writes)
      (hr : reads.length < 2 ^ 16) (hw : writes.length < 2 ^ 16) :
      Layout (putUint64 wall ++ putUint16 counter ++ putUint16 (UInt16.ofNat reads.length) ++ rs ++
        putUint16 (UInt16.ofNat writes.length) ++ ws) ⟨reads, writes, wall, counter⟩

/-! ## Where the pieces stand -/

theorem length_counted (b : Bytes) : (counted b).length = 2 + b.length :=
  LengthField.length_counted b

/-- The field a length at `pos` announces. -/
def field (d : Bytes) (pos : Nat) : Bytes := (d.drop (pos + 2)).take (uint16 (d.drop pos)).toNat

theorem field_spec (d : Bytes) (pos : Nat)
    (h : pos + 2 + (uint16 (d.drop pos)).toNat ≤ d.length) :
    (field d pos).length = (uint16 (d.drop pos)).toNat ∧ (field d pos).length < 2 ^ 16 ∧
      counted (field d pos) <+: d.drop pos :=
  LengthField.u16.field_spec h

theorem field_eq {b d : Bytes} {pos : Nat} (hb : b.length < 2 ^ 16)
    (h : counted b <+: d.drop pos) :
    (uint16 (d.drop pos)).toNat = b.length ∧ field d pos = b ∧
      pos + 2 + b.length ≤ d.length :=
  LengthField.u16.field_eq hb h

/-! ## One entry -/

/-- One turn of the loop over read entries, its accesses taken to succeed. -/
def readEntry (data : Bytes) (i pos : Nat) : Except UnmarshalError (ReadEntry × Nat) :=
  let kLen := (uint16 (data.drop pos)).toNat
  if pos + 2 > data.length then .error (.readKeyLength i pos)
  else if pos + 2 + kLen + 8 + 1 > data.length then .error (.readEntry i (pos + 2))
  else
    .ok (⟨field data pos, uint64 (data.drop (pos + 2 + kLen)),
      (data[pos + 2 + kLen + 8]?).getD 0 != 0⟩, pos + 2 + kLen + 8 + 1)

/-- One turn of the loop over write entries, its accesses taken to succeed. -/
def writeEntry (data : Bytes) (i pos : Nat) : Except UnmarshalError (WriteEntry × Nat) :=
  let kLen := (uint16 (data.drop (pos + 1))).toNat
  let vPos := pos + 1 + 2 + kLen
  let vLen := (uint16 (data.drop vPos)).toNat
  if pos + 1 + 2 > data.length then .error (.writeOp i pos)
  else if vPos + 2 > data.length then .error (.writeKey i (pos + 1 + 2))
  else if vPos + 2 + vLen > data.length then .error (.writeValue i (vPos + 2))
  else
    .ok (⟨.ofByte ((data[pos]?).getD 0), field data (pos + 1), field data vPos⟩, vPos + 2 + vLen)

section InRange
variable {data : Bytes} {pos n : Nat}

theorem byteAt_of_lt (h : pos < data.length) : byteAt data pos = .ok ((data[pos]?).getD 0) := by
  rw [byteAt, List.getElem?_eq_getElem h]
  rfl

theorem sliceAt_of_le (h : pos + n ≤ data.length) :
    sliceAt data pos n = .ok ((data.drop pos).take n) := if_pos h

theorem uint16At_of_le (h : pos + 2 ≤ data.length) :
    uint16At data pos = .ok (uint16 (data.drop pos)) := if_pos h

theorem uint64At_of_le (h : pos + 8 ≤ data.length) :
    uint64At data pos = .ok (uint64 (data.drop pos)) := if_pos h

end InRange

/-- The two checks of a turn cover its four accesses. -/
theorem readEntries_eq_many (data : Bytes) (n : Nat) :
    ∀ i pos, readEntries data n i pos = many (readEntry data) n i pos := by
  induction n with
  | zero => exact fun _ _ => rfl
  | succ n ih =>
      intro i pos
      rw [readEntries, many, readEntry]
      simp only
      split
      · rfl
      · rename_i hlen
        rw [uint16At_of_le (by omega)]
        simp only [bind, Except.bind, pure, Except.pure]
        split
        · rfl
        · rename_i hkey
          rw [sliceAt_of_le (by omega), uint64At_of_le (by omega), byteAt_of_lt (by omega)]
          simp only [ih]
          rfl

theorem writeEntries_eq_many (data : Bytes) (n : Nat) :
    ∀ i pos, writeEntries data n i pos = many (writeEntry data) n i pos := by
  induction n with
  | zero => exact fun _ _ => rfl
  | succ n ih =>
      intro i pos
      rw [writeEntries, many, writeEntry]
      simp only
      split
      · rfl
      · rename_i hop
        rw [byteAt_of_lt (by omega)]
        simp only [bind, Except.bind, pure, Except.pure]
        rw [uint16At_of_le (by omega)]
        simp only
        split
        · rfl
        · rename_i hkey
          rw [sliceAt_of_le (by omega)]
          simp only
          rw [uint16At_of_le (by omega)]
          simp only
          split
          · rfl
          · rename_i hvalue
            rw [sliceAt_of_le (by omega)]
            simp only [ih]
            rfl

theorem reads_readEntry (data : Bytes) (i : Nat) : Reads data IsRead (readEntry data i) := by
  intro pos re fin
  rw [readEntry]
  constructor
  · intro h
    split at h
    · cases h
    · split at h
      · cases h
      · rename_i hlen hentry
        obtain ⟨hkLen, hkey, hstand⟩ := field_spec data pos (by omega)
        cases h
        refine ⟨_, .mk _ _ _ hkey, ?_, ?_⟩
        · refine append_isPrefix_drop_iff.mpr ⟨append_isPrefix_drop_iff.mpr ⟨hstand, ?_⟩, ?_⟩
          · rw [putUint64_isPrefix_iff, length_counted, hkLen, List.length_drop, ← Nat.add_assoc]
            exact ⟨by omega, rfl⟩
          · rw [singleton_isPrefix_drop_iff, List.length_append, length_counted, hkLen,
              length_putUint64, ← Nat.add_assoc, ← Nat.add_assoc,
              List.getElem?_eq_getElem (by omega)]
            rfl
        · simp only [List.length_append, length_counted, length_putUint64, List.length_singleton,
            hkLen]
          omega
  · rintro ⟨e, hR, hstand, rfl⟩
    obtain ⟨key, epoch, flag, hkey⟩ := hR
    obtain ⟨hfront, hflag⟩ := append_isPrefix_drop_iff.mp hstand
    obtain ⟨hcounted, hepoch⟩ := append_isPrefix_drop_iff.mp hfront
    obtain ⟨hkLen, hfield, hin⟩ := field_eq hkey hcounted
    rw [length_counted, ← Nat.add_assoc, putUint64_isPrefix_iff, List.length_drop] at hepoch
    rw [singleton_isPrefix_drop_iff, List.length_append, length_counted, length_putUint64,
      ← Nat.add_assoc, ← Nat.add_assoc] at hflag
    have hlast : pos + 2 + key.length + 8 < data.length := (List.getElem?_eq_some_iff.mp hflag).1
    simp only [hkLen, hfield, hepoch.2, hflag, Option.getD_some, List.length_append,
      length_counted, length_putUint64, List.length_singleton]
    rw [if_neg (by omega), if_neg (by omega)]
    simp only [Except.ok.injEq, Prod.mk.injEq, true_and]
    omega

theorem reads_writeEntry (data : Bytes) (i : Nat) : Reads data IsWrite (writeEntry data i) := by
  intro pos w fin
  rw [writeEntry]
  constructor
  · intro h
    split at h
    · cases h
    · split at h
      · cases h
      · split at h
        · cases h
        · rename_i hop hkey hvalue
          obtain ⟨hkLen, hk, hkStand⟩ := field_spec data (pos + 1) (by omega)
          obtain ⟨hvLen, hv, hvStand⟩ := field_spec data
            (pos + 1 + 2 + (uint16 (data.drop (pos + 1))).toNat) (by omega)
          cases h
          refine ⟨_, .mk _ _ _ hk hv, ?_, ?_⟩
          · refine append_isPrefix_drop_iff.mpr ⟨append_isPrefix_drop_iff.mpr ⟨?_, hkStand⟩, ?_⟩
            · rw [singleton_isPrefix_drop_iff, List.getElem?_eq_getElem (by omega)]
              rfl
            · rw [List.length_append, length_counted, hkLen, List.length_singleton,
                ← Nat.add_assoc, ← Nat.add_assoc]
              exact hvStand
          · simp only [List.length_append, length_counted, List.length_singleton, hkLen, hvLen]
            omega
  · rintro ⟨e, hR, hstand, rfl⟩
    obtain ⟨op, key, value, hk, hv⟩ := hR
    obtain ⟨hfront, hvalue⟩ := append_isPrefix_drop_iff.mp hstand
    obtain ⟨hop, hkey⟩ := append_isPrefix_drop_iff.mp hfront
    rw [singleton_isPrefix_drop_iff] at hop
    obtain ⟨hkLen, hkField, hkIn⟩ := field_eq hk hkey
    rw [List.length_append, length_counted, List.length_singleton, ← Nat.add_assoc,
      ← Nat.add_assoc] at hvalue
    obtain ⟨hvLen, hvField, hvIn⟩ := field_eq hv hvalue
    rw [List.length_singleton] at hkLen hkField hkIn
    simp only [hkLen, hkField, hvLen, hvField, hop, Option.getD_some, List.length_append,
      length_counted, List.length_singleton]
    rw [if_neg (by omega), if_neg (by omega), if_neg (by omega)]
    simp only [Except.ok.injEq, Prod.mk.injEq, true_and]
    omega

theorem layout_pieces_iff {d : Bytes} {wall : UInt64} {counter rlen wlen : UInt16}
    {rs ws : Bytes} :
    putUint64 wall ++ putUint16 counter ++ putUint16 rlen ++ rs ++ putUint16 wlen ++ ws <+: d ↔
      12 ≤ d.length ∧ uint64 d = wall ∧ uint16 (d.drop 8) = counter ∧ uint16 (d.drop 10) = rlen ∧
        rs <+: d.drop 12 ∧ 12 + rs.length + 2 ≤ d.length ∧
        uint16 (d.drop (12 + rs.length)) = wlen ∧ ws <+: d.drop (12 + rs.length + 2) := by
  simp only [append_isPrefix_iff, List.length_append, length_putUint64, length_putUint16,
    putUint64_isPrefix_iff, putUint16_isPrefix_iff, List.length_drop]
  constructor
  · rintro ⟨⟨⟨⟨⟨⟨h8, rfl⟩, h2, rfl⟩, h2', rfl⟩, hrs⟩, hlen, rfl⟩, hws⟩
    exact ⟨by omega, rfl, rfl, rfl, hrs, by omega, rfl, hws⟩
  · rintro ⟨h12, rfl, rfl, rfl, hrs, hlen, rfl, hws⟩
    exact ⟨⟨⟨⟨⟨⟨by omega, rfl⟩, by omega, rfl⟩, by omega, rfl⟩, hrs⟩, by omega, rfl⟩, hws⟩

end Wire

open Wire

namespace Proposal

/-! ## `Unmarshal` accepts the grammar -/

theorem unmarshal_of_le {d : Bytes} (h : minProposalBytes ≤ d.length) :
    unmarshal d = do
      let (readSet, pos) ← many (readEntry d) (uint16 (d.drop 10)).toNat 0 12
      if pos + 2 > d.length then throw (.writesLength pos)
      let (writes, _) ← many (writeEntry d) (uint16 (d.drop pos)).toNat 0 (pos + 2)
      return ⟨readSet, writes, uint64 d, uint16 (d.drop 8)⟩ := by
  rw [minProposalBytes] at h
  rw [unmarshal, if_neg (by rw [minProposalBytes]; omega), uint64At_of_le (by omega),
    uint16At_of_le (by omega), uint16At_of_le (by omega)]
  simp only [bind, Except.bind, pure, Except.pure, readEntries_eq_many, writeEntries_eq_many,
    List.drop_zero]
  cases many (readEntry d) (uint16 (d.drop 10)).toNat 0 12 with
  | error e => rfl
  | ok r =>
      simp only
      split
      · rfl
      · rw [uint16At_of_le (by omega)]

theorem unmarshal_ok_iff_loops {d : Bytes} (h : minProposalBytes ≤ d.length) {p : Proposal} :
    unmarshal d = .ok p ↔ ∃ pos fin,
      many (readEntry d) (uint16 (d.drop 10)).toNat 0 12 = .ok (p.readSet, pos) ∧
      pos + 2 ≤ d.length ∧
      many (writeEntry d) (uint16 (d.drop pos)).toNat 0 (pos + 2) = .ok (p.writes, fin) ∧
      uint64 d = p.timestampWall ∧ uint16 (d.drop 8) = p.timestampCounter := by
  rw [unmarshal_of_le h]
  simp only [bind, Except.bind, pure, Except.pure]
  cases hr : many (readEntry d) (uint16 (d.drop 10)).toNat 0 12 with
  | error e => simp
  | ok r =>
      obtain ⟨reads, pos⟩ := r
      simp only [Except.ok.injEq, Prod.mk.injEq]
      split
      · rename_i hlen
        constructor
        · intro hbad
          cases hbad
        · rintro ⟨pos', fin, ⟨-, rfl⟩, hin, -⟩
          omega
      · rename_i hlen
        cases hw : many (writeEntry d) (uint16 (d.drop pos)).toNat 0 (pos + 2) with
        | error e =>
            constructor
            · intro hbad
              cases hbad
            · rintro ⟨pos', fin, ⟨-, rfl⟩, -, hbad, -⟩
              rw [hw] at hbad
              cases hbad
        | ok q =>
            obtain ⟨writes, fin⟩ := q
            constructor
            · intro hok
              cases hok
              exact ⟨pos, fin, ⟨rfl, rfl⟩, by omega, hw, rfl, rfl⟩
            · rintro ⟨pos', fin', ⟨hreads, rfl⟩, -, hwrites, hwall, hcounter⟩
              rw [hw] at hwrites
              cases hwrites
              rw [hreads, hwall, hcounter]

/-- **The grammar of `Unmarshal`.** -/
theorem unmarshal_ok_iff {d : Bytes} {p : Proposal} :
    unmarshal d = .ok p ↔
      (d = [] ∧ p = ⟨[], [], 0, 0⟩) ∨ ∃ e t, d = e ++ t ∧ Layout e p := by
  by_cases h : minProposalBytes ≤ d.length
  · have hne : d ≠ [] := by
      rintro rfl
      exact absurd h (by decide)
    rw [unmarshal_ok_iff_loops h]
    constructor
    · rintro ⟨pos, fin, hreads, hpos, hwrites, hwall, hcounter⟩
      obtain ⟨rs, ⟨hrs, hrlen⟩, hrstand, rfl⟩ :=
        (reads_many (reads_readEntry d) _ _ _ _ _).mp hreads
      obtain ⟨ws, ⟨hws, hwlen⟩, hwstand, -⟩ :=
        (reads_many (reads_writeEntry d) _ _ _ _ _).mp hwrites
      have hrlt : p.readSet.length < 2 ^ 16 := hrlen ▸ UInt16.toNat_lt _
      have hwlt : p.writes.length < 2 ^ 16 := hwlen ▸ UInt16.toNat_lt _
      obtain ⟨t, ht⟩ := layout_pieces_iff.mpr ⟨by omega, hwall, hcounter,
        (UInt16.ofNat_toNat (x := uint16 (d.drop 10))).symm, hrstand, hpos,
        (UInt16.ofNat_toNat (x := uint16 (d.drop (12 + rs.length)))).symm, hwstand⟩
      rw [← hrlen, ← hwlen] at ht
      exact Or.inr ⟨_, t, ht.symm, .mk p.timestampWall p.timestampCounter hrs hws hrlt hwlt⟩
    · rintro (⟨hnil, -⟩ | ⟨e, t, hd, hlayout⟩)
      · exact absurd hnil hne
      · obtain ⟨wall, counter, hrs, hws, hrlt, hwlt⟩ := hlayout
        obtain ⟨-, hwall, hcounter, hrlen, hrstand, hpos, hwlen, hwstand⟩ :=
          layout_pieces_iff.mp ⟨t, hd.symm⟩
        refine ⟨_, _, (reads_many (reads_readEntry d) _ _ _ _ _).mpr ⟨_, ⟨hrs, ?_⟩, hrstand, rfl⟩,
          hpos, (reads_many (reads_writeEntry d) _ _ _ _ _).mpr ⟨_, ⟨hws, ?_⟩, hwstand, rfl⟩,
          hwall, hcounter⟩
        · rw [hrlen]
          exact (UInt16.toNat_ofNat_of_lt hrlt).symm
        · rw [hwlen]
          exact (UInt16.toNat_ofNat_of_lt hwlt).symm
  · have hshort : ∀ e t, d = e ++ t → ¬ Layout e p := by
      rintro e t rfl ⟨wall, counter, hrs, hws, hrlt, hwlt⟩
      simp only [minProposalBytes, List.length_append, length_putUint64, length_putUint16] at h
      omega
    rw [unmarshal, if_pos (by omega)]
    split
    · rename_i hnil
      have hd : d = [] := List.length_eq_zero_iff.mp hnil
      simp only [pure, Except.pure, Except.ok.injEq, hd, true_and]
      constructor
      · intro hp
        exact Or.inl hp.symm
      · rintro (hp | ⟨e, t, het, hlayout⟩)
        · exact hp.symm
        · exact absurd hlayout (hshort e t (hd.trans het))
    · rename_i hnil
      constructor
      · intro hbad
        cases hbad
      · rintro (⟨rfl, -⟩ | ⟨e, t, het, hlayout⟩)
        · exact absurd rfl hnil
        · exact absurd hlayout (hshort e t het)

/-- The bound checks come before the accesses: no access fails. -/
theorem unmarshal_in_range (d : Bytes) : unmarshal d ≠ .error .outOfRange := by
  have hread : ∀ j q, readEntry d j q ≠ .error .outOfRange := by
    intro j q h
    rw [readEntry] at h
    split at h
    · cases h
    · split at h <;> cases h
  have hwrite : ∀ j q, writeEntry d j q ≠ .error .outOfRange := by
    intro j q h
    rw [writeEntry] at h
    split at h
    · cases h
    · split at h
      · cases h
      · split at h <;> cases h
  intro h
  by_cases hlen : minProposalBytes ≤ d.length
  · rw [unmarshal_of_le hlen] at h
    simp only [bind, Except.bind, pure, Except.pure] at h
    cases hr : many (readEntry d) (uint16 (d.drop 10)).toNat 0 12 with
    | error e =>
        rw [hr] at h
        cases h
        obtain ⟨j, q, hbad⟩ := exists_of_many_error _ hr
        exact hread j q hbad
    | ok r =>
        rw [hr] at h
        simp only at h
        split at h
        · cases h
        · cases hw : many (writeEntry d) (uint16 (d.drop r.2)).toNat 0 (r.2 + 2) with
          | error e =>
              rw [hw] at h
              cases h
              obtain ⟨j, q, hbad⟩ := exists_of_many_error _ hw
              exact hwrite j q hbad
          | ok q =>
              rw [hw] at h
              cases h
  · rw [unmarshal, if_pos (by omega)] at h
    split at h <;> cases h

/-! ## What `Marshal` spells -/

/-- Every length has a 16-bit field to itself. -/
structure Fits (p : Proposal) : Prop where
  reads : p.readSet.length < 2 ^ 16
  readKeys : ∀ re ∈ p.readSet, re.key.length < 2 ^ 16
  writes : p.writes.length < 2 ^ 16
  writeKeys : ∀ w ∈ p.writes, w.key.length < 2 ^ 16
  values : ∀ w ∈ p.writes, w.value.length < 2 ^ 16

end Proposal

theorem Wire.isRead_putRead {re : ReadEntry} (h : re.key.length < 2 ^ 16) :
    IsRead (putRead re) re := by
  obtain ⟨key, epoch, isDebit⟩ := re
  have hmk := IsRead.mk key epoch (if isDebit then 1 else 0) h
  cases isDebit <;> exact hmk

theorem WriteOp.ofByte_toByte (op : WriteOp) : WriteOp.ofByte op.toByte = op := by
  cases op with
  | other b hb => simp [toByte, ofByte, hb]
  | _ => rfl

theorem Wire.isWrite_putWrite {w : WriteEntry} (hk : w.key.length < 2 ^ 16)
    (hv : w.value.length < 2 ^ 16) : IsWrite (putWrite w) w := by
  have hmk := IsWrite.mk w.op.toByte w.key w.value hk hv
  rw [WriteOp.ofByte_toByte] at hmk
  simpa only [putWrite, counted, LengthField.counted, LengthField.u16, List.append_assoc] using hmk

namespace Proposal

theorem fits_of_layout {e : Bytes} {p : Proposal} (h : Layout e p) : p.Fits := by
  obtain ⟨wall, counter, hrs, hws, hr, hw⟩ := h
  refine ⟨hr, hrs.forall_mem ?_, hw, hws.forall_mem ?_, hws.forall_mem ?_⟩
  · rintro e re ⟨key, epoch, flag, hkey⟩
    exact hkey
  · rintro e w ⟨op, key, value, hkey, hvalue⟩
    exact hkey
  · rintro e w ⟨op, key, value, hkey, hvalue⟩
    exact hvalue

theorem Fits.layout {p : Proposal} (h : p.Fits) : Layout p.marshal p :=
  .mk p.timestampWall p.timestampCounter
    (seq_flatMap fun re hre => isRead_putRead (h.readKeys re hre))
    (seq_flatMap fun w hw => isWrite_putWrite (h.writeKeys w hw) (h.values w hw)) h.reads h.writes

theorem Fits.unmarshal_append {p : Proposal} (h : p.Fits) (t : Bytes) :
    unmarshal (p.marshal ++ t) = .ok p :=
  unmarshal_ok_iff.mpr (Or.inr ⟨p.marshal, t, rfl, h.layout⟩)

theorem length_marshal_pos (p : Proposal) : 0 < p.marshal.length := by
  simp only [marshal, List.length_append, length_putUint64]
  omega

/-- **The round trip holds exactly if everything fits.** -/
theorem unmarshal_marshal_iff (p : Proposal) : unmarshal p.marshal = .ok p ↔ p.Fits := by
  constructor
  · intro h
    rcases unmarshal_ok_iff.mp h with ⟨hnil, -⟩ | ⟨e, t, -, hlayout⟩
    · have := p.length_marshal_pos
      rw [hnil] at this
      exact absurd this (by decide)
    · exact fits_of_layout hlayout
  · intro h
    have hback := h.unmarshal_append []
    rwa [List.append_nil] at hback

/-- **`Unmarshal` on arbitrary bytes.**  No access leaves the buffer; the answer is a
proposal exactly if the buffer is empty or begins with one spelled out, and then it is that
one; and what `Marshal` writes of a proposal that fits is read back, whatever follows. -/
theorem unmarshal_exact (d : Bytes) :
    unmarshal d ≠ .error .outOfRange ∧
    (∀ p, unmarshal d = .ok p ↔
      (d = [] ∧ p = ⟨[], [], 0, 0⟩) ∨ ∃ e t, d = e ++ t ∧ Layout e p) ∧
    ∀ (p : Proposal) (t : Bytes), p.Fits → unmarshal (p.marshal ++ t) = .ok p :=
  ⟨unmarshal_in_range d, fun _ => unmarshal_ok_iff, fun _ t h => h.unmarshal_append t⟩

-- a debit flag of 7, an operation nobody knows, and a byte too many
example : unmarshal [1, 0, 0, 0, 0, 0, 0, 0, 2, 0, 1, 0, 1, 0, 0x6b, 5, 0, 0, 0, 0, 0, 0, 0, 7,
      1, 0, 9, 0, 0, 0, 0, 0xff] =
    .ok ⟨[⟨[0x6b], 5, true⟩], [⟨.ofByte 9, [], []⟩], 1, 2⟩ := by decide

end Proposal

end Dpx
