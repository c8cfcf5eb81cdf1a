/-
# `Dpx.Lib.Counted` — strings behind their length

Binary formats write a string as its length and then its bytes.  The length is a word of a
fixed width, and whatever is larger than the word is cut to its low bits: written is the
remainder, and a decoder takes the wrong number of bytes.  So every statement here is for
strings below the bound of the word.

`LengthField` is such a word: how a number is written and read, and the law that ties the
two.  `counted` is a string behind its length, `field` what a decoder takes at a position.
`field_spec` and `field_eq` say that they agree: what the decoder takes is counted there,
and what is counted there is what it takes.
-/
import Dpx.Lib.Framing
import Dpx.Lib.LittleEndian

open Framing LittleEndian

/-- A length word.  `put` may cut its argument; below the bound it must not. -/
structure LengthField where
  width : Nat
  width_pos : 0 < width
  bound : Nat
  put : Nat → List UInt8
  get : List UInt8 → Nat
  length_put : ∀ n, (put n).length = width
  get_lt : ∀ l, get l < bound
  put_isPrefix_iff : ∀ {n l}, n < bound → (put n <+: l ↔ width ≤ l.length ∧ get l = n)

namespace LengthField

/-- `PutUint16` and `Uint16`. -/
def u16 : LengthField where
  width := 2
  width_pos := by decide
  bound := 2 ^ 16
  put n := putUint16 (UInt16.ofNat n)
  get l := (uint16 l).toNat
  length_put _ := length_putUint16 _
  get_lt l := UInt16.toNat_lt _
  put_isPrefix_iff := by
    intro n l hn
    have hword : (UInt16.ofNat n).toNat = n := UInt16.toNat_ofNat_of_lt hn
    rw [putUint16_isPrefix_iff, ← UInt16.toNat_inj, hword]

/-- `PutUint32` and `Uint32`. -/
def u32 : LengthField where
  width := 4
  width_pos := by decide
  bound := 2 ^ 32
  put n := putUint32 (UInt32.ofNat n)
  get l := (uint32 l).toNat
  length_put _ := length_putUint32 _
  get_lt l := UInt32.toNat_lt _
  put_isPrefix_iff := by
    intro n l hn
    have hword : (UInt32.ofNat n).toNat = n := UInt32.toNat_ofNat_of_lt hn
    rw [putUint32_isPrefix_iff, ← UInt32.toNat_inj, hword]

variable (w : LengthField)

/-- A length followed by that many bytes. -/
def counted (b : List UInt8) : List UInt8 := w.put b.length ++ b

/-- The string a length at `pos` announces. -/
def field (d : List UInt8) (pos : Nat) : List UInt8 :=
  (d.drop (pos + w.width)).take (w.get (d.drop pos))

variable {w}

theorem length_counted (b : List UInt8) : (w.counted b).length = w.width + b.length := by
  rw [counted, List.length_append, w.length_put]

theorem counted_isPrefix_drop_iff {b d : List UInt8} {pos : Nat} (hb : b.length < w.bound) :
    w.counted b <+: d.drop pos ↔
      pos + w.width ≤ d.length ∧ w.get (d.drop pos) = b.length ∧
        b <+: d.drop (pos + w.width) := by
  rw [counted, append_isPrefix_drop_iff, w.length_put, w.put_isPrefix_iff hb, List.length_drop]
  have hwidth := w.width_pos
  constructor
  · rintro ⟨⟨hlen, hval⟩, hrest⟩
    exact ⟨by omega, hval, hrest⟩
  · rintro ⟨hlen, hval, hrest⟩
    exact ⟨⟨by omega, hval⟩, hrest⟩

theorem field_spec {d : List UInt8} {pos : Nat}
    (h : pos + w.width + w.get (d.drop pos) ≤ d.length) :
    (w.field d pos).length = w.get (d.drop pos) ∧ (w.field d pos).length < w.bound ∧
      w.counted (w.field d pos) <+: d.drop pos := by
  obtain ⟨hstand, hlen⟩ := (isPrefix_drop_iff h).mpr (rfl : w.field d pos = _)
  have hlt : (w.field d pos).length < w.bound := hlen ▸ w.get_lt _
  exact ⟨hlen, hlt, (counted_isPrefix_drop_iff hlt).mpr ⟨by omega, hlen.symm, hstand⟩⟩

theorem field_eq {b d : List UInt8} {pos : Nat} (hb : b.length < w.bound)
    (h : w.counted b <+: d.drop pos) :
    w.get (d.drop pos) = b.length ∧ w.field d pos = b ∧ pos + w.width + b.length ≤ d.length := by
  obtain ⟨hlen, hval, hstand⟩ := (counted_isPrefix_drop_iff hb).mp h
  have hle := hstand.length_le
  rw [List.length_drop] at hle
  have hin : pos + w.width + b.length ≤ d.length := by omega
  refine ⟨hval, ?_, hin⟩
  rw [field, hval]
  exact ((isPrefix_drop_iff hin).mp ⟨hstand, rfl⟩).symm

end LengthField
