/-
# `Dpx.Lib.LittleEndian` — fixed-width little-endian words in byte strings

The codec every record of a binary format is cut from: a word of `n` bytes is
written least significant byte first (`put n v`) and read back by the
positional sum `get`.  The width is a parameter, so the 16-, 32- and 64-bit
accessors of a standard library are instances of one pair of functions, and
their round trips are instances of one equation, `get_put`.

Reading past the width is harmless by construction: `uint64` looks at the first
eight bytes and ignores what follows, which is what a caller that hands over a
longer slice relies on.
-/
import Mathlib.Algebra.Order.Ring.Nat
import Mathlib.Tactic.Ring

namespace LittleEndian

/-- The `n` low bytes of `v`, least significant first. -/
def put : Nat → Nat → List UInt8
  | 0, _ => []
  | n + 1, v => UInt8.ofNat v :: put n (v / 256)

/-- The number whose little-endian digits are the given bytes. -/
def get : List UInt8 → Nat
  | [] => 0
  | b :: bs => b.toNat + 256 * get bs

@[simp] theorem length_put (n v : Nat) : (put n v).length = n := by
  induction n generalizing v with
  | zero => rfl
  | succ n ih => simp [put, ih]

theorem get_put (n v : Nat) : get (put n v) = v % 256 ^ n := by
  induction n generalizing v with
  | zero => simp [put, get, Nat.mod_one]
  | succ n ih =>
      have hb : (UInt8.ofNat v).toNat = v % 256 := by simp
      rw [put, get, ih, hb, pow_succ', Nat.mod_mul]

theorem get_lt (bs : List UInt8) : get bs < 256 ^ bs.length := by
  induction bs with
  | nil => simp [get]
  | cons b bs ih =>
      have hb := b.toNat_lt
      rw [get, List.length_cons, pow_succ']
      omega

theorem put_get (bs : List UInt8) : put bs.length (get bs) = bs := by
  induction bs with
  | nil => rfl
  | cons b bs ih =>
      have hb := b.toNat_lt
      have hdiv : (b.toNat + 256 * get bs) / 256 = get bs := by omega
      have hlow : UInt8.ofNat (b.toNat + 256 * get bs) = b := by
        apply UInt8.toNat_inj.mp
        rw [UInt8.toNat_ofNat']
        omega
      rw [List.length_cons, get, put, hdiv, hlow, ih]

/-! ## The 64-bit accessors -/

/-- `PutUint64`: the eight bytes of a 64-bit word. -/
def putUint64 (v : UInt64) : List UInt8 := put 8 v.toNat

/-- `Uint64`: the word in the first eight bytes. -/
def uint64 (b : List UInt8) : UInt64 := UInt64.ofNat (get (b.take 8))

@[simp] theorem length_putUint64 (v : UInt64) : (putUint64 v).length = 8 :=
  length_put 8 v.toNat

@[simp] theorem uint64_putUint64_append (v : UInt64) (t : List UInt8) :
    uint64 (putUint64 v ++ t) = v := by
  have hlen : (putUint64 v).length = 8 := length_putUint64 v
  rw [uint64, List.take_left' hlen, putUint64, get_put]
  apply UInt64.toNat_inj.mp
  have hv := v.toNat_lt
  rw [UInt64.toNat_ofNat']
  omega

@[simp] theorem uint64_putUint64 (v : UInt64) : uint64 (putUint64 v) = v := by
  simpa using uint64_putUint64_append v []

theorem putUint64_uint64 {b : List UInt8} (hb : b.length = 8) : putUint64 (uint64 b) = b := by
  have htake : b.take 8 = b := List.take_of_length_le hb.le
  have hlt : get b < 256 ^ 8 := hb ▸ get_lt b
  have hword : (UInt64.ofNat (get b)).toNat = get b := by
    rw [UInt64.toNat_ofNat']
    omega
  have hput := put_get b
  rwa [putUint64, uint64, htake, hword, ← hb]

/-! ## The 16- and 32-bit accessors -/

/-- `PutUint16`: the two bytes of a 16-bit word. -/
def putUint16 (v : UInt16) : List UInt8 := put 2 v.toNat

/-- `Uint16`: the word in the first two bytes. -/
def uint16 (b : List UInt8) : UInt16 := UInt16.ofNat (get (b.take 2))

/-- `PutUint32`: the four bytes of a 32-bit word. -/
def putUint32 (v : UInt32) : List UInt8 := put 4 v.toNat

/-- `Uint32`: the word in the first four bytes. -/
def uint32 (b : List UInt8) : UInt32 := UInt32.ofNat (get (b.take 4))

@[simp] theorem length_putUint16 (v : UInt16) : (putUint16 v).length = 2 := length_put 2 v.toNat

@[simp] theorem length_putUint32 (v : UInt32) : (putUint32 v).length = 4 := length_put 4 v.toNat

/-! ## Where a word stands

A string begins with the digits of `v` exactly if it is long enough and reads as `v`. -/

theorem put_mod (n v : Nat) : put n (v % 256 ^ n) = put n v := by
  have h := put_get (put n v)
  rwa [length_put, get_put] at h

theorem put_isPrefix_iff {n v : Nat} {l : List UInt8} :
    put n v <+: l ↔ n ≤ l.length ∧ get (l.take n) = v % 256 ^ n := by
  constructor
  · intro h
    have hlen := h.length_le
    have htake := List.prefix_iff_eq_take.mp h
    rw [length_put] at hlen htake
    exact ⟨hlen, by rw [← htake, get_put]⟩
  · rintro ⟨hlen, hget⟩
    have hdigits := put_get (l.take n)
    rw [List.length_take, min_eq_left hlen, hget, put_mod] at hdigits
    rw [hdigits]
    exact List.take_prefix n l

theorem putUint16_isPrefix_iff {v : UInt16} {l : List UInt8} :
    putUint16 v <+: l ↔ 2 ≤ l.length ∧ uint16 l = v := by
  have hv := v.toNat_lt
  have hget : get (l.take 2) < 256 ^ 2 :=
    (get_lt _).trans_le (Nat.pow_le_pow_right (by decide) (by simp))
  rw [putUint16, put_isPrefix_iff, uint16, ← UInt16.toNat_inj, UInt16.toNat_ofNat']
  omega

theorem putUint32_isPrefix_iff {v : UInt32} {l : List UInt8} :
    putUint32 v <+: l ↔ 4 ≤ l.length ∧ uint32 l = v := by
  have hv := v.toNat_lt
  have hget : get (l.take 4) < 256 ^ 4 :=
    (get_lt _).trans_le (Nat.pow_le_pow_right (by decide) (by simp))
  rw [putUint32, put_isPrefix_iff, uint32, ← UInt32.toNat_inj, UInt32.toNat_ofNat']
  omega

theorem putUint64_isPrefix_iff {v : UInt64} {l : List UInt8} :
    putUint64 v <+: l ↔ 8 ≤ l.length ∧ uint64 l = v := by
  have hv := v.toNat_lt
  have hget : get (l.take 8) < 256 ^ 8 :=
    (get_lt _).trans_le (Nat.pow_le_pow_right (by decide) (by simp))
  rw [putUint64, put_isPrefix_iff, uint64, ← UInt64.toNat_inj, UInt64.toNat_ofNat']
  omega

end LittleEndian
