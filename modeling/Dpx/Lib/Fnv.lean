/-
# `Dpx.Lib.Fnv` — the 32-bit FNV-1a hash and its low bits

FNV-1a folds a byte string into a 32-bit state: exclusive-or with the byte, then
multiply by the FNV prime.  Tables that keep only the low bits of the hash see a
much smaller machine: exclusive-or and multiplication both commute with
reduction modulo a power of two, and the prime is odd, so on residues modulo
`2 ^ w` every byte acts as a PERMUTATION of the state.

Two consequences, and the second is what a sharding scheme has to know:

  * `fnvFrom_mod_inj`: two states with different residues keep different
    residues under every common suffix;
  * `fnv32a_append_mod_ne`: if a prefix moves the initial state to another
    residue, then NO key shares its bucket with the prefixed key.
-/
import Mathlib.Data.Nat.ModEq
import Mathlib.Data.Nat.Bitwise

namespace Fnv

/-- The FNV offset basis. -/
def offset32 : UInt32 := 2166136261

/-- The FNV prime. -/
def prime32 : UInt32 := 16777619

/-- One byte: exclusive-or, then multiply. -/
def step (h : UInt32) (b : UInt8) : UInt32 := (h ^^^ b.toUInt32) * prime32

/-- The hash state after a byte string, from any state. -/
def fnvFrom (h : UInt32) (bs : List UInt8) : UInt32 := bs.foldl step h

/-- FNV-1a of a byte string: `New32a`, `Write`, `Sum32`. -/
def fnv32a (bs : List UInt8) : UInt32 := fnvFrom offset32 bs

theorem fnvFrom_append (h : UInt32) (xs ys : List UInt8) :
    fnvFrom h (xs ++ ys) = fnvFrom (fnvFrom h xs) ys :=
  List.foldl_append

/-! ## One byte permutes the residues -/

section Residue
variable {w : Nat}

theorem xor_mod_inj {a b c : Nat} (h : (a ^^^ c) % 2 ^ w = (b ^^^ c) % 2 ^ w) :
    a % 2 ^ w = b % 2 ^ w := by
  rw [Nat.xor_mod_two_pow, Nat.xor_mod_two_pow] at h
  exact Nat.xor_left_injective h

theorem mul_prime_mod_inj {a b : Nat}
    (h : a * 16777619 % 2 ^ w = b * 16777619 % 2 ^ w) : a % 2 ^ w = b % 2 ^ w := by
  have hodd : Nat.Coprime (2 ^ w) 16777619 :=
    Nat.Coprime.pow_left w (by decide)
  exact Nat.ModEq.cancel_right_of_coprime hodd h

theorem step_toNat_mod (hw : w ≤ 32) (h : UInt32) (b : UInt8) :
    (step h b).toNat % 2 ^ w = (h.toNat ^^^ b.toNat) * 16777619 % 2 ^ w := by
  have hdvd : 2 ^ w ∣ 2 ^ 32 := pow_dvd_pow 2 hw
  rw [step, UInt32.toNat_mul, UInt32.toNat_xor, Nat.mod_mod_of_dvd _ hdvd]
  simp [prime32]

theorem step_mod_inj (hw : w ≤ 32) {h h' : UInt32} {b : UInt8}
    (heq : (step h b).toNat % 2 ^ w = (step h' b).toNat % 2 ^ w) :
    h.toNat % 2 ^ w = h'.toNat % 2 ^ w := by
  rw [step_toNat_mod hw, step_toNat_mod hw] at heq
  exact xor_mod_inj (mul_prime_mod_inj heq)

theorem fnvFrom_mod_inj (hw : w ≤ 32) (bs : List UInt8) :
    ∀ {h h' : UInt32},
      (fnvFrom h bs).toNat % 2 ^ w = (fnvFrom h' bs).toNat % 2 ^ w →
      h.toNat % 2 ^ w = h'.toNat % 2 ^ w := by
  induction bs with
  | nil => exact fun heq => heq
  | cons b bs ih => exact fun heq => step_mod_inj hw (ih heq)

/-- If the prefix moves the initial residue, a key and its prefixed form never
fall into one bucket. -/
theorem fnv32a_append_mod_ne (hw : w ≤ 32) {pre : List UInt8}
    (hpre : (fnv32a pre).toNat % 2 ^ w ≠ offset32.toNat % 2 ^ w) (key : List UInt8) :
    (fnv32a (pre ++ key)).toNat % 2 ^ w ≠ (fnv32a key).toNat % 2 ^ w := by
  intro heq
  rw [fnv32a, fnvFrom_append] at heq
  exact hpre (fnvFrom_mod_inj hw key heq)

end Residue

end Fnv
