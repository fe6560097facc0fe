import Mathlib.Data.BitVec
import Mathlib.Tactic.Common

/-!
Words of bytes in both byte orders, and the halves of a double word.
-/

namespace IdaSdk.Words

/-- The number that bytes stand for, the least significant one first. -/
def ofLE : List UInt8 → Nat
  | [] => 0
  | b :: bytes => b.toNat + 256 * ofLE bytes

variable (bytes : List UInt8)

def ofBE : Nat := ofLE bytes.reverse

/-- The lowest `k` bytes of a number. -/
def toLE : Nat → Nat → List UInt8
  | 0, _ => []
  | k + 1, n => UInt8.ofNat n :: toLE k (n / 256)

theorem ofLE_cons (b : UInt8) : ofLE (b :: bytes) = b.toNat + 256 * ofLE bytes := rfl

theorem toLE_succ (k n : Nat) : toLE (k + 1) n = UInt8.ofNat n :: toLE k (n / 256) := rfl

@[simp] theorem length_toLE (k n : Nat) : (toLE k n).length = k := by
  induction k generalizing n with
  | zero => rfl
  | succ k ih => rw [toLE_succ, List.length_cons, ih]

theorem ofLE_lt : ofLE bytes < 256 ^ bytes.length := by
  induction bytes with
  | nil => exact Nat.one_pos
  | cons b bytes ih =>
      have hb := b.toNat_lt
      rw [ofLE_cons, List.length_cons, Nat.pow_succ]
      omega

theorem ofBE_lt : ofBE bytes < 256 ^ bytes.length := by
  have h := ofLE_lt bytes.reverse
  rwa [List.length_reverse] at h

theorem ofLE_toLE (k n : Nat) : ofLE (toLE k n) = n % 256 ^ k := by
  induction k generalizing n with
  | zero => exact (Nat.mod_one n).symm
  | succ k ih =>
      have hbyte : (UInt8.ofNat n).toNat = n % 256 := UInt8.toNat_ofNat'
      rw [toLE_succ, ofLE_cons, ih, hbyte, Nat.pow_succ, Nat.mul_comm, Nat.mul_comm (256 ^ k), Nat.mod_mul, Nat.mul_comm 256]

theorem ofLE_append (xs ys : List UInt8) : ofLE (xs ++ ys) = ofLE xs + 256 ^ xs.length * ofLE ys := by
  induction xs with
  | nil => simp [ofLE]
  | cons b xs ih =>
      rw [List.cons_append, ofLE_cons, ih, ofLE_cons, List.length_cons, Nat.pow_succ, Nat.mul_add, Nat.mul_comm _ 256,
        Nat.mul_assoc, Nat.add_assoc]

def lowHalf (i : BitVec 64) : BitVec 32 := i.setWidth 32

def highHalf (i : BitVec 64) : BitVec 32 := (i >>> 32).setWidth 32

/-- A double word from its halves. -/
def joinHalves (low high : BitVec 32) : BitVec 64 := low.setWidth 64 ||| (high.setWidth 64 <<< 32)

@[simp] theorem lowHalf_joinHalves (low high : BitVec 32) : lowHalf (joinHalves low high) = low := by
  apply BitVec.eq_of_getLsbD_eq
  intro k hk
  simp [lowHalf, joinHalves, hk]

@[simp] theorem highHalf_joinHalves (low high : BitVec 32) : highHalf (joinHalves low high) = high := by
  apply BitVec.eq_of_getLsbD_eq
  intro k hk
  have hwide : 32 + k < 64 := by omega
  simp [highHalf, joinHalves, hk, hwide]

theorem joinHalves_zero (low : BitVec 32) : joinHalves low 0 = low.setWidth 64 := by
  simp [joinHalves]

variable (i : BitVec 64)

theorem toNat_lowHalf : (lowHalf i).toNat = i.toNat % 2 ^ 32 := BitVec.toNat_setWidth ..

theorem toNat_highHalf : (highHalf i).toNat = i.toNat / 2 ^ 32 := by
  have hi := i.isLt
  have hdiv : i.toNat / 2 ^ 32 < 2 ^ 32 := by omega
  rw [highHalf, BitVec.toNat_setWidth, BitVec.toNat_ushiftRight, Nat.shiftRight_eq_div_pow, Nat.mod_eq_of_lt hdiv]

theorem toNat_joinHalves (low high : BitVec 32) : (joinHalves low high).toNat = low.toNat + 2 ^ 32 * high.toNat := by
  have hlow := congrArg BitVec.toNat (lowHalf_joinHalves low high)
  have hhigh := congrArg BitVec.toNat (highHalf_joinHalves low high)
  rw [toNat_lowHalf] at hlow
  rw [toNat_highHalf] at hhigh
  omega

theorem highHalf_eq_zero {i : BitVec 64} : highHalf i = 0 ↔ i.toNat < 2 ^ 32 := by
  have hzero : (0 : BitVec 32).toNat = 0 := rfl
  rw [← BitVec.toNat_inj, toNat_highHalf, hzero]
  omega

theorem and_lowMask : i &&& 0xFFFFFFFF#64 = (lowHalf i).setWidth 64 := by
  have hmask : (0xFFFFFFFF#64).toNat = 2 ^ 32 - 1 := rfl
  apply BitVec.eq_of_toNat_eq
  rw [BitVec.toNat_and, hmask, Nat.and_two_pow_sub_one_eq_mod, lowHalf, BitVec.toNat_setWidth, BitVec.toNat_setWidth]
  omega

end IdaSdk.Words
