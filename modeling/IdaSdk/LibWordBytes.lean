import IdaSdk.LibWords

/-!
The bytes of a word, the lowest one first, under the operations that move and mix them.
-/

namespace IdaSdk.Words

variable {n w i k : Nat} {x y : BitVec n}

def byte (i : Nat) (x : BitVec n) : UInt8 := UInt8.ofBitVec (x.extractLsb' (8 * i) 8)

theorem byte_congr {m : Nat} {y : BitVec m} (h : ∀ j < 8, x.getLsbD (8 * i + j) = y.getLsbD (8 * k + j)) :
    byte i x = byte k y := by
  apply congrArg UInt8.ofBitVec
  apply BitVec.eq_of_getLsbD_eq
  intro j hj
  rw [BitVec.getLsbD_extractLsb', BitVec.getLsbD_extractLsb', h j hj]

theorem byte_ushiftRight (x : BitVec n) (i k : Nat) : byte i (x >>> (8 * k)) = byte (k + i) x := by
  apply byte_congr
  intro j _
  rw [BitVec.getLsbD_ushiftRight, Nat.mul_add, Nat.add_assoc]

/-- The bytes of a number that bytes stand for. -/
theorem testBit_ofLE {j : Nat} (hj : j < 8) (bytes : List UInt8) (i : Nat) :
    (ofLE bytes).testBit (8 * i + j) = (bytes.getD i 0).toNat.testBit j := by
  induction bytes generalizing i with
  | nil => rw [ofLE, Nat.zero_testBit, List.getD_nil, show (0 : UInt8).toNat = 0 from rfl, Nat.zero_testBit]
  | cons b bytes ih =>
      have hb : b.toNat < 2 ^ 8 := b.toNat_lt
      have hsum : ofLE (b :: bytes) = 2 ^ 8 * ofLE bytes + b.toNat := Nat.add_comm ..
      rw [hsum, Nat.testBit_two_pow_mul_add _ hb]
      cases i with
      | zero =>
          rw [if_pos (by omega), Nat.mul_zero, Nat.zero_add]
          rfl
      | succ i =>
          rw [if_neg (by omega), show 8 * (i + 1) + j - 8 = 8 * i + j by omega, ih]
          rfl

theorem byte_ofLE {bytes : List UInt8} (h : i < w) : byte i (BitVec.ofNat (8 * w) (ofLE bytes)) = bytes.getD i 0 := by
  rw [← UInt8.toBitVec_inj]
  apply BitVec.eq_of_getLsbD_eq
  intro j hj
  rw [byte, BitVec.getLsbD_extractLsb', BitVec.getLsbD_ofNat, testBit_ofLE hj]
  have hin : 8 * i + j < 8 * w := by omega
  simp only [hj, hin, decide_true, Bool.true_and]
  rfl

/-- All bits of `k` bytes, `s` bytes up. -/
def byteMask (w s k : Nat) : BitVec (8 * w) := (BitVec.allOnes (8 * w) >>> ((w - k) * 8)) <<< (s * 8)

theorem getLsbD_byteMask {s p : Nat} (hk : s + k ≤ w) (hp : p < 8 * w) :
    (byteMask w s k).getLsbD p = decide (8 * s ≤ p ∧ p < 8 * (s + k)) := by
  rw [byteMask, BitVec.getLsbD_shiftLeft, BitVec.getLsbD_ushiftRight, BitVec.getLsbD_allOnes, Bool.eq_iff_iff]
  simp only [Bool.and_eq_true, Bool.not_eq_true', decide_eq_true_eq, decide_eq_false_iff_not]
  omega

/-- The bytes under a mask come from a word that is shifted to them. -/
def mixBytes (w s k : Nat) (x y : BitVec (8 * w)) : BitVec (8 * w) :=
  ((x <<< (s * 8)) &&& byteMask w s k) ||| (y &&& ~~~byteMask w s k)

theorem byte_mixBytes {s : Nat} (hk : s + k ≤ w) (hi : i < w) (x y : BitVec (8 * w)) :
    byte i (mixBytes w s k x y) = if s ≤ i ∧ i < s + k then byte (i - s) x else byte i y := by
  by_cases hin : s ≤ i ∧ i < s + k
  · rw [if_pos hin]
    apply byte_congr
    intro j hj
    have hp : 8 * i + j < 8 * w := by omega
    have hmask : (byteMask w s k).getLsbD (8 * i + j) = true := by
      rw [getLsbD_byteMask hk hp]
      exact decide_eq_true (by omega)
    have hplace : 8 * i + j - s * 8 = 8 * (i - s) + j := by omega
    have hsmall : ¬8 * i + j < s * 8 := by omega
    rw [mixBytes, BitVec.getLsbD_or, BitVec.getLsbD_and, BitVec.getLsbD_and, BitVec.getLsbD_not, hmask,
      BitVec.getLsbD_shiftLeft, hplace]
    simp only [hp, hsmall, decide_true, decide_false, Bool.not_false, Bool.not_true, Bool.true_and, Bool.and_true,
      Bool.and_false, Bool.or_false]
  · rw [if_neg hin]
    apply byte_congr
    intro j hj
    have hp : 8 * i + j < 8 * w := by omega
    have hmask : (byteMask w s k).getLsbD (8 * i + j) = false := by
      rw [getLsbD_byteMask hk hp]
      exact decide_eq_false (by omega)
    rw [mixBytes, BitVec.getLsbD_or, BitVec.getLsbD_and, BitVec.getLsbD_and, BitVec.getLsbD_not, hmask]
    simp only [hp, decide_true, Bool.not_false, Bool.and_true, Bool.and_false, Bool.false_or]

end IdaSdk.Words
