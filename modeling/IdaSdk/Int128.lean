import Mathlib.Tactic.Ring
import IdaSdk.Int128Model

/-!
The portable 128-bit numbers compared with native ones. A pair of halves stands for the word of 128 bits made of them; the
lemmas about such words carry over to both classes.
-/

namespace IdaSdk.Int128

/-! ### Words of two halves -/

def word (h l : BitVec 64) : BitVec 128 := h ++ l

theorem toNat_word (h l : BitVec 64) : (word h l).toNat = h.toNat * 2 ^ 64 + l.toNat := by
  rw [word, BitVec.toNat_append, ← Nat.shiftLeft_add_eq_or_of_lt l.isLt, Nat.shiftLeft_eq]

theorem toInt_word (h l : BitVec 64) : (word h l).toInt = 2 ^ 64 * h.toInt + l.toNat := by
  rw [word, BitVec.toInt_append, if_neg (by decide)]

theorem add_word (h l h' l' : BitVec 64) :
    word (h + h' + if (l + l').ult l then 1 else 0) (l + l') = word h l + word h' l' := by
  apply BitVec.eq_of_toNat_eq
  rw [BitVec.toNat_add, toNat_word, toNat_word, toNat_word]
  have h₁ := h.isLt
  have h₂ := h'.isLt
  have h₃ := l.isLt
  have h₄ := l'.isLt
  have hcarry : (if (l + l').ult l then 1 else 0 : BitVec 64).toNat = (l.toNat + l'.toNat) / 2 ^ 64 := by
    rw [BitVec.ult, BitVec.toNat_add]
    split
    · case isTrue hc =>
      have := of_decide_eq_true hc
      change 1 = _
      omega
    · case isFalse hc =>
      rw [decide_eq_true_eq] at hc
      change 0 = _
      omega
  rw [BitVec.toNat_add, BitVec.toNat_add, BitVec.toNat_add, hcarry]
  omega

theorem sub_word (h l h' l' : BitVec 64) :
    word (h - h' - if l.ult l' then 1 else 0) (l - l') = word h l - word h' l' := by
  apply BitVec.eq_of_toNat_eq
  rw [BitVec.toNat_sub, toNat_word, toNat_word, toNat_word]
  have h₁ := h.isLt
  have h₂ := h'.isLt
  have h₃ := l.isLt
  have h₄ := l'.isLt
  rw [BitVec.ult]
  split
  · case isTrue hc =>
    rw [decide_eq_true_eq] at hc
    have hone : (1 : BitVec 64).toNat = 1 := rfl
    rw [BitVec.toNat_sub, BitVec.toNat_sub, BitVec.toNat_sub, hone]
    omega
  · case isFalse hc =>
    rw [decide_eq_true_eq] at hc
    have hzero : (0 : BitVec 64).toNat = 0 := rfl
    rw [BitVec.toNat_sub, BitVec.toNat_sub, BitVec.toNat_sub, hzero]
    omega

variable (x : BitVec 64)

theorem toNat_lower : (lower x).toNat = x.toNat % 2 ^ 32 := by
  rw [lower, BitVec.toNat_setWidth, BitVec.toNat_setWidth]
  omega

theorem umul_eq (a b : BitVec 64) :
    (int128.umul a b).1.toNat * 2 ^ 64 + (int128.umul a b).2.toNat = a.toNat * b.toNat := by
  have ha := a.isLt
  have hb := b.isLt
  have hor : ∀ x y : BitVec 64, (x <<< 32 ||| lower y).toNat = x.toNat % 2 ^ 32 * 2 ^ 32 + y.toNat % 2 ^ 32 := by
    intro x y
    rw [BitVec.toNat_or, BitVec.toNat_shiftLeft, toNat_lower]
    have hmod : x.toNat <<< 32 % 2 ^ 64 = (x.toNat % 2 ^ 32) <<< 32 := by
      rw [Nat.shiftLeft_eq, Nat.shiftLeft_eq]
      omega
    rw [hmod, ← Nat.shiftLeft_add_eq_or_of_lt (Nat.mod_lt _ (Nat.two_pow_pos 32)), Nat.shiftLeft_eq]
  have hshift : ∀ x : BitVec 64, (x >>> 32).toNat = x.toNat / 2 ^ 32 := by
    intro x
    rw [BitVec.toNat_ushiftRight, Nat.shiftRight_eq_div_pow]
  simp only [int128.umul, hor, hshift, BitVec.toNat_add, BitVec.toNat_mul, toNat_lower]
  have hsplit : ∀ n m : Nat, n * m = n / 2 ^ 32 * (m / 2 ^ 32) * 2 ^ 64 +
      (n % 2 ^ 32 * (m / 2 ^ 32) + n / 2 ^ 32 * (m % 2 ^ 32)) * 2 ^ 32 + n % 2 ^ 32 * (m % 2 ^ 32) := by
    intro n m
    conv_lhs => rw [← Nat.div_add_mod' n (2 ^ 32), ← Nat.div_add_mod' m (2 ^ 32)]
    ring
  have hbound : ∀ n m : Nat, n < 2 ^ 32 → m < 2 ^ 32 → n * m ≤ (2 ^ 32 - 1) * (2 ^ 32 - 1) := fun n m hn hm =>
    Nat.mul_le_mul (Nat.le_sub_one_of_lt hn) (Nat.le_sub_one_of_lt hm)
  rw [hsplit a.toNat b.toNat, Nat.mod_eq_of_lt (by omega : b.toNat / 2 ^ 32 < 2 ^ 32)]
  have h₁ : a.toNat / 2 ^ 32 < 2 ^ 32 := by omega
  have h₂ : b.toNat / 2 ^ 32 < 2 ^ 32 := by omega
  have h₃ : a.toNat % 2 ^ 32 < 2 ^ 32 := by omega
  have h₄ : b.toNat % 2 ^ 32 < 2 ^ 32 := by omega
  have hhh := hbound _ _ h₁ h₂
  have hlh := hbound _ _ h₃ h₂
  have hhl := hbound _ _ h₁ h₄
  have hll := hbound _ _ h₃ h₄
  generalize a.toNat / 2 ^ 32 * (b.toNat / 2 ^ 32) = hh at *
  generalize a.toNat % 2 ^ 32 * (b.toNat / 2 ^ 32) = lh at *
  generalize a.toNat / 2 ^ 32 * (b.toNat % 2 ^ 32) = hl at *
  generalize a.toNat % 2 ^ 32 * (b.toNat % 2 ^ 32) = ll at *
  clear hsplit hbound hor hshift ha hb h₁ h₂ h₃ h₄
  omega

theorem mul_word (x y : int128) : word (x.mul y).h (x.mul y).l = word x.h x.l * word y.h y.l := by
  apply BitVec.eq_of_toNat_eq
  have hlow := umul_eq x.l y.l
  have hlt := (int128.umul x.l y.l).2.isLt
  have hexpand : (x.h.toNat * 2 ^ 64 + x.l.toNat) * (y.h.toNat * 2 ^ 64 + y.l.toNat) =
      (x.h.toNat * y.h.toNat * 2 ^ 64 + (x.l.toNat * y.h.toNat + x.h.toNat * y.l.toNat)) * 2 ^ 64 +
        x.l.toNat * y.l.toNat := by ring
  rw [BitVec.toNat_mul, toNat_word, toNat_word, toNat_word, hexpand, ← hlow]
  simp only [int128.mul, BitVec.toNat_add, BitVec.toNat_mul]
  generalize x.h.toNat * y.h.toNat = hh
  generalize x.l.toNat * y.h.toNat = lh
  generalize x.h.toNat * y.l.toNat = hl
  generalize (int128.umul x.l y.l).1.toNat = hi
  clear hexpand hlow
  omega

theorem ult_word (h l h' l' : BitVec 64) :
    (word h l).ult (word h' l') = (h.ult h' || (h == h' && l.ult l')) := by
  have h₁ := l.isLt
  have h₂ := l'.isLt
  rw [Bool.eq_iff_iff, Bool.or_eq_true, Bool.and_eq_true, beq_iff_eq, BitVec.toNat_inj.symm]
  simp only [BitVec.ult, decide_eq_true_eq, toNat_word]
  omega

theorem slt_word (h l h' l' : BitVec 64) :
    (word h l).slt (word h' l') = (h.slt h' || (h == h' && l.ult l')) := by
  have h₁ := l.isLt
  have h₂ := l'.isLt
  rw [Bool.eq_iff_iff, Bool.or_eq_true, Bool.and_eq_true, beq_iff_eq, BitVec.toInt_inj.symm]
  simp only [BitVec.slt, BitVec.ult, decide_eq_true_eq, toInt_word]
  omega

theorem word_inj {h l h' l' : BitVec 64} : word h l = word h' l' ↔ l = l' ∧ h = h' := by
  rw [← BitVec.toNat_inj, ← BitVec.toNat_inj, ← BitVec.toNat_inj, toNat_word, toNat_word]
  have h₁ := l.isLt
  have h₂ := l'.isLt
  omega

theorem shl_word (h l : BitVec 64) (cnt : Nat) :
    word h l <<< cnt = if cnt < 64 then word ((h <<< cnt) ||| (l >>> (64 - cnt))) (l <<< cnt)
      else word (l <<< (cnt - 64)) 0 := by
  split
  · apply BitVec.eq_of_getLsbD_eq
    intro i hi
    simp only [word, BitVec.getLsbD_append, BitVec.getLsbD_shiftLeft, BitVec.getLsbD_or, BitVec.getLsbD_ushiftRight]
    grind
  · apply BitVec.eq_of_getLsbD_eq
    intro i hi
    simp only [word, BitVec.getLsbD_append, BitVec.getLsbD_shiftLeft, BitVec.ofNat_eq_ofNat, BitVec.getLsbD_zero]
    rw [if_pos (by omega : i - cnt < 64)]
    by_cases hlow : i < 64
    · have hcnt : i < cnt := by omega
      simp [hlow, hcnt]
    have hindex : i - 64 - (cnt - 64) = i - cnt := by omega
    rw [if_neg hlow, hindex]
    congr 1
    rw [Bool.eq_iff_iff]
    simp only [Bool.and_eq_true, Bool.not_eq_true', decide_eq_true_eq, decide_eq_false_iff_not]
    omega

theorem sshiftRight_word (h l : BitVec 64) (cnt : Nat) :
    (word h l).sshiftRight cnt = if cnt < 64 then word (h.sshiftRight cnt) ((l >>> cnt) ||| (h <<< (64 - cnt)))
      else word (h.sshiftRight 64) (h.sshiftRight (cnt - 64)) := by
  split
  · apply BitVec.eq_of_getLsbD_eq
    intro i hi
    simp only [word, BitVec.getLsbD_append, BitVec.getLsbD_sshiftRight, BitVec.getLsbD_or, BitVec.getLsbD_ushiftRight,
      BitVec.getLsbD_shiftLeft]
    grind
  · apply BitVec.eq_of_getLsbD_eq
    intro i hi
    simp only [word, BitVec.getLsbD_append, BitVec.getLsbD_sshiftRight]
    grind

theorem sshiftRight_sign (x : int128) {cnt : Nat} (h : 64 ≤ cnt) : x.h.sshiftRight cnt = x.sign := by
  have hmsb : x.h.slt 0 = x.h.msb := BitVec.slt_zero_eq_msb
  apply BitVec.eq_of_getLsbD_eq
  intro i hi
  rw [BitVec.getLsbD_sshiftRight, int128.sign, hmsb, if_neg (by omega : ¬cnt + i < 64)]
  cases x.h.msb with
  | true =>
      have hones : (~~~(0 : BitVec 64)).getLsbD i = true := by
        rw [BitVec.getLsbD_not]
        simp [hi]
      rw [if_pos rfl, hones, Bool.and_true]
      simp [hi]
  | false => simp

theorem inc_word (h l : BitVec 64) : word (if l + 1 = 0 then h + 1 else h) (l + 1) = word h l + 1 := by
  have h₁ := h.isLt
  have h₂ := l.isLt
  have hone : (1 : BitVec 64).toNat = 1 := rfl
  have hone' : (1 : BitVec 128).toNat = 1 := rfl
  have hzero : (0 : BitVec 64).toNat = 0 := rfl
  apply BitVec.eq_of_toNat_eq
  rw [BitVec.toNat_add, toNat_word, toNat_word, BitVec.toNat_add, hone, hone']
  split
  · case isTrue hl =>
    rw [← BitVec.toNat_inj, BitVec.toNat_add, hone, hzero] at hl
    rw [BitVec.toNat_add, hone]
    omega
  · case isFalse hl =>
    rw [← BitVec.toNat_inj, BitVec.toNat_add, hone, hzero] at hl
    omega

theorem dec_word (h l : BitVec 64) : word (if l = 0 then h - 1 else h) (l - 1) = word h l - 1 := by
  have h₁ := h.isLt
  have h₂ := l.isLt
  have hone : (1 : BitVec 64).toNat = 1 := rfl
  have hone' : (1 : BitVec 128).toNat = 1 := rfl
  have hzero : (0 : BitVec 64).toNat = 0 := rfl
  apply BitVec.eq_of_toNat_eq
  rw [BitVec.toNat_sub, toNat_word, toNat_word, BitVec.toNat_sub, hone, hone']
  split
  · case isTrue hl =>
    rw [← BitVec.toNat_inj, hzero] at hl
    rw [BitVec.toNat_sub, hone]
    omega
  · case isFalse hl =>
    rw [← BitVec.toNat_inj, hzero] at hl
    omega

theorem ule_word (h l h' l' : BitVec 64) :
    (word h l).ule (word h' l') = (h.ult h' || (h == h' && l.ule l')) := by
  have h₁ := l.isLt
  have h₂ := l'.isLt
  rw [Bool.eq_iff_iff, Bool.or_eq_true, Bool.and_eq_true, beq_iff_eq, BitVec.toNat_inj.symm]
  simp only [BitVec.ult, BitVec.ule, decide_eq_true_eq, toNat_word]
  omega

theorem sle_word (h l h' l' : BitVec 64) :
    (word h l).sle (word h' l') = (h.slt h' || (h == h' && l.ule l')) := by
  have h₁ := l.isLt
  have h₂ := l'.isLt
  rw [Bool.eq_iff_iff, Bool.or_eq_true, Bool.and_eq_true, beq_iff_eq, BitVec.toInt_inj.symm]
  simp only [BitVec.slt, BitVec.sle, BitVec.ule, decide_eq_true_eq, toInt_word]
  omega

theorem beq_word (h l h' l' : BitVec 64) : (word h l == word h' l') = (l == l' && h == h') := by
  rw [Bool.eq_iff_iff, Bool.and_eq_true, beq_iff_eq, beq_iff_eq, beq_iff_eq]
  exact word_inj

theorem word_sign : word (if x.slt 0 then -1 else 0) x = x.signExtend 128 := by
  have hmsb : x.slt 0 = x.msb := BitVec.slt_zero_eq_msb
  rw [hmsb, BitVec.signExtend_eq_append_of_le (by decide)]
  rfl

theorem word_zero : word 0 x = x.setWidth 128 := by
  rw [BitVec.setWidth_eq_append (by decide)]
  rfl

/-! ### The operations -/

def uint128.bits (x : uint128) : BitVec 128 := word x.h x.l

def int128.bits (x : int128) : BitVec 128 := word x.h x.l

/-- Each operation on `uint128` is that on numbers of 128 bits. -/
structure UnsignedNative (x y : uint128) : Prop where
  add : (x.add y).bits = x.bits + y.bits
  sub : (x.sub y).bits = x.bits - y.bits
  neg : x.neg.bits = -x.bits
  inc : x.inc.bits = x.bits + 1
  dec : x.dec.bits = x.bits - 1
  or : (x.or y).bits = x.bits ||| y.bits
  and : (x.and y).bits = x.bits &&& y.bits
  xor : (x.xor y).bits = x.bits ^^^ y.bits
  not : x.not.bits = ~~~x.bits
  eq : x.eq y = (x.bits == y.bits)
  ne : x.ne y = (x.bits != y.bits)
  gt : x.gt y = y.bits.ult x.bits
  lt : x.lt y = x.bits.ult y.bits
  ge : x.ge y = y.bits.ule x.bits
  le : x.le y = x.bits.ule y.bits

/-- Each operation on `int128` is that on two's complement numbers of 128 bits; counts below zero do not shift. -/
structure SignedNative (x y : int128) (cnt : Int) : Prop where
  add : (x.add y).bits = x.bits + y.bits
  sub : (x.sub y).bits = x.bits - y.bits
  mul : (x.mul y).bits = x.bits * y.bits
  neg : x.neg.bits = -x.bits
  inc : x.inc.bits = x.bits + 1
  dec : x.dec.bits = x.bits - 1
  or : (x.or y).bits = x.bits ||| y.bits
  and : (x.and y).bits = x.bits &&& y.bits
  xor : (x.xor y).bits = x.bits ^^^ y.bits
  not : x.not.bits = ~~~x.bits
  shl : (x.shl cnt).bits = x.bits <<< cnt.toNat
  shr : (x.shr cnt).bits = x.bits.sshiftRight cnt.toNat
  eq : x.eq y = (x.bits == y.bits)
  ne : x.ne y = (x.bits != y.bits)
  gt : x.gt y = y.bits.slt x.bits
  lt : x.lt y = x.bits.slt y.bits
  ge : x.ge y = y.bits.sle x.bits
  le : x.le y = x.bits.sle y.bits

/-- Each conversion extends or reinterprets the bits. -/
structure ConversionsNative (x : uint128) (y : int128) (n : BitVec 32) (m k : BitVec 64) : Prop where
  of_uint : (uint128.of_uint n).bits = n.setWidth 128 ∧ (int128.of_uint n).bits = n.setWidth 128
  of_int : (uint128.of_int n).bits = n.signExtend 128 ∧ (int128.of_int n).bits = n.signExtend 128
  of_uint64 : (uint128.of_uint64 m).bits = m.setWidth 128 ∧ (int128.of_uint64 m).bits = m.setWidth 128
  of_int64 : (uint128.of_int64 m).bits = m.signExtend 128 ∧ (int128.of_int64 m).bits = m.signExtend 128
  of_int128 : (uint128.of_int128 y).bits = y.bits
  of_uint128 : (int128.of_uint128 x).bits = x.bits
  make : (make_uint128 m k).bits = m.setWidth 128 ||| (k.setWidth 128 <<< 64) ∧
    (make_int128 m k).bits = m.setWidth 128 ||| (k.signExtend 128 <<< 64)
  low : x.low = x.bits.setWidth 64 ∧ y.low = y.bits.setWidth 64
  high : x.high = (x.bits >>> 64).setWidth 64 ∧ y.high = (y.bits.sshiftRight 64).setWidth 64

theorem one_word : word 0 ((1 : BitVec 32).signExtend 64) = 1 := by decide

theorem unsigned_native (x y : uint128) : UnsignedNative x y := by
  have hadd : ∀ x y : uint128, (x.add y).bits = x.bits + y.bits := by
    intro x y
    rw [uint128.bits, uint128.bits, uint128.bits, ← add_word, uint128.add]
    have hzero : x.h + y.h + 0 = x.h + y.h := BitVec.add_zero _
    split
    · rfl
    · rw [hzero]
  have hnot : ∀ x : uint128, x.not.bits = ~~~x.bits := fun x => BitVec.not_append.symm
  exact {
    add := hadd x y
    sub := by
      have hborrow : x.l.ult (x.l - y.l) = x.l.ult y.l := by
        rw [Bool.eq_iff_iff]
        simp only [BitVec.ult, decide_eq_true_eq, BitVec.toNat_sub]
        omega
      have hzero : x.h - y.h - 0 = x.h - y.h := BitVec.sub_zero _
      rw [uint128.bits, uint128.bits, uint128.bits, ← sub_word, uint128.sub, hborrow]
      split
      · rfl
      · rw [hzero]
    neg := by
      rw [uint128.neg, hadd, hnot, BitVec.neg_eq_not_add]
      exact congrArg _ one_word
    inc := inc_word x.h x.l
    dec := dec_word x.h x.l
    or := BitVec.or_append.symm
    and := BitVec.and_append.symm
    xor := BitVec.xor_append.symm
    not := hnot x
    eq := (beq_word x.h x.l y.h y.l).symm
    ne := by
      rw [bne, uint128.bits, uint128.bits, beq_word, Bool.not_and]
      rfl
    gt := by
      rw [uint128.gt, Bool.beq_comm]
      exact (ult_word y.h y.l x.h x.l).symm
    lt := (ult_word x.h x.l y.h y.l).symm
    ge := by
      rw [uint128.ge, Bool.beq_comm]
      exact (ule_word y.h y.l x.h x.l).symm
    le := (ule_word x.h x.l y.h y.l).symm }

theorem int128_shl (x : int128) (cnt : Int) : (x.shl cnt).bits = x.bits <<< cnt.toNat := by
  unfold int128.shl
  split
  · case isTrue hcnt =>
    rw [Int.toNat_of_nonpos hcnt]
    exact (BitVec.shiftLeft_zero _).symm
  split
  · case isTrue hcnt =>
    rw [BitVec.shiftLeft_eq_zero (by omega)]
    decide
  rw [int128.bits, int128.bits, shl_word]
  split
  · case isTrue hcnt =>
    have hrest : (64 - cnt).toNat = 64 - cnt.toNat := by omega
    rw [if_pos (by omega), hrest]
  · case isFalse hcnt =>
    have hrest : (cnt - 64).toNat = cnt.toNat - 64 := by omega
    rw [if_neg (by omega), hrest]

theorem int128_shr (x : int128) (cnt : Int) : (x.shr cnt).bits = x.bits.sshiftRight cnt.toNat := by
  unfold int128.shr
  split
  · case isTrue hcnt =>
    rw [Int.toNat_of_nonpos hcnt]
    exact (BitVec.sshiftRight_zero).symm
  split
  · case isTrue hcnt =>
    rw [int128.bits, int128.bits, sshiftRight_word, if_neg (by omega), sshiftRight_sign x (Nat.le_refl 64),
      sshiftRight_sign x (by omega)]
  rw [int128.bits, int128.bits, sshiftRight_word]
  split
  · case isTrue hcnt =>
    have hrest : (64 - cnt).toNat = 64 - cnt.toNat := by omega
    rw [if_pos (by omega), hrest]
  · case isFalse hcnt =>
    have hrest : (cnt - 64).toNat = cnt.toNat - 64 := by omega
    rw [if_neg (by omega), hrest, sshiftRight_sign x (Nat.le_refl 64)]

theorem signed_native (x y : int128) (cnt : Int) : SignedNative x y cnt := by
  have hadd : ∀ x y : int128, (x.add y).bits = x.bits + y.bits := fun x y => add_word x.h x.l y.h y.l
  have hnot : ∀ x : int128, x.not.bits = ~~~x.bits := fun x => BitVec.not_append.symm
  exact {
    add := hadd x y
    sub := sub_word x.h x.l y.h y.l
    mul := mul_word x y
    neg := by
      rw [int128.neg, hadd, hnot, BitVec.neg_eq_not_add]
      exact congrArg _ one_word
    inc := inc_word x.h x.l
    dec := dec_word x.h x.l
    or := BitVec.or_append.symm
    and := BitVec.and_append.symm
    xor := BitVec.xor_append.symm
    not := hnot x
    shl := int128_shl x cnt
    shr := int128_shr x cnt
    eq := (beq_word x.h x.l y.h y.l).symm
    ne := by
      rw [bne, int128.bits, int128.bits, beq_word, Bool.not_and]
      rfl
    gt := by
      rw [int128.gt, Bool.beq_comm]
      exact (slt_word y.h y.l x.h x.l).symm
    lt := (slt_word x.h x.l y.h y.l).symm
    ge := by
      rw [int128.ge, Bool.beq_comm]
      exact (sle_word y.h y.l x.h x.l).symm
    le := (sle_word x.h x.l y.h y.l).symm }

theorem word_of_uint (n : BitVec 32) : word 0 (n.setWidth 64) = n.setWidth 128 := by
  have hlt := n.isLt
  rw [word_zero]
  apply BitVec.eq_of_toNat_eq
  rw [BitVec.toNat_setWidth, BitVec.toNat_setWidth, BitVec.toNat_setWidth]
  omega

theorem word_of_int (n : BitVec 32) : word (if n.slt 0 then -1 else 0) (n.signExtend 64) = n.signExtend 128 := by
  have hslt : n.slt 0 = (n.signExtend 64).slt 0 := by
    rw [BitVec.slt, BitVec.slt, BitVec.toInt_signExtend_of_le (by decide)]
    rfl
  rw [hslt, word_sign]
  apply BitVec.eq_of_toInt_eq
  rw [BitVec.toInt_signExtend_of_le (by decide), BitVec.toInt_signExtend_of_le (by decide),
    BitVec.toInt_signExtend_of_le (by decide)]

theorem high_word (h l : BitVec 64) : ((word h l) >>> 64).setWidth 64 = h := by
  have hlt := l.isLt
  apply BitVec.eq_of_toNat_eq
  rw [BitVec.toNat_setWidth, BitVec.toNat_ushiftRight, toNat_word, Nat.shiftRight_eq_div_pow]
  omega

theorem or_shift_word {h l : BitVec 64} {g : BitVec 128} (hg : g.setWidth 64 = h) :
    word h l = l.setWidth 128 ||| (g <<< 64) := by
  subst hg
  apply BitVec.eq_of_getLsbD_eq
  intro i hi
  simp only [word, BitVec.getLsbD_append, BitVec.getLsbD_or, BitVec.getLsbD_setWidth, BitVec.getLsbD_shiftLeft]
  by_cases hlow : i < 64
  · simp [hlow, hi]
  · have hzero : l.getLsbD i = false := BitVec.getLsbD_of_ge l i (Nat.le_of_not_lt hlow)
    have hhigh : i - 64 < 64 := by omega
    simp [hlow, hi, hzero, hhigh]

theorem conversions_native (x : uint128) (y : int128) (n : BitVec 32) (m k : BitVec 64) :
    ConversionsNative x y n m k where
  of_uint := ⟨word_of_uint n, word_of_uint n⟩
  of_int := ⟨word_of_int n, word_of_int n⟩
  of_uint64 := ⟨word_zero m, word_zero m⟩
  of_int64 := ⟨word_sign m, word_sign m⟩
  of_int128 := rfl
  of_uint128 := rfl
  make := by
    refine ⟨or_shift_word ?_, or_shift_word ?_⟩
    · rw [BitVec.setWidth_setWidth_of_le k (by decide), BitVec.setWidth_eq]
      rfl
    apply BitVec.eq_of_getLsbD_eq
    intro i hi
    have hlt : i < 128 := by omega
    rw [BitVec.getLsbD_setWidth, BitVec.getLsbD_signExtend, if_pos hi, decide_eq_true hi, decide_eq_true hlt]
    rfl
  low := ⟨(BitVec.setWidth_append_eq_right).symm, (BitVec.setWidth_append_eq_right).symm⟩
  high := by
    refine ⟨(high_word x.h x.l).symm, ?_⟩
    rw [int128.bits, sshiftRight_word, if_neg (by decide), Nat.sub_self, BitVec.sshiftRight_zero]
    exact (BitVec.setWidth_append_eq_right).symm

end IdaSdk.Int128
