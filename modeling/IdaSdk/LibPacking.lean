import Mathlib.Algebra.Group.Int.Defs
import Mathlib.Algebra.Group.Nat.Defs
import Mathlib.Data.List.Basic
import Mathlib.Tactic.Common

/-!
Numbers packed into bytes. A codec writes a value so that reading takes exactly what was written and leaves
what follows; its readers never fail and make do with what is there. The encodings of words and double words whose first
byte tells the length are instances.
-/

namespace IdaSdk

structure Codec (α : Type) [Inhabited α] where
  pack : α → List UInt8
  unpack : List UInt8 → α × List UInt8
  unpack_pack : ∀ x rest, unpack (pack x ++ rest) = (x, rest)
  unpack_nil : unpack [] = (default, [])
  unpack_cons : ∀ b rest, (unpack (b :: rest)).2.length ≤ rest.length

namespace Codec

variable {α β : Type} [Inhabited α] [Inhabited β]

attribute [simp] unpack_pack

variable (c : Codec α)

theorem unpack_self (x : α) : c.unpack (c.pack x) = (x, []) := by
  have h := c.unpack_pack x []
  rwa [List.append_nil] at h

theorem unpack_length_lt {bytes : List UInt8} (h : bytes ≠ []) :
    (c.unpack bytes).2.length < bytes.length := by
  obtain ⟨b, rest, rfl⟩ := List.exists_cons_of_ne_nil h
  exact Nat.lt_succ_of_le (c.unpack_cons b rest)

theorem unpack_length_le (bytes : List UInt8) : (c.unpack bytes).2.length ≤ bytes.length := by
  cases bytes with
  | nil => simp [c.unpack_nil]
  | cons b rest => exact Nat.le_succ_of_le (c.unpack_cons b rest)

end Codec

/-! ### Double words -/

namespace Packing

/-- The reader `get_dw`: two bytes, the high one first. -/
def getDw : List UInt8 → Nat × List UInt8
  | [] => (0, [])
  | [hi] => (hi.toNat * 256, [])
  | hi :: lo :: rest => (hi.toNat * 256 + lo.toNat, rest)

/-- The high half of a double word whose first byte is `b`. -/
def highHalf (b : UInt8) (rest : List UInt8) : Nat × List UInt8 :=
  if b.toNat < 0xE0 then
    match rest with
    | [] => (0, [])
    | lo :: rest => ((b.toNat - 0xC0) * 256 + lo.toNat, rest)
  else
    getDw rest

def unpackDd : List UInt8 → UInt32 × List UInt8
  | [] => (0, [])
  | b :: rest =>
    if b.toNat < 0x80 then (UInt32.ofNat b.toNat, rest)
    else if b.toNat < 0xC0 then
      match rest with
      | [] => (UInt32.ofNat b.toNat, [])
      | lo :: rest => (UInt32.ofNat ((b.toNat - 0x80) * 256 + lo.toNat), rest)
    else
      (UInt32.ofNat ((highHalf b rest).1 * 65536 + (getDw (highHalf b rest).2).1), (getDw (highHalf b rest).2).2)

/-- Byte `i` of a number, the lowest being byte 0. -/
def byteOf (n i : Nat) : UInt8 := UInt8.ofNat (n / 256 ^ i)

variable (x : UInt32)

def packDd : List UInt8 :=
  if x.toNat < 0x80 then [byteOf x.toNat 0]
  else if x.toNat < 0x4000 then [byteOf (0x8000 + x.toNat) 1, byteOf x.toNat 0]
  else if x.toNat < 0x20000000 then
    [byteOf (0xC0000000 + x.toNat) 3, byteOf x.toNat 2, byteOf x.toNat 1, byteOf x.toNat 0]
  else
    [0xFF, byteOf x.toNat 3, byteOf x.toNat 2, byteOf x.toNat 1, byteOf x.toNat 0]

theorem toNat_byteOf (n i : Nat) : (byteOf n i).toNat = n / 256 ^ i % 256 := by
  rw [byteOf, UInt8.toNat_ofNat']

theorem getDw_length (bytes : List UInt8) : (getDw bytes).2.length ≤ bytes.length := by
  unfold getDw
  split <;> simp only [List.length_cons, List.length_nil] <;> omega

variable (b : UInt8)

variable (rest : List UInt8)

theorem highHalf_length : (highHalf b rest).2.length ≤ rest.length := by
  unfold highHalf
  split
  · split <;> simp
  · exact getDw_length rest

theorem unpackDd_packDd (rest : List UInt8) : unpackDd (packDd x ++ rest) = (x, rest) := by
  have hx := x.toNat_lt
  have hback : UInt32.ofNat x.toNat = x := UInt32.ofNat_toNat
  unfold packDd
  split
  · have hb : (byteOf x.toNat 0).toNat = x.toNat := by rw [toNat_byteOf]; omega
    simp only [List.singleton_append, unpackDd]
    rw [if_pos (by omega), hb, hback]
  split
  · have h1 : (byteOf (0x8000 + x.toNat) 1).toNat = 0x80 + x.toNat / 256 := by rw [toNat_byteOf]; omega
    have h0 : (byteOf x.toNat 0).toNat = x.toNat % 256 := by rw [toNat_byteOf]; omega
    have hval : (0x80 + x.toNat / 256 - 0x80) * 256 + x.toNat % 256 = x.toNat := by omega
    simp only [List.cons_append, List.nil_append, unpackDd]
    rw [if_neg (by omega), if_pos (by omega), h1, h0, hval, hback]
  have h2 : (byteOf x.toNat 2).toNat = x.toNat / 65536 % 256 := toNat_byteOf _ _
  have h1 : (byteOf x.toNat 1).toNat = x.toNat / 256 % 256 := toNat_byteOf _ _
  have h0 : (byteOf x.toNat 0).toNat = x.toNat % 256 := by rw [toNat_byteOf]; omega
  split
  · have h3 : (byteOf (0xC0000000 + x.toNat) 3).toNat = 0xC0 + x.toNat / 16777216 := by rw [toNat_byteOf]; omega
    have hval : ((0xC0 + x.toNat / 16777216 - 0xC0) * 256 + x.toNat / 65536 % 256) * 65536 +
        (x.toNat / 256 % 256 * 256 + x.toNat % 256) = x.toNat := by omega
    simp only [List.cons_append, List.nil_append, unpackDd, highHalf]
    rw [if_neg (by omega), if_neg (by omega), if_pos (by omega)]
    simp only [getDw]
    rw [h3, h2, h1, h0, hval, hback]
  · have h3 : (byteOf x.toNat 3).toNat = x.toNat / 16777216 := by rw [toNat_byteOf]; omega
    have hval : (x.toNat / 16777216 * 256 + x.toNat / 65536 % 256) * 65536 +
        (x.toNat / 256 % 256 * 256 + x.toNat % 256) = x.toNat := by omega
    simp only [List.cons_append, List.nil_append, unpackDd, highHalf]
    rw [if_neg (by decide), if_neg (by decide), if_neg (by decide)]
    simp only [getDw]
    rw [h3, h2, h1, h0, hval, hback]

theorem unpackDd_cons : (unpackDd (b :: rest)).2.length ≤ rest.length := by
  unfold unpackDd
  simp only
  split
  · exact Nat.le_refl _
  split
  · split <;> simp
  · exact Nat.le_trans (getDw_length _) (highHalf_length b rest)

def dd : Codec UInt32 := ⟨packDd, unpackDd, unpackDd_packDd, rfl, unpackDd_cons⟩

theorem packDd_length : (packDd x).length ≤ 5 := by
  unfold packDd
  split
  · exact (by decide : 1 ≤ 5)
  split
  · exact (by decide : 2 ≤ 5)
  split
  · exact (by decide : 4 ≤ 5)
  · exact Nat.le_refl 5

def unpackDw : List UInt8 → UInt16 × List UInt8
  | [] => (0, [])
  | b :: rest =>
    if b.toNat < 0x80 then (UInt16.ofNat b.toNat, rest)
    else if b.toNat < 0xC0 then
      match rest with
      | [] => (UInt16.ofNat b.toNat, [])
      | lo :: rest => (UInt16.ofNat ((b.toNat - 0x80) * 256 + lo.toNat), rest)
    else (UInt16.ofNat (getDw rest).1, (getDw rest).2)

def packDw (x : UInt16) : List UInt8 :=
  if x.toNat < 0x80 then [byteOf x.toNat 0]
  else if x.toNat < 0x4000 then [byteOf (0x8000 + x.toNat) 1, byteOf x.toNat 0]
  else [0xFF, byteOf x.toNat 1, byteOf x.toNat 0]

theorem unpackDw_packDw (x : UInt16) (rest : List UInt8) : unpackDw (packDw x ++ rest) = (x, rest) := by
  have hx := x.toNat_lt
  have hback : UInt16.ofNat x.toNat = x := UInt16.ofNat_toNat
  have h0 : (byteOf x.toNat 0).toNat = x.toNat % 256 := by rw [toNat_byteOf]; omega
  unfold packDw
  split
  · have hb : (byteOf x.toNat 0).toNat = x.toNat := by omega
    simp only [List.singleton_append, unpackDw]
    rw [if_pos (by omega), hb, hback]
  split
  · have h1 : (byteOf (0x8000 + x.toNat) 1).toNat = 0x80 + x.toNat / 256 := by rw [toNat_byteOf]; omega
    have hval : (0x80 + x.toNat / 256 - 0x80) * 256 + x.toNat % 256 = x.toNat := by omega
    simp only [List.cons_append, List.nil_append, unpackDw]
    rw [if_neg (by omega), if_pos (by omega), h1, h0, hval, hback]
  · have h1 : (byteOf x.toNat 1).toNat = x.toNat / 256 := by rw [toNat_byteOf]; omega
    have hval : x.toNat / 256 * 256 + x.toNat % 256 = x.toNat := by omega
    simp only [List.cons_append, List.nil_append, unpackDw]
    rw [if_neg (by decide), if_neg (by decide)]
    simp only [getDw]
    rw [h1, h0, hval, hback]

theorem unpackDw_cons : (unpackDw (b :: rest)).2.length ≤ rest.length := by
  unfold unpackDw
  simp only
  split
  · exact Nat.le_refl _
  split
  · split <;> simp
  · exact getDw_length rest

theorem packDw_length (x : UInt16) : (packDw x).length ≤ 3 := by
  unfold packDw
  split
  · exact (by decide : 1 ≤ 3)
  split
  · exact (by decide : 2 ≤ 3)
  · exact Nat.le_refl 3

def dw : Codec UInt16 := ⟨packDw, unpackDw, unpackDw_packDw, rfl, unpackDw_cons⟩

/-- Two double words, the low one first. -/
def joinDd (lo hi : UInt32) : UInt64 := UInt64.ofNat (hi.toNat * 2 ^ 32 + lo.toNat)

def lowDd (x : UInt64) : UInt32 := UInt32.ofNat x.toNat

def highDd (x : UInt64) : UInt32 := UInt32.ofNat (x.toNat / 2 ^ 32)

theorem joinDd_split (x : UInt64) : joinDd (lowDd x) (highDd x) = x := by
  have hx := x.toNat_lt
  apply UInt64.toNat_inj.mp
  rw [joinDd, lowDd, highDd, UInt64.toNat_ofNat', UInt32.toNat_ofNat', UInt32.toNat_ofNat']
  omega

def unpackDq (c : Codec UInt32) (bytes : List UInt8) : UInt64 × List UInt8 :=
  (joinDd (c.unpack bytes).1 (c.unpack (c.unpack bytes).2).1, (c.unpack (c.unpack bytes).2).2)

/-- A quad word is its low half and its high half. -/
def dq (c : Codec UInt32) : Codec UInt64 where
  pack x := c.pack (lowDd x) ++ c.pack (highDd x)
  unpack := unpackDq c
  unpack_pack x rest := by
    rw [List.append_assoc]
    simp only [unpackDq, Codec.unpack_pack, joinDd_split]
  unpack_nil := by
    simp only [unpackDq, Codec.unpack_nil]
    rfl
  unpack_cons b rest := Nat.le_trans (c.unpack_length_le _) (c.unpack_cons b rest)

end Packing

end IdaSdk
