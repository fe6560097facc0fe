import IdaSdk.LibWords
import Mathlib.Tactic.IntervalCases

/-!
The reader of an ELF file: the input it reads from, the words of the file's byte order, and relocation entries.
-/

namespace IdaSdk.Elf
open Words

/-- The effective class and byte order, and the machine. -/
structure reader_t where
  is_64 : Bool
  is_msb : Bool
  e_machine : UInt16

def EM_MIPS : UInt16 := 8

variable (reader : reader_t)

def reader_t.is_mips : Bool := reader.e_machine == EM_MIPS

def reader_t.elf_addr : Nat := if reader.is_64 then 8 else 4

structure elf_rela_t where
  r_offset : BitVec 64
  r_info : BitVec 64
  r_addend : BitVec 64
deriving DecidableEq

/-- A relocation entry as its constructor leaves it. -/
def elf_rela_t.init : elf_rela_t := ⟨0, 0, 0⟩

def swap32 (x : BitVec 32) : BitVec 32 :=
  (x >>> 24) ||| (x <<< 24) ||| ((x >>> 8) &&& 0x0000FF00#32) ||| ((x <<< 8) &&& 0x00FF0000#32)

def swap64 (x : BitVec 64) : BitVec 64 := joinHalves (swap32 (highHalf x)) (swap32 (lowHalf x))

/-- Where a segment is in the file, and where it is loaded. -/
structure elf_phdr_t where
  p_offset : BitVec 64
  p_filesz : BitVec 64
  p_vaddr : BitVec 64

/-- An open file and the position in it. Positions are signed numbers of 64 bits. -/
structure linput_t where
  bytes : List UInt8
  pos : Nat
  size_lt : bytes.length < 2 ^ 63

namespace linput_t

def qlseek (li : linput_t) (pos : BitVec 64) : linput_t × Bool :=
  if pos.toNat < 2 ^ 63 then (⟨li.bytes, pos.toNat, li.size_lt⟩, true) else (li, false)

/-- The bytes that are left for reading, at most `n` of them. -/
def qlread (li : linput_t) (n : Nat) : linput_t × List UInt8 :=
  (⟨li.bytes, li.pos + ((li.bytes.drop li.pos).take n).length, li.size_lt⟩, (li.bytes.drop li.pos).take n)

end linput_t

/-- A value of the file, in its byte order. A short read is an error. -/
def reader_t.safe_read (li : linput_t) (n : Nat) : Option (Nat × linput_t) :=
  if (li.qlread n).2.length = n then
    some (if reader.is_msb then ofBE (li.qlread n).2 else ofLE (li.qlread n).2, (li.qlread n).1)
  else none

def reader_t.read_addr (li : linput_t) : Option (Nat × linput_t) :=
  reader.safe_read li reader.elf_addr

theorem swap32_swap32 (x : BitVec 32) : swap32 (swap32 x) = x := by
  apply BitVec.eq_of_getLsbD_eq
  intro i hi
  simp only [swap32, BitVec.getLsbD_or, BitVec.getLsbD_and, BitVec.getLsbD_ushiftRight, BitVec.getLsbD_shiftLeft]
  interval_cases i <;> simp

theorem swap32_eq_zero {x : BitVec 32} : swap32 x = 0 ↔ x = 0 := by
  constructor
  · intro h
    have hswap := congrArg swap32 h
    rw [swap32_swap32] at hswap
    exact hswap
  · intro h
    rw [h]
    rfl

theorem ofLE_four (a b c d : UInt8) :
    BitVec.ofNat 32 (ofLE [a, b, c, d]) = d.toBitVec ++ c.toBitVec ++ b.toBitVec ++ a.toBitVec := by
  have ha := a.toNat_lt
  have hb := b.toNat_lt
  have hc := c.toNat_lt
  have hd := d.toNat_lt
  have hc' : c.toBitVec.toNat < 2 ^ 8 := hc
  have hb' : b.toBitVec.toNat < 2 ^ 8 := hb
  have ha' : a.toBitVec.toNat < 2 ^ 8 := ha
  apply BitVec.eq_of_toNat_eq
  rw [BitVec.toNat_append, BitVec.toNat_append, BitVec.toNat_append, ← Nat.shiftLeft_add_eq_or_of_lt hc',
    ← Nat.shiftLeft_add_eq_or_of_lt hb', ← Nat.shiftLeft_add_eq_or_of_lt ha', BitVec.toNat_ofNat]
  simp only [ofLE, Nat.shiftLeft_eq, UInt8.toNat_toBitVec]
  omega

theorem swap32_append (a b c d : BitVec 8) : swap32 (d ++ c ++ b ++ a) = a ++ b ++ c ++ d := by
  apply BitVec.eq_of_getLsbD_eq
  intro i hi
  simp only [swap32, BitVec.getLsbD_or, BitVec.getLsbD_and, BitVec.getLsbD_ushiftRight, BitVec.getLsbD_shiftLeft,
    BitVec.getLsbD_append]
  interval_cases i <;> simp

theorem swap32_ofLE {bytes : List UInt8} (h : bytes.length = 4) :
    swap32 (BitVec.ofNat 32 (ofLE bytes)) = BitVec.ofNat 32 (ofBE bytes) := by
  obtain ⟨a, b, c, d, rfl⟩ := List.length_eq_four.1 h
  rw [ofLE_four, swap32_append, ofBE]
  exact (ofLE_four d c b a).symm

theorem ofLE_eight {lo hi : List UInt8} (hlo : lo.length = 4) :
    BitVec.ofNat 64 (ofLE (lo ++ hi)) = joinHalves (BitVec.ofNat 32 (ofLE lo)) (BitVec.ofNat 32 (ofLE hi)) := by
  have hl := ofLE_lt lo
  rw [hlo] at hl
  apply BitVec.eq_of_toNat_eq
  rw [toNat_joinHalves, BitVec.toNat_ofNat, BitVec.toNat_ofNat, BitVec.toNat_ofNat, ofLE_append, hlo]
  omega

theorem swap64_ofLE {bytes : List UInt8} (h : bytes.length = 8) :
    swap64 (BitVec.ofNat 64 (ofLE bytes)) = BitVec.ofNat 64 (ofBE bytes) := by
  have hlo : (bytes.take 4).length = 4 := by simp [h]
  have hhi : (bytes.drop 4).length = 4 := by simp [h]
  have hhi' : (bytes.drop 4).reverse.length = 4 := by simp [h]
  have hbytes : bytes = bytes.take 4 ++ bytes.drop 4 := (List.take_append_drop 4 bytes).symm
  have hrev : bytes.reverse = (bytes.drop 4).reverse ++ (bytes.take 4).reverse := by
    rw [← List.reverse_append, List.take_append_drop]
  rw [ofBE, hrev, ofLE_eight hhi']
  conv_lhs => rw [hbytes]
  rw [ofLE_eight hlo, swap64, lowHalf_joinHalves, highHalf_joinHalves, swap32_ofLE hlo, swap32_ofLE hhi]
  rfl

end IdaSdk.Elf
