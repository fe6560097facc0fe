import IdaSdk.ElfModel

/-!
The relocation info words of an ELF reader. The symbol index and the type are put together in one of three ways; two
functions read them and two others write them.
-/

namespace IdaSdk.Elf
open Words

variable (i : BitVec 64)

def ELF32_R_SYM : BitVec 64 := i >>> 8

def ELF32_R_TYPE : BitVec 8 := i.setWidth 8

def ELF32_R_INFO (s : BitVec 64) (t : BitVec 8) : BitVec 64 := (s <<< 8) + t.setWidth 64

def ELF64_R_SYM : BitVec 32 := (i >>> 32).setWidth 32

def ELF64_R_TYPE : BitVec 32 := i.setWidth 32

namespace reader_t
variable (reader : reader_t)

variable (r : elf_rela_t)

def rel_info_index : BitVec 32 :=
  if reader.is_64 && !reader.is_msb && reader.is_mips then r.r_info.setWidth 32
  else if reader.is_64 then ELF64_R_SYM r.r_info
  else (ELF32_R_SYM r.r_info).setWidth 32

def rel_info_type : BitVec 32 :=
  if reader.is_64 && !reader.is_msb && reader.is_mips then swap32 ((r.r_info >>> 32).setWidth 32)
  else if reader.is_64 then ELF64_R_TYPE r.r_info
  else (ELF32_R_TYPE r.r_info).setWidth 32

/-- The constant `~0xFFFFFFFF` has 32 bits, and none of them is set. -/
def set_rel_info_index (symidx : BitVec 32) : elf_rela_t :=
  if !reader.is_64 then { r with r_info := ELF32_R_INFO (symidx.setWidth 64) (ELF32_R_TYPE r.r_info) }
  else if !reader.is_msb && reader.is_mips then
    { r with r_info := (r.r_info &&& (~~~0xFFFFFFFF#32).setWidth 64) ||| (symidx.setWidth 64 <<< 32) }
  else { r with r_info := (r.r_info &&& 0xFFFFFFFF#64) ||| symidx.setWidth 64 }

def set_rel_info_type (type : BitVec 32) : elf_rela_t :=
  if !reader.is_64 then { r with r_info := ELF32_R_INFO (ELF32_R_SYM r.r_info) (type.setWidth 8) }
  else if !reader.is_msb && reader.is_mips then
    { r with r_info := (r.r_info &&& 0xFFFFFFFF#64) ||| ((swap32 type).setWidth 64 <<< 32) }
  else { r with r_info := (r.r_info &&& (~~~0xFFFFFFFF#32).setWidth 64) ||| type.setWidth 64 }

/-- The index and the type are those of the format, which has 24 and 8 bits for them in the 32-bit class. -/
structure Fits (symidx type : BitVec 32) : Prop where
  symidx : reader.is_64 = false → symidx.toNat < 2 ^ 24
  type : reader.is_64 = false → type.toNat < 2 ^ 8

/-- What was written is read back, and the other part is as it was. -/
structure AccessorsAgree (r : elf_rela_t) (symidx type : BitVec 32) : Prop where
  new_index : reader.rel_info_index (reader.set_rel_info_index r symidx) = symidx
  old_type : reader.rel_info_type (reader.set_rel_info_index r symidx) = reader.rel_info_type r
  old_index : reader.rel_info_index (reader.set_rel_info_type r type) = reader.rel_info_index r
  new_type : reader.rel_info_type (reader.set_rel_info_type r type) = type

end reader_t

/-! ### The words of the three layouts -/

section
variable (s : BitVec 64) (t : BitVec 8)

theorem toNat_ELF32_R_INFO (hs : s.toNat < 2 ^ 56) : (ELF32_R_INFO s t).toNat = s.toNat * 256 + t.toNat := by
  have ht := t.isLt
  rw [ELF32_R_INFO, BitVec.toNat_add, BitVec.toNat_shiftLeft, BitVec.toNat_setWidth, Nat.shiftLeft_eq]
  omega

theorem ELF32_R_SYM_INFO (hs : s.toNat < 2 ^ 56) : ELF32_R_SYM (ELF32_R_INFO s t) = s := by
  have ht := t.isLt
  apply BitVec.eq_of_toNat_eq
  rw [ELF32_R_SYM, BitVec.toNat_ushiftRight, toNat_ELF32_R_INFO s t hs, Nat.shiftRight_eq_div_pow]
  omega

theorem ELF32_R_TYPE_INFO (hs : s.toNat < 2 ^ 56) : ELF32_R_TYPE (ELF32_R_INFO s t) = t := by
  have ht := t.isLt
  apply BitVec.eq_of_toNat_eq
  rw [ELF32_R_TYPE, BitVec.toNat_setWidth, toNat_ELF32_R_INFO s t hs]
  omega

end

def reader_t.mips64le (reader : reader_t) : Bool := reader.is_64 && !reader.is_msb && reader.is_mips

namespace reader_t
variable {reader : reader_t} {r : elf_rela_t} {symidx type : BitVec 32}

theorem layout_cases (reader : reader_t) :
    reader.is_64 = false ∨ (reader.is_64 = true ∧ reader.mips64le = true) ∨
      (reader.is_64 = true ∧ reader.mips64le = false) := by
  cases reader.is_64 <;> cases reader.mips64le <;> simp

section Layout32
variable (h64 : reader.is_64 = false)
include h64

theorem rel_info_index_32 : reader.rel_info_index r = (ELF32_R_SYM r.r_info).setWidth 32 := by
  simp [rel_info_index, h64]

theorem rel_info_type_32 : reader.rel_info_type r = (ELF32_R_TYPE r.r_info).setWidth 32 := by
  simp [rel_info_type, h64]

theorem set_rel_info_index_32 :
    (reader.set_rel_info_index r symidx).r_info = ELF32_R_INFO (symidx.setWidth 64) (ELF32_R_TYPE r.r_info) := by
  simp [set_rel_info_index, h64]

theorem set_rel_info_type_32 :
    (reader.set_rel_info_type r type).r_info = ELF32_R_INFO (ELF32_R_SYM r.r_info) (type.setWidth 8) := by
  simp [set_rel_info_type, h64]

theorem accessorsAgree_32 (h : reader.Fits symidx type) : reader.AccessorsAgree r symidx type := by
  have hinfo := r.r_info.isLt
  have hsym := h.symidx h64
  have htype := h.type h64
  have hnew : (symidx.setWidth 64).toNat < 2 ^ 56 := by
    rw [BitVec.toNat_setWidth]
    omega
  have hold : (ELF32_R_SYM r.r_info).toNat < 2 ^ 56 := by
    rw [ELF32_R_SYM, BitVec.toNat_ushiftRight, Nat.shiftRight_eq_div_pow]
    omega
  constructor
  · rw [rel_info_index_32 h64, set_rel_info_index_32 h64, ELF32_R_SYM_INFO _ _ hnew]
    apply BitVec.eq_of_toNat_eq
    simp only [BitVec.toNat_setWidth]
    omega
  · rw [rel_info_type_32 h64, set_rel_info_index_32 h64, ELF32_R_TYPE_INFO _ _ hnew, rel_info_type_32 h64]
  · rw [rel_info_index_32 h64, set_rel_info_type_32 h64, ELF32_R_SYM_INFO _ _ hold, rel_info_index_32 h64]
  · rw [rel_info_type_32 h64, set_rel_info_type_32 h64, ELF32_R_TYPE_INFO _ _ hold]
    apply BitVec.eq_of_toNat_eq
    simp only [BitVec.toNat_setWidth]
    omega

end Layout32

section LayoutMips
variable (hmips : reader.mips64le = true)
include hmips

theorem rel_info_index_mips : reader.rel_info_index r = lowHalf r.r_info := by
  rw [mips64le] at hmips
  simp [rel_info_index, hmips, lowHalf]

theorem rel_info_type_mips : reader.rel_info_type r = swap32 (highHalf r.r_info) := by
  rw [mips64le] at hmips
  simp [rel_info_type, hmips, highHalf]

theorem set_rel_info_index_mips : (reader.set_rel_info_index r symidx).r_info = joinHalves 0 symidx := by
  simp only [mips64le, Bool.and_eq_true] at hmips
  simp [set_rel_info_index, hmips.1.1, hmips.1.2, hmips.2, joinHalves]

theorem set_rel_info_type_mips :
    (reader.set_rel_info_type r type).r_info = joinHalves (lowHalf r.r_info) (swap32 type) := by
  simp only [mips64le, Bool.and_eq_true] at hmips
  simp [set_rel_info_type, hmips.1.1, hmips.1.2, hmips.2, joinHalves, and_lowMask]

theorem accessorsAgree_mips :
    reader.AccessorsAgree r symidx type ↔ symidx = 0 ∧ highHalf r.r_info = 0 := by
  have hindex : reader.rel_info_index (reader.set_rel_info_index r symidx) = 0 := by
    rw [rel_info_index_mips hmips, set_rel_info_index_mips hmips, lowHalf_joinHalves]
  have htype : reader.rel_info_type (reader.set_rel_info_index r symidx) = swap32 symidx := by
    rw [rel_info_type_mips hmips, set_rel_info_index_mips hmips, highHalf_joinHalves]
  constructor
  · intro h
    have hsym : symidx = 0 := h.new_index.symm.trans hindex
    have hold := h.old_type.symm.trans htype
    rw [rel_info_type_mips hmips, hsym] at hold
    exact ⟨hsym, swap32_eq_zero.1 hold⟩
  · intro h
    refine ⟨?_, ?_, ?_, ?_⟩
    · rw [hindex, h.1]
    · rw [htype, h.1, rel_info_type_mips hmips, h.2]
    · rw [rel_info_index_mips hmips, set_rel_info_type_mips hmips, lowHalf_joinHalves, rel_info_index_mips hmips]
    · rw [rel_info_type_mips hmips, set_rel_info_type_mips hmips, highHalf_joinHalves, swap32_swap32]

end LayoutMips

section Layout64
variable (h64 : reader.is_64 = true) (hmips : reader.mips64le = false)
include h64 hmips

theorem not_msb_and_mips : (!reader.is_msb && reader.is_mips) = false := by
  simpa [mips64le, h64] using hmips

theorem rel_info_index_64 : reader.rel_info_index r = highHalf r.r_info := by
  rw [mips64le] at hmips
  rw [rel_info_index, hmips, if_neg (by decide), if_pos h64]
  rfl

theorem rel_info_type_64 : reader.rel_info_type r = lowHalf r.r_info := by
  rw [mips64le] at hmips
  rw [rel_info_type, hmips, if_neg (by decide), if_pos h64]
  rfl

theorem set_rel_info_index_64 :
    (reader.set_rel_info_index r symidx).r_info = joinHalves (lowHalf r.r_info ||| symidx) 0 := by
  rw [set_rel_info_index, if_neg (by simp [h64]), not_msb_and_mips h64 hmips, if_neg (by decide), joinHalves_zero,
    BitVec.setWidth_or]
  dsimp only
  rw [and_lowMask]

theorem set_rel_info_type_64 : (reader.set_rel_info_type r type).r_info = joinHalves type 0 := by
  rw [set_rel_info_type, if_neg (by simp [h64]), not_msb_and_mips h64 hmips, if_neg (by decide), joinHalves_zero]
  simp

theorem accessorsAgree_64 :
    reader.AccessorsAgree r symidx type ↔ symidx = 0 ∧ highHalf r.r_info = 0 := by
  have hindex : reader.rel_info_index (reader.set_rel_info_index r symidx) = 0 := by
    rw [rel_info_index_64 h64 hmips, set_rel_info_index_64 h64 hmips, highHalf_joinHalves]
  have hindex' : reader.rel_info_index (reader.set_rel_info_type r type) = 0 := by
    rw [rel_info_index_64 h64 hmips, set_rel_info_type_64 h64 hmips, highHalf_joinHalves]
  constructor
  · intro h
    have hold := h.old_index.symm.trans hindex'
    rw [rel_info_index_64 h64 hmips] at hold
    exact ⟨h.new_index.symm.trans hindex, hold⟩
  · intro h
    refine ⟨?_, ?_, ?_, ?_⟩
    · rw [hindex, h.1]
    · rw [rel_info_type_64 h64 hmips, set_rel_info_index_64 h64 hmips, lowHalf_joinHalves, h.1,
        rel_info_type_64 h64 hmips]
      exact BitVec.or_zero
    · rw [hindex', rel_info_index_64 h64 hmips, h.2]
    · rw [rel_info_type_64 h64 hmips, set_rel_info_type_64 h64 hmips, lowHalf_joinHalves]

end Layout64

theorem accessorsAgree_wide (h64 : reader.is_64 = true) :
    reader.AccessorsAgree r symidx type ↔ symidx = 0 ∧ highHalf r.r_info = 0 := by
  cases hmips : reader.mips64le with
  | true => exact accessorsAgree_mips hmips
  | false => exact accessorsAgree_64 h64 hmips

theorem set_rel_info_type_fresh (r_offset : BitVec 64) (htype : reader.is_64 = false → type.toNat < 2 ^ 8) :
    reader.rel_info_type (reader.set_rel_info_type ⟨r_offset, 0, 0⟩ type) = type ∧
      reader.rel_info_index (reader.set_rel_info_type ⟨r_offset, 0, 0⟩ type) = 0 := by
  have hagree : reader.AccessorsAgree ⟨r_offset, 0, 0⟩ 0 type := by
    cases h64 : reader.is_64 with
    | false =>
      exact accessorsAgree_32 h64 ⟨fun _ => Nat.two_pow_pos 24, htype⟩
    | true => exact (accessorsAgree_wide h64).2 ⟨rfl, show highHalf 0 = 0 by decide⟩
  have hindex : reader.rel_info_index ⟨r_offset, 0, 0⟩ = 0 := by
    obtain h64 | ⟨h64, hmips⟩ | ⟨h64, hmips⟩ := layout_cases reader
    · rw [rel_info_index_32 h64]
      exact show (ELF32_R_SYM 0).setWidth 32 = 0#32 by decide
    · rw [rel_info_index_mips hmips]
      exact show lowHalf 0 = 0 by decide
    · rw [rel_info_index_64 h64 hmips]
      exact show highHalf 0 = 0 by decide
  exact ⟨hagree.new_type, hagree.old_index.trans hindex⟩

/-- Outside the 32-bit class the accessors agree only where there is no index and the high half of the word is clear. -/
theorem accessorsAgree_iff (h : reader.Fits symidx type) :
    reader.AccessorsAgree r symidx type ↔
      (reader.is_64 = true → symidx = 0 ∧ r.r_info.toNat < 2 ^ 32) := by
  rw [← highHalf_eq_zero]
  cases h64 : reader.is_64 with
  | false => exact iff_of_true (accessorsAgree_32 h64 h) (fun hwide => Bool.noConfusion hwide)
  | true => exact (accessorsAgree_wide h64).trans ⟨fun hclear _ => hclear, fun hclear => hclear rfl⟩

theorem accessorsAgree_iff_clear :
    (reader_t.mk true false 62).AccessorsAgree ⟨0, 6, 0⟩ 0 7 ↔
      ((reader_t.mk true false 62).is_64 = true → (0 : BitVec 32) = 0 ∧ (6 : BitVec 64).toNat < 2 ^ 32) :=
  accessorsAgree_iff ⟨by decide, by decide⟩

/-- On x86-64 the index that was set is read back as zero. -/
theorem set_rel_info_index_lost :
    (reader_t.mk true false 62).Fits 1 7 ∧ ¬(reader_t.mk true false 62).AccessorsAgree ⟨0, 6, 0⟩ 1 7 :=
  ⟨⟨by decide, by decide⟩, fun h => absurd h.new_index (by decide)⟩

end reader_t
end IdaSdk.Elf
