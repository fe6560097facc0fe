import IdaSdk.SnesXlat

/-!
The mappings one by one: which of them fold all mirrors of the cartridge.
-/

namespace IdaSdk.Snes

section
variable {c : SuperFamicomCartridge} {bank addr a r : Nat}

theorem SuperFamicomCartridge.ram_cases (c : SuperFamicomCartridge) (h : c.ram_size ≠ 0) :
    ∃ m, 10 ≤ m ∧ m ≤ 17 ∧ c.ram_size = 2 ^ m := by
  obtain hzero | ⟨k, hk, hk', hsize⟩ := c.ram_ok
  · exact (h hzero).elim
  · refine ⟨10 + k, by omega, by omega, ?_⟩
    rw [hsize, Nat.shiftLeft_eq, Nat.pow_add]

theorem ram_le (h : c.ram_size ≠ 0) : c.ram_size ≤ 131072 := by
  obtain ⟨m, _, hm, hsize⟩ := c.ram_cases h
  rw [hsize]
  exact Nat.pow_le_pow_right (by decide) hm

theorem and_ram_mask (h : c.ram_size ≠ 0) (x : Nat) : x &&& (c.ram_size - 1) = x % c.ram_size := by
  obtain ⟨m, _, _, hsize⟩ := c.ram_cases h
  rw [hsize]
  exact Nat.and_two_pow_sub_one_eq_mod x m

/-- The place of an address in the windows of 8 kilobytes. -/
def hiromOffset (c : SuperFamicomCartridge) (bank addr : Nat) : Nat := (bank % 32 * 8192 + (addr - 0x6000)) % c.ram_size

theorem hiromOffset_lt (h : c.ram_size ≠ 0) (bank addr : Nat) : hiromOffset c bank addr < 131072 :=
  (Nat.mod_lt _ (Nat.pos_of_ne_zero h)).trans_le (ram_le h)

theorem hiromSram_eq (h : c.ram_size ≠ 0) (base bank addr : Nat) :
    hiromSram c base bank addr =
      ea (base + hiromOffset c bank addr / 8192) (0x6000 + hiromOffset c bank addr % 8192) := by
  have hbank : bank &&& 0x1f = bank % 32 := Nat.and_two_pow_sub_one_eq_mod bank 5
  have hlow (x : Nat) : x &&& 0x1fff = x % 8192 := Nat.and_two_pow_sub_one_eq_mod x 13
  rw [hiromSram, and_ram_mask h, hbank, hlow, Nat.shiftRight_eq_div_pow, Nat.shiftLeft_eq (bank % 32), hiromOffset, ea]

theorem hiromOffset_again (h : c.ram_size ≠ 0) {base : Nat} (hbase : base % 32 = 0) :
    hiromOffset c (base + hiromOffset c bank addr / 8192) (0x6000 + hiromOffset c bank addr % 8192) =
      hiromOffset c bank addr := by
  have hlt := hiromOffset_lt h bank addr
  have hsize : hiromOffset c bank addr % c.ram_size = hiromOffset c bank addr := Nat.mod_mod ..
  have hparts : (base + hiromOffset c bank addr / 8192) % 32 * 8192 +
      (0x6000 + hiromOffset c bank addr % 8192 - 0x6000) = hiromOffset c bank addr := by omega
  rw [hiromOffset, hparts, hsize]

theorem rom_ea (bank addr : Nat) : ((0xc0 + (bank &&& 0x3f)) <<< 16) + addr = ea (0xc0 + bank % 64) addr := by
  rw [show bank &&& 0x3f = bank % 64 from Nat.and_two_pow_sub_one_eq_mod bank 6, ea]

theorem rom_ea_mirror (bank addr : Nat) :
    ((0xc0 + ((bank + 0x80) &&& 0x3f)) <<< 16) + addr = ea (0xc0 + bank % 64) addr := by
  rw [rom_ea, show (bank + 0x80) % 64 = bank % 64 by omega]

theorem hirom_ea (c : SuperFamicomCartridge) (hb : bank < 256) (ha : addr < 65536) :
    xlat_hirom c (ea bank addr) =
      if c.ram_size ≠ 0 ∧ ((bank ≥ 0x10 ∧ bank ≤ 0x3f) ∨ (bank ≥ 0x90 ∧ bank ≤ 0xbf)) ∧ addr ≥ 0x6000 ∧ addr ≤ 0x7fff then
        some (hiromSram c 0x20 bank addr)
      else if bank ≤ 0x7d then
        if bank + 0x80 ≥ 0xc0 then some (ea (bank + 0x80) addr)
        else if addr ≥ 0x8000 then some (ea (0xc0 + bank % 64) addr) else none
      else if bank ≥ 0xc0 then some (ea bank addr)
      else if addr ≥ 0x8000 then some (ea (0xc0 + bank % 64) addr)
      else none := by
  rw [xlat_hirom, bankOf_ea hb ha, addrOf_ea ha]
  by_cases hlow : bank ≤ 0x7d
  · simp only [if_pos hlow, ea_add, rom_ea_mirror]
  · simp only [if_neg hlow, rom_ea]

theorem hirom_sram (hr : c.ram_size ≠ 0) (hb : (0x10 ≤ bank ∧ bank ≤ 0x3f) ∨ (0x90 ≤ bank ∧ bank ≤ 0xbf))
    (ha : 0x6000 ≤ addr ∧ addr ≤ 0x7fff) :
    xlat_hirom c (ea bank addr) = some (hiromSram c 0x20 bank addr) := by
  rw [hirom_ea c (by omega) (by omega), if_pos ⟨hr, hb, ha⟩]

theorem hirom_low (c : SuperFamicomCartridge) (hb : 0x40 ≤ bank ∧ bank ≤ 0x7d) (ha : addr < 65536) :
    xlat_hirom c (ea bank addr) = some (ea (bank + 0x80) addr) := by
  rw [hirom_ea c (by omega) ha, if_neg (by omega), if_pos hb.2, if_pos (by omega)]

theorem hirom_high (c : SuperFamicomCartridge) (hb : 0xc0 ≤ bank ∧ bank < 256) (ha : addr < 65536) :
    xlat_hirom c (ea bank addr) = some (ea bank addr) := by
  rw [hirom_ea c hb.2 ha, if_neg (by omega), if_neg (by omega), if_pos hb.1]

theorem hirom_rom (c : SuperFamicomCartridge) (hb : bank ≤ 0x3f ∨ (0x80 ≤ bank ∧ bank ≤ 0xbf))
    (ha : 0x8000 ≤ addr ∧ addr < 65536) : xlat_hirom c (ea bank addr) = some (ea (0xc0 + bank % 64) addr) := by
  rw [hirom_ea c (by omega) ha.2, if_neg (by omega)]
  by_cases hlow : bank ≤ 0x7d
  · rw [if_pos hlow, if_neg (by omega), if_pos ha.1]
  · rw [if_neg hlow, if_neg (by omega), if_pos ha.1]

theorem hirom_none (hb : bank ≤ 0x3f ∨ (0x80 ≤ bank ∧ bank ≤ 0xbf)) (ha : addr < 0x8000)
    (h : ¬(c.ram_size ≠ 0 ∧ ((0x10 ≤ bank ∧ bank ≤ 0x3f) ∨ (0x90 ≤ bank ∧ bank ≤ 0xbf)) ∧ 0x6000 ≤ addr)) :
    xlat_hirom c (ea bank addr) = none := by
  rw [hirom_ea c (by omega) (by omega), if_neg (by omega)]
  by_cases hlow : bank ≤ 0x7d
  · rw [if_pos hlow, if_neg (by omega), if_neg (by omega)]
  · rw [if_neg hlow, if_neg (by omega), if_neg (by omega)]

theorem hirom_settles (c : SuperFamicomCartridge) : Settles (xlat_hirom c) := by
  constructor
  · intro bank addr r hb ha hw hw' h
    by_cases hquarter : bank ≤ 0x3f ∨ (0x80 ≤ bank ∧ bank ≤ 0xbf)
    · by_cases haddr : addr < 0x8000
      · by_cases hsram : c.ram_size ≠ 0 ∧ ((0x10 ≤ bank ∧ bank ≤ 0x3f) ∨ (0x90 ≤ bank ∧ bank ≤ 0xbf)) ∧ 0x6000 ≤ addr
        · obtain ⟨hr, hbank, hfirst⟩ := hsram
          rw [hirom_sram hr hbank ⟨hfirst, by omega⟩, hiromSram_eq hr] at h
          obtain rfl := Option.some.inj h
          have hlt := hiromOffset_lt hr bank addr
          refine ⟨ea_lt (by omega) (by omega), Or.inr ⟨system_none (by omega) (by omega) (by omega) ?_, ?_⟩⟩
          · rw [SystemAddr]
            omega
          · rw [hirom_sram hr (by omega) (by omega), hiromSram_eq hr, hiromOffset_again hr (by decide)]
        · cases (hirom_none hquarter haddr hsram).symm.trans h
      · rw [hirom_rom c hquarter ⟨by omega, ha⟩] at h
        obtain rfl := Option.some.inj h
        exact ⟨ea_lt (by omega) ha, Or.inr ⟨system_none (by omega) ha (by omega) (by omega), hirom_high c (by omega) ha⟩⟩
    · by_cases hlow : bank ≤ 0x7d
      · rw [hirom_low c (by omega) ha] at h
        obtain rfl := Option.some.inj h
        exact ⟨ea_lt (by omega) ha, Or.inr ⟨system_none (by omega) ha (by omega) (by omega), hirom_high c (by omega) ha⟩⟩
      · have hhigh : xlat_hirom c (ea bank addr) = some (ea bank addr) := hirom_high c (by omega) ha
        obtain rfl := Option.some.inj (hhigh.symm.trans h)
        exact ⟨ea_lt hb ha, Or.inr ⟨system_none hb ha (by omega) (by omega), hhigh⟩⟩
  · intro addr hclock
    rw [ClockAddr] at hclock
    exact hirom_none (by omega) (by omega) (by omega)

theorem spc7110_ea (c : SuperFamicomCartridge) (hb : bank < 256) (ha : addr < 65536) :
    xlat_spc7110 c (ea bank addr) =
      if c.ram_size ≠ 0 ∧ (bank ≤ 0x3f ∨ (bank ≥ 0x80 ∧ bank ≤ 0xbf)) ∧ addr ≥ 0x6000 ∧ addr ≤ 0x7fff then
        some (hiromSram c 0 bank addr)
      else if bank ≥ 0x50 ∧ bank ≤ 0x5f then some (ea bank addr)
      else if bank ≤ 0x7d then
        if bank + 0x80 ≥ 0xc0 then some (ea (bank + 0x80) addr)
        else if addr ≥ 0x8000 then some (ea (0xc0 + bank % 64) addr)
        else if addr ≥ 0x4800 ∧ addr ≤ 0x483f then some (ea 0 addr) else none
      else if bank ≥ 0xc0 then some (ea bank addr)
      else if addr ≥ 0x8000 then some (ea (0xc0 + bank % 64) addr)
      else if addr ≥ 0x4800 ∧ addr ≤ 0x483f then some (ea 0 addr)
      else none := by
  rw [xlat_spc7110, bankOf_ea hb ha, addrOf_ea ha, ← ea_zero]
  by_cases hlow : bank ≤ 0x7d
  · simp only [if_pos hlow, ea_add, rom_ea_mirror]
  · simp only [if_neg hlow, rom_ea]

theorem spc7110_sram (hr : c.ram_size ≠ 0) (hb : bank ≤ 0x3f ∨ (0x80 ≤ bank ∧ bank ≤ 0xbf))
    (ha : 0x6000 ≤ addr ∧ addr ≤ 0x7fff) : xlat_spc7110 c (ea bank addr) = some (hiromSram c 0 bank addr) := by
  rw [spc7110_ea c (by omega) (by omega), if_pos ⟨hr, hb, ha⟩]

theorem spc7110_unpacked (c : SuperFamicomCartridge) (hb : 0x50 ≤ bank ∧ bank ≤ 0x5f) (ha : addr < 65536) :
    xlat_spc7110 c (ea bank addr) = some (ea bank addr) := by
  rw [spc7110_ea c (by omega) ha, if_neg (by omega), if_pos hb]

theorem spc7110_low (c : SuperFamicomCartridge) (hb : (0x40 ≤ bank ∧ bank < 0x50) ∨ (0x60 ≤ bank ∧ bank ≤ 0x7d))
    (ha : addr < 65536) : xlat_spc7110 c (ea bank addr) = some (ea (bank + 0x80) addr) := by
  rw [spc7110_ea c (by omega) ha, if_neg (by omega), if_neg (by omega), if_pos (by omega), if_pos (by omega)]

theorem spc7110_high (c : SuperFamicomCartridge) (hb : 0xc0 ≤ bank ∧ bank < 256) (ha : addr < 65536) :
    xlat_spc7110 c (ea bank addr) = some (ea bank addr) := by
  rw [spc7110_ea c hb.2 ha, if_neg (by omega), if_neg (by omega), if_neg (by omega), if_pos hb.1]

theorem spc7110_rom (c : SuperFamicomCartridge) (hb : bank ≤ 0x3f ∨ (0x80 ≤ bank ∧ bank ≤ 0xbf))
    (ha : 0x8000 ≤ addr ∧ addr < 65536) : xlat_spc7110 c (ea bank addr) = some (ea (0xc0 + bank % 64) addr) := by
  rw [spc7110_ea c (by omega) ha.2, if_neg (by omega), if_neg (by omega)]
  by_cases hlow : bank ≤ 0x7d
  · rw [if_pos hlow, if_neg (by omega), if_pos ha.1]
  · rw [if_neg hlow, if_neg (by omega), if_pos ha.1]

theorem spc7110_regs (c : SuperFamicomCartridge) (hb : bank ≤ 0x3f ∨ (0x80 ≤ bank ∧ bank ≤ 0xbf))
    (ha : 0x4800 ≤ addr ∧ addr ≤ 0x483f) : xlat_spc7110 c (ea bank addr) = some (ea 0 addr) := by
  rw [spc7110_ea c (by omega) (by omega), if_neg (by omega), if_neg (by omega)]
  by_cases hlow : bank ≤ 0x7d
  · rw [if_pos hlow, if_neg (by omega), if_neg (by omega), if_pos ha]
  · rw [if_neg hlow, if_neg (by omega), if_neg (by omega), if_pos ha]

theorem spc7110_none (hb : bank ≤ 0x3f ∨ (0x80 ≤ bank ∧ bank ≤ 0xbf)) (ha : addr < 0x8000)
    (hregs : ¬(0x4800 ≤ addr ∧ addr ≤ 0x483f)) (h : ¬(c.ram_size ≠ 0 ∧ 0x6000 ≤ addr)) :
    xlat_spc7110 c (ea bank addr) = none := by
  rw [spc7110_ea c (by omega) (by omega), if_neg (by omega), if_neg (by omega)]
  by_cases hlow : bank ≤ 0x7d
  · rw [if_pos hlow, if_neg (by omega), if_neg (by omega), if_neg hregs]
  · rw [if_neg hlow, if_neg (by omega), if_neg (by omega), if_neg hregs]

theorem spc7110_settles (c : SuperFamicomCartridge) : Settles (xlat_spc7110 c) := by
  constructor
  · intro bank addr r hb ha hw hw' h
    by_cases hquarter : bank ≤ 0x3f ∨ (0x80 ≤ bank ∧ bank ≤ 0xbf)
    · by_cases hrom : 0x8000 ≤ addr
      · rw [spc7110_rom c hquarter ⟨hrom, ha⟩] at h
        obtain rfl := Option.some.inj h
        exact ⟨ea_lt (by omega) ha,
          Or.inr ⟨system_none (by omega) ha (by omega) (by omega), spc7110_high c (by omega) ha⟩⟩
      by_cases hregs : 0x4800 ≤ addr ∧ addr ≤ 0x483f
      · rw [spc7110_regs c hquarter hregs] at h
        obtain rfl := Option.some.inj h
        refine ⟨ea_lt (by decide) ha, Or.inr ⟨system_none (by decide) ha (by decide) ?_, spc7110_regs c (by decide) hregs⟩⟩
        rw [SystemAddr]
        omega
      by_cases hsram : c.ram_size ≠ 0 ∧ 0x6000 ≤ addr
      · rw [spc7110_sram hsram.1 hquarter ⟨hsram.2, by omega⟩, hiromSram_eq hsram.1] at h
        obtain rfl := Option.some.inj h
        have hlt := hiromOffset_lt hsram.1 bank addr
        refine ⟨ea_lt (by omega) (by omega), Or.inr ⟨system_none (by omega) (by omega) (by omega) ?_, ?_⟩⟩
        · rw [SystemAddr]
          omega
        · rw [spc7110_sram hsram.1 (by omega) (by omega), hiromSram_eq hsram.1, hiromOffset_again hsram.1 (by decide)]
      · cases (spc7110_none hquarter (by omega) hregs hsram).symm.trans h
    by_cases hunpacked : 0x50 ≤ bank ∧ bank ≤ 0x5f
    · have hself : xlat_spc7110 c (ea bank addr) = some (ea bank addr) := spc7110_unpacked c hunpacked ha
      obtain rfl := Option.some.inj (hself.symm.trans h)
      exact ⟨ea_lt hb ha, Or.inr ⟨system_none hb ha (by omega) (by omega), hself⟩⟩
    by_cases hlow : bank ≤ 0x7d
    · rw [spc7110_low c (by omega) ha] at h
      obtain rfl := Option.some.inj h
      exact ⟨ea_lt (by omega) ha,
        Or.inr ⟨system_none (by omega) ha (by omega) (by omega), spc7110_high c (by omega) ha⟩⟩
    · have hself : xlat_spc7110 c (ea bank addr) = some (ea bank addr) := spc7110_high c (by omega) ha
      obtain rfl := Option.some.inj (hself.symm.trans h)
      exact ⟨ea_lt hb ha, Or.inr ⟨system_none hb ha (by omega) (by omega), hself⟩⟩
  · intro addr hclock
    rw [ClockAddr] at hclock
    exact spc7110_none (by omega) (by omega) (by omega) (by omega)

/-! ### Cartridges without save RAM -/

theorem or_0x80 (hb : bank ≤ 0x3f ∨ (0x80 ≤ bank ∧ bank ≤ 0xbf)) : bank ||| 0x80 = 0x80 + bank % 64 := by
  have h : ∀ b : Fin 256, (b.val ≤ 0x3f ∨ (0x80 ≤ b.val ∧ b.val ≤ 0xbf)) → b.val ||| 0x80 = 0x80 + b.val % 64 := by
    decide +kernel
  exact h ⟨bank, by omega⟩ hb

theorem sdd1_ea (hr : c.ram_size = 0) (hb : bank < 256) (ha : addr < 65536) :
    xlat_sdd1 c (ea bank addr) =
      if bank ≤ 0x3f ∨ (bank ≥ 0x80 ∧ bank ≤ 0xbf) then
        if addr ≥ 0x8000 then some (ea (0x80 + bank % 64) addr)
        else if addr ≥ 0x4800 ∧ addr ≤ 0x4807 then some (ea 0 addr) else none
      else if bank ≥ 0xc0 then some (ea bank addr)
      else none := by
  rw [xlat_sdd1, bankOf_ea hb ha, addrOf_ea ha, ← ea_zero, if_neg (fun h => h.1 hr), if_neg (fun h => h.1 hr)]
  by_cases hquarter : bank ≤ 0x3f ∨ (bank ≥ 0x80 ∧ bank ≤ 0xbf)
  · rw [if_pos hquarter, if_pos hquarter, or_0x80 hquarter, ea]
  · rw [if_neg hquarter, if_neg hquarter]

theorem exlorom_ea (hr : c.ram_size = 0) (hb : bank < 256) (ha : addr < 65536) :
    xlat_exlorom c (ea bank addr) =
      if bank ≤ 0x3f ∨ (bank ≥ 0x80 ∧ bank ≤ 0xbf) then
        if addr ≥ 0x8000 then some (ea (0x80 + bank % 64) addr) else none
      else if bank ≤ 0x7f then some (ea bank addr)
      else none := by
  rw [xlat_exlorom, bankOf_ea hb ha, addrOf_ea ha, if_neg (fun h => h.1 hr), if_neg (fun h => h.1 hr)]
  by_cases hquarter : bank ≤ 0x3f ∨ (bank ≥ 0x80 ∧ bank ≤ 0xbf)
  · rw [if_pos hquarter, if_pos hquarter, or_0x80 hquarter, ea]
  · rw [if_neg hquarter, if_neg hquarter]

theorem exhirom_ea (hr : c.ram_size = 0) (hb : bank < 256) (ha : addr < 65536) :
    xlat_exhirom c (ea bank addr) =
      if bank ≥ 0xc0 then some (ea bank addr)
      else if bank ≥ 0x80 then if addr ≥ 0x8000 then some (ea (bank + 0x40) addr) else none
      else if bank ≥ 0x40 then some (ea bank addr)
      else if addr ≥ 0x8000 then some (ea (bank + 0x40) addr)
      else none := by
  rw [xlat_exhirom, bankOf_ea hb ha, addrOf_ea ha, if_neg (fun h => h.1 hr), if_neg (fun h => h.1 hr)]
  rfl

theorem self_settled {f : Nat → Option Nat} (hb : bank < 256) (ha : addr < 65536) (hw : bank ≠ 0x7e ∧ bank ≠ 0x7f)
    (h : (0x40 ≤ bank ∧ bank < 0x80) ∨ 0xc0 ≤ bank ∨ ¬SystemAddr addr) (hf : f (ea bank addr) = some (ea bank addr)) :
    ea bank addr < 2 ^ 24 ∧ (xlat_system (ea bank addr) = some (ea bank addr) ∨
      (xlat_system (ea bank addr) = none ∧ f (ea bank addr) = some (ea bank addr))) :=
  ⟨ea_lt hb ha, Or.inr ⟨system_none hb ha hw h, hf⟩⟩

theorem high_not_system (h : 0x8000 ≤ addr) : ¬SystemAddr addr := by
  rw [SystemAddr]
  omega

theorem sdd1_settles (hr : c.ram_size = 0) : Settles (xlat_sdd1 c) := by
  constructor
  · intro bank addr r hb ha hw hw' h
    rw [sdd1_ea hr hb ha] at h
    split_ifs at h with hquarter hrom hregs hhigh
    · obtain rfl := Option.some.inj h
      refine self_settled (by omega) ha (by omega) (Or.inr (Or.inr (high_not_system hrom))) ?_
      rw [sdd1_ea hr (by omega) ha, if_pos (by omega), if_pos hrom, show (0x80 + bank % 64) % 64 = bank % 64 by omega]
    · obtain rfl := Option.some.inj h
      refine self_settled (by decide) ha (by decide) (Or.inr (Or.inr ?_)) ?_
      · rw [SystemAddr]
        omega
      · rw [sdd1_ea hr (by decide) ha, if_pos (by decide), if_neg hrom, if_pos hregs]
    · obtain rfl := Option.some.inj h
      refine self_settled hb ha (by omega) (by omega) ?_
      rw [sdd1_ea hr hb ha, if_neg hquarter, if_pos hhigh]
  · intro addr hclock
    rw [ClockAddr] at hclock
    rw [sdd1_ea hr (by decide) (by omega), if_pos (by decide), if_neg (by omega), if_neg (by omega)]

theorem exlorom_settles (hr : c.ram_size = 0) : Settles (xlat_exlorom c) := by
  constructor
  · intro bank addr r hb ha hw hw' h
    rw [exlorom_ea hr hb ha] at h
    split_ifs at h with hquarter hrom hlow
    · obtain rfl := Option.some.inj h
      refine self_settled (by omega) ha (by omega) (Or.inr (Or.inr (high_not_system hrom))) ?_
      rw [exlorom_ea hr (by omega) ha, if_pos (by omega), if_pos hrom, show (0x80 + bank % 64) % 64 = bank % 64 by omega]
    · obtain rfl := Option.some.inj h
      refine self_settled hb ha (by omega) (by omega) ?_
      rw [exlorom_ea hr hb ha, if_neg hquarter, if_pos hlow]
  · intro addr hclock
    rw [ClockAddr] at hclock
    rw [exlorom_ea hr (by decide) (by omega), if_pos (by decide), if_neg (by omega)]

theorem exhirom_settles (hr : c.ram_size = 0) : Settles (xlat_exhirom c) := by
  constructor
  · intro bank addr r hb ha hw hw' h
    rw [exhirom_ea hr hb ha] at h
    split_ifs at h with hhigh hmiddle hrom hlow hrom
    · obtain rfl := Option.some.inj h
      refine self_settled hb ha (by omega) (by omega) ?_
      rw [exhirom_ea hr hb ha, if_pos hhigh]
    · obtain rfl := Option.some.inj h
      refine self_settled (by omega) ha (by omega) (by omega) ?_
      rw [exhirom_ea hr (by omega) ha, if_pos (by omega)]
    · obtain rfl := Option.some.inj h
      refine self_settled hb ha (by omega) (by omega) ?_
      rw [exhirom_ea hr hb ha, if_neg hhigh, if_neg hmiddle, if_pos hlow]
    -- the upper banks of this ROM are behind the work RAM
    obtain rfl := Option.some.inj h
    by_cases hwram : bank + 0x40 = 0x7e ∨ bank + 0x40 = 0x7f
    · exact ⟨ea_lt (by omega) ha, Or.inl (system_wram ha hwram)⟩
    · refine self_settled (by omega) ha (by omega) (by omega) ?_
      rw [exhirom_ea hr (by omega) ha, if_neg (by omega), if_neg (by omega), if_pos (by omega)]
  · intro addr hclock
    rw [ClockAddr] at hclock
    rw [exhirom_ea hr (by decide) (by omega), if_neg (by decide), if_neg (by decide), if_neg (by decide),
      if_neg (by omega)]

variable {l : MapLine}

theorem mem_lines : l ∈ c.lines ↔ l ∈ c.mapping.ownLines ∨ (c.ram_size ≠ 0 ∧ l ∈ c.mapping.saveLines) ∨
    (c.has_st01x = true ∧ l = st01xLine) := by
  rw [SuperFamicomCartridge.lines, List.mem_append, List.mem_append]
  refine or_congr Iff.rfl (or_congr ?_ ?_)
  · split_ifs with h
    · exact ⟨nofun, fun hl => (hl.1 h).elim⟩
    · exact (and_iff_right h).symm
  · split_ifs with h
    · rw [List.mem_singleton, and_iff_right h]
    · exact ⟨nofun, fun hl => (h hl.1).elim⟩

theorem own_not_save {m : Mapping} {banks chunk : Nat} (hl : l ∈ m.ownLines) :
    l.memory ≠ .save banks chunk := by
  have hall : ∀ l ∈ m.ownLines, l.memory = .own := by
    cases m with
    | cx4 => decide
    | sdd1 => decide
    | mapper m => cases m <;> decide
  rw [hall l hl]
  exact nofun

theorem save_line {banks chunk : Nat} (hl : l ∈ c.lines) (hm : l.memory = .save banks chunk) :
    c.ram_size ≠ 0 ∧ l ∈ c.mapping.saveLines := by
  obtain hown | hsave | ⟨_, rfl⟩ := mem_lines.1 hl
  · exact (own_not_save hown hm).elim
  · exact hsave
  · cases hm

theorem has_two {m : Memory} {p q p' q' f e : Nat} (h : (⟨m, [(p, q), (p', q')], f, e⟩ : MapLine).Has bank addr) :
    ((p ≤ bank ∧ bank ≤ q) ∨ (p' ≤ bank ∧ bank ≤ q')) ∧ (f ≤ addr ∧ addr ≤ e) ∧ bank ≠ 0x7e ∧ bank ≠ 0x7f := by
  refine ⟨?_, h.inAddrs, h.notWram⟩
  obtain ⟨range, hrange, hbank⟩ := h.inBanks
  obtain rfl | hrange := List.mem_cons.1 hrange
  · exact Or.inl hbank
  · obtain rfl := List.mem_singleton.1 hrange
    exact Or.inr hbank

theorem has_one {m : Memory} {p q f e : Nat} (h : (⟨m, [(p, q)], f, e⟩ : MapLine).Has bank addr) :
    p ≤ bank ∧ bank ≤ q := by
  obtain ⟨range, hrange, hbank⟩ := h.inBanks
  obtain rfl := List.mem_singleton.1 hrange
  exact hbank

/-- The mapping of the cartridge. -/
structure Uses (c : SuperFamicomCartridge) (f : Nat → Option Nat) : Prop where
  eq : ∀ a, c.mapping.xlat c a = f a

theorem Uses.of_mapping {m : Mapping} (hmap : c.mapping = m) : Uses c (m.xlat c) := ⟨fun a => by rw [hmap]⟩

variable {f : Nat → Option Nat}

theorem Uses.xlat_eq (hf : Uses c f) (hb : bank < 256) (ha : addr < 65536) (hw : bank ≠ 0x7e ∧ bank ≠ 0x7f)
    (h : (0x40 ≤ bank ∧ bank < 0x80) ∨ 0xc0 ≤ bank ∨ ¬SystemAddr addr) (hr : f (ea bank addr) = some r) :
    xlat c (ea bank addr) = r :=
  xlat_of_mapping (system_none hb ha hw h) ((hf.eq _).trans hr)

theorem canonicalizes_of (hf : Uses c f) (hsettles : Settles f)
    (hbank : ∀ l ∈ c.lines, ∀ bank addr, l.Has bank addr → l.Has (bank + 0x80) addr →
      xlat c (ea bank addr) = xlat c (ea (bank + 0x80) addr))
    (hsave : c.ram_size ≠ 0 → ∀ l ∈ c.mapping.saveLines, ∀ l' ∈ c.mapping.saveLines, ∀ banks chunk banks' chunk',
      l.memory = .save banks chunk → l'.memory = .save banks' chunk' →
      ∀ bank addr bank' addr', l.Has bank addr → l'.Has bank' addr' →
        saveOffset banks chunk l bank addr % c.ram_size = saveOffset banks' chunk' l' bank' addr' % c.ram_size →
        xlat c (ea bank addr) = xlat c (ea bank' addr')) : Canonicalizes c := by
  have hxlat : Settles fun a => c.mapping.xlat c a := by
    rw [show (fun a => c.mapping.xlat c a) = f from funext hf.eq]
    exact hsettles
  refine ⟨fun a ha => (xlat_settled hxlat ha).2, fun a ha => (xlat_settled hxlat ha).1, fun a b _ _ hmirror => ?_⟩
  cases hmirror with
  | system hb ha => rw [xlat_of_system (system_ram hb ha), xlat_of_system (system_wram (by omega) (Or.inl rfl))]
  | bank hl h h' => exact hbank _ hl _ _ h h'
  | save hl hl' hm hm' h h' hoffset =>
      have hline := save_line hl hm
      exact hsave hline.1 _ hline.2 _ (save_line hl' hm').2 _ _ _ _ hm hm' _ _ _ _ h h' hoffset

theorem hiromOffset_eq (hl : l.first = 0x6000) (ha : 0x6000 ≤ addr ∧ addr ≤ 0x7fff) :
    saveOffset 32 0x2000 l bank addr % c.ram_size = hiromOffset c bank addr := by
  rw [saveOffset, hl, hiromOffset, Nat.mod_eq_of_lt (show addr - 0x6000 < 0x2000 by omega)]

theorem hiromSram_congr (hr : c.ram_size ≠ 0) {bank' addr' : Nat} (base : Nat)
    (h : hiromOffset c bank addr = hiromOffset c bank' addr') :
    hiromSram c base bank addr = hiromSram c base bank' addr' := by
  rw [hiromSram_eq hr, hiromSram_eq hr, h]

theorem hiromOffset_mirror (c : SuperFamicomCartridge) (bank addr : Nat) :
    hiromOffset c (bank + 0x80) addr = hiromOffset c bank addr := by
  rw [hiromOffset, hiromOffset, show (bank + 0x80) % 32 = bank % 32 by omega]

theorem sram_not_system (h : 0x6000 ≤ addr) : ¬SystemAddr addr := by
  rw [SystemAddr]
  omega

theorem hirom_canonicalizes (hmap : c.mapping = .mapper .HiROM) : Canonicalizes c := by
  have hf : Uses c (xlat_hirom c) := .of_mapping hmap
  have hsram {bank addr : Nat} (hr : c.ram_size ≠ 0) (hb : (0x10 ≤ bank ∧ bank ≤ 0x3f) ∨ (0x90 ≤ bank ∧ bank ≤ 0xbf))
      (ha : 0x6000 ≤ addr ∧ addr ≤ 0x7fff) : xlat c (ea bank addr) = hiromSram c 0x20 bank addr :=
    hf.xlat_eq (by omega) (by omega) (by omega) (Or.inr (Or.inr (sram_not_system ha.1))) (hirom_sram hr hb ha)
  have hupper {bank addr : Nat} (hb : 0x40 ≤ bank ∧ bank ≤ 0x7d) (ha : addr < 65536) :
      xlat c (ea bank addr) = xlat c (ea (bank + 0x80) addr) := by
    rw [hf.xlat_eq (by omega) ha (by omega) (by omega) (hirom_low c hb ha),
      hf.xlat_eq (by omega) ha (by omega) (by omega) (hirom_high c (by omega) ha)]
  refine canonicalizes_of hf (hirom_settles c) (fun l hl bank addr h h' => ?_) fun hr l hl l' hl' => ?_
  · rw [mem_lines, hmap] at hl
    obtain hown | ⟨hr, hsave⟩ | ⟨_, rfl⟩ := hl
    · obtain rfl | hown := List.mem_cons.1 hown
      · have hb := has_two h
        have hb' := has_two h'
        rw [hf.xlat_eq (by omega) (by omega) (by omega) (by rw [SystemAddr]; omega) (hirom_rom c (by omega) (by omega)),
          hf.xlat_eq (by omega) (by omega) (by omega) (by rw [SystemAddr]; omega) (hirom_rom c (by omega) (by omega)),
          show (bank + 0x80) % 64 = bank % 64 by omega]
      · obtain rfl := List.mem_singleton.1 hown
        have hb := has_two h
        have hb' := has_two h'
        exact hupper (by omega) (by omega)
    · obtain rfl := List.mem_singleton.1 hsave
      have hb := has_two h
      have hb' := has_two h'
      rw [hsram hr hb.1 hb.2.1, hsram hr hb'.1 hb'.2.1]
      exact hiromSram_congr hr 0x20 (hiromOffset_mirror c bank addr).symm
    · have hb := has_two h
      have hb' := has_two h'
      exact hupper (by omega) (by omega)
  · rw [hmap] at hl hl'
    obtain rfl := List.mem_singleton.1 hl
    obtain rfl := List.mem_singleton.1 hl'
    intro banks chunk banks' chunk' hm hm' bank addr bank' addr' h h' hoffset
    cases hm
    cases hm'
    have hb := has_two h
    have hb' := has_two h'
    rw [hsram hr hb.1 hb.2.1, hsram hr hb'.1 hb'.2.1]
    rw [hiromOffset_eq rfl hb.2.1, hiromOffset_eq rfl hb'.2.1] at hoffset
    exact hiromSram_congr hr 0x20 hoffset

end

end IdaSdk.Snes
