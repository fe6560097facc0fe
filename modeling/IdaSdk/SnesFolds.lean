import IdaSdk.SnesMirrors

/-!
The cartridges with one address for each memory cell, and two addresses of one cell for all the others.
-/

namespace IdaSdk.Snes

section
variable {c : SuperFamicomCartridge} {f : Nat → Option Nat} {bank addr a b r : Nat}

/-! ### Mappings that fold their mirrors -/

theorem spc7110_canonicalizes (hmap : c.mapping = .mapper .SPC7110ROM) : Canonicalizes c := by
  have hf : Uses c (xlat_spc7110 c) := .of_mapping hmap
  have hsram {bank addr : Nat} (hr : c.ram_size ≠ 0) (hb : bank ≤ 0x3f ∨ (0x80 ≤ bank ∧ bank ≤ 0xbf))
      (ha : 0x6000 ≤ addr ∧ addr ≤ 0x7fff) : xlat c (ea bank addr) = hiromSram c 0 bank addr :=
    hf.xlat_eq (by omega) (by omega) (by omega) (Or.inr (Or.inr (sram_not_system ha.1))) (spc7110_sram hr hb ha)
  refine canonicalizes_of hf (spc7110_settles c) (fun l hl bank addr h h' => ?_) fun hr l hl l' hl' => ?_
  · rw [mem_lines, hmap] at hl
    obtain hown | ⟨hr, hsave⟩ | ⟨_, rfl⟩ := hl
    · obtain rfl | hown := List.mem_cons.1 hown
      · have hb := has_two h
        have hb' := has_two h'
        have hhigh := high_not_system hb.2.1.1
        rw [hf.xlat_eq (by omega) (by omega) hb.2.2 (Or.inr (Or.inr hhigh)) (spc7110_rom c (by omega) (by omega)),
          hf.xlat_eq (by omega) (by omega) hb'.2.2 (Or.inr (Or.inr hhigh)) (spc7110_rom c (by omega) (by omega)),
          show (bank + 0x80) % 64 = bank % 64 by omega]
      · -- the banks c0-ff have no banks above them
        obtain rfl := List.mem_singleton.1 hown
        have hb := has_one h
        have hb' := has_one h'
        omega
    · obtain rfl := List.mem_singleton.1 hsave
      have hb := has_two h
      have hb' := has_two h'
      rw [hsram hr (by omega) hb.2.1, hsram hr (by omega) hb'.2.1]
      exact hiromSram_congr hr 0 (hiromOffset_mirror c bank addr).symm
    · have hb := has_two h
      have hb' := has_two h'
      rw [hf.xlat_eq (by omega) (by omega) hb.2.2 (by omega) (spc7110_low c (by omega) (by omega)),
        hf.xlat_eq (by omega) (by omega) hb'.2.2 (by omega) (spc7110_high c (by omega) (by omega))]
  · rw [hmap] at hl hl'
    obtain rfl := List.mem_singleton.1 hl
    obtain rfl := List.mem_singleton.1 hl'
    intro banks chunk banks' chunk' hm hm' bank addr bank' addr' h h' hoffset
    cases hm
    cases hm'
    have hb := has_two h
    have hb' := has_two h'
    rw [hsram hr (by omega) hb.2.1, hsram hr (by omega) hb'.2.1]
    rw [hiromOffset_eq rfl hb.2.1, hiromOffset_eq rfl hb'.2.1] at hoffset
    exact hiromSram_congr hr 0 hoffset

theorem canonicalizes_of_own (hf : Uses c f) (hsettles : Settles f) (hr : c.ram_size = 0) (hst : c.has_st01x = false)
    (hbank : ∀ l ∈ c.mapping.ownLines, ∀ bank addr, l.Has bank addr → l.Has (bank + 0x80) addr →
      xlat c (ea bank addr) = xlat c (ea (bank + 0x80) addr)) : Canonicalizes c := by
  refine canonicalizes_of hf hsettles (fun l hl => ?_) fun hr' => (hr' hr).elim
  obtain hown | ⟨hr', _⟩ | ⟨hst', _⟩ := mem_lines.1 hl
  · exact hbank l hown
  · exact (hr' hr).elim
  · cases hst.symm.trans hst'

theorem quarter_mirror (hf : Uses c f) {m : Memory}
    (hrom : ∀ bank, bank ≤ 0x3f ∨ (0x80 ≤ bank ∧ bank ≤ 0xbf) → ∀ addr, 0x8000 ≤ addr → addr < 65536 →
      f (ea bank addr) = some (ea (0x80 + bank % 64) addr))
    (h : (⟨m, [(0x00, 0x3f), (0x80, 0xbf)], 0x8000, 0xffff⟩ : MapLine).Has bank addr)
    (h' : (⟨m, [(0x00, 0x3f), (0x80, 0xbf)], 0x8000, 0xffff⟩ : MapLine).Has (bank + 0x80) addr) :
    xlat c (ea bank addr) = xlat c (ea (bank + 0x80) addr) := by
  obtain ⟨hb, ha, hw⟩ := has_two h
  obtain ⟨hb', _, hw'⟩ := has_two h'
  have hhigh := high_not_system ha.1
  rw [hf.xlat_eq (by omega) (by omega) hw (Or.inr (Or.inr hhigh)) (hrom bank (by omega) addr ha.1 (by omega)),
    hf.xlat_eq (by omega) (by omega) hw' (Or.inr (Or.inr hhigh)) (hrom (bank + 0x80) (by omega) addr ha.1 (by omega)),
    show (bank + 0x80) % 64 = bank % 64 by omega]

theorem sdd1_canonicalizes (hmap : c.mapping = .sdd1) (hr : c.ram_size = 0) (hst : c.has_st01x = false) :
    Canonicalizes c := by
  have hf : Uses c (xlat_sdd1 c) := .of_mapping hmap
  refine canonicalizes_of_own hf (sdd1_settles hr) hr hst fun l hl bank addr h h' => ?_
  rw [hmap] at hl
  obtain rfl | hl := List.mem_cons.1 hl
  · refine quarter_mirror hf (fun bank hb addr hrom ha => ?_) h h'
    rw [sdd1_ea hr (by omega) ha, if_pos hb, if_pos hrom]
  · obtain rfl := List.mem_singleton.1 hl
    have hb := has_one h
    have hb' := has_one h'
    omega

theorem exlorom_canonicalizes (hmap : c.mapping = .mapper .ExLoROM) (hr : c.ram_size = 0) (hst : c.has_st01x = false) :
    Canonicalizes c := by
  have hf : Uses c (xlat_exlorom c) := .of_mapping hmap
  refine canonicalizes_of_own hf (exlorom_settles hr) hr hst fun l hl bank addr h h' => ?_
  rw [hmap] at hl
  obtain rfl | hl := List.mem_cons.1 hl
  · refine quarter_mirror hf (fun bank hb addr hrom ha => ?_) h h'
    rw [exlorom_ea hr (by omega) ha, if_pos hb, if_pos hrom]
  · obtain rfl := List.mem_singleton.1 hl
    have hb := has_one h
    have hb' := has_one h'
    omega

theorem exhirom_canonicalizes (hmap : c.mapping = .mapper .ExHiROM) (hr : c.ram_size = 0) (hst : c.has_st01x = false) :
    Canonicalizes c := by
  have hf : Uses c (xlat_exhirom c) := .of_mapping hmap
  refine canonicalizes_of_own hf (exhirom_settles hr) hr hst fun l hl bank addr h h' => ?_
  -- every quarter of the banks is a part of the ROM of its own
  have hall : ∀ l ∈ (Mapping.mapper .ExHiROM).ownLines, ∀ p ∈ l.banks, l.banks = [p] ∧ p.2 < p.1 + 0x80 := by decide
  rw [hmap] at hl
  obtain ⟨p, hp, hb⟩ := h.inBanks
  obtain ⟨p', hp', hb'⟩ := h'.inBanks
  obtain ⟨hsingle, hwidth⟩ := hall l hl p hp
  rw [hsingle] at hp'
  obtain rfl := List.mem_singleton.1 hp'
  omega

theorem not_canonicalizes_of (ha : a < 2 ^ 24) (hb : b < 2 ^ 24) (h : Mirror c a b) (hne : a ≠ b) (hxa : xlat c a = a)
    (hxb : xlat c b = b) : ¬Canonicalizes c := by
  intro hc
  have heq := hc.mirror a b ha hb h
  rw [hxa, hxb] at heq
  exact hne heq

theorem Uses.xlat_none (hf : Uses c f) (hb : bank < 256) (ha : addr < 65536) (hw : bank ≠ 0x7e ∧ bank ≠ 0x7f)
    (h : (0x40 ≤ bank ∧ bank < 0x80) ∨ 0xc0 ≤ bank ∨ (¬SystemAddr addr ∧ ¬ClockAddr addr))
    (hn : f (ea bank addr) = none) : xlat c (ea bank addr) = ea bank addr := by
  have hsystem : xlat_system (ea bank addr) = none := system_none hb ha hw (by tauto)
  rw [xlat_of_chips hsystem ((hf.eq _).trans hn), chips_none c hb ha (by tauto)]
  rfl

/-- The addresses of a line can be looked up. -/
instance (l : MapLine) (bank addr : Nat) : Decidable (l.Has bank addr) :=
  decidable_of_iff ((∃ range ∈ l.banks, range.1 ≤ bank ∧ bank ≤ range.2) ∧ (l.first ≤ addr ∧ addr ≤ l.last) ∧
    bank ≠ 0x7e ∧ bank ≠ 0x7f) ⟨fun h => ⟨h.1, h.2.1, h.2.2⟩, fun h => ⟨h.inBanks, h.inAddrs, h.notWram⟩⟩

instance (addr : Nat) : Decidable (SystemAddr addr) := inferInstanceAs (Decidable (_ ∨ _))

instance (addr : Nat) : Decidable (ClockAddr addr) := inferInstanceAs (Decidable (_ ∨ _))

theorem own_line {l : MapLine} (hl : l ∈ c.mapping.ownLines) : l ∈ c.lines := mem_lines.2 (Or.inl hl)

theorem not_canonicalizes_bank {l : MapLine} (hl : l ∈ c.lines) (h : l.Has bank addr) (h' : l.Has (bank + 0x80) addr)
    (hb : bank < 0x80) (ha : addr < 65536) (hx : xlat c (ea bank addr) = ea bank addr)
    (hx' : xlat c (ea (bank + 0x80) addr) = ea (bank + 0x80) addr) : ¬Canonicalizes c := by
  refine not_canonicalizes_of (ea_lt (by omega) ha) (ea_lt (by omega) ha) (.bank hl h h') ?_ hx hx'
  rw [ea_eq, ea_eq]
  omega

theorem halves_not_canonicalize (hf : Uses c f) (hlines : c.mapping.ownLines = Mapping.cx4.ownLines)
    (hx : f (ea 0x40 0x8000) = none) (hx' : f (ea (0x40 + 0x80) 0x8000) = none) : ¬Canonicalizes c := by
  have hline : ⟨.own, [(0x00, 0x7f), (0x80, 0xff)], 0x8000, 0xffff⟩ ∈ c.lines := own_line (by rw [hlines]; decide)
  apply not_canonicalizes_bank hline (by decide : MapLine.Has _ 0x40 0x8000) (by decide) (by decide) (by decide)
  · exact hf.xlat_none (by decide) (by decide) (by decide) (by decide) hx
  · exact hf.xlat_none (by decide) (by decide) (by decide) (by decide) hx'

theorem cx4_not_canonicalizes (hmap : c.mapping = .cx4) : ¬Canonicalizes c := by
  have hf : Uses c (xlat_cx4 c) := .of_mapping hmap
  apply halves_not_canonicalize hf (by rw [hmap])
  · rw [xlat_cx4, bankOf_ea (by decide) (by decide), addrOf_ea (by decide), if_neg (by omega)]
    rfl
  · rw [xlat_cx4, bankOf_ea (by decide) (by decide), addrOf_ea (by decide), if_neg (by omega)]
    rfl

theorem lorom_not_canonicalizes (hmap : c.mapping = .mapper .LoROM) : ¬Canonicalizes c := by
  have hf : Uses c (xlat_lorom c) := .of_mapping hmap
  apply halves_not_canonicalize hf (by rw [hmap]; rfl)
  · rw [xlat_lorom, bankOf_ea (by decide) (by decide), addrOf_ea (by decide), if_neg (by omega)]
    rfl
  · rw [xlat_lorom, bankOf_ea (by decide) (by decide), addrOf_ea (by decide), if_neg (by omega)]
    rfl

theorem superfxrom_not_canonicalizes (hmap : c.mapping = .mapper .SuperFXROM) : ¬Canonicalizes c := by
  have hf : Uses c (xlat_superfxrom c) := .of_mapping hmap
  have hline : ⟨.own, [(0x00, 0x3f), (0x80, 0xbf)], 0x8000, 0xffff⟩ ∈ c.lines := own_line (by rw [hmap]; decide)
  apply not_canonicalizes_bank hline (by decide : MapLine.Has _ 0x00 0x8000) (by decide) (by decide) (by decide)
  · apply hf.xlat_eq (by decide) (by decide) (by decide) (Or.inr (Or.inr (high_not_system (by decide))))
    rw [xlat_superfxrom, bankOf_ea (by decide) (by decide), addrOf_ea (by decide), if_neg (by omega), if_neg (by omega)]
    rfl
  · apply hf.xlat_eq (by decide) (by decide) (by decide) (Or.inr (Or.inr (high_not_system (by decide))))
    rw [xlat_superfxrom, bankOf_ea (by decide) (by decide), addrOf_ea (by decide), if_neg (by omega), if_neg (by omega)]
    rfl

theorem sa1rom_not_canonicalizes (hmap : c.mapping = .mapper .SA1ROM) : ¬Canonicalizes c := by
  have hf : Uses c (xlat_sa1rom c) := .of_mapping hmap
  have hline : ⟨.own, [(0x00, 0x3f), (0x80, 0xbf)], 0x3000, 0x37ff⟩ ∈ c.lines := own_line (by rw [hmap]; decide)
  apply not_canonicalizes_bank hline (by decide : MapLine.Has _ 0x00 0x3000) (by decide) (by decide) (by decide)
  · apply hf.xlat_none (by decide) (by decide) (by decide) (by decide)
    simp [xlat_sa1rom, bankOf_ea, addrOf_ea]
  · apply hf.xlat_none (by decide) (by decide) (by decide) (by decide)
    simp [xlat_sa1rom, bankOf_ea, addrOf_ea]

theorem hiromSram_first (hr : c.ram_size ≠ 0) : hiromSram c 0x20 0x20 0x6000 = ea 0x20 0x6000 := by
  have hzero : hiromOffset c 0x20 0x6000 = 0 := by
    rw [hiromOffset]
    exact Nat.zero_mod _
  rw [hiromSram_eq hr, hzero]

theorem loromSram_first (c : SuperFamicomCartridge) : loromSram c 0x70 0 = ea 0x70 0 := by
  have hzero : (((0x70 &&& 0xf) <<< 15) + (0 &&& 0x7fff)) &&& (c.ram_size - 1) = 0 := Nat.zero_and _
  rw [loromSram, hzero]
  rfl

theorem windows_not_canonicalize (hf : Uses c f) (hr : c.ram_size ≠ 0)
    (hlines : c.mapping.saveLines = Mapping.sdd1.saveLines)
    (hx : f (ea 0x20 0x6000) = some (hiromSram c 0x20 0x20 0x6000))
    (hx' : f (ea 0x70 0) = some (loromSram c 0x70 0)) : ¬Canonicalizes c := by
  rw [hiromSram_first hr] at hx
  rw [loromSram_first] at hx'
  have hline : ⟨.save 32 0x2000, [(0x20, 0x3f), (0xa0, 0xbf)], 0x6000, 0x7fff⟩ ∈ c.lines :=
    mem_lines.2 (Or.inr (Or.inl ⟨hr, by rw [hlines]; decide⟩))
  have hline' : ⟨.save 16 0x8000, [(0x70, 0x7f)], 0x0000, 0x7fff⟩ ∈ c.lines :=
    mem_lines.2 (Or.inr (Or.inl ⟨hr, by rw [hlines]; decide⟩))
  have hmirror : Mirror c (ea 0x20 0x6000) (ea 0x70 0) :=
    .save hline hline' rfl rfl (by decide) (by decide) rfl
  apply not_canonicalizes_of (by decide) (by decide) hmirror (by decide)
  · exact hf.xlat_eq (by decide) (by decide) (by decide) (by decide) hx
  · exact hf.xlat_eq (by decide) (by decide) (by decide) (by decide) hx'

theorem sdd1_windows (hr : c.ram_size ≠ 0) (hmap : c.mapping = .sdd1) : ¬Canonicalizes c := by
  have hf : Uses c (xlat_sdd1 c) := .of_mapping hmap
  apply windows_not_canonicalize hf hr (by rw [hmap])
  · rw [xlat_sdd1, bankOf_ea (by decide) (by decide), addrOf_ea (by decide), if_neg (by omega),
      if_pos ⟨hr, by decide⟩]
  · rw [xlat_sdd1, bankOf_ea (by decide) (by decide), addrOf_ea (by decide), if_pos ⟨hr, by decide⟩]

theorem exlorom_windows (hr : c.ram_size ≠ 0) (hmap : c.mapping = .mapper .ExLoROM) : ¬Canonicalizes c := by
  have hf : Uses c (xlat_exlorom c) := .of_mapping hmap
  apply windows_not_canonicalize hf hr (by rw [hmap]; rfl)
  · rw [xlat_exlorom, bankOf_ea (by decide) (by decide), addrOf_ea (by decide), if_neg (by omega),
      if_pos ⟨hr, by decide⟩]
  · rw [xlat_exlorom, bankOf_ea (by decide) (by decide), addrOf_ea (by decide),
      if_pos ⟨hr, by decide⟩]

theorem exhirom_windows (hr : c.ram_size ≠ 0) (hmap : c.mapping = .mapper .ExHiROM) : ¬Canonicalizes c := by
  have hf : Uses c (xlat_exhirom c) := .of_mapping hmap
  apply windows_not_canonicalize hf hr (by rw [hmap]; rfl)
  · rw [xlat_exhirom, bankOf_ea (by decide) (by decide), addrOf_ea (by decide),
      if_pos ⟨hr, by decide⟩]
  · rw [xlat_exhirom, bankOf_ea (by decide) (by decide), addrOf_ea (by decide), if_neg (by omega),
      if_pos ⟨hr, by decide, Or.inl (by decide)⟩]

theorem st01x_not_canonicalize (hf : Uses c f) (hst : c.has_st01x = true)
    (hx : f (ea 0x68 0) = none ∨ f (ea 0x68 0) = some (ea 0x68 0))
    (hx' : f (ea 0xe8 0) = none ∨ f (ea 0xe8 0) = some (ea 0xe8 0)) : ¬Canonicalizes c := by
  have hline : st01xLine ∈ c.lines := mem_lines.2 (Or.inr (Or.inr ⟨hst, rfl⟩))
  apply not_canonicalizes_bank hline (by decide : MapLine.Has _ 0x68 0) (by decide) (by decide) (by decide)
  · obtain hx | hx := hx
    · exact hf.xlat_none (by decide) (by decide) (by decide) (by decide) hx
    · exact hf.xlat_eq (by decide) (by decide) (by decide) (by decide) hx
  · obtain hx | hx := hx'
    · exact hf.xlat_none (by decide) (by decide) (by decide) (by decide) hx
    · exact hf.xlat_eq (by decide) (by decide) (by decide) (by decide) hx

theorem sdd1_st01x (hmap : c.mapping = .sdd1) (hr : c.ram_size = 0) (hst : c.has_st01x = true) : ¬Canonicalizes c := by
  have hf : Uses c (xlat_sdd1 c) := .of_mapping hmap
  apply st01x_not_canonicalize hf hst
  · rw [sdd1_ea hr (by decide) (by decide)]
    exact Or.inl rfl
  · rw [sdd1_ea hr (by decide) (by decide)]
    exact Or.inr rfl

theorem exlorom_st01x (hmap : c.mapping = .mapper .ExLoROM) (hr : c.ram_size = 0) (hst : c.has_st01x = true) :
    ¬Canonicalizes c := by
  have hf : Uses c (xlat_exlorom c) := .of_mapping hmap
  apply st01x_not_canonicalize hf hst
  · rw [exlorom_ea hr (by decide) (by decide)]
    exact Or.inr rfl
  · rw [exlorom_ea hr (by decide) (by decide)]
    exact Or.inl rfl

theorem exhirom_st01x (hmap : c.mapping = .mapper .ExHiROM) (hr : c.ram_size = 0) (hst : c.has_st01x = true) :
    ¬Canonicalizes c := by
  have hf : Uses c (xlat_exhirom c) := .of_mapping hmap
  apply st01x_not_canonicalize hf hst
  · rw [exhirom_ea hr (by decide) (by decide)]
    exact Or.inr rfl
  · rw [exhirom_ea hr (by decide) (by decide)]
    exact Or.inr rfl

theorem windows_iff (hlines : c.ram_size ≠ 0 → ¬Canonicalizes c)
    (hst : c.ram_size = 0 → c.has_st01x = true → ¬Canonicalizes c)
    (hfolds : c.ram_size = 0 → c.has_st01x = false → Canonicalizes c) :
    Canonicalizes c ↔ c.ram_size = 0 ∧ c.has_st01x = false := by
  by_cases hr : c.ram_size = 0
  · cases h : c.has_st01x with
    | true => exact ⟨fun hc => (hst hr h hc).elim, fun h => nomatch h.2⟩
    | false => exact ⟨fun _ => ⟨hr, rfl⟩, fun _ => hfolds hr h⟩
  · exact ⟨fun hc => (hlines hr hc).elim, fun h => (hr h.1).elim⟩

theorem unmapped_iff (hf : Uses c fun _ => none) (hown : c.mapping.ownLines = []) (hsave : c.mapping.saveLines = []) :
    Canonicalizes c ↔ c.has_st01x = false := by
  cases hst : c.has_st01x with
  | true => exact iff_of_false (st01x_not_canonicalize hf hst (Or.inl rfl) (Or.inl rfl)) nofun
  | false =>
      refine iff_of_true (canonicalizes_of hf ⟨nofun, fun _ _ => rfl⟩ (fun l hl => ?_) fun _ l hl => ?_) rfl
      · rw [mem_lines, hown, hsave, hst] at hl
        obtain hl | ⟨_, hl⟩ | ⟨hl, _⟩ := hl
        all_goals cases hl
      · rw [hsave] at hl
        cases hl

/-- The translation gives every cell one address on the cartridges whose mappings fold all their mirrors, and on no
other. -/
theorem canonicalizes_iff (c : SuperFamicomCartridge) : Canonicalizes c ↔ c.Folds := by
  rw [SuperFamicomCartridge.Folds]
  cases hmap : c.mapping with
  | cx4 => exact iff_of_false (cx4_not_canonicalizes hmap) id
  | sdd1 =>
      exact windows_iff (fun hr => sdd1_windows hr hmap) (fun hr => sdd1_st01x hmap hr) (sdd1_canonicalizes hmap)
  | mapper m =>
      cases m with
      | LoROM => exact iff_of_false (lorom_not_canonicalizes hmap) id
      | HiROM => exact iff_of_true (hirom_canonicalizes hmap) trivial
      | ExLoROM =>
          exact windows_iff (fun hr => exlorom_windows hr hmap) (fun hr => exlorom_st01x hmap hr)
            (exlorom_canonicalizes hmap)
      | ExHiROM =>
          exact windows_iff (fun hr => exhirom_windows hr hmap) (fun hr => exhirom_st01x hmap hr)
            (exhirom_canonicalizes hmap)
      | SuperFXROM => exact iff_of_false (superfxrom_not_canonicalizes hmap) id
      | SA1ROM => exact iff_of_false (sa1rom_not_canonicalizes hmap) id
      | SPC7110ROM => exact iff_of_true (spc7110_canonicalizes hmap) trivial
      | BSCLoROM | BSCHiROM | BSXROM | STROM =>
          apply unmapped_iff ⟨fun a => by rw [hmap]; rfl⟩
          · rw [hmap]
            rfl
          · rw [hmap]
            rfl

/-- A plain cartridge with 8 kilobytes of save RAM. -/
def lorom8k : SuperFamicomCartridge :=
  ⟨0x80000, 0x2000, .LoROM, false, false, false, false, false, false, false, false, false, false, false, false,
    Or.inr ⟨3, by decide⟩⟩

/-- The last banks are moved up after the offset in the save RAM is masked, and then the same address is moved down. -/
theorem not_canonicalizes_lorom8k : ¬Canonicalizes lorom8k :=
  fun h => absurd (h.idem 0xfe0000 (by decide)) (by decide)

end

end IdaSdk.Snes
