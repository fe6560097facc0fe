import IdaSdk.SnesModel
import Mathlib.Tactic.IntervalCases

/-!
Which cartridges have one address for each memory cell. What is behind the addresses is taken from the lists of mapped
banks that the source gives for every kind of cartridge.
-/

namespace IdaSdk.Snes

/-! ### Memory behind the bus -/

def ea (bank addr : Nat) : Nat := (bank <<< 16) + addr

/-- Memory at some addresses in some banks: of its own, or the save RAM, in so many banks with so many bytes each. -/
inductive Memory where
  | own
  | save (banks chunk : Nat)
deriving DecidableEq

structure MapLine where
  memory : Memory
  banks : List (Nat × Nat)
  first : Nat
  last : Nat
deriving DecidableEq

/-- The addresses of a line. The work RAM of the system has the banks 7e and 7f for itself. -/
structure MapLine.Has (l : MapLine) (bank addr : Nat) : Prop where
  inBanks : ∃ range ∈ l.banks, range.1 ≤ bank ∧ bank ≤ range.2
  inAddrs : l.first ≤ addr ∧ addr ≤ l.last
  notWram : bank ≠ 0x7e ∧ bank ≠ 0x7f

/-- The mapping that decides about an address. -/
inductive Mapping where
  | cx4
  | sdd1
  | mapper (m : MemoryMapper)

namespace Mapping

def xlat (c : SuperFamicomCartridge) (address : Nat) : Mapping → Option Nat
  | cx4 => xlat_cx4 c address
  | sdd1 => xlat_sdd1 c address
  | mapper .LoROM => xlat_lorom c address
  | mapper .HiROM => xlat_hirom c address
  | mapper .ExLoROM => xlat_exlorom c address
  | mapper .ExHiROM => xlat_exhirom c address
  | mapper .SuperFXROM => xlat_superfxrom c address
  | mapper .SA1ROM => xlat_sa1rom c address
  | mapper .SPC7110ROM => xlat_spc7110 c address
  | mapper _ => none

/-- The memory that is there with every size of the save RAM. -/
def ownLines : Mapping → List MapLine
  | cx4 => [⟨.own, [(0x00, 0x7f), (0x80, 0xff)], 0x8000, 0xffff⟩]
  | sdd1 => [⟨.own, [(0x00, 0x3f), (0x80, 0xbf)], 0x8000, 0xffff⟩, ⟨.own, [(0xc0, 0xff)], 0x0000, 0xffff⟩]
  | mapper .LoROM => [⟨.own, [(0x00, 0x7f), (0x80, 0xff)], 0x8000, 0xffff⟩]
  | mapper .HiROM =>
    [⟨.own, [(0x00, 0x3f), (0x80, 0xbf)], 0x8000, 0xffff⟩, ⟨.own, [(0x40, 0x7f), (0xc0, 0xff)], 0x0000, 0xffff⟩]
  | mapper .ExLoROM =>
    [⟨.own, [(0x00, 0x3f), (0x80, 0xbf)], 0x8000, 0xffff⟩, ⟨.own, [(0x40, 0x7f)], 0x0000, 0xffff⟩]
  | mapper .ExHiROM =>
    [⟨.own, [(0x00, 0x3f)], 0x8000, 0xffff⟩, ⟨.own, [(0x40, 0x7f)], 0x0000, 0xffff⟩,
      ⟨.own, [(0x80, 0xbf)], 0x8000, 0xffff⟩, ⟨.own, [(0xc0, 0xff)], 0x0000, 0xffff⟩]
  | mapper .SuperFXROM =>
    [⟨.own, [(0x00, 0x3f), (0x80, 0xbf)], 0x8000, 0xffff⟩, ⟨.own, [(0x40, 0x5f), (0xc0, 0xdf)], 0x0000, 0xffff⟩]
  | mapper .SA1ROM =>
    [⟨.own, [(0x00, 0x3f), (0x80, 0xbf)], 0x8000, 0xffff⟩, ⟨.own, [(0xc0, 0xff)], 0x0000, 0xffff⟩,
      ⟨.own, [(0x00, 0x3f), (0x80, 0xbf)], 0x3000, 0x37ff⟩]
  | mapper .SPC7110ROM =>
    [⟨.own, [(0x00, 0x3f), (0x80, 0xbf)], 0x8000, 0xffff⟩, ⟨.own, [(0xc0, 0xff)], 0x0000, 0xffff⟩]
  | mapper _ => []

/-- The windows of the save RAM. -/
def saveLines : Mapping → List MapLine
  | cx4 => [⟨.save 8 0x8000, [(0x70, 0x77)], 0x0000, 0x7fff⟩]
  | sdd1 | mapper .ExLoROM | mapper .ExHiROM =>
    [⟨.save 32 0x2000, [(0x20, 0x3f), (0xa0, 0xbf)], 0x6000, 0x7fff⟩, ⟨.save 16 0x8000, [(0x70, 0x7f)], 0x0000, 0x7fff⟩]
  | mapper .LoROM => [⟨.save 16 0x8000, [(0x70, 0x7f), (0xf0, 0xff)], 0x0000, 0x7fff⟩]
  | mapper .HiROM => [⟨.save 32 0x2000, [(0x10, 0x3f), (0x90, 0xbf)], 0x6000, 0x7fff⟩]
  | mapper .SuperFXROM =>
    [⟨.save 1 0x2000, [(0x00, 0x3f), (0x80, 0xbf)], 0x6000, 0x7fff⟩,
      ⟨.save 2 0x10000, [(0x70, 0x71), (0xf0, 0xf1)], 0x0000, 0xffff⟩]
  | mapper .SA1ROM =>
    [⟨.save 1 0x2000, [(0x00, 0x3f), (0x80, 0xbf)], 0x6000, 0x7fff⟩, ⟨.save 16 0x10000, [(0x40, 0x4f)], 0x0000, 0xffff⟩]
  | mapper .SPC7110ROM => [⟨.save 32 0x2000, [(0x00, 0x3f), (0x80, 0xbf)], 0x6000, 0x7fff⟩]
  | mapper _ => []

end Mapping

/-- The RAM of the two signal processors that have one. -/
def st01xLine : MapLine := ⟨.own, [(0x68, 0x6f), (0xe8, 0xef)], 0x0000, 0x7fff⟩

namespace SuperFamicomCartridge
variable (c : SuperFamicomCartridge)

def mapping : Mapping := if c.has_cx4 then .cx4 else if c.has_sdd1 then .sdd1 else .mapper c.mapper

def has_st01x : Bool := c.has_st010 || c.has_st011

def lines : List MapLine :=
  c.mapping.ownLines ++ ((if c.ram_size = 0 then [] else c.mapping.saveLines) ++ if c.has_st01x then [st01xLine] else [])

end SuperFamicomCartridge

def saveOffset (banks chunk : Nat) (l : MapLine) (bank addr : Nat) : Nat := bank % banks * chunk + (addr - l.first) % chunk

/-- Two addresses of one memory cell. -/
inductive Mirror (c : SuperFamicomCartridge) : Nat → Nat → Prop
  | system {bank addr} : bank ≤ 0x3f ∨ (0x80 ≤ bank ∧ bank ≤ 0xbf) → addr ≤ 0x1fff →
      Mirror c (ea bank addr) (ea 0x7e addr)
  | bank {l bank addr} : l ∈ c.lines → l.Has bank addr → l.Has (bank + 0x80) addr →
      Mirror c (ea bank addr) (ea (bank + 0x80) addr)
  | save {l l' banks chunk banks' chunk' bank addr bank' addr'} : l ∈ c.lines → l' ∈ c.lines →
      l.memory = .save banks chunk → l'.memory = .save banks' chunk' → l.Has bank addr → l'.Has bank' addr' →
      saveOffset banks chunk l bank addr % c.ram_size = saveOffset banks' chunk' l' bank' addr' % c.ram_size →
      Mirror c (ea bank addr) (ea bank' addr')

/-- The translation gives every memory cell one address. -/
structure Canonicalizes (c : SuperFamicomCartridge) : Prop where
  idem : ∀ a < 2 ^ 24, xlat c (xlat c a) = xlat c a
  bound : ∀ a < 2 ^ 24, xlat c a < 2 ^ 24
  mirror : ∀ a b, a < 2 ^ 24 → b < 2 ^ 24 → Mirror c a b → xlat c a = xlat c b

/-- The cartridges whose mirrors are all folded. -/
def SuperFamicomCartridge.Folds (c : SuperFamicomCartridge) : Prop :=
  match c.mapping with
  | .mapper .HiROM | .mapper .SPC7110ROM => True
  | .sdd1 | .mapper .ExLoROM | .mapper .ExHiROM => c.ram_size = 0 ∧ c.has_st01x = false
  | .cx4 | .mapper .LoROM | .mapper .SuperFXROM | .mapper .SA1ROM => False
  | .mapper _ => c.has_st01x = false

section
variable {c : SuperFamicomCartridge} {bank addr a r : Nat}

theorem ea_eq (bank addr : Nat) : ea bank addr = bank * 65536 + addr := by
  rw [ea, Nat.shiftLeft_eq]

theorem addrOf_eq (a : Nat) : addrOf a = a % 65536 := Nat.and_two_pow_sub_one_eq_mod a 16

theorem bankOf_eq (a : Nat) : bankOf a = a / 65536 % 256 := by
  rw [bankOf, Nat.shiftRight_eq_div_pow]
  exact Nat.and_two_pow_sub_one_eq_mod _ 8

theorem addrOf_ea (ha : addr < 65536) : addrOf (ea bank addr) = addr := by
  rw [addrOf_eq, ea_eq]
  omega

theorem bankOf_ea (hb : bank < 256) (ha : addr < 65536) : bankOf (ea bank addr) = bank := by
  rw [bankOf_eq, ea_eq]
  omega

theorem ea_lt (hb : bank < 256) (ha : addr < 65536) : ea bank addr < 2 ^ 24 := by
  rw [ea_eq]
  omega

theorem eq_ea (ha : a < 2 ^ 24) : ∃ bank addr, bank < 256 ∧ addr < 65536 ∧ a = ea bank addr := by
  refine ⟨a / 65536, a % 65536, by omega, by omega, ?_⟩
  rw [ea_eq]
  omega

theorem ea_add (bank addr : Nat) : ea bank addr + 0x800000 = ea (bank + 0x80) addr := by
  rw [ea_eq, ea_eq]
  omega

theorem ea_zero (addr : Nat) : addr = ea 0 addr := by
  rw [ea_eq]
  omega

theorem xlat_mapper_eq (c : SuperFamicomCartridge) (a : Nat) : xlat_mapper c a = c.mapping.xlat c a := by
  rw [xlat_mapper, SuperFamicomCartridge.mapping]
  split_ifs
  · rfl
  · rfl
  · cases c.mapper <;> rfl

theorem xlat_of_system (h : xlat_system a = some r) : xlat c a = r := by
  rw [xlat, h]
  rfl

theorem xlat_of_mapping (hs : xlat_system a = none) (h : c.mapping.xlat c a = some r) : xlat c a = r := by
  rw [xlat, hs, xlat_mapper_eq, h]
  rfl

theorem xlat_of_chips (hs : xlat_system a = none) (hm : c.mapping.xlat c a = none) :
    xlat c a = (xlat_chips c a).getD a := by
  rw [xlat, hs, xlat_mapper_eq, hm]
  rfl

/-- The addresses of the system, in the banks that have them. -/
def SystemAddr (addr : Nat) : Prop :=
  addr ≤ 0x1fff ∨ (0x2100 ≤ addr ∧ addr ≤ 0x213f) ∨ (0x2140 ≤ addr ∧ addr ≤ 0x2183) ∨
    (0x4016 ≤ addr ∧ addr ≤ 0x4017) ∨ (0x4200 ≤ addr ∧ addr ≤ 0x421f) ∨ (0x4300 ≤ addr ∧ addr ≤ 0x437f)

theorem system_none (hb : bank < 256) (ha : addr < 65536) (hw : bank ≠ 0x7e ∧ bank ≠ 0x7f)
    (h : (0x40 ≤ bank ∧ bank < 0x80) ∨ 0xc0 ≤ bank ∨ ¬SystemAddr addr) : xlat_system (ea bank addr) = none := by
  rw [SystemAddr] at h
  rw [xlat_system]
  rw [bankOf_ea hb ha, addrOf_ea ha]
  split_ifs <;> first | rfl | omega

theorem system_wram (ha : addr < 65536) (hw : bank = 0x7e ∨ bank = 0x7f) :
    xlat_system (ea bank addr) = some (ea bank addr) := by
  rw [xlat_system]
  rw [bankOf_ea (by omega) ha, if_pos (by omega)]

theorem system_ram (hb : bank ≤ 0x3f ∨ (0x80 ≤ bank ∧ bank ≤ 0xbf)) (ha : addr ≤ 0x1fff) :
    xlat_system (ea bank addr) = some (ea 0x7e addr) := by
  rw [xlat_system]
  rw [bankOf_ea (by omega) (by omega), addrOf_ea (by omega), if_neg (by omega), if_pos (by omega), if_pos ha]
  rfl

theorem system_fixed (hb : bank < 256) (ha : addr < 65536) (h : xlat_system (ea bank addr) = some r) :
    r < 2 ^ 24 ∧ xlat_system r = some r := by
  by_cases hw : bank = 0x7e ∨ bank = 0x7f
  · obtain rfl := Option.some.inj ((system_wram ha hw).symm.trans h)
    exact ⟨ea_lt hb ha, system_wram ha hw⟩
  by_cases hlow : addr ≤ 0x1fff
  · by_cases hq : bank ≤ 0x3f ∨ (0x80 ≤ bank ∧ bank ≤ 0xbf)
    · obtain rfl := Option.some.inj ((system_ram hq hlow).symm.trans h)
      exact ⟨ea_lt (by decide) ha, system_wram ha (Or.inl rfl)⟩
    · exact nomatch (system_none hb ha (by omega) (by omega)).symm.trans h
  · have hr : r = ea 0 addr := by
      rw [← ea_zero]
      rw [xlat_system] at h
      rw [bankOf_ea hb ha, addrOf_ea ha] at h
      split_ifs at h <;> first | omega | exact (Option.some.inj h).symm
    have hregs : SystemAddr addr := by
      by_contra hnot
      exact nomatch (system_none hb ha (by omega) (Or.inr (Or.inr hnot))).symm.trans h
    rw [SystemAddr] at hregs
    subst hr
    refine ⟨ea_lt (by decide) ha, ?_⟩
    rw [xlat_system]
    rw [bankOf_ea (by decide) ha, addrOf_ea ha, ← ea_zero]
    split_ifs <;> first | rfl | omega

def ClockAddr (addr : Nat) : Prop := (0x2800 ≤ addr ∧ addr ≤ 0x2801) ∨ (0x4840 ≤ addr ∧ addr ≤ 0x4842)

theorem chip_none (has : Bool) (a : Nat) : chip has (fun _ => none) a = none := by
  cases has <;> rfl

theorem xlat_chips_eq (c : SuperFamicomCartridge) (a : Nat) :
    xlat_chips c a = (chip c.has_sharprtc xlat_sharprtc a).or (chip c.has_epsonrtc xlat_epsonrtc a) := by
  have hrest : xlat_chips c a = (chip c.has_sharprtc xlat_sharprtc a).or ((chip c.has_epsonrtc xlat_epsonrtc a).or <|
      (chip c.has_obc1 (fun _ => none) a).or <| (chip c.has_dsp1 (fun _ => none) a).or <|
      (chip c.has_dsp2 (fun _ => none) a).or <| (chip c.has_dsp3 (fun _ => none) a).or <|
      (chip c.has_dsp4 (fun _ => none) a).or <| (chip c.has_st010 (fun _ => none) a).or <|
      (chip c.has_st011 (fun _ => none) a).or <| chip c.has_st018 (fun _ => none) a) := rfl
  rw [hrest]
  simp only [chip_none, Option.or_none]

theorem xlat_rtc_ea {first last : Nat} (hb : bank < 256) (ha : addr < 65536) :
    xlat_rtc first last (ea bank addr) =
      if (bank ≤ 0x3f ∨ (bank ≥ 0x80 ∧ bank ≤ 0xbf)) ∧ addr ≥ first ∧ addr ≤ last then some (ea 0 addr) else none := by
  rw [xlat_rtc, bankOf_ea hb ha, addrOf_ea ha, ← ea_zero]

theorem chips_none (c : SuperFamicomCartridge) (hb : bank < 256) (ha : addr < 65536)
    (h : (0x40 ≤ bank ∧ bank < 0x80) ∨ 0xc0 ≤ bank ∨ ¬ClockAddr addr) : xlat_chips c (ea bank addr) = none := by
  rw [ClockAddr] at h
  have hsharp : xlat_sharprtc (ea bank addr) = none := by
    rw [xlat_sharprtc, xlat_rtc_ea hb ha, if_neg (by omega)]
  have hepson : xlat_epsonrtc (ea bank addr) = none := by
    rw [xlat_epsonrtc, xlat_rtc_ea hb ha, if_neg (by omega)]
  rw [xlat_chips_eq, chip, chip, hsharp, hepson, ite_self, ite_self]
  rfl

theorem chips_some (hb : bank < 256) (ha : addr < 65536) (h : xlat_chips c (ea bank addr) = some r) :
    r = ea 0 addr ∧ ClockAddr addr ∧ xlat_chips c (ea 0 addr) = some (ea 0 addr) := by
  have hclock : ClockAddr addr := by
    by_contra hnot
    exact nomatch (chips_none c hb ha (Or.inr (Or.inr hnot))).symm.trans h
  have hquarter : bank ≤ 0x3f ∨ (bank ≥ 0x80 ∧ bank ≤ 0xbf) := by
    by_contra hnot
    exact nomatch (chips_none c hb ha (by omega)).symm.trans h
  have heq : xlat_chips c (ea bank addr) = xlat_chips c (ea 0 addr) := by
    rw [xlat_chips_eq, xlat_chips_eq, chip, chip, chip, chip, xlat_sharprtc, xlat_epsonrtc, xlat_sharprtc, xlat_epsonrtc,
      xlat_rtc_ea hb ha, xlat_rtc_ea hb ha, xlat_rtc_ea (by decide) ha, xlat_rtc_ea (by decide) ha]
    simp only [hquarter, Nat.zero_le, true_or, true_and]
  have hvalue : xlat_chips c (ea 0 addr) = none ∨ xlat_chips c (ea 0 addr) = some (ea 0 addr) := by
    rw [xlat_chips_eq, chip, chip, xlat_sharprtc, xlat_epsonrtc, xlat_rtc_ea (by decide) ha,
      xlat_rtc_ea (by decide) ha]
    split_ifs <;> first | exact Or.inl rfl | exact Or.inr rfl
  rw [heq] at h
  obtain hnone | hsome := hvalue
  · cases hnone.symm.trans h
  · exact ⟨Option.some.inj (h.symm.trans hsome), hclock, hsome⟩

/-- What a mapping gives is fixed by the system, or else by the mapping, and the clocks are left to themselves. -/
structure Settles (f : Nat → Option Nat) : Prop where
  fixed : ∀ bank addr r, bank < 256 → addr < 65536 → bank ≠ 0x7e → bank ≠ 0x7f → f (ea bank addr) = some r →
    r < 2 ^ 24 ∧ (xlat_system r = some r ∨ (xlat_system r = none ∧ f r = some r))
  clocks : ∀ addr, ClockAddr addr → f (ea 0 addr) = none

theorem clock_not_system (h : ClockAddr addr) : ¬SystemAddr addr := by
  rw [ClockAddr] at h
  rw [SystemAddr]
  omega

theorem xlat_settled (hf : Settles fun a => c.mapping.xlat c a) (ha : a < 2 ^ 24) :
    xlat c a < 2 ^ 24 ∧ xlat c (xlat c a) = xlat c a := by
  obtain ⟨bank, addr, hb, haddr, rfl⟩ := eq_ea ha
  cases hs : xlat_system (ea bank addr) with
  | some r =>
      obtain ⟨hlt, hfixed⟩ := system_fixed hb haddr hs
      rw [xlat_of_system hs]
      exact ⟨hlt, xlat_of_system hfixed⟩
  | none =>
      cases hm : c.mapping.xlat c (ea bank addr) with
      | some r =>
          have hwram (hw : bank = 0x7e ∨ bank = 0x7f) : False := nomatch hs.symm.trans (system_wram haddr hw)
          obtain ⟨hlt, hfixed⟩ := hf.fixed bank addr r hb haddr (fun h => hwram (Or.inl h)) (fun h => hwram (Or.inr h)) hm
          rw [xlat_of_mapping hs hm]
          refine ⟨hlt, ?_⟩
          obtain hsystem | ⟨hnone, hmapping⟩ := hfixed
          · exact xlat_of_system hsystem
          · exact xlat_of_mapping hnone hmapping
      | none =>
          cases hc : xlat_chips c (ea bank addr) with
          | none =>
              have hself : xlat c (ea bank addr) = ea bank addr := by
                rw [xlat_of_chips hs hm, hc]
                rfl
              rw [hself]
              exact ⟨ha, hself⟩
          | some r =>
              obtain ⟨rfl, hclock, hagain⟩ := chips_some hb haddr hc
              have hsystem : xlat_system (ea 0 addr) = none :=
                system_none (by decide) haddr (by decide) (Or.inr (Or.inr (clock_not_system hclock)))
              rw [xlat_of_chips hs hm, hc, Option.getD_some, xlat_of_chips hsystem (hf.clocks addr hclock), hagain]
              exact ⟨ea_lt (by decide) haddr, rfl⟩

end

end IdaSdk.Snes
