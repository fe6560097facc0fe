import Mathlib.Data.Nat.Bitwise

/-!
The bus addresses of Super Famicom cartridges: a bank and an address in it, translated to the place the loader has given
to the memory behind them.
-/

namespace IdaSdk.Snes

inductive MemoryMapper where
  | LoROM
  | HiROM
  | ExLoROM
  | ExHiROM
  | SuperFXROM
  | SA1ROM
  | SPC7110ROM
  | BSCLoROM
  | BSCHiROM
  | BSXROM
  | STROM
deriving DecidableEq

/-- What the translation uses of a cartridge. The header gives no size of the RAM, or a power of two. -/
structure SuperFamicomCartridge where
  rom_size : Nat
  ram_size : Nat
  mapper : MemoryMapper
  has_sharprtc : Bool
  has_epsonrtc : Bool
  has_sdd1 : Bool
  has_cx4 : Bool
  has_dsp1 : Bool
  has_dsp2 : Bool
  has_dsp3 : Bool
  has_dsp4 : Bool
  has_obc1 : Bool
  has_st010 : Bool
  has_st011 : Bool
  has_st018 : Bool
  ram_ok : ram_size = 0 ∨ ∃ k, 1 ≤ k ∧ k ≤ 7 ∧ ram_size = 1024 <<< k

variable (g_cartridge : SuperFamicomCartridge)

/-! ### The translation -/

variable (address : Nat)

def addrOf : Nat := address &&& 0xffff

def bankOf : Nat := (address >>> 16) &&& 0xff

/-- The translations of one part of the system: no result where the address is none of its own. -/
def xlat_system : Option Nat :=
  let addr := addrOf address
  let bank := bankOf address
  if bank ≥ 0x7e ∧ bank ≤ 0x7f then some address
  else if bank ≤ 0x3f ∨ (bank ≥ 0x80 ∧ bank ≤ 0xbf) then
    if addr ≤ 0x1fff then some (0x7e0000 + addr)
    else if addr ≥ 0x2100 ∧ addr ≤ 0x213f then some addr
    else if addr ≥ 0x2140 ∧ addr ≤ 0x2183 then some addr
    else if addr ≥ 0x4016 ∧ addr ≤ 0x4017 then some addr
    else if addr ≥ 0x4200 ∧ addr ≤ 0x421f then some addr
    else if addr ≥ 0x4300 ∧ addr ≤ 0x437f then some addr
    else none
  else none

def xlat_cx4 : Option Nat :=
  let addr := addrOf address
  let bank := bankOf address
  if g_cartridge.ram_size ≠ 0 ∧ bank ≥ 0x70 ∧ bank ≤ 0x77 ∧ addr ≤ 0x7fff then some address
  else
    let address := if bank ≤ 0x7d then address + 0x800000 else address
    let bank := if bank ≤ 0x7d then bank + 0x80 else bank
    if bank ≤ 0xbf then
      if addr ≥ 0x8000 then some address
      else if addr ≥ 0x6000 then some addr
      else none
    else none

/-- The save RAM in windows of 8 kilobytes, from the bank `base` on. -/
def hiromSram (base bank addr : Nat) : Nat :=
  let ram_mask := g_cartridge.ram_size - 1
  let ram_offset := (((bank &&& 0x1f) <<< 13) + (addr - 0x6000)) &&& ram_mask
  ((base + (ram_offset >>> 13)) <<< 16) + (0x6000 + (ram_offset &&& 0x1fff))

def loromSram (bank addr : Nat) : Nat :=
  let ram_mask := g_cartridge.ram_size - 1
  let ram_offset := (((bank &&& 0xf) <<< 15) + (addr &&& 0x7fff)) &&& ram_mask
  ((0x70 + (ram_offset >>> 15)) <<< 16) + (ram_offset &&& 0x7fff)

def xlat_spc7110 : Option Nat :=
  let addr := addrOf address
  let bank := bankOf address
  if g_cartridge.ram_size ≠ 0 ∧ (bank ≤ 0x3f ∨ (bank ≥ 0x80 ∧ bank ≤ 0xbf)) ∧ addr ≥ 0x6000 ∧ addr ≤ 0x7fff then
    some (hiromSram g_cartridge 0 bank addr)
  else if bank ≥ 0x50 ∧ bank ≤ 0x5f then some address
  else
    let address := if bank ≤ 0x7d then address + 0x800000 else address
    let bank := if bank ≤ 0x7d then bank + 0x80 else bank
    if bank ≥ 0xc0 then some address
    else if addr ≥ 0x8000 then some (((0xc0 + (bank &&& 0x3f)) <<< 16) + addr)
    else if addr ≥ 0x4800 ∧ addr ≤ 0x483f then some addr
    else none

def xlat_sdd1 : Option Nat :=
  let addr := addrOf address
  let bank := bankOf address
  if g_cartridge.ram_size ≠ 0 ∧ (bank ≥ 0x70 ∧ bank ≤ 0x7d) ∧ addr ≤ 0x7fff then some (loromSram g_cartridge bank addr)
  else if g_cartridge.ram_size ≠ 0 ∧ ((bank ≥ 0x20 ∧ bank ≤ 0x3f) ∨ (bank ≥ 0xa0 ∧ bank ≤ 0xbf)) ∧
      addr ≥ 0x6000 ∧ addr ≤ 0x7fff then some (hiromSram g_cartridge 0x20 bank addr)
  else if bank ≤ 0x3f ∨ (bank ≥ 0x80 ∧ bank ≤ 0xbf) then
    if addr ≥ 0x8000 then some (((bank ||| 0x80) <<< 16) + addr)
    else if addr ≥ 0x4800 ∧ addr ≤ 0x4807 then some addr
    else none
  else if bank ≥ 0xc0 then some address
  else none

def preserve_rom_mirror : Bool := g_cartridge.rom_size > 0x200000 || g_cartridge.ram_size > 32 * 1024

def xlat_lorom : Option Nat :=
  let addr := addrOf address
  let bank := bankOf address
  if g_cartridge.ram_size ≠ 0 ∧ ((bank ≥ 0x70 ∧ bank ≤ 0x7d) ∨ bank ≥ 0xf0) ∧
      (addr ≤ 0x7fff ∨ ¬preserve_rom_mirror g_cartridge) then
    some (if bank ≥ 0xfe then loromSram g_cartridge bank addr + 0x800000 else loromSram g_cartridge bank addr)
  else
    let address := if bank ≤ 0x7d then address + 0x800000 else address
    let bank := if bank ≤ 0x7d then bank + 0x80 else bank
    if bank ≤ 0xbf ∧ addr ≥ 0x8000 then some address else none

def xlat_hirom : Option Nat :=
  let addr := addrOf address
  let bank := bankOf address
  if g_cartridge.ram_size ≠ 0 ∧ ((bank ≥ 0x10 ∧ bank ≤ 0x3f) ∨ (bank ≥ 0x90 ∧ bank ≤ 0xbf)) ∧
      addr ≥ 0x6000 ∧ addr ≤ 0x7fff then some (hiromSram g_cartridge 0x20 bank addr)
  else
    let address := if bank ≤ 0x7d then address + 0x800000 else address
    let bank := if bank ≤ 0x7d then bank + 0x80 else bank
    if bank ≥ 0xc0 then some address
    else if addr ≥ 0x8000 then some (((0xc0 + (bank &&& 0x3f)) <<< 16) + addr)
    else none

def xlat_exlorom : Option Nat :=
  let addr := addrOf address
  let bank := bankOf address
  if g_cartridge.ram_size ≠ 0 ∧ (bank ≥ 0x70 ∧ bank ≤ 0x7d) ∧ addr ≤ 0x7fff then some (loromSram g_cartridge bank addr)
  else if g_cartridge.ram_size ≠ 0 ∧ ((bank ≥ 0x20 ∧ bank ≤ 0x3f) ∨ (bank ≥ 0xa0 ∧ bank ≤ 0xbf)) ∧
      addr ≥ 0x6000 ∧ addr ≤ 0x7fff then some (hiromSram g_cartridge 0x20 bank addr)
  else if bank ≤ 0x3f ∨ (bank ≥ 0x80 ∧ bank ≤ 0xbf) then
    if addr ≥ 0x8000 then some (((bank ||| 0x80) <<< 16) + addr) else none
  else if bank ≤ 0x7f then some address
  else none

def xlat_exhirom : Option Nat :=
  let addr := addrOf address
  let bank := bankOf address
  if g_cartridge.ram_size ≠ 0 ∧ ((bank ≥ 0x20 ∧ bank ≤ 0x3f) ∨ (bank ≥ 0xa0 ∧ bank ≤ 0xbf)) ∧
      addr ≥ 0x6000 ∧ addr ≤ 0x7fff then some (hiromSram g_cartridge 0x20 bank addr)
  else if g_cartridge.ram_size ≠ 0 ∧ (bank ≥ 0x70 ∧ bank ≤ 0x7d) ∧
      (addr ≤ 0x7fff ∨ ¬preserve_rom_mirror g_cartridge) then some (loromSram g_cartridge bank addr)
  else if bank ≥ 0xc0 then some address
  else if bank ≥ 0x80 then
    if addr ≥ 0x8000 then some (((bank + 0x40) <<< 16) + addr) else none
  else if bank ≥ 0x40 then some address
  else if addr ≥ 0x8000 then some (((bank + 0x40) <<< 16) + addr)
  else none

def xlat_superfxrom : Option Nat :=
  let addr := addrOf address
  let bank := bankOf address
  if g_cartridge.ram_size ≠ 0 ∧ (bank ≤ 0x3f ∨ (bank ≥ 0x80 ∧ bank ≤ 0xbf)) ∧ addr ≥ 0x6000 ∧ addr ≤ 0x7fff then
    some addr
  else if g_cartridge.ram_size ≠ 0 ∧ ((bank ≥ 0x70 ∧ bank ≤ 0x7f) ∨ (bank ≥ 0xf0 ∧ bank ≤ 0xf1)) then
    some (((bank &&& 0x7f) <<< 16) + addr)
  else if (bank ≥ 0x40 ∧ bank ≤ 0x5f) ∨ (bank ≥ 0xc0 ∧ bank ≤ 0xdf) then some address
  else if (bank ≤ 0x3f ∨ (bank ≥ 0x80 ∧ bank ≤ 0xbf)) ∧ addr ≥ 0x8000 then some address
  else none

def xlat_sa1rom : Option Nat :=
  let addr := addrOf address
  let bank := bankOf address
  let address := if bank ≥ 0x80 ∧ bank ≤ 0xbf then address - 0x800000 else address
  let bank := if bank ≥ 0x80 ∧ bank ≤ 0xbf then bank - 0x80 else bank
  if g_cartridge.ram_size ≠ 0 ∧ bank ≤ 0x3f ∧ addr ≥ 0x6000 ∧ addr ≤ 0x7fff then
    some ((0x40 <<< 16) + ((addr &&& 0x7fff) - 0x6000))
  else if g_cartridge.ram_size ≠ 0 ∧ ¬bank ≤ 0x3f ∧ bank ≤ 0x4f then some (((bank &&& 0xf1) <<< 16) + addr)
  else if bank ≥ 0xc0 then some address
  else if bank ≤ 0x3f ∧ addr ≥ 0x8000 then some address
  else none

def xlat_rtc (first last address : Nat) : Option Nat :=
  let addr := addrOf address
  let bank := bankOf address
  if (bank ≤ 0x3f ∨ (bank ≥ 0x80 ∧ bank ≤ 0xbf)) ∧ addr ≥ first ∧ addr ≤ last then some addr else none

def xlat_sharprtc : Option Nat := xlat_rtc 0x2800 0x2801 address

def xlat_epsonrtc : Option Nat := xlat_rtc 0x4840 0x4842 address

/-- The chips whose addresses the translation leaves for later. -/
def xlat_obc1 (_address : Nat) : Option Nat := none

def xlat_dsp1 (_address : Nat) : Option Nat := none

def xlat_dsp2 (_address : Nat) : Option Nat := none

def xlat_dsp3 (_address : Nat) : Option Nat := none

def xlat_dsp4 (_address : Nat) : Option Nat := none

def xlat_st010 (_address : Nat) : Option Nat := none

def xlat_st011 (_address : Nat) : Option Nat := none

def xlat_st018 (_address : Nat) : Option Nat := none

/-- The two chips with a mapping of their own go before the mapper. -/
def xlat_mapper : Option Nat :=
  if g_cartridge.has_cx4 then xlat_cx4 g_cartridge address
  else if g_cartridge.has_sdd1 then xlat_sdd1 g_cartridge address
  else
    match g_cartridge.mapper with
    | .LoROM => xlat_lorom g_cartridge address
    | .HiROM => xlat_hirom g_cartridge address
    | .ExLoROM => xlat_exlorom g_cartridge address
    | .ExHiROM => xlat_exhirom g_cartridge address
    | .SuperFXROM => xlat_superfxrom g_cartridge address
    | .SA1ROM => xlat_sa1rom g_cartridge address
    | .SPC7110ROM => xlat_spc7110 g_cartridge address
    | _ => none

def chip (has : Bool) (xlat : Nat → Option Nat) (address : Nat) : Option Nat := if has then xlat address else none

def xlat_chips : Option Nat :=
  (chip g_cartridge.has_sharprtc xlat_sharprtc address).or <| (chip g_cartridge.has_epsonrtc xlat_epsonrtc address).or <|
  (chip g_cartridge.has_obc1 xlat_obc1 address).or <| (chip g_cartridge.has_dsp1 xlat_dsp1 address).or <|
  (chip g_cartridge.has_dsp2 xlat_dsp2 address).or <| (chip g_cartridge.has_dsp3 xlat_dsp3 address).or <|
  (chip g_cartridge.has_dsp4 xlat_dsp4 address).or <| (chip g_cartridge.has_st010 xlat_st010 address).or <|
  (chip g_cartridge.has_st011 xlat_st011 address).or <| chip g_cartridge.has_st018 xlat_st018 address

def xlat : Nat :=
  ((xlat_system address).or ((xlat_mapper g_cartridge address).or (xlat_chips g_cartridge address))).getD address

end IdaSdk.Snes
