import Mathlib.Data.List.Chain
import Mathlib.Data.UInt
import Mathlib.Tactic.Common

/-!
Execute packets of the TMS320C6. The p-bit of an instruction is in its own word, or in the header of its fetch packet
if the instruction is compact. The header is the last word of the fetch packet.
-/

namespace IdaSdk.Tms6

/-- The bytes and the items of a database. The items are in their order. -/
structure database_t where
  get_byte : Nat → UInt8
  heads : List Nat
  is_code : Nat → Bool
  is_spec_ea : Nat → Bool

/-- What is known of a decoded instruction. The flags are the second byte of `auxpref`. -/
structure insn_t where
  size : Nat
  fphead : Bool := false
  cflags : UInt8
deriving DecidableEq

def aux_para : UInt8 := 0x01

/-- What the tables make of a word: whether it is an instruction, and its flags other than `aux_para`. -/
structure tables_t where
  classic : Nat → UInt32 → Option UInt8
  compact : Nat → UInt32 → UInt16 → Option UInt8
  classic_para : ∀ ea code flags, classic ea code = some flags → flags &&& aux_para = 0
  compact_para : ∀ ea fph code flags, compact ea fph code = some flags → flags &&& aux_para = 0

def get_fph_pos (ea : Nat) : Nat := ea / 32 * 32 + 28

def is_fph (addr : Nat) (data : UInt32) : Bool := addr = get_fph_pos addr ∧ data &&& 0xf0000000 = 0xe0000000

def bit (word : UInt32) (n : Nat) : Bool := word &&& (1 <<< UInt32.ofNat n) ≠ 0

def get_word_pos (ea : Nat) (align16 : Bool) : Nat := ea % 32 / if align16 then 2 else 4

variable (fph : UInt32)

def fph_is_compact_insn (layout_pos : Nat) : Bool := bit fph (21 + layout_pos)

def fph_has_pbit (layout_pos : Nat) : Bool := bit fph layout_pos

def fph_layout_pos (ea : Nat) : Nat :=
  if fph_is_compact_insn fph (get_word_pos ea false) then get_word_pos ea true else get_word_pos ea false

namespace database_t
variable (db : database_t)

def get_word (ea : Nat) : UInt16 := (db.get_byte ea).toUInt16 ||| (db.get_byte (ea + 1)).toUInt16 <<< 8

def get_dword (ea : Nat) : UInt32 := (db.get_word ea).toUInt32 ||| (db.get_word (ea + 2)).toUInt32 <<< 16

/-- The header at the end of a fetch packet, if it has one. -/
def get_fph (fph_pos : Nat) : Option UInt32 :=
  if is_fph fph_pos (db.get_dword fph_pos) then some (db.get_dword fph_pos) else none

/-- There is no address if the result is `BADADDR`. -/
def prev_not_tail (ea : Nat) : Option Nat := (db.heads.filter (· < ea)).getLast?

end database_t

section
variable (tables : tables_t) (db : database_t)

def ana_classic (ea : Nat) : Option insn_t :=
  -- `ip` is aligned as `ea` is, since a segment base is a multiple of 16
  if ea % 4 ≠ 0 then none
  else
    (tables.classic ea (db.get_dword ea)).map fun flags =>
      { size := 4, cflags := (if bit (db.get_dword ea) 0 then aux_para else 0) ||| flags }

def ana_compact (ea : Nat) (fph : UInt32) : Option insn_t :=
  if ea % 2 ≠ 0 then none
  else
    (tables.compact ea fph (db.get_word ea)).map fun flags =>
      { size := 2, cflags := (if bit fph (get_word_pos ea true) then aux_para else 0) ||| flags }

/-- The header is an instruction of its own. Its flags are a part of it. -/
def ana (ea : Nat) : Option insn_t :=
  match db.get_fph (get_fph_pos ea) with
  | some fph =>
    if get_word_pos ea false = 7 then some { size := 4, fphead := true, cflags := (fph >>> 8).toUInt8 }
    else if fph_is_compact_insn fph (get_word_pos ea false) then ana_compact tables db ea fph
    else ana_classic tables db ea
  | none => ana_classic tables db ea

end

section
variable (db : database_t)

variable (ea : Nat)

def insn_has_pbit : Bool :=
  match db.get_fph (get_fph_pos ea) with
  | some fph =>
    if fph_is_compact_insn fph (get_word_pos ea false) then fph_has_pbit fph (fph_layout_pos fph ea)
    else bit (db.get_dword ea) 0
  | none => bit (db.get_dword ea) 0

def get_prev : Option Nat := (db.prev_not_tail ea).filter db.is_code

/-- The part of `is_first_insn_of_exec_packet` that skips a header above the instruction. -/
def skip_fph : Nat :=
  if is_fph ea (db.get_dword ea) then
    match get_prev db ea with
    | some above_fph => if get_fph_pos above_fph = ea then above_fph else ea
    | none => ea
  else ea

def is_first_insn_of_exec_packet (prev : Bool) : Bool :=
  if prev then
    match get_prev db ea with
    | some ea => !insn_has_pbit db (skip_fph db ea)
    | none => true
  else !insn_has_pbit db (skip_fph db ea)

/-- The loop of `get_start_of_exec_packet`. -/
def walk : Nat → Nat → Nat
  | 0, ea => ea
  | n + 1, ea =>
    match db.prev_not_tail ea with
    | none => ea
    | some prev_ea =>
      if !db.is_code prev_ea ||
          (!is_fph prev_ea (db.get_dword prev_ea) && is_first_insn_of_exec_packet db prev_ea false) then ea
      else walk n prev_ea

def get_start_of_exec_packet : Nat :=
  if db.is_spec_ea ea then ea
  else if !is_fph ea (db.get_dword ea) && is_first_insn_of_exec_packet db ea true then ea
  else walk db 8 ea

end

end IdaSdk.Tms6
