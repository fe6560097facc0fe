import IdaSdk.ElfModel
import IdaSdk.LibCodes
import IdaSdk.LibOutcome

/-!
The call frames of an ELF file: records with common information and records of single functions, each with instructions
of variable length. The reader of the variable-length numbers is a parameter. A reference outside the data of a record is
undefined, and so is every use of what a short read has left in a variable.
-/

namespace IdaSdk.Elf
open Codes Outcomes Words

def DW_CFA_advance_loc : UInt8 := 0x40
def DW_CFA_offset : UInt8 := 0x80
def DW_CFA_restore : UInt8 := 0xc0
def DW_CFA_nop : UInt8 := 0x00
def DW_CFA_advance_loc1 : UInt8 := 0x02
def DW_CFA_advance_loc2 : UInt8 := 0x03
def DW_CFA_advance_loc4 : UInt8 := 0x04
def DW_CFA_offset_extended : UInt8 := 0x05
def DW_CFA_restore_extended : UInt8 := 0x06
def DW_CFA_undefined : UInt8 := 0x07
def DW_CFA_same_value : UInt8 := 0x08
def DW_CFA_register : UInt8 := 0x09
def DW_CFA_remember_state : UInt8 := 0x0a
def DW_CFA_restore_state : UInt8 := 0x0b
def DW_CFA_def_cfa : UInt8 := 0x0c
def DW_CFA_def_cfa_register : UInt8 := 0x0d
def DW_CFA_def_cfa_offset : UInt8 := 0x0e
def DW_CFA_def_cfa_expression : UInt8 := 0x0f
def DW_CFA_val_offset : UInt8 := 0x14
def DW_CFA_lo_user : UInt8 := 0x1c
def DW_CFA_GNU_args_size : UInt8 := 0x2e

/-- An instruction. An operand that it does not have is not initialised. -/
structure cfi_t where
  block : List UInt8
  uop1 : Option (BitVec 32)
  uop2 : Option (BitVec 32)
  sop : Option (BitVec 32)
  insn : UInt8
deriving DecidableEq

def cfi_t.init (insn : UInt8) : cfi_t := ⟨[], none, none, none, insn⟩

/-- The common information of some functions. The string of the augmentation has its final zero. -/
structure cie_frame_t where
  augment_data : List UInt8
  cfis : List cfi_t
  augmentation : List UInt8
  offset : BitVec 32
  size : BitVec 32
  id : BitVec 32
  code_alignment_factor : BitVec 32
  data_alignment_factor : BitVec 32
  return_address_column : BitVec 32
  version : UInt8

/-- The frames of a function. -/
structure fde_frame_t where
  augment_data : List UInt8
  offset : BitVec 32
  size : BitVec 32
  cie_ptr_delta : BitVec 32
  cie_ptr : BitVec 32
  initial_location : BitVec 32
  final_location : BitVec 32
  cfis : List cfi_t

def fde_frame_t.init : fde_frame_t := ⟨[], 0, 0, 0, 0, 0, 0, []⟩

/-- How the reading of a record is given up. -/
inductive Halt where
  | interr
  | corrupted
deriving DecidableEq

section
variable (u : (nbits : Nat) → Bool → List UInt8 → Unpacked (BitVec nbits))

variable (nbits : Nat)

def unpack_xleb128 (is_signed : Bool) (ptr : List UInt8) : Outcome Halt (BitVec nbits × List UInt8) :=
  if (u nbits is_signed ptr).ok then .done ((u nbits is_signed ptr).value, (u nbits is_signed ptr).rest)
  else .threw .corrupted

def unpack_uleb128 := unpack_xleb128 u nbits false

def unpack_sleb128 := unpack_xleb128 u nbits true

def upd_loc (loc : Option (BitVec 32)) (offset : BitVec 32) : Outcome Halt (BitVec 32) :=
  match loc with
  | some loc => .done (loc + offset)
  | none => .threw .interr

/-- An instruction, the location behind it, and the bytes behind it. -/
abbrev ReadCfi := cfi_t × Option (BitVec 32) × List UInt8

/-- A location is advanced by a number with a fixed count of bytes. -/
def advanceBytes (n : Nat) (is_msb : Bool) (location : Option (BitVec 32)) (insn : UInt8) (ptr : List UInt8) :
    Outcome Halt ReadCfi :=
  let uop1 := BitVec.ofNat 32 (if is_msb then ofBE (ptr.take n) else ofLE (ptr.take n))
  if ptr.length < n then .undefined
  else (upd_loc location uop1).andThen fun loc =>
    .done (⟨[], some uop1, some loc, none, insn⟩, some loc, ptr.drop n)

variable (is_msb : Bool)

/-- The instructions with the operation in the whole byte. -/
def readExtended (location : Option (BitVec 32)) (insn : UInt8) (ptr : List UInt8) :
    Outcome Halt ReadCfi :=
  if insn ∈ [DW_CFA_nop, DW_CFA_remember_state, DW_CFA_restore_state, DW_CFA_lo_user] then
    .done (cfi_t.init insn, location, ptr)
  else if insn ∈ [DW_CFA_offset_extended, DW_CFA_register, DW_CFA_def_cfa, DW_CFA_val_offset] then
    (unpack_uleb128 u 32 ptr).andThen fun uop2 => (unpack_uleb128 u 32 uop2.2).andThen fun uop1 =>
      .done (⟨[], some uop1.1, some uop2.1, none, insn⟩, location, uop1.2)
  else if insn ∈ [DW_CFA_restore_extended, DW_CFA_undefined, DW_CFA_same_value, DW_CFA_def_cfa_register,
      DW_CFA_def_cfa_offset, DW_CFA_GNU_args_size] then
    (unpack_uleb128 u 32 ptr).andThen fun uop1 => .done (⟨[], some uop1.1, none, none, insn⟩, location, uop1.2)
  else if insn = DW_CFA_def_cfa_expression then
    (unpack_uleb128 u 64 ptr).andThen fun blocksize =>
      if blocksize.2.length < blocksize.1.toNat then .undefined
      else .done (⟨blocksize.2.take blocksize.1.toNat, none, none, none, insn⟩, location,
        blocksize.2.drop blocksize.1.toNat)
  else if insn = DW_CFA_advance_loc4 then advanceBytes 4 is_msb location insn ptr
  else if insn = DW_CFA_advance_loc2 then advanceBytes 2 is_msb location insn ptr
  else if insn = DW_CFA_advance_loc1 then advanceBytes 1 is_msb location insn ptr
  else .threw .corrupted

/-- A location is advanced by the number in the first byte. -/
def advanceUpper (location : Option (BitVec 32)) (uop1 : BitVec 32) (ptr : List UInt8) : Outcome Halt ReadCfi :=
  match location with
  | none => .threw .corrupted
  | some loc => .done (⟨[], some uop1, some (loc + uop1), none, DW_CFA_advance_loc⟩, some (loc + uop1), ptr)

/-- The upper bits of the first byte tell the most frequent instructions. -/
def read_cfi (cief : cie_frame_t) (is_msb : Bool) (location : Option (BitVec 32)) :
    List UInt8 → Outcome Halt ReadCfi
  | [] => .threw .corrupted
  | insn :: ptr =>
    let uop1 := (insn &&& 0x3f).toBitVec.setWidth 32
    if insn &&& 0xc0 = DW_CFA_advance_loc then advanceUpper location uop1 ptr
    else if insn &&& 0xc0 = DW_CFA_offset then
      (unpack_uleb128 u 32 ptr).andThen fun uop2 =>
        .done (⟨[], some uop1, some uop2.1, some (uop2.1 * cief.data_alignment_factor), DW_CFA_offset⟩, location, uop2.2)
    else if insn &&& 0xc0 = DW_CFA_restore then .done (⟨[], some uop1, none, none, DW_CFA_restore⟩, location, ptr)
    else readExtended u is_msb location insn ptr

/-- All instructions. Each has at least one byte. -/
def read_cfis (cief : cie_frame_t) (is_msb : Bool) :
    Nat → List cfi_t → Option (BitVec 32) → List UInt8 → Outcome Halt (List cfi_t)
  | 0, _, _, _ => .undefined
  | n + 1, cfis, location, ptr =>
    if ptr = [] then .done cfis
    else (read_cfi u cief is_msb location ptr).andThen fun read =>
      read_cfis cief is_msb n (cfis ++ [read.1]) read.2.1 read.2.2

/-- The string at the front, and what is behind it. -/
def readAugmentation : List UInt8 → List UInt8 × List UInt8
  | [] => ([], [])
  | c :: ptr => if c = 0 then ([c], ptr) else (c :: (readAugmentation ptr).1, (readAugmentation ptr).2)

variable (cie : cie_frame_t)

def cie_frame_t.has_augment_data : Bool := cie.augmentation.head? = some 0x7a

/-- The string has an `R` behind its first character. -/
def cie_frame_t.is_pcrel : Bool := 0x52 ∈ (cie.augmentation.drop 1).takeWhile (· ≠ 0)

/-- The augmentation data of a common record. Their length is not compared with what is left of the record. -/
def readCieAugmentData (ptr : List UInt8) : Outcome Halt (List UInt8 × List UInt8) :=
  if cie.has_augment_data then
    (unpack_uleb128 u 32 ptr).andThen fun length =>
      if length.2.length < length.1.toNat then .undefined
      else .done (length.2.take length.1.toNat, length.2.drop length.1.toNat)
  else .done ([], ptr)

/-- The common record from its data. -/
def readCie (offset size id : BitVec 32) (version : UInt8) (data : List UInt8) :
    Outcome Halt cie_frame_t :=
  (unpack_uleb128 u 32 (readAugmentation data).2).andThen fun caf =>
  (unpack_sleb128 u 32 caf.2).andThen fun daf =>
  (unpack_uleb128 u 32 daf.2).andThen fun rac =>
  let cie : cie_frame_t := ⟨[], [], (readAugmentation data).1, offset, size, id, caf.1, daf.1, rac.1, version⟩
  (readCieAugmentData u cie rac.2).andThen fun augment =>
  (read_cfis u cie is_msb (augment.2.length + 1) [] none augment.2).andThen fun cfis =>
    .done { cie with augment_data := augment.1, cfis := cfis }

/-- What the record of a function has, with its place in the file and its common record. -/
structure fde_record_t where
  base : BitVec 64
  initial_location : BitVec 32
  address_range : BitVec 32
  data : List UInt8
  cie : cie_frame_t

/-- The augmentation data of a function, or those that are there already. -/
def readFdeAugmentData (augment_data ptr : List UInt8) :
    Outcome Halt (List UInt8 × List UInt8) :=
  if cie.has_augment_data then
    (unpack_uleb128 u 32 ptr).andThen fun length =>
      .done (length.2.take length.1.toNat, length.2.drop length.1.toNat)
  else .done (augment_data, ptr)

def fde_record_t.location (record : fde_record_t) : BitVec 32 :=
  if record.cie.is_pcrel then (record.base + record.initial_location.signExtend 64).setWidth 32
  else record.initial_location

/-- The frames of a function from the data of its record, in the object that has those of the function before. -/
def readFde (record : fde_record_t) (fde_frame : fde_frame_t) : Outcome Halt fde_frame_t :=
  (readFdeAugmentData u record.cie fde_frame.augment_data record.data).andThen fun augment =>
  (read_cfis u record.cie is_msb (augment.2.length + 1) [] (some record.location) augment.2).andThen fun cfis =>
    .done { fde_frame with
      augment_data := augment.1
      initial_location := record.location
      final_location := record.location + record.address_range
      cfis := cfis }

/-! ### The section -/

/-- Where the ELF file starts in the input, the byte order of its identification, and the effective one. -/
structure eh_reader_t where
  sif : BitVec 64
  ident_msb : Bool
  is_msb : Bool

namespace eh_reader_t
variable (reader : eh_reader_t)

variable (li : linput_t)

def seek (pos : BitVec 64) : linput_t := (li.qlseek (reader.sif + pos)).1

def tell : BitVec 64 := BitVec.ofNat 64 li.pos - reader.sif

/-- The bytes of a variable as the host has them. After a short read nothing is known about them. -/
def safe_read (n : Nat) : Option (List UInt8) × linput_t :=
  let read := li.qlread n
  (if read.2.length = n then some (if reader.is_msb then read.2.reverse else read.2) else none, read.1)

/-- The data of a record are read as one variable, and reversed once more. -/
def framedata (bytes : List UInt8) : List UInt8 := if reader.ident_msb then bytes.reverse else bytes

end eh_reader_t

def word (bytes : List UInt8) : BitVec 32 := BitVec.ofNat 32 (ofLE bytes)

def known {ε α : Type} (value : Option α) : Outcome ε α :=
  match value with
  | none => .undefined
  | some a => .done a

/-- The position in the file, the object for the frames of a function, and the frames so far. -/
structure eh_state_t where
  li : linput_t
  fde_frame : fde_frame_t
  cie_vec : List cie_frame_t
  fde_vec : List fde_frame_t

/-- How the loop over the records is left. -/
inductive Leave where
  | interr
  | returned (ok : Bool) (cie_vec : List cie_frame_t) (fde_vec : List fde_frame_t)

def eh_state_t.leave (s : eh_state_t) : Halt → Leave
  | .interr => .interr
  | .corrupted => .returned false s.cie_vec s.fde_vec

/-- What is left of a call when its exceptions are exceptions of the caller. -/
def rethrow {ε ε' α : Type} (f : ε → ε') : Outcome ε α → Outcome ε' α
  | .undefined => .undefined
  | .threw e => .threw (f e)
  | .done a => .done a

variable (reader : eh_reader_t)

/-- The rest of a record with common information. -/
def readCieRecord (s : eh_state_t) : Outcome Halt eh_state_t :=
  let fde := s.fde_frame
  let version := reader.safe_read s.li 1
  if fde.size.toInt < 5 then .threw .corrupted
  else
    let data := reader.safe_read version.2 (fde.size.toNat - 5)
    (known data.1).andThen fun bytes =>
    (readCie u reader.ident_msb fde.offset fde.size fde.cie_ptr_delta ((version.1.getD []).headD 0)
      (reader.framedata bytes)).andThen fun cie =>
      .done ⟨data.2, { fde with offset := fde.offset + (fde.size + 4) }, s.cie_vec ++ [cie], s.fde_vec⟩

def eh_state_t.push (s : eh_state_t) (li : linput_t) (fde : fde_frame_t) : eh_state_t :=
  ⟨li, { fde with offset := fde.offset + (fde.size + 4) }, s.cie_vec, s.fde_vec ++ [fde]⟩

/-- The rest of a record of a function. A record without data is not looked at. -/
def readFdeRecord (s : eh_state_t) : Outcome Halt eh_state_t :=
  let initial_location := reader.safe_read s.li 4
  let address_range := reader.safe_read initial_location.2 4
  let fde := { s.fde_frame with
    initial_location := 0
    cie_ptr := s.fde_frame.offset - s.fde_frame.cie_ptr_delta + 4 }
  if fde.size.toInt < 12 then .threw .corrupted
  else if fde.size.toNat - 12 = 0 then .done (s.push address_range.2 fde)
  else
    let data := reader.safe_read address_range.2 (fde.size.toNat - 12)
    match s.cie_vec.find? (fun cie => cie.offset = fde.cie_ptr) with
    | none => .threw .corrupted
    | some cie =>
      (known initial_location.1).andThen fun initial =>
      (known address_range.1).andThen fun range =>
      (known data.1).andThen fun bytes =>
      (readFde u reader.ident_msb ⟨reader.tell s.li, word initial, word range, reader.framedata bytes, cie⟩ fde).andThen
        fun fde => .done (s.push data.2 fde)

/-- One round of the loop. The numbers in front of a record go to the object for the frames, too. -/
def readRecord (sh_size : BitVec 64) (s : eh_state_t) : Outcome Leave eh_state_t :=
  if s.fde_frame.offset.signExtend 64 ≥ sh_size then .threw (.returned true s.cie_vec s.fde_vec)
  else
    let size := reader.safe_read s.li 4
    (known size.1).andThen fun sizeBytes =>
    let fde := { s.fde_frame with size := word sizeBytes }
    if word sizeBytes = 0 then .threw (.returned true s.cie_vec (s.fde_vec ++ [fde]))
    else if word sizeBytes ≥ 0xfffffff0#32 then .threw (.returned false s.cie_vec s.fde_vec)
    else
      let delta := reader.safe_read size.2 4
      (known delta.1).andThen fun deltaBytes =>
      let s := { s with li := delta.2, fde_frame := { fde with cie_ptr_delta := word deltaBytes } }
      rethrow s.leave (if word deltaBytes = 0 then readCieRecord u reader s else readFdeRecord u reader s)

def startEhFrame (li : linput_t) (sh_offset : BitVec 64) : eh_state_t :=
  ⟨reader.seek li sh_offset, fde_frame_t.init, [], []⟩

/-- Every record takes bytes of the file. The result is whether the section is all right, with the frames. -/
def read_eh_frame (li : linput_t) (sh_offset sh_size : BitVec 64) :
    Outcome Halt (Bool × List cie_frame_t × List fde_frame_t) :=
  match Outcome.loop (readRecord u reader sh_size) (li.bytes.length + 1) (startEhFrame reader li sh_offset) with
  | .threw (.returned ok cie_vec fde_vec) => .done (ok, cie_vec, fde_vec)
  | .threw .interr => .threw .interr
  | _ => .undefined

end

end IdaSdk.Elf
