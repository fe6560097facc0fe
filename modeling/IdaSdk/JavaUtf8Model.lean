import IdaSdk.JavaSigModel
import IdaSdk.LibModifiedUtf8

/-!
How the Java loader reads a string of the constant pool. The code units go to a temporary buffer first and then, as a
blob, to the database.
-/

namespace IdaSdk.JavaUtf8

inductive Failure where
  | errtrunc
  | errchar (index : UInt16)      -- Illegal byte in CONSTANT_Utf8 (%u)
  | errcoding (index : UInt16)    -- Illegal symbol encoding in CONSTANT_Utf8 (%u)
  | overrun
  | endless
deriving DecidableEq

def CHP_MIN : UInt16 := 0x20
def CHP_MAX : UInt16 := 0x7F

def _OP_NOSIGN : UInt16 := 0x0001
def _OP_NODSCR : UInt16 := 0x0400
def _OP_UNICHARS : UInt16 := 0x2000
def _OP_UTF8_ : UInt16 := 0x4000
def _OP_EXTSYM_ : UInt16 := 0x8000

def HAS_FLDNAME : UInt8 := 0x02
def HAS_CLSNAME : UInt8 := 0x10

structure _STROP_ where
  size : UInt16
  flags : UInt16
deriving DecidableEq

/-- The buffer `tsPtr` with the number of its code units, and `maxStrSz`. -/
structure tmp_buffer_t where
  maxStrSz : UInt16
  capacity : Nat
  fits : maxStrSz.toNat ≤ capacity

def append_tmp_buffer (size : Nat) (buffer : tmp_buffer_t) : tmp_buffer_t :=
  if buffer.maxStrSz < UInt16.ofNat size then ⟨UInt16.ofNat size, size * 2 + 1, by
    rw [UInt16.toNat_ofNat']
    omega⟩
  else buffer

def read1 : List UInt8 → Except Failure (UInt8 × List UInt8)
  | [] => .error .errtrunc
  | c :: file => .ok (c, file)

def read2 : List UInt8 → Except Failure (UInt16 × List UInt8)
  | hi :: lo :: file => .ok (hi.toUInt16 <<< 8 ||| lo.toUInt16, file)
  | _ => .error .errtrunc

/-- What is left: the bytes of the string, the size field, and the file. -/
structure cursor_t where
  size : Nat
  opstr_size : UInt16
  file : List UInt8

/-- A third byte, unless the code unit has two of them. The low byte of `cw` is `cs`. -/
def readThird (index : UInt16) (c : UInt8) (cw : UInt16) (s : cursor_t) : Except Failure (UInt16 × cursor_t) :=
  if c &&& 0xE0 ≠ 0xC0 then
    if s.size = 0 ∨ c &&& 0xF0 ≠ 0xE0 then .error (.errchar index)
    else do
      let (c, file) ← read1 s.file
      if c &&& 0xC0 ≠ 0x80 then .error (.errchar index)
      else
        let cw := cw <<< 6 ||| (c &&& 0x3F).toUInt16
        if cw < 0x800 then .error (.errcoding index) else .ok (cw, ⟨s.size - 1, s.opstr_size - 1, file⟩)
  else if cw < 0x80 ∧ cw.toUInt8 ≠ 0 then .error (.errcoding index)
  else .ok (cw, s)

/-- One code unit. -/
def readUnit (index : UInt16) (s : cursor_t) : Except Failure (UInt16 × cursor_t) := do
  let (c, file) ← read1 s.file
  let size := s.size - 1
  if c = 0 ∨ 0xF0 ≤ c then .error (.errcoding index)
  else if c < 0x80 then .ok (c.toUInt16, ⟨size, s.opstr_size, file⟩)
  else if size = 0 then .error (.errchar index)
  else
    let (c2, file) ← read1 file
    if c2 &&& 0xC0 ≠ 0x80 then .error (.errchar index)
    else
      let cw := (c &&& 0x1F).toUInt16 <<< 6 ||| (c2 &&& 0x3F).toUInt16
      readThird index c cw ⟨size - 1, s.opstr_size - 1, file⟩

/-- The cursor with what has been written from `tsPtr` to `po`, the last code unit, and what is known of all. -/
structure load_t where
  cursor : cursor_t
  po : List UInt16
  cw : UInt16
  Flags : UInt16
  unicode : UInt8

section
variable (javaIdent : UInt16 → Bool)

/-- What a code unit means for the flags; `javaIdent` is a table. -/
def noteSymbol (is_sde : Bool) (cw : UInt16) (s : load_t) : load_t :=
  if is_sde then s
  else if CHP_MAX ≤ cw then
    if javaIdent cw then { s with unicode := 1 } else { s with Flags := s.Flags ||| _OP_EXTSYM_, unicode := 0xFF }
  else if cw ≤ CHP_MIN then { s with Flags := s.Flags ||| _OP_EXTSYM_, unicode := 0xFF }
  else s

def store (buffer : tmp_buffer_t) (po : List UInt16) (cw : UInt16) : Except Failure (List UInt16) :=
  if po.length < buffer.capacity then .ok (po ++ [cw]) else .error .overrun

def loadUnits (buffer : tmp_buffer_t) (index : UInt16) (is_sde : Bool) : Nat → load_t → Except Failure load_t
  | 0, _ => .error .endless
  | n + 1, s => do
      let (cw, cursor) ← readUnit index s.cursor
      let po ← store buffer s.po cw
      let s := noteSymbol javaIdent is_sde cw { s with cursor := cursor, po := po, cw := cw }
      if s.cursor.size = 0 then .ok s else loadUnits buffer index is_sde n s

/-- What a call leaves: its result, the string's descriptor and blob if any are kept, and `co->flag` if it is set. -/
structure loaded_t where
  result : Bool
  opstr : Option _STROP_
  blob : Option (List UInt16)
  flag : Option UInt8
  buffer : tmp_buffer_t
  file : List UInt8

def hex4 (cw : UInt16) : List Char :=
  let digits := (Nat.toDigits 16 cw.toNat).map Char.toUpper
  List.replicate (4 - digits.length) '0' ++ digits

/-- The name that stands for a single character that is no type (Symantec error #3). -/
def stripped (cw : UInt16) : List UInt16 := ("_?_".toList ++ hex4 cw).map fun c => UInt16.ofNat c.toNat

def storeAll (buffer : tmp_buffer_t) (po units : List UInt16) : Except Failure (List UInt16) :=
  units.foldlM (store buffer) po

/-- What follows the loop. -/
def finishUtf8 (MLD_STRIP is_sde : Bool) (buffer : tmp_buffer_t) (flags : UInt16) (s : load_t) :
    Except Failure loaded_t :=
  if is_sde = false ∧ s.cursor.opstr_size = 1 ∧ MLD_STRIP ∧
      (0x80 ≤ s.cw ∨ JavaSig.get_base_typename (s.cw &&& 0xFF) false = none) then do
    let buffer := append_tmp_buffer (stripped s.cw).length buffer
    let po ← storeAll buffer [] (stripped s.cw)
    .ok ⟨false, some ⟨UInt16.ofNat (stripped s.cw).length, flags ||| s.Flags ||| _OP_NODSCR ||| _OP_NOSIGN⟩, some po,
      some (HAS_CLSNAME ||| HAS_FLDNAME), buffer, s.cursor.file⟩
  else
    let Flags := if s.unicode = 1 ∧ is_sde = false then s.Flags ||| _OP_UNICHARS else s.Flags
    .ok ⟨s.Flags = 0, some ⟨s.cursor.opstr_size, flags ||| Flags⟩, some s.po, none, buffer, s.cursor.file⟩

/-- The string itself, behind its size. The bytes of an attribute with an illegal one are not an error. -/
def loadString (MLD_STRIP : Bool) (buffer : tmp_buffer_t) (index : UInt16) (opstr : _STROP_) (file : List UInt8) :
    Except Failure loaded_t :=
  let is_sde := decide (index = 0xFFFF)
  if opstr.size = 0 then .ok ⟨false, some opstr, none, none, buffer, file⟩
  else
    let buffer := append_tmp_buffer opstr.size.toNat buffer
    let start := ⟨⟨opstr.size.toNat, opstr.size, file⟩, [], 0, 0, 0⟩
    match loadUnits javaIdent buffer index is_sde opstr.size.toNat start with
    | .ok s => finishUtf8 MLD_STRIP is_sde buffer opstr.flags s
    | .error e =>
        if is_sde ∧ (e = .errchar index ∨ e = .errcoding index) then .ok ⟨false, none, none, none, buffer, file⟩
        else .error e

/-- A constant has its size in front of it, the attribute `SourceDebugExtension` has the index -1 and the size `co`. -/
def LoadUtf8 (MLD_STRIP : Bool) (buffer : tmp_buffer_t) (index : UInt16) (co : UInt64) (file : List UInt8) :
    Except Failure loaded_t :=
  if index = 0xFFFF then loadString javaIdent MLD_STRIP buffer index ⟨co.toUInt16, 0⟩ file
  else do
    let (size, file) ← read2 file
    loadString javaIdent MLD_STRIP buffer index ⟨size, _OP_UTF8_⟩ file

end

end IdaSdk.JavaUtf8
