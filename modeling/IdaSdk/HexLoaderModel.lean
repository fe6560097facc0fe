import IdaSdk.LibHexScan

/-!
The loader of hexadecimal object files: Intel hex, Motorola S-records and the MOS technology format. A line is a C
string in a buffer, with anything behind it. Its fields are converted by `strtoul`; what a record does to the database
is a list of effects.
-/

namespace IdaSdk.HexLoader
open HexScan

def BUFFSIZE : Nat := (255 + 6) * 2 + 76

/-- A line as `qlgets` leaves it: a newline can only be its last character. -/
structure Line where
  chars : List UInt8
  fits : chars.length < BUFFSIZE
  no_nul : (0 : UInt8) ∉ chars
  newline : (0x0A : UInt8) ∉ chars.dropLast

/-- The buffer, with what stands behind the line. -/
def Line.mem (line : Line) (behind : Nat → UInt8) (i : Nat) : UInt8 :=
  if i < line.chars.length then line.chars.getD i 0 else if i = line.chars.length then 0 else behind i

/-- `errfmt` and the other calls of `loader_failure`. -/
inductive Failure where
  | errfmt (ln : Nat)
  | loader_failure
deriving DecidableEq

/-- `local_data`, as far as a line is read. -/
structure Lc where
  ptr : Nat
  ln : Nat
  len : UInt32
  sum : UInt16

/-- What a field of `size` bytes adds to the checksum. -/
def field_sum (size : Nat) (data : UInt32) : UInt16 :=
  ((List.range size).map fun k => UInt16.ofNat (data.toNat / 256 ^ k % 256)).sum

def width (size : Nat) : Nat := if size = 0 then 2 else 2 * size

variable (mem : Nat → UInt8)

def field (ptr size : Nat) : List UInt8 := (List.range (width size)).map fun k => mem (ptr + k)

/-- `hexdata`; a field of size 0 is the length byte. -/
def hexdata (size : Nat) (lc : Lc) : Except Failure (UInt32 × Lc) :=
  if size ≠ 0 ∧ lc.len.toNat < size then .error (.errfmt lc.ln)
  else
    let (data, endp) := strtoul (field mem lc.ptr size)
    if endp ≠ [] then .error (.errfmt lc.ln)
    else
      let data := UInt32.ofNat data
      let ptr := lc.ptr + width size
      if size = 0 then .ok (data, ⟨ptr, lc.ln, data &&& 0xFF, (data &&& 0xFF).toUInt16⟩)
      else .ok (data, ⟨ptr, lc.ln, lc.len - UInt32.ofNat size, lc.sum + field_sum size data⟩)

/-- `f_SREC`, `f_HEX` and `f_MEX`. -/
inductive FileType where
  | f_SREC | f_HEX | f_MEX
deriving DecidableEq

def FileType.rstart : FileType → UInt8
  | .f_SREC => 0x53
  | .f_HEX => 0x3A
  | .f_MEX => 0x3B

/-- What does not change while a file is loaded: `add_segm` says whether a segment can be created. -/
structure Env where
  ftype : FileType
  bs : UInt32
  bs_addr_scale : Bool
  cvt_to_bytes : Bool
  has_code16_bit : Bool
  nef_segs : Bool
  start_ea : UInt64
  add_segm : UInt64 → UInt64 → Bool

/-- What a record does to the database. -/
inductive Effect where
  | set_start_ip (ea : UInt64)
  | set_start_ea (ea : UInt64)
  | set_code16_mode (ea : UInt64)
  | add_segm (start end_ea : UInt64)
  | set_segm_end (start end_ea : UInt64) (sparse : Bool)
  | set_segm_start (start new_start : UInt64) (sparse : Bool)
  | mem2base (bytes : List UInt8) (ea1 ea2 : UInt64)
  | bad_checksum (ln : Nat)
deriving DecidableEq

/-- The state of the loop over the lines. -/
structure Loader where
  subs_addr20 : UInt64
  subs_addr32 : UInt64
  end_ea : UInt64
  seg_start : UInt64
  segment_created : Bool
  bigaddr : Bool
  displayed : Bool
  effects : List Effect

/-- A record up to its data. -/
inductive Header where
  | skip
  | last
  | start (addr : UInt32)
  | linear (base : UInt32)
  | segment (base : UInt32)
  | start32 (addr : UInt32)
  | other
  | data (addr : UInt32) (lc : Lc)

/-- The position of the first character that is not a blank. -/
def Line.skip_blanks (line : Line) : Nat := (line.chars.takeWhile (· = 0x20)).length

/-- The size of the address in an S-record, and whether it is a start record. -/
def srec_mode (mode : UInt8) : Option (Nat × Bool) :=
  if mode = 0x31 ∨ mode = 0x39 then some (2, mode = 0x39)
  else if mode = 0x32 ∨ mode = 0x38 then some (3, mode = 0x38)
  else if mode = 0x33 ∨ mode = 0x37 then some (4, mode = 0x37)
  else none

/-- An S-record behind its length byte. -/
def srec_header (mode : UInt8) (lc : Lc) : Except Failure Header :=
  if mode = 0x30 ∨ mode = 0x35 then .ok .skip
  else
    match srec_mode mode with
    | none => .error (.errfmt lc.ln)
    | some (sz, is_start) => do
      let (addr, lc) ← hexdata mem sz { lc with len := lc.len - 1 }
      .ok (if is_start then .start addr else .data addr lc)

/-- An Intel record behind its address. -/
def intel_type (addr : UInt32) (lc : Lc) : Except Failure Header := do
  let (type, lc) ← hexdata mem 1 lc
  if type = 0xFF ∨ type = 4 then
    let (base, _) ← hexdata mem 2 lc
    .ok (.linear base)
  else if type = 2 then
    let (base, _) ← hexdata mem 2 lc
    .ok (.segment base)
  else if type = 5 then
    let (start_addr, _) ← hexdata mem 4 lc
    .ok (.start32 start_addr)
  else if type = 1 then .ok .last
  else if type ≠ 0 then .ok .other
  else .ok (.data addr lc)

/-- A record of the other formats behind its length byte. -/
def plain_header (env : Env) (mem : Nat → UInt8) (lc : Lc) : Except Failure Header :=
  if lc.len = 0 then .ok .last
  else do
    let len := lc.len + (if env.ftype = .f_HEX then 3 else 2)
    let (addr, lc) ← hexdata mem 2 { lc with len := len }
    if env.ftype = .f_HEX then intel_type mem addr lc else .ok (.data addr lc)

/-- The position of the length byte: behind the start character, and behind the mode of an S-record. -/
def Env.length_pos (env : Env) (line : Line) : Nat :=
  line.skip_blanks + (if env.ftype = .f_SREC then 2 else 1)

/-- The beginning of the body of the loop. -/
def header (env : Env) (line : Line) (behind : Nat → UInt8) (ln : Nat) : Except Failure Header :=
  let mem := line.mem behind
  let p := line.skip_blanks
  if mem p = 0x0A ∨ mem p = 0x0D then .ok .skip
  else if mem p ≠ env.ftype.rstart then .error (.errfmt ln)
  else do
    let (_, lc) ← hexdata mem 0 ⟨env.length_pos line, ln, 0, 0⟩
    if env.ftype = .f_SREC then srec_header mem (mem (p + 1)) lc else plain_header env mem lc

/-- The bytes of the data. In the buffer they are put where the line has been read already. -/
def read_data (mem : Nat → UInt8) : Nat → Lc → Except Failure (List UInt8 × Lc)
  | 0, lc => .ok ([], lc)
  | n + 1, lc => do
    let (b, lc) ← hexdata mem 1 lc
    let (bytes, lc) ← read_data mem n lc
    .ok (b.toUInt8 :: bytes, lc)

/-- `trunc_uval` of a program with 32-bit addresses. -/
def trunc_uval (x : UInt64) : UInt64 := x &&& 0xFFFFFFFF

def SEGMENTGAP : UInt64 := 0x100000
def SPARSE_GAP : UInt64 := 0x40000

/-- The segment of the data, from `addr` to `top`. -/
def Loader.extend_segment (env : Env) (st : Loader) (addr top : UInt64) : Except Failure Loader :=
  if st.end_ea < top ∨ ¬st.segment_created then
    let delta := addr - st.end_ea
    let created := st.segment_created && !decide (SEGMENTGAP ≤ delta)
    let st := { st with segment_created := created, end_ea := top }
    if ¬env.nef_segs then .ok st
    else if created then
      .ok { st with effects := st.effects ++ [.set_segm_end st.seg_start top (SPARSE_GAP < delta)] }
    else if env.add_segm addr top then
      .ok { st with segment_created := true, seg_start := addr, effects := st.effects ++ [.add_segm addr top] }
    else .error .loader_failure
  else .ok st

def Loader.lower_segment (env : Env) (st : Loader) (addr : UInt64) : Loader :=
  if addr < st.seg_start then
    { st with
      seg_start := addr
      effects := if env.nef_segs then
        st.effects ++ [.set_segm_start st.seg_start addr (SPARSE_GAP < st.seg_start - addr)] else st.effects }
  else st

/-- The data of a record, if there are any. -/
def Loader.put_data (env : Env) (mem : Nat → UInt8) (st : Loader) (addr : UInt64) (lc : Lc) :
    Except Failure (Lc × Loader) :=
  if lc.len = 0 then .ok (lc, st)
  else do
    let top := trunc_uval (addr + (lc.len / env.bs).toUInt64)
    let (bytes, lc) ← read_data mem lc.len.toNat lc
    let bytes := if env.cvt_to_bytes then bytes.flatMap fun b => [b, 0] else bytes
    let st := { st with bigaddr := st.bigaddr || decide (0x10000 ≤ top) }
    let addr := trunc_uval (addr + env.start_ea)
    let top := trunc_uval (top + env.start_ea)
    let st ← st.extend_segment env addr top
    let st := st.lower_segment env addr
    .ok (lc, { st with effects := st.effects ++ [.mem2base bytes addr top] })

/-- The difference between the checksum of the record and that of the line. -/
def checksum (env : Env) (mem : Nat → UInt8) (lc : Lc) : Except Failure (UInt16 × Lc) :=
  match env.ftype with
  | .f_SREC => do
    let (data, lc') ← hexdata mem 1 { lc with len := lc.len + 1 }
    .ok ((~~~lc.sum &&& 0xFF) ^^^ data.toUInt8.toUInt16, lc')
  | .f_HEX => do
    let (_, lc') ← hexdata mem 1 { lc with len := lc.len + 1 }
    .ok (lc'.sum &&& 0xFF, lc')
  | .f_MEX => do
    let (data, lc') ← hexdata mem 2 { lc with len := lc.len + 2 }
    .ok (lc.sum - data.toUInt16, lc')

/-- The report of a wrong checksum; only the first one is displayed. -/
def Loader.report (st : Loader) (chi : UInt16) (ln : Nat) : Loader :=
  if chi ≠ 0 ∧ ¬st.displayed then { st with displayed := true, effects := st.effects ++ [.bad_checksum ln] } else st

def Loader.effect (st : Loader) (e : Effect) : Loader := { st with effects := st.effects ++ [e] }

/-- A record with data. -/
def Loader.data_record (env : Env) (mem : Nat → UInt8) (st : Loader) (addr : UInt32) (lc : Lc) :
    Except Failure (Lc × Loader) := do
  let addr := if env.ftype ≠ .f_SREC ∧ env.bs_addr_scale then addr / env.bs else addr
  let (lc, st) ← st.put_data env mem (addr.toUInt64 + st.subs_addr20 + st.subs_addr32) lc
  let (chi, lc) ← checksum env mem lc
  .ok (lc, st.report chi lc.ln)

/-- A line of the file: the state after it, and whether it was the last record. -/
def Loader.record (env : Env) (st : Loader) (line : Line) (behind : Nat → UInt8) (ln : Nat) :
    Except Failure (Loader × Bool) := do
  match ← header env line behind ln with
  | .skip => .ok (st, false)
  | .last => .ok (st, true)
  | .start addr => .ok (st.effect (.set_start_ip addr.toUInt64), false)
  | .linear base =>
    let base := base <<< 16
    .ok ({ st with subs_addr32 := (if env.bs_addr_scale then base / env.bs else base).toUInt64 }, false)
  | .segment base =>
    let base := base <<< 4
    .ok ({ st with subs_addr20 := (if env.bs_addr_scale then base / env.bs else base).toUInt64 }, false)
  | .start32 addr =>
    let code16 := env.has_code16_bit && addr &&& 1 != 0
    let st := if code16 then st.effect (.set_code16_mode addr.toUInt64) else st
    let addr := if code16 then addr &&& ~~~1 else addr
    .ok ((st.effect (.set_start_ip addr.toUInt64)).effect (.set_start_ea addr.toUInt64), false)
  | .other => .ok (st, false)
  | .data addr lc => do
    let (_, st) ← st.data_record env (line.mem behind) addr lc
    .ok (st, false)

/-- The loop over the lines, from line `ln` on. -/
def Loader.load_file (env : Env) (behind : Nat → Nat → UInt8) : Loader → Nat → List Line → Except Failure Loader
  | st, _, [] => .ok st
  | st, ln, line :: lines => do
    let (st, last) ← st.record env line (behind ln) ln
    if last then .ok st else st.load_file env behind (ln + 1) lines

end IdaSdk.HexLoader
