import IdaSdk.LibPacking
import Mathlib.Data.Nat.Bitwise

/-!
PDB symbols from a remote server. The server packs the properties that a symbol has; the client unpacks them into one
block of memory, by the order of the token bits, and finds a property by the numbers of those before it.
Variants are numbers.
-/

namespace IdaSdk.PdbSymbols

/-! ### Tokens

The `sym_token_t` `1 << n` is given by `n`. -/

abbrev t_constType : Nat := 0
abbrev t_isStatic : Nat := 1
abbrev t_virtual : Nat := 2
abbrev t_volatileType : Nat := 3
abbrev t_code : Nat := 4
abbrev t_hasAssignmentOperator : Nat := 5
abbrev t_hasCastOperator : Nat := 6
abbrev t_function : Nat := 7
abbrev t_constructor : Nat := 8
abbrev t_virtualBaseClass : Nat := 9
abbrev t_isCxxReturnUdt : Nat := 10
abbrev t_backEndMajor : Nat := 11
abbrev t_baseType : Nat := 12
abbrev t_bitPosition : Nat := 13
abbrev t_callingConvention : Nat := 14
abbrev t_count : Nat := 15
abbrev t_dataKind : Nat := 16
abbrev t_locationType : Nat := 17
abbrev t_registerId : Nat := 18
abbrev t_relativeVirtualAddress : Nat := 19
abbrev t_symIndexId : Nat := 20
abbrev t_symTag : Nat := 21
abbrev t_udtKind : Nat := 22
abbrev t_virtualBaseOffset : Nat := 23
abbrev t_machineType : Nat := 24
abbrev t_classParentId : Nat := 25
abbrev t_typeId : Nat := 26
abbrev t_lexicalParentId : Nat := 27
abbrev t_length : Nat := 28
abbrev t_name : Nat := 29
abbrev t_offset : Nat := 30
abbrev t_virtualAddress : Nat := 31
abbrev t_value : Nat := 32
abbrev t_end : Nat := 33

/-- `sym_data_t::type_t`. -/
inductive type_t where
  | t_bool | t_dword | t_dword64 | t_string | t_long | t_ulonglong | t_variant
deriving DecidableEq

namespace type_t

def start : type_t → Nat
  | t_bool => t_constType
  | t_dword => t_backEndMajor
  | t_dword64 => t_length
  | t_string => t_name
  | t_long => t_offset
  | t_ulonglong => t_virtualAddress
  | t_variant => t_value

/-- The array `ends`. -/
def last : type_t → Nat
  | t_bool => t_isCxxReturnUdt
  | t_dword => t_lexicalParentId
  | t_dword64 => t_length
  | t_string => t_name
  | t_long => t_offset
  | t_ulonglong => t_virtualAddress
  | t_variant => t_value

/-- The array `sizes`. -/
def size : type_t → Nat
  | t_bool => 1
  | t_dword => 4
  | t_dword64 => 8
  | t_string => 8
  | t_long => 4
  | t_ulonglong => 8
  | t_variant => 24

def all : List type_t := [t_bool, t_dword, t_dword64, t_string, t_long, t_ulonglong, t_variant]

end type_t

/-- The type of a token: `is_sym_token_bool` and so on, in this order. -/
def type_of (t : Nat) : Option type_t := type_t.all.find? fun ty => ty.start ≤ t && t ≤ ty.last

/-- `VARTYPE`, the kinds of numbers. -/
inductive VARTYPE where
  | VT_I2 | VT_I4 | VT_R4 | VT_R8 | VT_I1 | VT_UI1 | VT_UI2 | VT_UI4 | VT_I8 | VT_UI8 | VT_INT | VT_UINT
deriving DecidableEq

namespace VARTYPE

def code : VARTYPE → UInt16
  | VT_I2 => 0x02
  | VT_I4 => 0x03
  | VT_R4 => 0x04
  | VT_R8 => 0x05
  | VT_I1 => 0x10
  | VT_UI1 => 0x11
  | VT_UI2 => 0x12
  | VT_UI4 => 0x13
  | VT_I8 => 0x14
  | VT_UI8 => 0x15
  | VT_INT => 0x16
  | VT_UINT => 0x17

def all : List VARTYPE := [VT_I2, VT_I4, VT_R4, VT_R8, VT_I1, VT_UI1, VT_UI2, VT_UI4, VT_I8, VT_UI8, VT_INT, VT_UINT]

end VARTYPE

/-- `VARIANT`: a kind, and the bytes of the union. -/
structure VARIANT where
  vt : VARTYPE
  bytes : UInt64
deriving DecidableEq

/-- What `pack_dw` and the others need. The functions are not part of the sources; the buffers they write to have
these sizes. -/
structure Packers where
  dw : Codec UInt16
  dd : Codec UInt32
  dq : Codec UInt64
  dw_packed_size : ∀ x, (dw.pack x).length ≤ 3
  dd_packed_size : ∀ x, (dd.pack x).length ≤ 5
  dq_packed_size : ∀ x, (dq.pack x).length ≤ 10

section
variable (p : Packers)

/-- The member of the union that a kind has. -/
def pack_member (var : VARIANT) : List UInt8 :=
  match var.vt with
  | .VT_I2 | .VT_UI2 => p.dw.pack var.bytes.toUInt16
  | .VT_I4 | .VT_UI4 | .VT_R4 | .VT_INT | .VT_UINT => p.dd.pack var.bytes.toUInt32
  | .VT_R8 | .VT_I8 | .VT_UI8 => p.dq.pack var.bytes
  | .VT_I1 | .VT_UI1 => [var.bytes.toUInt8]

def serialize (var : VARIANT) : List UInt8 := p.dw.pack var.vt.code ++ pack_member p var

def unpack_db : List UInt8 → UInt8 × List UInt8
  | [] => (0, [])
  | b :: rest => (b, rest)

def unpack_member (vt : VARTYPE) (buf : List UInt8) : UInt64 × List UInt8 :=
  match vt with
  | .VT_I2 | .VT_UI2 => ((p.dw.unpack buf).1.toUInt64, (p.dw.unpack buf).2)
  | .VT_I4 | .VT_UI4 | .VT_R4 | .VT_INT | .VT_UINT => ((p.dd.unpack buf).1.toUInt64, (p.dd.unpack buf).2)
  | .VT_R8 | .VT_I8 | .VT_UI8 => p.dq.unpack buf
  | .VT_I1 | .VT_UI1 => ((unpack_db buf).1.toUInt64, (unpack_db buf).2)

/-- `varser_t::deserialize`: the variant if its kind is known, and what is left to read. -/
def deserialize (buf : List UInt8) : Option VARIANT × List UInt8 :=
  match VARTYPE.all.find? fun vt => vt.code = (p.dw.unpack buf).1 with
  | none => (none, (p.dw.unpack buf).2)
  | some vt => (some ⟨vt, (unpack_member p vt (p.dw.unpack buf).2).1⟩, (unpack_member p vt (p.dw.unpack buf).2).2)

/-- `IDiaSymbol`: what its getters return. `symid` is the index of the symbol that a getter returns. -/
structure DiaSymbol where
  bool : Nat → Option UInt8
  dword : Nat → Option UInt32
  symid : Nat → Option UInt32
  length : Option UInt64
  name : Option { s : List UInt8 // 0 ∉ s }
  offset : Option Int32
  virtualAddress : Option UInt64
  value : Option VARIANT

/-- A property that `pack_symbol` asks for, with the bytes that it appends. -/
structure Proc where
  token : Nat
  bytes : DiaSymbol → Option (List UInt8)

variable (t : Nat)

def PROC_BOOL : Proc := ⟨t, fun sym => (sym.bool t).map fun data => [data]⟩

def PROC_DWORD : Proc := ⟨t, fun sym => (sym.dword t).map fun data => p.dd.pack data⟩

def PROC_SYMID_FROM_SYM : Proc := ⟨t, fun sym => (sym.symid t).map fun id => p.dd.pack id⟩

def PROC_DWORD64 : Proc := ⟨t, fun sym => sym.length.map fun data => p.dq.pack data⟩

def PROC_STR : Proc := ⟨t, fun sym => sym.name.map fun s => s.val ++ [0]⟩

def PROC_LONG : Proc := ⟨t, fun sym => sym.offset.map fun data => p.dd.pack data.toUInt32⟩

/-- The cast to `LONG`, and back to 64 bits for `pack_dq`. -/
def as_long (x : UInt64) : UInt64 := x.toUInt32.toInt32.toInt64.toUInt64

def PROC_ULONGLONG : Proc :=
  ⟨t, fun sym => sym.virtualAddress.map fun data => p.dq.pack (as_long data)⟩

def PROC_VARIANT : Proc := ⟨t, fun sym => sym.value.map fun var => serialize p var⟩

/-- The properties in the order in which `pack_symbol` asks for them. -/
def procs : List Proc :=
  [PROC_BOOL t_constType, PROC_BOOL t_isStatic, PROC_BOOL t_virtual, PROC_BOOL t_volatileType, PROC_BOOL t_code,
    PROC_BOOL t_hasAssignmentOperator, PROC_BOOL t_hasCastOperator, PROC_BOOL t_function, PROC_BOOL t_constructor,
    PROC_BOOL t_virtualBaseClass, PROC_BOOL t_isCxxReturnUdt,
    PROC_DWORD p t_backEndMajor, PROC_DWORD p t_baseType, PROC_DWORD p t_bitPosition, PROC_DWORD p t_callingConvention,
    PROC_DWORD p t_count, PROC_DWORD p t_dataKind, PROC_DWORD p t_locationType, PROC_DWORD p t_registerId,
    PROC_DWORD p t_relativeVirtualAddress, PROC_DWORD p t_symIndexId, PROC_DWORD p t_symTag, PROC_DWORD p t_udtKind,
    PROC_DWORD p t_virtualBaseOffset,
    PROC_SYMID_FROM_SYM p t_classParentId, PROC_SYMID_FROM_SYM p t_typeId, PROC_SYMID_FROM_SYM p t_lexicalParentId,
    PROC_DWORD64 p t_length, PROC_STR t_name, PROC_LONG p t_offset, PROC_ULONGLONG p t_virtualAddress,
    PROC_VARIANT p t_value]

/-- `present` and `sym_storage` after some properties. -/
def pack_props (sym : DiaSymbol) : List Proc → Nat × List UInt8 → Nat × List UInt8
  | [], st => st
  | proc :: rest, st =>
    match proc.bytes sym with
    | none => pack_props sym rest st
    | some bytes => pack_props sym rest (st.1 ||| 2 ^ proc.token, st.2 ++ bytes)

variable (sym : DiaSymbol)

def present_of : Nat := (pack_props sym (procs p) (0, [])).1

def sym_storage : List UInt8 := (pack_props sym (procs p) (0, [])).2

/-- `pack_symbol`: what it appends to the storage; nothing for a symbol without an index. -/
def pack_symbol : Option (List UInt8) :=
  (sym.dword t_symIndexId).map fun id =>
    p.dd.pack id ++ (p.dq.pack (UInt64.ofNat (present_of p sym)) ++
      (p.dd.pack (UInt32.ofNat (sym_storage p sym).length) ++ sym_storage p sym))

def raw_dd (n : Nat) : List UInt8 :=
  [Packing.byteOf n 0, Packing.byteOf n 1, Packing.byteOf n 2, Packing.byteOf n 3]

/-- The storage that `perform` leaves for a list of symbols. -/
def perform (syms : List DiaSymbol) : List UInt8 :=
  raw_dd (syms.filterMap (pack_symbol p)).length ++ (syms.filterMap (pack_symbol p)).flatten

/-! ### The client -/

/-- An object in `sym_data_t::data`. A string is behind its pointer. -/
inductive Item where
  | bool (x : UInt8)
  | dword (x : UInt32)
  | dword64 (x : UInt64)
  | string (s : List UInt8)
  | long (x : Int32)
  | ulonglong (x : UInt64)
  | variant (x : VARIANT)
deriving DecidableEq

def Item.type : Item → type_t
  | bool _ => .t_bool
  | dword _ => .t_dword
  | dword64 _ => .t_dword64
  | string _ => .t_string
  | long _ => .t_long
  | ulonglong _ => .t_ulonglong
  | variant _ => .t_variant

def Item.size (x : Item) : Nat := x.type.size

/-- `INTERR` and `QASSERT` of `sym_data_t`; `null` is a read through a null pointer. -/
inductive Fault where
  | interr30200 | assert30201 | assert30202 | assert30204 | null
deriving DecidableEq

/-- `sym_data_t`. -/
structure sym_data_t where
  present : Nat
  data : List Item
  counters : type_t → Nat

def token_present (present : Nat) (t : Nat) : Bool := present &&& 2 ^ t = 2 ^ t

/-- `unpack_str`: the string and what follows it; nothing without a terminating zero. -/
def unpack_str (buf : List UInt8) : Option (List UInt8 × List UInt8) :=
  if 0 ∈ buf then some (buf.takeWhile (· ≠ 0), (buf.dropWhile (· ≠ 0)).drop 1) else none

/-- The value of a token of this type; a variant may be of an unknown kind. -/
def read_item (ty : type_t) (buf : List UInt8) : Option Item × List UInt8 :=
  match ty with
  | .t_bool => (some (.bool (unpack_db buf).1), (unpack_db buf).2)
  | .t_dword => (some (.dword (p.dd.unpack buf).1), (p.dd.unpack buf).2)
  | .t_dword64 => (some (.dword64 (p.dq.unpack buf).1), (p.dq.unpack buf).2)
  | .t_string =>
    match unpack_str buf with
    | some (s, rest) => (some (.string s), rest)
    | none => (some (.string []), buf)
  | .t_long => (some (.long (p.dd.unpack buf).1.toInt32), (p.dd.unpack buf).2)
  | .t_ulonglong => (some (.ulonglong (p.dq.unpack buf).1), (p.dq.unpack buf).2)
  | .t_variant => ((deserialize p buf).1.map .variant, (deserialize p buf).2)

variable (d : sym_data_t)

/-- `counters[ty]++`, and what was read is appended. -/
def sym_data_t.push (ty : type_t) (item : Option Item) : sym_data_t :=
  { d with data := d.data ++ item.toList, counters := fun ty' => if ty' = ty then d.counters ty' + 1 else d.counters ty' }

/-- The loop over the token bits. -/
def unpack_tokens : List Nat → sym_data_t → List UInt8 → Except Fault (sym_data_t × List UInt8)
  | [], d, buf => .ok (d, buf)
  | t :: ts, d, buf =>
    if token_present d.present t then
      match type_of t with
      | none => .error .interr30200
      | some ty => unpack_tokens ts (d.push ty (read_item p ty buf).1) (read_item p ty buf).2
    else unpack_tokens ts d buf

def data_size (data : List Item) : Nat := (data.map Item.size).sum

/-- The constructor `sym_data_t::sym_data_t` for packed data. -/
def sym_data (tokens : Nat) (buf : List UInt8) : Except Fault sym_data_t :=
  match unpack_tokens p (List.range t_end) ⟨tokens, [], fun _ => 0⟩ buf with
  | .error e => .error e
  | .ok (d, rest) =>
    if data_size d.data ≠ (type_t.all.map fun ty => d.counters ty * ty.size).sum then .error .assert30201
    else if rest ≠ [] then .error .assert30202
    else .ok d

/-- The first loop of `any_ptr`: the bytes to skip, and the size of the type. -/
def skip_types (d : sym_data_t) (token : Nat) : List type_t → Nat → Option (Nat × Nat)
  | [], _ => none
  | ty :: tys, ptr => if token ≤ ty.last then some (ptr, ty.size) else skip_types d token tys (ptr + d.counters ty * ty.size)

/-- The second loop of `any_ptr`. -/
def skip_tokens (d : sym_data_t) (token : Nat) (type_size : Nat) : List Nat → Nat → Option Nat
  | [], _ => none
  | t :: ts, ptr =>
    if token_present d.present t then
      if t = token then some ptr else skip_tokens d token type_size ts (ptr + type_size)
    else skip_tokens d token type_size ts ptr

/-- `any_ptr`: where the value of a token is in the data. -/
def any_ptr (token start last : Nat) : Except Fault (Option Nat) :=
  if token_present d.present token then
    match skip_types d token type_t.all 0 with
    | none => .error .assert30204
    | some (ptr, type_size) => .ok (skip_tokens d token type_size (List.range' start (last + 1 - start)) ptr)
  else .ok none

def item_at : List Item → Nat → Option Item
  | [], _ => none
  | x :: xs, off => if off = 0 then some x else if off < x.size then none else item_at xs (off - x.size)

/-- `READ_IF_FOUND`: the object behind the pointer, if there is one. -/
def read_if_found (ty : type_t) (token : Nat) : Except Fault (Option Item) :=
  match any_ptr d token ty.start ty.last with
  | .error e => .error e
  | .ok none => .ok none
  | .ok (some off) =>
    match item_at d.data off with
    | none => .error .null
    | some item => .ok (some item)

/-- A value of the right type. -/
def typed {α : Type} (f : Item → Option α) (r : Except Fault (Option Item)) : Except Fault (Option α) :=
  match r with
  | .error e => .error e
  | .ok none => .ok none
  | .ok (some item) =>
    match f item with
    | none => .error .null
    | some x => .ok (some x)

def get_bool (token : Nat) : Except Fault (Option UInt8) :=
  typed (fun | .bool x => some x | _ => none) (read_if_found d .t_bool token)

def get_dword (token : Nat) : Except Fault (Option UInt32) :=
  typed (fun | .dword x => some x | _ => none) (read_if_found d .t_dword token)

def get_dword64 (token : Nat) : Except Fault (Option UInt64) :=
  typed (fun | .dword64 x => some x | _ => none) (read_if_found d .t_dword64 token)

def get_string (token : Nat) : Except Fault (Option (List UInt8)) :=
  typed (fun | .string x => some x | _ => none) (read_if_found d .t_string token)

def get_long (token : Nat) : Except Fault (Option Int32) :=
  typed (fun | .long x => some x | _ => none) (read_if_found d .t_long token)

def get_ulonglong (token : Nat) : Except Fault (Option UInt64) :=
  typed (fun | .ulonglong x => some x | _ => none) (read_if_found d .t_ulonglong token)

def get_variant (token : Nat) : Except Fault (Option VARIANT) :=
  typed (fun | .variant x => some x | _ => none) (read_if_found d .t_variant token)

/-- `build_and_register_sym_data`: the index and the symbol that is put into the cache, and what follows. -/
def build_and_register_sym_data (raw : List UInt8) : Except Fault ((UInt32 × sym_data_t) × List UInt8) :=
  match p.dd.unpack raw with
  | (child_sym, raw) =>
    match p.dq.unpack raw with
    | (tokens, raw) =>
      match p.dd.unpack raw with
      | (datasz, raw) =>
        if datasz.toNat ≤ raw.length then
          (sym_data p tokens.toNat (raw.take datasz.toNat)).map fun d => ((child_sym, d), raw.drop datasz.toNat)
        else .error .null

def build_loop : Nat → List UInt8 → Except Fault (List (UInt32 × sym_data_t) × List UInt8)
  | 0, raw => .ok ([], raw)
  | n + 1, raw =>
    match build_and_register_sym_data p raw with
    | .error e => .error e
    | .ok (created, raw) =>
      match build_loop n raw with
      | .error e => .error e
      | .ok (rest, raw) => .ok (created :: rest, raw)

/-- `handle_fetch_response`: the symbols that are created, in order, and what is left of the reply. -/
def handle_fetch_response (raw : List UInt8) : Except Fault (List (UInt32 × sym_data_t) × List UInt8) :=
  match raw with
  | b0 :: b1 :: b2 :: b3 :: rest =>
    build_loop p (b0.toNat + 256 * b1.toNat + 65536 * b2.toNat + 16777216 * b3.toNat) rest
  | _ => build_loop p 0 raw

end

end IdaSdk.PdbSymbols
