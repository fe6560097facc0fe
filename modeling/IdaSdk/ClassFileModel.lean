import Mathlib.Data.Nat.Basic
import IdaSdk.LibProgram

/-!
How the Java loader reads a class file. A file is a sequence of bytes; `loader` and `load_attributes`
move a position in it and count the bytes that are left in `FileSize`. What they put into the database
is left out, except for what decides how they go on reading.
-/

namespace IdaSdk.ClassFile

open Program

abbrev File := List UInt8

variable (file : File)

def File.u1 (p : Nat) : Nat := (file.getD p 0).toNat

def File.u2 (p : Nat) : Nat := file.u1 p * 0x100 + file.u1 (p + 1)

def File.u4 (p : Nat) : Nat := file.u2 p * 0x10000 + file.u2 (p + 2)

def CONSTANT_Utf8 := 1
def CONSTANT_Unicode := 2
def CONSTANT_Integer := 3
def CONSTANT_Float := 4
def CONSTANT_Long := 5
def CONSTANT_Double := 6
def CONSTANT_Class := 7
def CONSTANT_String := 8
def CONSTANT_Fieldref := 9
def CONSTANT_Methodref := 10
def CONSTANT_InterfaceMethodref := 11
def CONSTANT_NameAndType := 12
def CONSTANT_MethodHandle := 15
def CONSTANT_MethodType := 16
def CONSTANT_InvokeDynamic := 18

def HAS_FLDNAME := 0x02
def HAS_TYPEDSCR := 0x04
def HAS_CALLDSCR := 0x08
def HAS_CLSNAME := 0x10

def _OP_ONECLS := 0x0040
def _OP_VALPOS := 0x0200

structure const_desc_t where
  type : Nat
  flag : Nat
  _name : Nat
  _Sflags : Nat

inductive attr_parent_kind_t where
  | code
  | field
  | method
  | class_file
  deriving DecidableEq

inductive attr_t where
  | LineNumberTable
  | LocalVariableTable
  | LocalVariableTypeTable
  | StackMap
  | StackMapTable
  | ConstantValue
  | Code
  | Exceptions
  | RuntimeVisibleParameterAnnotations
  | RuntimeInvisibleParameterAnnotations
  | AnnotationDefault
  | SourceFile
  | InnerClasses
  | EnclosingMethod
  | SourceDebugExtension
  | BootstrapMethods
  | Signature
  | Synthetic
  | Deprecated
  | RuntimeVisibleAnnotations
  | RuntimeInvisibleAnnotations
  | UNKNOWN
  | TRUNCATED
  | NONAME
  deriving DecidableEq

/-- The constants that are stored, by their index; the names of attributes that can be formatted; what
the user and the file system answer. -/
structure Env where
  pool : Nat → Option const_desc_t
  fmtName : Nat → Option String
  pool_consistent : Bool
  MLD_FORCE : Bool
  MLD_EXTATR : Bool
  IDM_REQUNK : Bool
  ask_sde : Bool
  ask_unknown : Bool
  path_error : Nat → Option String
  write_error : Nat → Option String

section Pool

variable (env : Env)

/-- `LoadOpis(lm_normal, index, op)`; constants are stored for the valid indices only. -/
def Env.LoadOpis (index op : Nat) : Bool :=
  match env.pool index with
  | none => false
  | some p =>
      if index = 0 then false
      else if op < 0x20 then op = 0 || op = p.type
      else if op = 0xff then p.type = CONSTANT_Class && p.flag &&& HAS_CLSNAME ≠ 0
      else if p.type ≠ CONSTANT_Utf8 then false
      else if p.flag &&& [0, HAS_TYPEDSCR ||| HAS_CALLDSCR, HAS_TYPEDSCR, HAS_FLDNAME, 0,
          HAS_TYPEDSCR ||| HAS_CLSNAME, HAS_CALLDSCR, HAS_CLSNAME].getD (op / 0x20) 0 ≠ 0 then true
      -- the source compares two constants here, so a mere check never fails
      else op % 0x20 = 0

variable (index : Nat)

def Env.LoadNamedClass : Option Nat :=
  if env.LoadOpis index 0xff then (env.pool index).map const_desc_t._name else none

def Env.LoadFieldName : Bool := env.LoadOpis index (3 * 0x20 + CONSTANT_Utf8)

def Env.LoadFieldDscr : Bool := env.LoadOpis index (2 * 0x20 + CONSTANT_Utf8)

def Env.isSingleClass (val : Nat) : Bool :=
  env.LoadFieldDscr val && match env.pool val with
    | none => false
    | some co => co._Sflags &&& (_OP_VALPOS ||| _OP_ONECLS) = _OP_ONECLS

/-- The names that are looked for below each kind of parent, in this order. -/
def names : attr_parent_kind_t → List (String × attr_t)
  | .code => [("LineNumberTable", .LineNumberTable), ("LocalVariableTable", .LocalVariableTable),
      ("LocalVariableTypeTable", .LocalVariableTypeTable), ("StackMap", .StackMap),
      ("StackMapTable", .StackMapTable)]
  | .field => ("ConstantValue", .ConstantValue) :: common
  | .method => [("Code", .Code), ("Exceptions", .Exceptions),
      ("RuntimeVisibleParameterAnnotations", .RuntimeVisibleParameterAnnotations),
      ("RuntimeInvisibleParameterAnnotations", .RuntimeInvisibleParameterAnnotations),
      ("AnnotationDefault", .AnnotationDefault)] ++ common
  | .class_file => [("SourceFile", .SourceFile), ("InnerClasses", .InnerClasses),
      ("EnclosingMethod", .EnclosingMethod), ("SourceDebugExtension", .SourceDebugExtension),
      ("BootstrapMethods", .BootstrapMethods)] ++ common
where
  common : List (String × attr_t) := [("Signature", .Signature), ("Synthetic", .Synthetic),
    ("Deprecated", .Deprecated), ("RuntimeVisibleAnnotations", .RuntimeVisibleAnnotations),
    ("RuntimeInvisibleAnnotations", .RuntimeInvisibleAnnotations)]

def Env.attribute_type_from_str (apk : attr_parent_kind_t) : attr_t :=
  if !env.LoadFieldName index then .NONAME
  else
    match env.fmtName index with
    | none => .TRUNCATED
    | some str => (((names apk).find? fun x => x.1 = str).map Prod.snd).getD .UNKNOWN

end Pool

/-- How a load ends early. A loop of the source that never ends is `endless`. -/
inductive Abort where
  | loader_failure (msg : String)
  | error (msg : String)
  | endless
  deriving DecidableEq

inductive table_t where
  | fields
  | methods
  | exceptions
  | attributes
  deriving DecidableEq

/-- An attribute has been loaded, a table has been read, the load is finished. -/
inductive Event where
  | attribute (start length pos FileSize : Nat)
  | table (kind : table_t) (declared read : Nat)
  | finish (pos FileSize : Nat)
  deriving DecidableEq

structure ClassInfo where
  JDKsubver : Nat := 0
  SMF_mode : Bool := false
  encClass : Nat := 0
  annNodes : List Nat := []

structure SegInfo where
  CodeSize : Nat := 0
  thrNode : Bool := false
  smNode : Bool := false
  annNodes : List Nat := []

structure FieldInfo where
  annNodes : List Nat := []

/-- The local variables of `load_attributes`. -/
structure Locals where
  lvtb : Nat := 0
  lntb : Bool := false
  fatal : Nat

structure State where
  pos : Nat
  FileSize : Nat
  savesize : Int := -1
  sde : Bool := false
  bootstrap : Bool := false
  extattr : Bool
  requnk : Bool
  curClass : ClassInfo := {}
  curSeg : SegInfo := {}
  curField : FieldInfo := {}
  loc : Locals := ⟨0, false, 0⟩
  log : List Event := []

abbrev Load (α : Type) := Program State Abort α

def loader_failure {α : Type} (msg : String) : Load α := fail (.loader_failure msg)

def errtrunc {α : Type} : Load α := loader_failure "Premature end of file"

def record (e : Event) : Load Unit := modify fun s => { s with log := s.log ++ [e] }

/-! ### Reading -/

section Reading

variable (file : File)

/-- The position of the next `n` bytes, which are read. -/
def readData (n : Nat) : Load Nat := do
  let s ← get
  if s.FileSize < n then errtrunc
  else if file.length < s.pos + n then loader_failure "Input file read error"
  else
    modify fun s => { s with FileSize := s.FileSize - n, pos := s.pos + n }
    pure s.pos

def read1 : Load Nat := do
  let p ← readData file 1
  pure (file.u1 p)

def read2 : Load Nat := do
  let p ← readData file 2
  pure (file.u2 p)

def read4 : Load Nat := do
  let p ← readData file 4
  pure (file.u4 p)

variable (size : Nat)

def skipData : Load Unit := do
  let s ← get
  if s.FileSize < size then errtrunc
  else modify fun s => { s with FileSize := s.FileSize - size, pos := s.pos + size }

/-- One character of a UTF-8 string of which `size` bytes are left: how many are left after it, or
what is wrong. -/
def utf8_char : Load (Except String Nat) := do
  let c ← read1 file
  if c = 0 ∨ c ≥ 0xf0 then pure (.error "Illegal symbol encoding in CONSTANT_Utf8 (%u)")
  else if c < 0x80 then pure (.ok (size - 1))
  else if size - 1 = 0 then pure (.error "Illegal byte in CONSTANT_Utf8 (%u)")
  else
    let c2 ← read1 file
    if c2 &&& 0xc0 ≠ 0x80 then pure (.error "Illegal byte in CONSTANT_Utf8 (%u)")
    else if c &&& 0xe0 = 0xc0 then
      let cw := (c &&& 0x1f) * 0x40 + (c2 &&& 0x3f)
      if cw < 0x80 ∧ cw ≠ 0 then pure (.error "Illegal symbol encoding in CONSTANT_Utf8 (%u)")
      else pure (.ok (size - 2))
    else if size - 2 = 0 ∨ c &&& 0xf0 ≠ 0xe0 then pure (.error "Illegal byte in CONSTANT_Utf8 (%u)")
    else
      let c3 ← read1 file
      if c3 &&& 0xc0 ≠ 0x80 then pure (.error "Illegal byte in CONSTANT_Utf8 (%u)")
      else if ((c &&& 0x1f) * 0x40 + (c2 &&& 0x3f)) * 0x40 + (c3 &&& 0x3f) < 0x800 then
        pure (.error "Illegal symbol encoding in CONSTANT_Utf8 (%u)")
      else pure (.ok (size - 3))

def utf8_chars : Nat → Nat → Load (Except String Unit)
  | _, 0 => pure (.ok ())
  | 0, _ + 1 => fail .endless
  | fuel + 1, size + 1 => do
      let r ← utf8_char file (size + 1)
      match r with
      | .error msg => pure (.error msg)
      | .ok size => utf8_chars fuel size

/-- `LoadUtf8` for a constant. -/
def LoadUtf8 : Load Unit := do
  let size ← read2 file
  let r ← utf8_chars file size size
  match r with
  | .error msg => loader_failure msg
  | .ok () => pure ()

/-- `LoadUtf8` for the attribute `SourceDebugExtension`. -/
def LoadUtf8_sde : Load Bool := do
  let r ← utf8_chars file size size
  match r with
  | .error _ => pure false
  | .ok () => pure true

def badindex {α : Type} : Load α := loader_failure "Bad record in constant pool."

def read_index (maxCPindex : Nat) : Load Unit := do
  let k ← read2 file
  if k = 0 ∨ k > maxCPindex then badindex else pure ()

/-- One record of the constant pool: whether it takes two indices. -/
def load_constant (maxCPindex : Nat) : Load Bool := do
  let type ← read1 file
  if type = CONSTANT_Long ∨ type = CONSTANT_Double then
    let _ ← read4 file
    let _ ← read4 file
    pure true
  else if type = CONSTANT_Integer ∨ type = CONSTANT_Float then
    let _ ← read4 file
    pure false
  else if type = CONSTANT_NameAndType ∨ type = CONSTANT_Fieldref ∨ type = CONSTANT_Methodref ∨
      type = CONSTANT_InterfaceMethodref then
    read_index file maxCPindex
    read_index file maxCPindex
    pure false
  else if type = CONSTANT_Class ∨ type = CONSTANT_String ∨ type = CONSTANT_MethodType then
    read_index file maxCPindex
    pure false
  else if type = CONSTANT_Unicode then
    loader_failure "File contains CONSTANT_Unicode, which was removed from the standard in 1996, and is not supported by IDA"
  else if type = CONSTANT_Utf8 then
    LoadUtf8 file
    pure false
  else if type = CONSTANT_MethodHandle then
    let _ ← read1 file
    let _ ← read2 file
    pure false
  else if type = CONSTANT_InvokeDynamic then
    let _ ← read2 file
    read_index file maxCPindex
    pure false
  else loader_failure "Bad constant type 0x%x (%u)"

/-- The records of the constant pool for so many indices. -/
def load_constants (maxCPindex : Nat) : Nat → Load Unit
  | 0 => pure ()
  | 1 => do
      let wide ← load_constant file maxCPindex
      if wide then loader_failure "Premature end of constant pool" else pure ()
  | n + 2 => do
      let wide ← load_constant file maxCPindex
      if wide then load_constants maxCPindex n else load_constants maxCPindex (n + 1)

def load_constants_pool (env : Env) (maxCPindex : Nat) : Load Unit := do
  load_constants file maxCPindex maxCPindex
  if env.pool_consistent then pure ()
  else loader_failure "Bad reference (from %u to %u) in constant pool"

end Reading

end IdaSdk.ClassFile
