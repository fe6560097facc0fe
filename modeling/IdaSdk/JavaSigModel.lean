import Mathlib.Tactic.Common

/-!
The signature formatter of the Java module. `format_helper_t` walks over a UTF-16 string, prints the
Java text of the descriptor or signature in it and stops at the first thing it cannot read. A
function that returns `false` is `rejected`, with the state it leaves; reading a code unit behind
the end of the string would be an `overrun`. Recursion and loops run on fuel.
-/

namespace IdaSdk.JavaSig

def j_byte : UInt16 := 0x42              -- B
def j_char : UInt16 := 0x43              -- C
def j_double : UInt16 := 0x44            -- D
def j_float : UInt16 := 0x46             -- F
def j_int : UInt16 := 0x49               -- I
def j_long : UInt16 := 0x4A              -- J
def j_short : UInt16 := 0x53             -- S
def j_bool : UInt16 := 0x5A              -- Z
def j_void_ret : UInt16 := 0x56          -- V
def j_class : UInt16 := 0x4C             -- L
def j_typeref : UInt16 := 0x54           -- T
def j_array : UInt16 := 0x5B             -- [
def j_field_dlm : UInt16 := 0x2E         -- .
def j_clspath_dlm : UInt16 := 0x2F       -- /
def j_endclass : UInt16 := 0x3B          -- ;
def j_sign : UInt16 := 0x3C              -- <
def j_endsign : UInt16 := 0x3E           -- >
def j_tag : UInt16 := 0x3A               -- :
def j_parm_list_start : UInt16 := 0x28   -- (
def j_parm_list_end : UInt16 := 0x29     -- )
def j_throw : UInt16 := 0x5E             -- ^
def j_wild : UInt16 := 0x2A              -- *
def j_wild_e : UInt16 := 0x2B            -- +
def j_wild_s : UInt16 := 0x2D            -- -

/-- `tp_decl` without `void`. -/
def get_base_typename (tag : UInt16) (or_void : Bool) : Option String :=
  if tag = j_void_ret then (if or_void then some "void" else none)
  else if tag = j_byte then some "byte"
  else if tag = j_char then some "char"
  else if tag = j_double then some "double"
  else if tag = j_float then some "float"
  else if tag = j_int then some "int"
  else if tag = j_long then some "long"
  else if tag = j_short then some "short"
  else if tag = j_bool then some "boolean"
  else none

/-- What goes to the listing. -/
inductive Piece where
  | cp (c : UInt32)
  | line (s : String)
  | halfword (hw : UInt16)
  deriving DecidableEq, Repr

/-- What lies outside the formatter: the kernel's character table, and the listing's `putproc`,
which breaks the line and says how much fits on the next one, 0 when no line may follow. -/
structure Env where
  is_cp_graphical : UInt32 → Bool
  putproc : List Piece → Nat

/-- `tp` holds the `nutf16` code units from the source's `tp` on. -/
structure State where
  tp : List UInt16
  size : Int
  strcnt : Nat
  out : List Piece
  deriving DecidableEq, Repr

inductive Failure where
  | rejected (s : State)
  | badidb
  | overrun
  | outOfFuel
  deriving DecidableEq, Repr

abbrev Result := Except Failure State

variable (env : Env)

def ensure_remaining (needed : Int) (s : State) : Result :=
  if s.size < needed then
    if env.putproc s.out = 0 then .error (.rejected { s with size := 0 })
    else .ok { s with size := env.putproc s.out - needed, strcnt := s.strcnt + 1 }
  else .ok { s with size := s.size - needed }

def emit (needed : Int) (piece : Piece) (s : State) : Result := do
  let s ← ensure_remaining env needed s
  return { s with out := s.out ++ [piece] }

def out_cp (cp : UInt32) (s : State) : Result :=
  emit env 1 (.cp cp) s

def out_line (text : String) (s : State) : Result :=
  emit env text.length (.line text) s

variable (s : State)

def out_param_sep : Result :=
  out_line env ", " s

def out_array_dim : Result :=
  out_line env "[]" s

def out_utf16_escaped_halfword (hw : UInt16) (s : State) : Result :=
  emit env 6 (.halfword hw) s

def out_unicode_escaped_cp (cp : UInt32) (s : State) : Result :=
  if cp < 0x10000 then out_utf16_escaped_halfword env cp.toUInt16 s
  else do
    let leading := (0xD800 : UInt32) + (((cp - 0x10000) >>> 10) &&& 0x3FF)
    let tailing := (0xDC00 : UInt32) + (cp &&& 0x3FF)
    let s ← out_utf16_escaped_halfword env leading.toUInt16 s
    out_utf16_escaped_halfword env tailing.toUInt16 s

inductive sfx_type_t where
  | extends_
  | super_
  | implements_
  | throws_
  deriving DecidableEq, Repr

def sfx_type_t.text : sfx_type_t → String
  | extends_ => " extends "
  | super_ => " super "
  | implements_ => " implements "
  | throws_ => " throws "

def out_sfx (sfxt : sfx_type_t) (s : State) : Result :=
  out_line env sfxt.text s

def lookahead_utf16 : UInt16 :=
  match s.tp with
  | [] => 0
  | c :: _ => c

def discard_utf16_expect (expected : UInt16) (s : State) : Result :=
  match s.tp with
  | [] => .error (.rejected s)
  | c :: rest => if c = expected then .ok { s with tp := rest } else .error (.rejected s)

/-- The result of printing is not looked at. -/
def consume_utf16_expect (expected : UInt16) (s : State) : Result := do
  let s ← discard_utf16_expect expected s
  match out_cp env expected.toUInt32 s with
  | .ok s => return s
  | .error (.rejected s) => return s
  | .error e => .error e

variable (c : UInt16)

def is_lead_surrogate : Bool :=
  0xD800 ≤ c && c ≤ 0xDBFF

def is_tail_surrogate : Bool :=
  0xDC00 ≤ c && c ≤ 0xDFFF

def utf16_surrogates_to_cp (lead tail : UInt16) : UInt32 :=
  let high : UInt32 := (lead &&& 0x3FF).toUInt32
  let low : UInt32 := (tail &&& 0x3FF).toUInt32
  ((0x10000 : UInt32) + (high <<< 10)) ||| low

/-- The next code point and whether it is a whole one. It reads `*tp` without looking at `nutf16`. -/
def next_cp : Except Failure (Bool × UInt32 × State) :=
  match s.tp with
  | [] => .error .overrun
  | c :: rest =>
      if is_tail_surrogate c then .ok (false, c.toUInt32, { s with tp := rest })
      else if is_lead_surrogate c then
        match rest with
        | [] => .ok (false, c.toUInt32, { s with tp := rest })
        | t :: rest' =>
            if is_tail_surrogate t then .ok (true, utf16_surrogates_to_cp c t, { s with tp := rest' })
            else .ok (false, c.toUInt32, { s with tp := rest })
      else .ok (true, c.toUInt32, { s with tp := rest })

def is_BaseType (v : UInt16) : Bool :=
  v < 0x100 && (get_base_typename v false).isSome

def endsIdentifier : Bool :=
  c == j_field_dlm || c == j_endclass || c == j_array || c == j_clspath_dlm || c == j_sign ||
    c == j_endsign || c == j_tag

def parse_Identifier : Nat → State → Result
  | 0, _ => .error .outOfFuel
  | n + 1, s =>
      if s.tp = [] then .ok s
      else if endsIdentifier (lookahead_utf16 s) then .ok s
      else do
        let (ok, cp, s) ← next_cp s
        if ok && env.is_cp_graphical cp then
          let s ← out_cp env cp s
          parse_Identifier n s
        else
          let s ← out_unicode_escaped_cp env cp s
          parse_Identifier n s

/-! ### Types -/

def parse_BaseType : Result := do
  let (ok, cp, s) ← next_cp s
  if ok = false then .error (.rejected s)
  else if cp ≥ 0x10000 then .error (.rejected s)
  else
    match get_base_typename (cp.toUInt16 &&& 0xFF) false with
    | none => .error (.rejected s)
    | some tname => out_line env tname s

variable (n : Nat)

def parse_TypeVariableSignature (s : State) : Result := do
  let s ← discard_utf16_expect j_typeref s
  let s ← parse_Identifier env n s
  discard_utf16_expect j_endclass s

mutual

def parse_FieldTypeSignature : Nat → State → Result
  | 0, _ => .error .outOfFuel
  | n + 1, s =>
      if lookahead_utf16 s = j_class then parse_ClassTypeSignature n s
      else if lookahead_utf16 s = j_array then parse_ArrayTypeSignature n s
      else if lookahead_utf16 s = j_typeref then parse_TypeVariableSignature env n s
      else .error (.rejected s)

def parse_ClassTypeSignature : Nat → State → Result
  | 0, _ => .error .outOfFuel
  | n + 1, s => parse_class_desc n true true s

def parse_ArrayTypeSignature : Nat → State → Result
  | 0, _ => .error .outOfFuel
  | n + 1, s => do
      let s ← discard_utf16_expect j_array s
      let s ← parse_TypeSignature n s
      out_array_dim env s

def parse_SimpleClassTypeSignature : Nat → State → Result
  | 0, _ => .error .outOfFuel
  | n + 1, s => do
      let s ← parse_Identifier env n s
      parse_TypeArguments_opt n s

def parse_ClassTypeSignatureSuffix : Nat → State → Result
  | 0, _ => .error .outOfFuel
  | n + 1, s => do
      let s ← consume_utf16_expect env j_field_dlm s
      parse_SimpleClassTypeSignature n s

def parse_TypeSignature : Nat → State → Result
  | 0, _ => .error .outOfFuel
  | n + 1, s =>
      if is_BaseType (lookahead_utf16 s) then parse_BaseType env s
      else parse_FieldTypeSignature n s

def parse_TypeArgument : Nat → State → Result
  | 0, _ => .error .outOfFuel
  | n + 1, s =>
      let la := lookahead_utf16 s
      if la = j_wild then do
        let s ← discard_utf16_expect la s
        out_cp env 0x3F s
      else if la = j_wild_e ∨ la = j_wild_s then do
        let s ← discard_utf16_expect la s
        let s ← out_cp env 0x3F s
        let s ← out_sfx env (if la = j_wild_s then .super_ else .extends_) s
        parse_FieldTypeSignature n s
      else parse_FieldTypeSignature n s

def parse_TypeArguments : Nat → State → Result
  | 0, _ => .error .outOfFuel
  | n + 1, s => do
      let s ← consume_utf16_expect env j_sign s
      let s ← parse_TypeArguments.loop n 0 s
      consume_utf16_expect env j_endsign s

/-- The `do` loop of `parse_TypeArguments`. -/
def parse_TypeArguments.loop : Nat → UInt32 → State → Result
  | 0, _, _ => .error .outOfFuel
  | n + 1, cnt, s => do
      let s ← (if cnt > 0 then out_param_sep env s else .ok s)
      let s ← parse_TypeArgument n s
      if lookahead_utf16 s ≠ j_endsign then parse_TypeArguments.loop n (cnt + 1) s else .ok s

def parse_TypeArguments_opt : Nat → State → Result
  | 0, _ => .error .outOfFuel
  | n + 1, s => if lookahead_utf16 s = j_sign then parse_TypeArguments n s else .ok s

def parse_class_desc : Nat → Bool → Bool → State → Result
  | 0, _, _, _ => .error .outOfFuel
  | n + 1, type_arguments_allowed, expect_signature_boundaries, s => do
      let s ← (if expect_signature_boundaries then discard_utf16_expect j_class s else .ok s)
      let s ← parse_class_desc.names n type_arguments_allowed expect_signature_boundaries s
      -- `parse_class_desc_ok`
      if expect_signature_boundaries then discard_utf16_expect j_endclass s else .ok s

/-- The first loop of `parse_class_desc`; it returns at `goto parse_class_desc_ok`. -/
def parse_class_desc.names : Nat → Bool → Bool → State → Result
  | 0, _, _, _ => .error .outOfFuel
  | n + 1, type_arguments_allowed, expect_signature_boundaries, s => do
      let s ← parse_Identifier env n s
      let la := lookahead_utf16 s
      if la = j_clspath_dlm then
        let s ← out_cp env 0x2E s
        let s ← discard_utf16_expect j_clspath_dlm s
        parse_class_desc.names n type_arguments_allowed expect_signature_boundaries s
      else if la = j_sign then
        if type_arguments_allowed then parse_TypeArguments n s
        else .error (.rejected s)
      else if la = j_field_dlm then parse_class_desc.suffixes n s
      else if la = j_endclass then .ok s
      else if la = 0 ∧ expect_signature_boundaries = false then .ok s
      else .error (.rejected s)

/-- The loop over `ClassTypeSignatureSuffix`. -/
def parse_class_desc.suffixes : Nat → State → Result
  | 0, _ => .error .outOfFuel
  | n + 1, s =>
      if lookahead_utf16 s = j_endclass then .ok s
      else if lookahead_utf16 s = j_field_dlm then do
        let s ← parse_ClassTypeSignatureSuffix n s
        parse_class_desc.suffixes n s
      else .error (.rejected s)

end

def parse_ClassBound (s : State) : Result := do
  let s ← discard_utf16_expect j_tag s
  if lookahead_utf16 s ≠ j_tag then
    let s ← out_sfx env .extends_ s
    parse_FieldTypeSignature env n s
  else .ok s

def parse_InterfaceBound (s : State) : Result := do
  let s ← discard_utf16_expect j_tag s
  let s ← out_sfx env .implements_ s
  parse_FieldTypeSignature env n s

/-- The `while` loop of `parse_FormalTypeParameter`. -/
def parse_FormalTypeParameter.bounds : Nat → State → Result
  | 0, _ => .error .outOfFuel
  | n + 1, s =>
      if s.tp = [] then .ok s
      else if lookahead_utf16 s ≠ j_tag then .ok s
      else do
        let s ← parse_InterfaceBound env n s
        parse_FormalTypeParameter.bounds n s

def parse_FormalTypeParameter (n : Nat) (s : State) : Result := do
  let s ← parse_Identifier env n s
  let s ← parse_ClassBound env n s
  parse_FormalTypeParameter.bounds env n s

/-- The loop of `parse_FormalTypeParameters`, which counts a parameter twice. -/
def parse_FormalTypeParameters.loop : Nat → UInt32 → State → Result
  | 0, _, _ => .error .outOfFuel
  | n + 1, cnt, s => do
      let s ← (if cnt > 0 then out_param_sep env s else .ok s)
      let s ← parse_FormalTypeParameter env n s
      if lookahead_utf16 s = j_endsign then .ok s
      else parse_FormalTypeParameters.loop n (cnt + 2) s

def parse_FormalTypeParameters (n : Nat) (s : State) : Result := do
  let s ← consume_utf16_expect env j_sign s
  let s ← parse_FormalTypeParameters.loop env n 0 s
  consume_utf16_expect env j_endsign s

def parse_SuperclassSignature (s : State) : Result :=
  parse_ClassTypeSignature env n s

def parse_SuperinterfaceSignature (s : State) : Result :=
  parse_ClassTypeSignature env n s

/-- The loop of `parse_ClassSignature`. -/
def parse_ClassSignature.interfaces : Nat → UInt32 → State → Result
  | 0, _, _ => .error .outOfFuel
  | n + 1, impl_cnt, s =>
      if lookahead_utf16 s = j_class then do
        let s ← (if impl_cnt = 0 then out_sfx env .implements_ s else out_param_sep env s)
        let s ← parse_SuperinterfaceSignature env n s
        parse_ClassSignature.interfaces n (impl_cnt + 1) s
      else .ok s

def parse_ClassSignature (n : Nat) (s : State) : Result := do
  let s ← (if lookahead_utf16 s = j_sign then parse_FormalTypeParameters env n s else .ok s)
  let s ← out_sfx env .extends_ s
  let s ← parse_SuperclassSignature env n s
  parse_ClassSignature.interfaces env n 0 s

/-- `void`, as `parse_ReturnType` and `parse_ReturnDescriptor` read it. -/
def parse_void : Result := do
  let s ← out_line env "void" s
  discard_utf16_expect j_void_ret s

def parse_ReturnType (s : State) : Result :=
  if lookahead_utf16 s = j_void_ret then parse_void env s
  else parse_TypeSignature env n s

def parse_ThrowsSignature : Nat → UInt32 → State → Result
  | 0, _, _ => .error .outOfFuel
  | n + 1, cnt, s =>
      if s.tp = [] then .ok s
      else do
        let s ← discard_utf16_expect j_throw s
        let s ← (if cnt = 0 then out_sfx env .throws_ s else out_param_sep env s)
        let s ←
          (if lookahead_utf16 s = j_class then parse_ClassTypeSignature env n s
          else parse_TypeVariableSignature env n s)
        parse_ThrowsSignature n (cnt + 1) s

/-- The loop of `parse_MethodParams`. -/
def parse_MethodParams.loop : Nat → UInt32 → State → Result
  | 0, _, _ => .error .outOfFuel
  | n + 1, cnt, s =>
      if s.tp = [] then .ok s
      else if lookahead_utf16 s = j_parm_list_end then .ok s
      else do
        let s ← (if cnt > 0 then out_param_sep env s else .ok s)
        let s ← parse_TypeSignature env n s
        parse_MethodParams.loop n (cnt + 1) s

def parse_MethodParams (n : Nat) (s : State) : Result := do
  let s ← consume_utf16_expect env j_parm_list_start s
  let s ← parse_MethodParams.loop env n 0 s
  consume_utf16_expect env j_parm_list_end s

def parse_ObjectType (s : State) : Result :=
  parse_class_desc env n true true s

mutual

def parse_FieldType : Nat → State → Result
  | 0, _ => .error .outOfFuel
  | n + 1, s =>
      if lookahead_utf16 s = j_class then parse_ObjectType env n s
      else if lookahead_utf16 s = j_array then parse_ArrayType n s
      else if is_BaseType (lookahead_utf16 s) = false then .error (.rejected s)
      else parse_BaseType env s

def parse_ArrayType : Nat → State → Result
  | 0, _ => .error .outOfFuel
  | n + 1, s => do
      let s ← discard_utf16_expect j_array s
      let s ← parse_FieldType n s
      out_array_dim env s

end

def parse_FieldDescriptor (s : State) : Result :=
  parse_FieldType env n s

def parse_ParameterDescriptor (s : State) : Result :=
  parse_FieldType env n s

def parse_ReturnDescriptor (s : State) : Result :=
  if lookahead_utf16 s = j_void_ret then parse_void env s
  else parse_FieldType env n s

/-- The loop of `parse_MethodDescriptor`; unlike that of `parse_MethodParams` it does not look at
`nutf16`. -/
def parse_MethodDescriptor.loop : Nat → UInt32 → State → Result
  | 0, _, _ => .error .outOfFuel
  | n + 1, cnt, s =>
      if lookahead_utf16 s ≠ j_parm_list_end then do
        let s ← (if cnt > 0 then out_param_sep env s else .ok s)
        let s ← parse_ParameterDescriptor env n s
        parse_MethodDescriptor.loop n (cnt + 1) s
      else .ok s

def parse_MethodDescriptor (n : Nat) (s : State) : Result := do
  let s ← consume_utf16_expect env j_parm_list_start s
  let s ← parse_MethodDescriptor.loop env n 0 s
  let s ← consume_utf16_expect env j_parm_list_end s
  parse_ReturnDescriptor env n s

def parse_UnqualifiedName : Nat → State → Result
  | 0, _ => .error .outOfFuel
  | n + 1, s =>
      if s.tp = [] then .ok s
      else do
        let (ok, cp, s) ← next_cp s
        if ok && env.is_cp_graphical cp then
          if cp = j_field_dlm.toUInt32 ∨ cp = j_endclass.toUInt32 ∨ cp = j_array.toUInt32 ∨
              cp = j_clspath_dlm.toUInt32 then .error (.rejected s)
          else
            let s ← out_cp env cp s
            parse_UnqualifiedName n s
        else
          let s ← out_unicode_escaped_cp env cp s
          parse_UnqualifiedName n s

/-- The modes of `format` that read a descriptor, a signature or a name. -/
inductive fmt_t where
  | fmt_FieldDescriptor
  | fmt_method_FormalTypeParameters
  | fmt_method_ReturnType
  | fmt_method_TypeSignature
  | fmt_method_ThrowsSignature
  | fmt_ClassSignature
  | fmt_FieldDescriptor_nospace
  | fmt_ClassName_or_Array
  | fmt_ClassName
  | fmt_fullname
  | fmt_UnqualifiedName
  deriving DecidableEq, Repr

/-- `off_TypeSignature` and `off_ThrowsSignature` share one word. -/
structure Offsets where
  ReturnType : Nat
  TypeSignature : UInt16
  ThrowsSignature : UInt16
  deriving DecidableEq, Repr

/-- The checks of `format` before the parts of a method signature; they end in `BADIDB`. -/
def badOffsets (offs : Offsets) (tp : List UInt16) : Bool :=
  offs.ReturnType = 0 || offs.ReturnType ≥ tp.length ||
    tp[offs.ReturnType - 1]? ≠ some j_parm_list_end ||
    ((offs.TypeSignature ≠ 0 || offs.ThrowsSignature ≠ 0) &&
      (offs.TypeSignature.toNat ≥ offs.ReturnType ||
        tp[offs.TypeSignature.toNat]? ≠ some j_parm_list_start ||
        (offs.ThrowsSignature ≠ 0 &&
          (offs.ThrowsSignature.toNat ≤ offs.ReturnType || offs.ThrowsSignature.toNat ≥ tp.length ||
            tp[offs.ThrowsSignature.toNat]? ≠ some j_throw))))

/-- The part of `tp` that `format` leaves to the reader of the mode. -/
def State.slice (first last : Nat) : State :=
  { s with tp := (s.tp.take last).drop first }

def format_method (mode : fmt_t) (offs : Offsets) (n : Nat) (s : State) : Result :=
  if badOffsets offs s.tp then .error .badidb
  else
    match mode with
    | .fmt_method_FormalTypeParameters =>
        if offs.TypeSignature = 0 then .ok s
        else if s.tp.head? ≠ some j_sign then .error .badidb
        else do
          let s ← parse_FormalTypeParameters env n (s.slice 0 offs.TypeSignature.toNat)
          out_cp env 0x20 s
    | .fmt_method_TypeSignature =>
        parse_MethodParams env n (s.slice offs.TypeSignature.toNat offs.ReturnType)
    | .fmt_method_ReturnType => do
        let last := if offs.ThrowsSignature > 0 then offs.ThrowsSignature.toNat else s.tp.length
        let s ← parse_ReturnType env n (s.slice offs.ReturnType last)
        out_cp env 0x20 s
    | _ =>
        if offs.ThrowsSignature = 0 then .ok s
        else do
          let s ← parse_ThrowsSignature env n 0 (s.slice offs.ThrowsSignature.toNat s.tp.length)
          out_cp env 0x20 s

/-- `ok` at the end of `format`, with the state it leaves. -/
def format (mode : fmt_t) (offs : Offsets) (n : Nat) (s : State) : Result :=
  match mode with
  | .fmt_ClassSignature =>
      if lookahead_utf16 s = j_class then parse_ClassTypeSignature env n s
      else if lookahead_utf16 s = j_sign then parse_ClassSignature env n s
      else .error (.rejected s)
  | .fmt_FieldDescriptor_nospace =>
      if lookahead_utf16 s = j_class then parse_ClassTypeSignature env n s
      else if lookahead_utf16 s = j_sign then parse_ClassSignature env n s
      else if lookahead_utf16 s = j_parm_list_start then parse_MethodDescriptor env n s
      else parse_TypeSignature env n s
  | .fmt_FieldDescriptor => do
      let s ← parse_FieldDescriptor env n s
      out_cp env 0x20 s
  | .fmt_fullname =>
      if lookahead_utf16 s = j_parm_list_start then parse_MethodDescriptor env n s
      else if lookahead_utf16 s = j_class then parse_ClassTypeSignature env n s
      else if lookahead_utf16 s = j_array then parse_ArrayType env n s
      else parse_class_desc env n false false s
  | .fmt_ClassName | .fmt_ClassName_or_Array =>
      if lookahead_utf16 s = j_array then parse_ArrayType env n s
      else parse_class_desc env n false false s
  | .fmt_UnqualifiedName => parse_UnqualifiedName env n s
  | mode => format_method env mode offs n s

end IdaSdk.JavaSig
