import IdaSdk.PdbSymbolsReply
import Mathlib.Data.Bool.AllAny
import Mathlib.Algebra.Group.Nat.Defs
import Mathlib.Tactic.Common

/-!
Variants of every kind between server and client. The union is given by its bytes, and its pointers by what they point
to. The client declares the variant that it fills without a value.
-/

namespace IdaSdk.PdbVariants

open PdbSymbols (Packers unpack_db unpack_str)

abbrev VT_I2 : UInt16 := 0x02
abbrev VT_I4 : UInt16 := 0x03
abbrev VT_R4 : UInt16 := 0x04
abbrev VT_R8 : UInt16 := 0x05
abbrev VT_BSTR : UInt16 := 0x08
abbrev VT_DISPATCH : UInt16 := 0x09
abbrev VT_ERROR : UInt16 := 0x0A
abbrev VT_BOOL : UInt16 := 0x0B
abbrev VT_VARIANT : UInt16 := 0x0C
abbrev VT_UNKNOWN : UInt16 := 0x0D
abbrev VT_DECIMAL : UInt16 := 0x0E
abbrev VT_I1 : UInt16 := 0x10
abbrev VT_UI1 : UInt16 := 0x11
abbrev VT_UI2 : UInt16 := 0x12
abbrev VT_UI4 : UInt16 := 0x13
abbrev VT_I8 : UInt16 := 0x14
abbrev VT_UI8 : UInt16 := 0x15
abbrev VT_INT : UInt16 := 0x16
abbrev VT_UINT : UInt16 := 0x17
abbrev VT_HRESULT : UInt16 := 0x19
abbrev VT_LPSTR : UInt16 := 0x1E
abbrev VT_LPWSTR : UInt16 := 0x1F
abbrev VT_ARRAY : UInt16 := 0x2000
abbrev VT_BYREF : UInt16 := 0x4000

/-- The bytes of a `BSTR`, which are counted by a double word in front of them. -/
abbrev Bstr : Type := { data : List UInt8 // data.length < 2 ^ 32 }

structure VARIANT where
  vt : UInt16
  /-- `wReserved1` to `wReserved3`, where `decVal` has its scale, its sign and its high part. -/
  wReserved : BitVec 48
  bytes : UInt64
  bstrVal : Option Bstr
  byref : Option (List UInt8)

/-- The numbers that can be packed. -/
inductive Num where
  | db | dw | dd | dq
deriving DecidableEq

/-- What the statements of a case do. -/
inductive Arm where
  | nothing | num (c : Num) | bstr | str
deriving DecidableEq

/-- The labels of `serialize`, except those that only break. -/
def serialize_cases : List (List UInt16 × Arm) := [
  ([VT_I2, VT_UI2], .num .dw),
  ([VT_I4, VT_UI4], .num .dd),
  ([VT_R4], .num .dd),
  ([VT_R8], .num .dq),
  ([VT_BSTR], .bstr),
  ([VT_DISPATCH, VT_ERROR, VT_BOOL, VT_VARIANT, VT_UNKNOWN, VT_DECIMAL, VT_I1, VT_UI1], .num .db),
  ([VT_I8, VT_UI8], .num .dq),
  ([VT_INT, VT_UINT, VT_HRESULT], .num .dd)]

/-- `deserialize` has the same cases, and one for strings. -/
def deserialize_cases : List (List UInt16 × Arm) := ([VT_LPSTR, VT_LPWSTR], .str) :: serialize_cases

def switch (cases : List (List UInt16 × Arm)) (vt : UInt16) : Arm :=
  ((cases.find? fun c => c.1.contains vt).map Prod.snd).getD .nothing

/-- A reference or an array. -/
def refused (vt : UInt16) : Bool := vt &&& VT_BYREF == VT_BYREF || vt &&& VT_ARRAY == VT_ARRAY

variable (p : Packers)

namespace Num

def bits : Num → Nat
  | db => 8
  | dw => 16
  | dd => 32
  | dq => 64

/-- The member of the union, packed. -/
def pack (x : UInt64) : Num → List UInt8
  | db => [x.toUInt8]
  | dw => p.dw.pack x.toUInt16
  | dd => p.dd.pack x.toUInt32
  | dq => p.dq.pack x

def unpack (buf : List UInt8) : Num → Nat × List UInt8
  | db => ((unpack_db buf).1.toNat, (unpack_db buf).2)
  | dw => ((p.dw.unpack buf).1.toNat, (p.dw.unpack buf).2)
  | dd => ((p.dd.unpack buf).1.toNat, (p.dd.unpack buf).2)
  | dq => ((p.dq.unpack buf).1.toNat, (p.dq.unpack buf).2)

end Num

/-- What a case of `serialize` appends; `bstrVal` is read without a test. -/
def pack_member (var : VARIANT) : Option (List UInt8) :=
  match switch serialize_cases var.vt with
  | .nothing | .str => some []
  | .num c => some (c.pack p var.bytes)
  | .bstr => var.bstrVal.map fun s => p.dd.pack (UInt32.ofNat s.val.length) ++ s.val

/-- `varser_t::serialize`: its result and what it appends, unless it reads in front of a null pointer. -/
def serialize (var : VARIANT) : Option (Bool × List UInt8) :=
  if refused var.vt then some (false, p.dw.pack var.vt)
  else (pack_member p var).map fun packed => (!packed.isEmpty, p.dw.pack var.vt ++ packed)

/-- The client: the variant it declares, and the bytes in the blocks that `qalloc` gives. -/
structure Client where
  var : VARIANT
  qalloc : Nat → List UInt8

/-- A member of `n` bits is assigned; the other bytes of the union stay. -/
def assign (bytes : UInt64) (n x : Nat) : UInt64 := UInt64.ofNat (bytes.toNat / 2 ^ n * 2 ^ n + x)

/-- `unpack_obj`: a destination that cannot be filled stays as it is. -/
def unpack_obj (dest : List UInt8) (size : Nat) (buf : List UInt8) : List UInt8 × List UInt8 :=
  if size ≤ buf.length then (buf.take size, buf.drop size) else (dest, buf)

def mkBstr (bcnt : UInt32) (data : List UInt8) : Bstr :=
  ⟨data.take bcnt.toNat, Nat.lt_of_le_of_lt (List.length_take_le _ _) bcnt.toNat_lt⟩

variable (cl : Client)

/-- A case of `deserialize`: its result, the variant and what is left to read. Nothing when the assertion fails. -/
def unpack_member (vt : UInt16) (buf : List UInt8) : Option (Bool × VARIANT × List UInt8) :=
  match switch deserialize_cases vt with
  | .nothing => some (false, { cl.var with vt }, buf)
  | .num c =>
      some (true, { cl.var with vt, bytes := assign cl.var.bytes c.bits (c.unpack p buf).1 }, (c.unpack p buf).2)
  | .bstr =>
      let bcnt := (p.dd.unpack buf).1
      let nbytes := bcnt + 4 + 2
      if bcnt < nbytes then
        let res := unpack_obj ((cl.qalloc nbytes.toNat).drop 4) bcnt.toNat (p.dd.unpack buf).2
        some (true, { cl.var with vt, bstrVal := some (mkBstr bcnt res.1) }, res.2)
      else none
  | .str =>
      match unpack_str buf with
      | some (s, rest) => some (true, { cl.var with vt, byref := some s }, rest)
      | none => some (true, { cl.var with vt, byref := none }, buf)

/-- `varser_t::deserialize`. -/
def deserialize (buf : List UInt8) : Option (Bool × VARIANT × List UInt8) :=
  let res := p.dw.unpack buf
  if refused res.1 then some (false, { cl.var with vt := res.1 }, res.2) else unpack_member p cl res.1 res.2

/-- The bits of the member that belongs to a kind. -/
def width (vt : UInt16) : Nat :=
  if vt ∈ [VT_I1, VT_UI1] then 8
  else if vt ∈ [VT_I2, VT_UI2, VT_BOOL] then 16
  else if vt ∈ [VT_I4, VT_UI4, VT_R4, VT_INT, VT_UINT, VT_HRESULT, VT_ERROR] then 32
  else 64

def SamePayload (v w : VARIANT) : Prop :=
  if v.vt = VT_BSTR then w.bstrVal = v.bstrVal
  else if v.vt ∈ [VT_LPSTR, VT_LPWSTR] then w.byref = v.byref
  else w.bytes.toNat % 2 ^ width v.vt = v.bytes.toNat % 2 ^ width v.vt ∧
    (v.vt = VT_DECIMAL → w.wReserved = v.wReserved)

/-- What is serialized is read back, whatever follows. -/
def RoundTrips (v : VARIANT) (rest : List UInt8) : Prop :=
  ∀ out, serialize p v = some (true, out) →
    ∃ w, deserialize p cl (out ++ rest) = some (true, w, rest) ∧ w.vt = v.vt ∧ SamePayload v w

/-- What the serializer fails on is not accepted. -/
def Declines (v : VARIANT) (rest : List UInt8) : Prop :=
  ∀ out, serialize p v = some (false, out) → ∀ w left, deserialize p cl (out ++ rest) ≠ some (true, w, left)

/-- The kinds that are longer than the byte that stands for them. -/
def narrowed : List UInt16 := [VT_DISPATCH, VT_ERROR, VT_BOOL, VT_VARIANT, VT_UNKNOWN, VT_DECIMAL]

/-- What the client's variant held above the low byte is what the value has there. -/
def HighAgrees (v : VARIANT) : Prop :=
  cl.var.bytes.toNat % 2 ^ width v.vt / 256 = v.bytes.toNat % 2 ^ width v.vt / 256 ∧
    (v.vt = VT_DECIMAL → cl.var.wReserved = v.wReserved)

structure Survives (v : VARIANT) : Prop where
  str : v.vt ∉ [VT_LPSTR, VT_LPWSTR]
  bstr : v.vt = VT_BSTR → ∀ s ∈ v.bstrVal, s.val.length + 6 < 2 ^ 32
  high : v.vt ∈ narrowed → HighAgrees cl v

def labels : List UInt16 := serialize_cases.flatMap Prod.fst

theorem switch_of_notMem {vt : UInt16} (h : vt ∉ labels) : switch serialize_cases vt = .nothing := by
  have hnone : (serialize_cases.find? fun c => c.1.contains vt) = none := by
    apply List.find?_eq_none.mpr
    intro c hc hvt
    exact h (List.mem_flatMap.mpr ⟨c, hc, List.contains_iff_mem.mp hvt⟩)
  rw [switch, hnone]
  rfl

theorem switch_str {vt : UInt16} (h : vt ∈ [VT_LPSTR, VT_LPWSTR]) :
    switch serialize_cases vt = .nothing ∧ switch deserialize_cases vt = .str := by
  have hall : ∀ k ∈ [VT_LPSTR, VT_LPWSTR], k ∉ labels := List.all_iff_forall_prop.mp rfl
  refine ⟨switch_of_notMem (hall vt h), ?_⟩
  have hc : [VT_LPSTR, VT_LPWSTR].contains vt = true := List.contains_iff_mem.mpr h
  simp only [switch, deserialize_cases, List.find?_cons, hc]
  rfl

theorem switch_agrees {vt : UInt16} (h : vt ∉ [VT_LPSTR, VT_LPWSTR]) :
    switch deserialize_cases vt = switch serialize_cases vt := by
  have hc : [VT_LPSTR, VT_LPWSTR].contains vt = false := by simpa using h
  simp only [switch, deserialize_cases, List.find?_cons, hc]

/-- What the table of the server says of the kinds. -/
def ArmFits (vt : UInt16) : Arm → Prop
  | .nothing => vt ≠ VT_BSTR ∧ vt ∉ narrowed
  | .num c => vt ≠ VT_BSTR ∧ if vt ∈ narrowed then c = .db ∧ width vt ∈ [16, 32, 64] else width vt = c.bits
  | .bstr => vt = VT_BSTR
  | .str => False

instance (vt : UInt16) : (a : Arm) → Decidable (ArmFits vt a)
  | .nothing => inferInstanceAs (Decidable (_ ∧ _))
  | .num c =>
      inferInstanceAs (Decidable (_ ∧ if vt ∈ narrowed then c = .db ∧ width vt ∈ [16, 32, 64] else width vt = c.bits))
  | .bstr => inferInstanceAs (Decidable (_ = _))
  | .str => isFalse id

theorem switch_fits (vt : UInt16) : ArmFits vt (switch serialize_cases vt) := by
  have htable : ∀ vt ∈ labels, ArmFits vt (switch serialize_cases vt) :=
    List.all_iff_forall_prop.mp rfl
  by_cases h : vt ∈ labels
  · exact htable vt h
  have hsub : ∀ k ∈ VT_BSTR :: narrowed, k ∈ labels := List.all_iff_forall_prop.mp rfl
  rw [switch_of_notMem h]
  exact ⟨fun hb => h (hsub vt (hb ▸ List.mem_cons_self)), fun hn => h (hsub vt (List.mem_cons_of_mem _ hn))⟩

theorem codec_ne_nil {α : Type} [Inhabited α] (d : Codec α) (x : α) : d.pack x ≠ [] := by
  intro h
  have hlt := d.unpack_cons 0 []
  have hread := d.unpack_pack x [0]
  rw [h, List.nil_append] at hread
  rw [hread] at hlt
  cases hlt

theorem Num.pack_ne_nil (x : UInt64) (c : Num) : c.pack p x ≠ [] := by
  cases c with
  | db => exact List.cons_ne_nil _ _
  | dw => exact codec_ne_nil _ _
  | dd => exact codec_ne_nil _ _
  | dq => exact codec_ne_nil _ _

theorem Num.unpack_pack (x : UInt64) (rest : List UInt8) (c : Num) :
    c.unpack p (c.pack p x ++ rest) = (x.toNat % 2 ^ c.bits, rest) := by
  cases c with
  | db => exact congrArg (·, rest) x.toNat_toUInt8
  | dw => rw [Num.unpack, Num.pack, Codec.unpack_pack, UInt64.toNat_toUInt16, Num.bits]
  | dd => rw [Num.unpack, Num.pack, Codec.unpack_pack, UInt64.toNat_toUInt32, Num.bits]
  | dq => rw [Num.unpack, Num.pack, Codec.unpack_pack, Num.bits, Nat.mod_eq_of_lt x.toNat_lt]

theorem toNat_assign (bytes : UInt64) (c : Num) {x : Nat} (hx : x < 2 ^ c.bits) :
    (assign bytes c.bits x).toNat = bytes.toNat / 2 ^ c.bits * 2 ^ c.bits + x := by
  have hlt := bytes.toNat_lt
  rw [assign, UInt64.toNat_ofNat', Nat.mod_eq_of_lt]
  cases c <;> simp only [Num.bits] at hx ⊢ <;> omega

theorem assign_byte_iff (was v : UInt64) {n : Nat} (hn : n ∈ [16, 32, 64]) :
    (assign was Num.db.bits (v.toNat % 2 ^ Num.db.bits)).toNat % 2 ^ n = v.toNat % 2 ^ n ↔
      was.toNat % 2 ^ n / 256 = v.toNat % 2 ^ n / 256 := by
  rw [toNat_assign was .db (Nat.mod_lt _ (Nat.two_pow_pos _)), Num.bits]
  simp only [List.mem_cons, List.not_mem_nil, or_false] at hn
  rcases hn with rfl | rfl | rfl <;> omega

/-- The variant behind a number has the payload, unless there is more of it than the byte that was sent. -/
theorem same_iff {v : VARIANT} {c : Num} (hstr : v.vt ∉ [VT_LPSTR, VT_LPWSTR]) (h : ArmFits v.vt (.num c)) :
    SamePayload v { cl.var with vt := v.vt, bytes := assign cl.var.bytes c.bits (v.bytes.toNat % 2 ^ c.bits) } ↔
      (v.vt ∈ narrowed → HighAgrees cl v) := by
  obtain ⟨hb, hc⟩ := h
  rw [SamePayload, if_neg hb, if_neg hstr]
  dsimp only
  by_cases hn : v.vt ∈ narrowed
  · rw [if_pos hn] at hc
    obtain ⟨rfl, hw⟩ := hc
    rw [assign_byte_iff _ _ hw]
    exact ⟨fun hsame _ => hsame, fun hsame => hsame hn⟩
  · rw [if_neg hn] at hc
    have hlt : v.bytes.toNat % 2 ^ c.bits < 2 ^ c.bits := Nat.mod_lt _ (Nat.two_pow_pos _)
    rw [hc, toNat_assign _ c hlt, Nat.mul_add_mod_self_right, Nat.mod_eq_of_lt hlt]
    refine iff_of_true ⟨rfl, fun hd => (hn ?_).elim⟩ fun hn' => (hn hn').elim
    rw [hd]
    decide

variable {v w : VARIANT} {packed rest : List UInt8}

theorem serialize_member (hr : refused v.vt = false) (hp : pack_member p v = some packed) :
    serialize p v = some (!packed.isEmpty, p.dw.pack v.vt ++ packed) := by
  rw [serialize, hr, if_neg Bool.false_ne_true, hp, Option.map_some]

theorem deserialize_member (hr : refused v.vt = false) :
    deserialize p cl (p.dw.pack v.vt ++ packed ++ rest) = unpack_member p cl v.vt (packed ++ rest) := by
  rw [deserialize, List.append_assoc, Codec.unpack_pack]
  simp only [hr, Bool.false_eq_true, if_false]

/-- A member that is packed is settled by how it is read. -/
theorem meets_of_packed (hr : refused v.vt = false) (hp : pack_member p v = some packed) (hne : packed ≠ []) :
    RoundTrips p cl v rest ∧ Declines p cl v rest ↔
      ∃ w, unpack_member p cl v.vt (packed ++ rest) = some (true, w, rest) ∧ w.vt = v.vt ∧ SamePayload v w := by
  have hser := serialize_member p hr hp
  rw [List.isEmpty_eq_false_iff.mpr hne] at hser
  rw [← deserialize_member p cl hr]
  refine ⟨fun h => h.1 _ hser, fun h => ⟨fun out hout => ?_, fun out hout => ?_⟩⟩
  · rw [hser] at hout
    cases hout
    exact h
  · rw [hser] at hout
    cases hout

/-- A kind without a member is settled by what the client makes of it. -/
theorem meets_of_nothing (hr : refused v.vt = false) (hp : pack_member p v = some []) :
    RoundTrips p cl v rest ∧ Declines p cl v rest ↔ ∀ w left, unpack_member p cl v.vt rest ≠ some (true, w, left) := by
  have hser := serialize_member p hr hp
  have hde := @deserialize_member p cl v [] rest hr
  rw [List.nil_append] at hde
  rw [← hde]
  refine ⟨fun h => h.2 _ hser, fun h => ⟨fun out hout => ?_, fun out hout => ?_⟩⟩
  · rw [hser] at hout
    cases hout
  · rw [hser] at hout
    cases hout
    exact h

/-- A reference or an array is refused on both sides. -/
theorem meets_of_refused (hr : refused v.vt = true) : RoundTrips p cl v rest ∧ Declines p cl v rest := by
  have hser : serialize p v = some (false, p.dw.pack v.vt) := by rw [serialize, if_pos hr]
  refine ⟨fun out hout => ?_, fun out hout w left hde => ?_⟩
  · rw [hser] at hout
    cases hout
  · rw [hser] at hout
    cases hout
    rw [deserialize, Codec.unpack_pack, if_pos hr] at hde
    cases hde

theorem survives_of_refused (hr : refused v.vt = true) : Survives cl v := by
  have hno : ∀ k ∈ VT_LPSTR :: VT_LPWSTR :: labels, refused k = false :=
    List.all_iff_forall_prop.mp rfl
  have hsub : ∀ k ∈ narrowed, k ∈ labels := List.all_iff_forall_prop.mp rfl
  have hne : v.vt ∉ VT_LPSTR :: VT_LPWSTR :: labels := by
    intro hk
    rw [hno _ hk] at hr
    cases hr
  refine ⟨fun hk => hne (List.mem_append_left labels hk), fun hb => (hne ?_).elim, fun hk => (hne ?_).elim⟩
  · rw [hb]
    decide
  · exact List.mem_cons_of_mem _ (List.mem_cons_of_mem _ (hsub _ hk))

theorem lt_nbytes_iff (n : Nat) (h : n < 2 ^ 32) :
    UInt32.ofNat n < UInt32.ofNat n + 4 + 2 ↔ n + 6 < 2 ^ 32 := by
  have hn : (UInt32.ofNat n).toNat = n := by rw [UInt32.toNat_ofNat', Nat.mod_eq_of_lt h]
  have h4 : (4 : UInt32).toNat = 4 := rfl
  have h2 : (2 : UInt32).toNat = 2 := rfl
  rw [UInt32.lt_iff_toNat_lt, UInt32.toNat_add, UInt32.toNat_add, hn, h4, h2]
  constructor <;> intro hlt <;> omega

/-- A string is read back if the length of its block does not wrap. -/
theorem unpack_bstr (h : switch deserialize_cases v.vt = .bstr) (s : Bstr) :
    unpack_member p cl v.vt (p.dd.pack (UInt32.ofNat s.val.length) ++ s.val ++ rest) =
      if s.val.length + 6 < 2 ^ 32 then some (true, { cl.var with vt := v.vt, bstrVal := some s }, rest) else none := by
  have hlen : (UInt32.ofNat s.val.length).toNat = s.val.length := by
    rw [UInt32.toNat_ofNat', Nat.mod_eq_of_lt s.property]
  have hmk : mkBstr (UInt32.ofNat s.val.length) s.val = s := by
    apply Subtype.ext
    exact List.take_of_length_le (Nat.le_of_eq hlen.symm)
  have hobj (dest : List UInt8) : unpack_obj dest s.val.length (s.val ++ rest) = (s.val, rest) := by
    rw [unpack_obj, if_pos (by rw [List.length_append]; exact Nat.le_add_right _ _), List.take_left, List.drop_left]
  rw [unpack_member, h]
  dsimp only
  rw [List.append_assoc, Codec.unpack_pack]
  dsimp only
  rw [hlen, hobj, hmk]
  exact if_congr (lt_nbytes_iff _ s.property) rfl rfl

theorem meets_bstr (hvt : v.vt = VT_BSTR) :
    RoundTrips p cl v rest ∧ Declines p cl v rest ↔ ∀ s ∈ v.bstrVal, s.val.length + 6 < 2 ^ 32 := by
  have hr : refused v.vt = false := by rw [hvt]; decide
  have harm : switch serialize_cases v.vt = .bstr ∧ switch deserialize_cases v.vt = .bstr := by rw [hvt]; decide
  cases hs : v.bstrVal with
  | none =>
      have hser : serialize p v = none := by
        rw [serialize, hr, if_neg Bool.false_ne_true, pack_member, harm.1]
        dsimp only
        rw [hs]
        rfl
      refine iff_of_true ⟨fun out hout => ?_, fun out hout => ?_⟩ fun s hs => by cases hs
      · rw [hser] at hout
        cases hout
      · rw [hser] at hout
        cases hout
  | some s =>
      have hp : pack_member p v = some (p.dd.pack (UInt32.ofNat s.val.length) ++ s.val) := by
        rw [pack_member, harm.1]
        dsimp only
        rw [hs]
        rfl
      rw [meets_of_packed p cl hr hp (List.append_ne_nil_of_left_ne_nil (codec_ne_nil _ _) _),
        unpack_bstr p cl harm.2]
      constructor
      · rintro ⟨w, hw, -⟩ t ht
        obtain rfl := Option.some.inj ht
        split_ifs at hw with hfit
        exact hfit
      · intro hfit
        refine ⟨_, if_pos (hfit s rfl), rfl, ?_⟩
        rw [SamePayload, if_pos hvt, hs]

end IdaSdk.PdbVariants
