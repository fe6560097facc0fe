import Mathlib.Data.UInt
import IdaSdk.LibPacking

/-!
Vectors of addresses in packed form: the number of elements as a word, then each element as the difference to the one
before it. Addresses are of any width; differences wrap around.
-/

namespace IdaSdk.Eavec

def int32 (n : Nat) : Int := if n % 2 ^ 32 < 2 ^ 31 then n % 2 ^ 32 else n % 2 ^ 32 - 2 ^ 32

def uint16 (x : Int) : UInt16 := UInt16.ofNat (x % 2 ^ 16).toNat

variable {ea_t : Type} [AddCommGroup ea_t] [Inhabited ea_t] (dw : Codec UInt16) (ea : Codec ea_t)

/-- The loop of `pack_eavec` over the elements. -/
def packDeltas (old : ea_t) : List ea_t → List UInt8
  | [] => []
  | nea :: vec => ea.pack (nea - old) ++ packDeltas nea vec

variable (base : ea_t)

def pack_eavec (vec : List ea_t) : List UInt8 :=
  let nelems := int32 vec.length
  dw.pack (uint16 nelems) ++ packDeltas ea base (vec.take nelems.toNat)

/-- The loop of `unpack_eavec`. -/
def unpackDeltas : Nat → ea_t → List UInt8 → List ea_t × List UInt8
  | 0, _, bytes => ([], bytes)
  | n + 1, old, bytes =>
    let (delta, bytes) := ea.unpack bytes
    let (vec, bytes) := unpackDeltas n (old + delta) bytes
    ((old + delta) :: vec, bytes)

def unpack_eavec (bytes : List UInt8) : List ea_t × List UInt8 :=
  let (n, bytes) := dw.unpack bytes
  unpackDeltas ea n.toNat base bytes

theorem unpackDeltas_packDeltas (vec : List ea_t) (rest : List UInt8) :
    unpackDeltas ea vec.length base (packDeltas ea base vec ++ rest) = (vec, rest) := by
  induction vec generalizing base with
  | nil => rfl
  | cons nea vec ih =>
      rw [packDeltas, List.append_assoc, List.length_cons, unpackDeltas]
      simp only [Codec.unpack_pack, add_sub_cancel, ih]

theorem unpackDeltas_length (n : Nat) (base : ea_t) (bytes : List UInt8) :
    (unpackDeltas ea n base bytes).1.length = n := by
  induction n generalizing base bytes with
  | zero => rfl
  | succ n ih =>
      rw [unpackDeltas]
      simp only [List.length_cons, ih]

theorem unpack_eavec_length (bytes : List UInt8) :
    (unpack_eavec dw ea base bytes).1.length < 2 ^ 16 := by
  rw [unpack_eavec, unpackDeltas_length]
  exact UInt16.toNat_lt _

/-- What was packed is unpacked, and what follows it is left, exactly when the number of elements fits in a word. -/
theorem unpack_pack_eavec_iff (base : ea_t) (vec : List ea_t) (rest : List UInt8) :
    unpack_eavec dw ea base (pack_eavec dw ea base vec ++ rest) = (vec, rest) ↔ vec.length < 2 ^ 16 := by
  constructor
  · intro h
    have hlength := unpack_eavec_length dw ea base (pack_eavec dw ea base vec ++ rest)
    rwa [h] at hlength
  intro h
  have hcount : int32 vec.length = vec.length := by
    unfold int32
    omega
  have hword : (uint16 vec.length).toNat = vec.length := by
    rw [uint16, UInt16.toNat_ofNat']
    omega
  rw [pack_eavec, hcount, Int.toNat_natCast, List.take_length, List.append_assoc, unpack_eavec, Codec.unpack_pack]
  dsimp only
  rw [hword]
  exact unpackDeltas_packDeltas ea base vec rest

open scoped UInt64.CommRing in
/-- Of 65536 addresses none is unpacked. -/
theorem eavec_overflow :
    unpack_eavec Packing.dw (Packing.dq Packing.dd) 0
        (pack_eavec Packing.dw (Packing.dq Packing.dd) 0 (List.replicate 65536 0) ++ []) ≠
      (List.replicate 65536 0, []) := by
  intro h
  have hlength := unpack_eavec_length Packing.dw (Packing.dq Packing.dd) 0
    (pack_eavec Packing.dw (Packing.dq Packing.dd) 0 (List.replicate 65536 0) ++ [])
  rw [h, List.length_replicate] at hlength
  omega

end IdaSdk.Eavec
