import Mathlib.Tactic.Common

/-!
The portable 128-bit numbers: a low and a high half of 64 bits. The multiplication and the shifts of `uint128` and the
divisions are only declared; their code is in a library that is not part of the sources.
-/

namespace IdaSdk.Int128

structure uint128 where
  l : BitVec 64
  h : BitVec 64
deriving DecidableEq

/-- The high half is an `int64`. -/
structure int128 where
  l : BitVec 64
  h : BitVec 64
deriving DecidableEq

namespace uint128

def of_uint (x : BitVec 32) : uint128 := ⟨x.setWidth 64, 0⟩

def of_int (x : BitVec 32) : uint128 := ⟨x.signExtend 64, if x.slt 0 then -1 else 0⟩

def of_uint64 (x : BitVec 64) : uint128 := ⟨x, 0⟩

def of_int64 (x : BitVec 64) : uint128 := ⟨x, if x.slt 0 then -1 else 0⟩

def of_int128 (x : int128) : uint128 := ⟨x.l, x.h⟩

variable (x : uint128)

def low : BitVec 64 := x.l

def high : BitVec 64 := x.h

variable (x y : uint128)

def add : uint128 :=
  ⟨x.l + y.l, if (x.l + y.l).ult x.l then x.h + y.h + 1 else x.h + y.h⟩

def sub : uint128 :=
  ⟨x.l - y.l, if x.l.ult (x.l - y.l) then x.h - y.h - 1 else x.h - y.h⟩

def or : uint128 := ⟨x.l ||| y.l, x.h ||| y.h⟩

def and : uint128 := ⟨x.l &&& y.l, x.h &&& y.h⟩

def xor : uint128 := ⟨x.l ^^^ y.l, x.h ^^^ y.h⟩

def not : uint128 := ⟨~~~x.l, ~~~x.h⟩

def inc : uint128 := ⟨x.l + 1, if x.l + 1 = 0 then x.h + 1 else x.h⟩

def dec : uint128 := ⟨x.l - 1, if x.l = 0 then x.h - 1 else x.h⟩

def neg : uint128 := x.not.add (of_int 1)

def eq : Bool := x.l == y.l && x.h == y.h

def ne : Bool := x.l != y.l || x.h != y.h

def gt : Bool := y.h.ult x.h || (x.h == y.h && y.l.ult x.l)

def lt : Bool := x.h.ult y.h || (x.h == y.h && x.l.ult y.l)

def ge : Bool := y.h.ult x.h || (x.h == y.h && y.l.ule x.l)

def le : Bool := x.h.ult y.h || (x.h == y.h && x.l.ule y.l)

end uint128

def lower (x : BitVec 64) : BitVec 64 := (x.setWidth 32).setWidth 64

namespace int128

def of_uint (x : BitVec 32) : int128 := ⟨x.setWidth 64, 0⟩

def of_int (x : BitVec 32) : int128 := ⟨x.signExtend 64, if x.slt 0 then -1 else 0⟩

def of_uint64 (x : BitVec 64) : int128 := ⟨x, 0⟩

def of_int64 (x : BitVec 64) : int128 := ⟨x, if x.slt 0 then -1 else 0⟩

def of_uint128 (x : uint128) : int128 := ⟨x.l, x.h⟩

variable (x : int128)

def low : BitVec 64 := x.l

def high : BitVec 64 := x.h

variable (x y : int128)

def add : int128 := ⟨x.l + y.l, x.h + y.h + if (x.l + y.l).ult x.l then 1 else 0⟩

def sub : int128 := ⟨x.l - y.l, x.h - y.h - if x.l.ult y.l then 1 else 0⟩

/-- `umul`: the high and the low half of a product. -/
def umul (a b : BitVec 64) : BitVec 64 × BitVec 64 :=
  let ll := lower a * lower b
  let lh := lower a * lower (b >>> 32)
  let hl := (a >>> 32) * lower b
  let hh := (a >>> 32) * (b >>> 32)
  let mid := (ll >>> 32) + lower lh + lower hl
  (hh + (lh >>> 32) + (hl >>> 32) + (mid >>> 32), (mid <<< 32) ||| lower ll)

def mul : int128 :=
  ⟨(umul x.l y.l).2, (umul x.l y.l).1 + (x.l * y.h + x.h * y.l)⟩

def or : int128 := ⟨x.l ||| y.l, x.h ||| y.h⟩

def and : int128 := ⟨x.l &&& y.l, x.h &&& y.h⟩

def xor : int128 := ⟨x.l ^^^ y.l, x.h ^^^ y.h⟩

def not : int128 := ⟨~~~x.l, ~~~x.h⟩

def neg : int128 := x.not.add (of_int 1)

def inc : int128 := ⟨x.l + 1, if x.l + 1 = 0 then x.h + 1 else x.h⟩

def dec : int128 := ⟨x.l - 1, if x.l = 0 then x.h - 1 else x.h⟩

/-- `operator<<`. -/
def shl (cnt : Int) : int128 :=
  if cnt ≤ 0 then x
  else if 128 ≤ cnt then ⟨0, 0⟩
  else if cnt < 64 then ⟨x.l <<< cnt.toNat, (x.h <<< cnt.toNat) ||| (x.l >>> (64 - cnt).toNat)⟩
  else ⟨0, x.l <<< (cnt - 64).toNat⟩

def sign : BitVec 64 := if x.h.slt 0 then ~~~0 else 0

/-- `operator>>`. -/
def shr (cnt : Int) : int128 :=
  if cnt ≤ 0 then x
  else if 128 ≤ cnt then ⟨x.sign, x.sign⟩
  else if cnt < 64 then ⟨(x.l >>> cnt.toNat) ||| (x.h <<< (64 - cnt).toNat), x.h.sshiftRight cnt.toNat⟩
  else ⟨x.h.sshiftRight (cnt - 64).toNat, x.sign⟩

def eq : Bool := x.l == y.l && x.h == y.h

def ne : Bool := x.l != y.l || x.h != y.h

def gt : Bool := y.h.slt x.h || (x.h == y.h && y.l.ult x.l)

def lt : Bool := x.h.slt y.h || (x.h == y.h && x.l.ult y.l)

def ge : Bool := y.h.slt x.h || (x.h == y.h && y.l.ule x.l)

def le : Bool := x.h.slt y.h || (x.h == y.h && x.l.ule y.l)

end int128

def make_int128 (ll hh : BitVec 64) : int128 := ⟨ll, hh⟩

def make_uint128 (ll hh : BitVec 64) : uint128 := ⟨ll, hh⟩

end IdaSdk.Int128
