import IdaSdk.LibSortUnique
import Mathlib.Data.Prod.Lex

/-!
The register tracker's abstract values: `reg_value_base_t` with its states, and the methods that set a value
and compute with it. Values and addresses are 64-bit, a loop stride is an `int8`.
-/

namespace IdaSdk.RegValue

def BADADDR : BitVec 64 := BitVec.allOnes 64

def o_void : Nat := 0

def o_imm : Nat := 5

/-- What is kept of an `insn_t`. -/
structure Insn where
  ea : BitVec 64
  itype : BitVec 16
  op2Type : Nat
  op3Type : Nat

/-- `reg_value_def_t`. -/
structure RegValueDef where
  val : BitVec 64
  defEa : BitVec 64
  defItype : BitVec 16
  flags : BitVec 16
deriving DecidableEq

instance : Inhabited RegValueDef := ⟨⟨BADADDR, BADADDR, 0, 0⟩⟩

namespace RegValueDef

def SHORT_INSN : BitVec 16 := 0x0001

def isShortInsn (insn : Insn) : Bool := insn.op2Type == o_imm && insn.op3Type == o_void

def ofEa (val ea : BitVec 64) (flags : BitVec 16) : RegValueDef := ⟨val, ea, 0, flags⟩

def ofInsn (val : BitVec 64) (insn : Insn) (flags : BitVec 16) : RegValueDef :=
  ⟨val, insn.ea, insn.itype, flags ||| if isShortInsn insn then SHORT_INSN else 0⟩

def eq (l r : RegValueDef) : Bool := l.defEa == r.defEa && l.val == r.val

def lt (l r : RegValueDef) : Bool :=
  if l.defEa < r.defEa then true else if l.defEa > r.defEa then false else decide (l.val < r.val)

def key (d : RegValueDef) : ℕ ×ₗ ℕ := toLex (d.defEa.toNat, d.val.toNat)

theorem byKey : SortUnique.ByKey key lt eq := by
  refine ⟨fun a b => ?_, fun a b => ?_⟩
  · rw [key, key, Prod.Lex.toLex_lt_toLex]
    simp only [lt, BitVec.lt_def, GT.gt]
    split
    · simp [*]
    split
    · simp
      omega
    · simp
      omega
  · rw [key, key, toLex_inj, Prod.mk.injEq, eq, Bool.and_eq_true, beq_iff_eq, beq_iff_eq, BitVec.toNat_inj,
      BitVec.toNat_inj]

end RegValueDef

/-- `state_t`. -/
inductive State where
  | undef
  | deadend
  | aborted
  | badinsn
  | unkinsn
  | unkfunc
  | unkloop
  | unkmult
  | unkxref
  | unkvals
  | numinsn
  | numaddr
  | spdinsn
  | spdaddr
  | numloop
deriving DecidableEq

/-- `reg_value_base_t`. -/
structure RegValueBase where
  vals : List RegValueDef
  state : State
  stride : BitVec 8
deriving DecidableEq

/-- `arith_op_t`. -/
inductive ArithOp where
  | add
  | sub
  | or
  | and
  | xor
  | andNot
  | sll
  | slr
  | sar
  | movt
  | neg
  | not
deriving DecidableEq

/-- The computation of `perform_binary_op` for one pair of values. -/
def ArithOp.eval (aop : ArithOp) (a b : BitVec 64) : Option (BitVec 64) :=
  match aop with
  | .add => some (a + b)
  | .sub => some (a - b)
  | .or => some (a ||| b)
  | .and => some (a &&& b)
  | .xor => some (a ^^^ b)
  | .andNot => some (a &&& ~~~b)
  | .movt => some ((a &&& 0xFFFF) ||| ((b &&& 0xFFFF) <<< 16))
  | .sll => some (if b < 64 then a <<< b.toNat else 0)
  | .slr => some (if b < 64 then a >>> b.toNat else 0)
  | .sar => some (a.sshiftRight (if b < 64 then b.toNat else 63))
  | .neg => none
  | .not => none

namespace RegValueBase

section
variable (x r : RegValueBase) (insn : Insn)

def empty : Bool := x.state == .undef

def isUnknown : Bool :=
  x.state == .badinsn || x.state == .unkinsn || x.state == .unkfunc || x.state == .unkloop || x.state == .unkmult ||
    x.state == .unkxref || x.state == .unkvals

def isNum : Bool := x.state == .numinsn || x.state == .numaddr

def isSpd : Bool := x.state == .spdinsn || x.state == .spdaddr

def isKnown : Bool := x.isNum || x.isSpd

def isNumloop : Bool := x.state == .numloop

def firstVal : BitVec 64 := (x.vals.headD default).val

def isValueUnique : Bool := !x.empty && x.vals.all fun p => p.val == x.firstVal

/-- The common body of the `set_` methods for one value that belongs to an address. -/
def setEa (state : State) (val ea : BitVec 64) (flags : BitVec 16) : RegValueBase := ⟨[.ofEa val ea flags], state, 0⟩

def setUnkinsn : RegValueBase := ⟨[.ofInsn BADADDR insn 0], .unkinsn, 0⟩

def setUnkloop (bblkEa : BitVec 64) : RegValueBase := setEa .unkloop BADADDR bblkEa 0

def setMultivals (rvals : List (BitVec 64)) : RegValueBase :=
  { x with vals := (SortUnique.sortUnique (fun a b => decide (a < b)) (· == ·) rvals).map (.ofInsn · insn 0) }

def sortMultivals : RegValueBase := { x with vals := SortUnique.sortUnique RegValueDef.lt RegValueDef.eq x.vals }

def mapVals (f : BitVec 64 → BitVec 64) : RegValueBase := { x with vals := x.vals.map fun p => { p with val := f p.val } }

/-- `none` when both sides have several values; the state is left to the caller. -/
def performBinaryOp (aop : ArithOp) : Option RegValueBase :=
  if r.isValueUnique then
    (x.vals.mapM fun p => aop.eval p.val r.firstVal).map (x.setMultivals insn)
  else if x.isValueUnique then
    (r.vals.mapM fun p => aop.eval x.firstVal p.val).map (x.setMultivals insn)
  else
    none

def performBinaryOpForNums (aop : ArithOp) : RegValueBase :=
  if x.isNumloop || r.isNumloop then
    setUnkloop insn.ea
  else
    match (if x.isNum && r.isNum then x.performBinaryOp r insn aop else none) with
    | some x' => { x' with state := .numinsn }
    | none => setUnkinsn insn

/-- `set_unkloop` if a loop value was involved, else `set_unkinsn`. -/
def setUnkLoopOrInsn : RegValueBase := if x.isNumloop || r.isNumloop then setUnkloop insn.ea else setUnkinsn insn

def add : RegValueBase :=
  if x.isNumloop && r.isNum || x.isNum && r.isNumloop then
    match x.performBinaryOp r insn .add with
    | some x' => if r.isNumloop then { x' with state := r.state, stride := r.stride } else x'
    | none => setUnkLoopOrInsn x r insn
  else if x.isSpd && r.isNum || x.isNum && r.isSpd || x.isNum && r.isNum then
    match x.performBinaryOp r insn .add with
    | some x' => { x' with state := if x.isSpd || r.isSpd then .spdinsn else .numinsn }
    | none => setUnkLoopOrInsn x r insn
  else
    setUnkLoopOrInsn x r insn

def sub : RegValueBase :=
  if x.isNumloop && r.isNum then
    match x.performBinaryOp r insn .sub with
    | some x' => x'
    | none => setUnkLoopOrInsn x r insn
  else if x.isSpd && r.isNum || x.isSpd && r.isSpd || x.isNum && r.isNum then
    match x.performBinaryOp r insn .sub with
    | some x' => { x' with state := if x.isSpd && r.isNum then .spdinsn else .numinsn }
    | none => setUnkLoopOrInsn x r insn
  else
    setUnkLoopOrInsn x r insn

/-- `add_num` with a defining instruction. -/
def addNumInsn (num : BitVec 64) : RegValueBase :=
  if !x.isKnown && !x.isNumloop || num == 0 then
    x
  else
    let x' := x.setMultivals insn (x.vals.map fun p => p.val + num)
    if !x'.isNumloop then { x' with state := if x'.isSpd then .spdinsn else .numinsn } else x'

def addNum (num : BitVec 64) : RegValueBase :=
  if !x.isKnown && !x.isNumloop || num == 0 then x else (x.mapVals (· + num)).sortMultivals

/-- A count of 64 or more is undefined for known values. -/
def shiftLeft (count : BitVec 64) : RegValueBase :=
  if !x.isKnown && !x.isNumloop || count == 0 then
    x
  else if x.isNumloop then
    if count > 7 || (x.stride <<< count.toNat).sshiftRight count.toNat != x.stride then
      setUnkloop (x.vals.headD default).defEa
    else
      ({ x with stride := x.stride <<< count.toNat }.mapVals (· <<< count.toNat)).sortMultivals
  else
    (x.mapVals (· <<< count.toNat)).sortMultivals

variable (extendSign : BitVec 64 → Int → Bool → BitVec 64)

def shiftedRight (count : Nat) (nbytes : Int) (v : BitVec 64) : BitVec 64 :=
  if nbytes != 0 then (extendSign v nbytes true).sshiftRight count else v >>> count

def shiftRight (count : BitVec 64) (nbytes : Int) : RegValueBase :=
  if !x.isKnown && !x.isNumloop || count == 0 then
    x
  else if x.isNumloop then
    if count > 7 || (x.stride.sshiftRight count.toNat) <<< count.toNat != x.stride then
      setUnkloop (x.vals.headD default).defEa
    else
      ({ x with stride := x.stride.sshiftRight count.toNat }.mapVals
        (shiftedRight extendSign count.toNat nbytes)).sortMultivals
  else
    (x.mapVals (shiftedRight extendSign count.toNat nbytes)).sortMultivals

end

end RegValueBase

end IdaSdk.RegValue
