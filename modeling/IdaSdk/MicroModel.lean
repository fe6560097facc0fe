import Mathlib.Algebra.Group.Int.Defs
import Mathlib.Algebra.Group.Nat.Defs
import IdaSdk.LibStep

/-!
Microcode objects and their verifier. Blocks and the instructions of a block are nodes of doubly linked lists and
may be linked in any way; operands own what they point to. The checks of data that the model leaves out (types,
sizes, addresses, lists of locations) come from an environment.
-/

namespace IdaSdk.Micro
open StepMachine

/-! ### Objects -/

/-- `mcode_t`; a corrupted instruction may hold any number. -/
inductive Mcode where
  | nop | stx | ldx | ldc | mov | neg | lnot | bnot | xds | xdu | low | high | add | sub | mul | udiv | sdiv | umod | smod
  | or | and | xor | shl | shr | sar | cfadd | ofadd | cfshl | cfshr | sets | seto | setp | setnz | setz | setae | setb
  | seta | setbe | setg | setge | setl | setle | jcnd | jnz | jz | jae | jb | ja | jbe | jg | jge | jl | jle | jtbl | ijmp
  | goto | call | icall | ret | push | pop | und | ext | f2i | f2u | i2f | u2f | f2f | fneg | fadd | fsub | fmul | fdiv
  | other (code : Nat)
deriving DecidableEq

def Mcode.isCall (opcode : Mcode) : Bool := opcode = .call || opcode = .icall

def Mcode.isJcmp : Mcode → Bool
  | .jnz | .jz | .jae | .jb | .ja | .jbe | .jg | .jge | .jl | .jle => true
  | _ => false

def Mcode.isJcond (opcode : Mcode) : Bool := opcode = .jcnd || opcode.isJcmp

/-- `mcases_t`. -/
structure Mcases where
  values : List (List Int)
  targets : List Int

/-- The types of operands; the last one is for corrupted operands. -/
inductive MopType where
  | z | r | n | str | d | S | v | b | f | l | a | h | c | fn | p | sc | other
deriving DecidableEq

/-- The types without details in the model. -/
inductive PlainType where
  | r | n | str | S | h | fn | sc | other

/-- The types whose value is a pointer. -/
inductive PtrType where
  | n | str | d | S | f | l | a | h | c | fn | p | sc

def PlainType.toMopType : PlainType → MopType
  | .r => .r
  | .n => .n
  | .str => .str
  | .S => .S
  | .h => .h
  | .fn => .fn
  | .sc => .sc
  | .other => .other

def PtrType.toMopType : PtrType → MopType
  | .n => .n
  | .str => .str
  | .d => .d
  | .S => .S
  | .f => .f
  | .l => .l
  | .a => .a
  | .h => .h
  | .c => .c
  | .fn => .fn
  | .p => .p
  | .sc => .sc

-- `A` is the type of what only the checks of the environment look at, `I` the type of addresses of instructions
mutual

/-- `mop_t`; `null` is for an operand whose pointer is missing. -/
inductive Mop (A I : Type) where
  | z (info : A)
  | plain (info : A) (t : PlainType)
  | null (info : A) (t : PtrType)
  | v (info : A) (g : UInt64)
  | b (info : A) (num : Int)
  | c (info : A) (cases : Mcases)
  | l (info : A) (idx : Int)
  | d (info : A) (addr : I) (insn : Minsn A I)
  | a (info : A) (op : Mop A I)
  | p (info : A) (lop hop : Mop A I)
  | f (info : A) (args retregs : Mops A I)

inductive Mops (A I : Type) where
  | nil
  | cons (op : Mop A I) (ops : Mops A I)

/-- `minsn_t`. -/
inductive Minsn (A I : Type) where
  | mk (info : A) (opcode : Mcode) (ea : UInt64) (next prev : Option I) (l r d : Mop A I)

end

namespace Mop

variable {A I : Type}

def t : Mop A I → MopType
  | .z _ => .z
  | .plain _ t => t.toMopType
  | .null _ t => t.toMopType
  | .v _ _ => .v
  | .b _ _ => .b
  | .c _ _ => .c
  | .l _ _ => .l
  | .d _ _ _ => .d
  | .a _ _ => .a
  | .p _ _ _ => .p
  | .f _ _ _ => .f

def empty (op : Mop A I) : Bool := op.t = .z

end Mop

namespace Minsn

variable {A I : Type}

def opcode : Minsn A I → Mcode
  | .mk _ opcode _ _ _ _ _ _ => opcode

def ea : Minsn A I → UInt64
  | .mk _ _ ea _ _ _ _ _ => ea

def next : Minsn A I → Option I
  | .mk _ _ _ next _ _ _ _ => next

def prev : Minsn A I → Option I
  | .mk _ _ _ _ prev _ _ _ => prev

def l : Minsn A I → Mop A I
  | .mk _ _ _ _ _ l _ _ => l

def r : Minsn A I → Mop A I
  | .mk _ _ _ _ _ _ r _ => r

def d : Minsn A I → Mop A I
  | .mk _ _ _ _ _ _ _ d => d

end Minsn

/-- `mblock_type_t`. -/
inductive BlockType where
  | none | stop | zeroWay | oneWay | twoWay | nWay | xtrn | other
deriving DecidableEq

/-- `mblock_t`; `B` is the type of addresses of blocks. -/
structure Mblock (I B : Type) where
  nextb : Option B
  prevb : Option B
  flags : UInt32
  head : Option I
  tail : Option I
  serial : Int
  type : BlockType
  predset : List Int
  succset : List Int

def MBL_FAKE : UInt32 := 0x2
def MBL_PUSH : UInt32 := 0x10
def MBL_CALL : UInt32 := 0x800
def MBL_ALL : UInt32 := 0x7FFFF

/-- `mba_t`, with the objects that its pointers lead to. -/
structure Mba (A I B V : Type) where
  block : B → Mblock I B
  insn : I → Minsn A I
  blocks : Option B
  natural : List (Option B)
  vars : List V
  argidx : List Int
  retvaridx : Int
  pattern : Bool
  loaded : Bool
  preopt : Bool
  dontVerify : Bool
  noDupCalls : Bool
  lvarAllocFailed : Bool

def Mba.qty {A I B V : Type} (mba : Mba A I B V) : Nat := mba.natural.length

/-! ### The environment -/

/-- Where an operand is: in its instruction, or below another operand. -/
inductive Pos where
  | l | r | d | addr | lop | hop | arg | retreg
deriving DecidableEq

inductive InsnPhase where
  | address | props | sizes | sizesOfParts | assert

inductive MopPhase where
  | size | value | argDone | retvals | after

inductive BlockPhase where
  | lists | emptyLists | frame | stopLists | noretCall | range | useDef

inductive EndPhase where
  | frame | lvars | thisArg | prototype

/-- What the verifier asks code that is not in the repository, and the checks of data that the model leaves out. A
check gives the code of the internal error that it raises, if any. -/
structure Env (A I B V : Type) where
  isMcodePropagatable : Mcode → Bool
  mustMcodeCloseBlock : Mcode → Bool → Bool
  /-- What the union of an operand holds as a block number, when the operand has another type. -/
  unionB : Mop A I → Int
  shiftMask : Mop A I → Bool
  validExtOp : Minsn A I → Bool
  checksRetregs : A → Bool
  insn : InsnPhase → Minsn A I → Option Nat
  mop : MopPhase → Minsn A I → Pos → Mop A I → Option Nat
  lvarRef : V → Mop A I → Option Nat
  block : BlockPhase → B → Option Nat
  overlaps : List B → B → Bool
  arg : Nat → V → Option Nat
  ending : EndPhase → Option Nat
  shouldVerify : Bool

/-- How verification ends early: with an internal error, or in a read outside of an array or through a missing
pointer, which has no defined outcome. -/
inductive Abort where
  | interr (code : Nat)
  | fault
deriving DecidableEq

abbrev Verdict := Except Abort

def interrIf (c : Bool) (code : Nat) : Verdict Unit := if c then .error (.interr code) else .ok ()

def raise : Option Nat → Verdict Unit
  | none => .ok ()
  | some code => .error (.interr code)

/-- `array[i]`. -/
def readAt {α : Type} (array : List α) (i : Int) : Verdict α :=
  if 0 ≤ i then
    match array[i.toNat]? with
    | some x => .ok x
    | none => .error .fault
  else
    .error .fault

def deref {α : Type} : Option α → Verdict α
  | some x => .ok x
  | none => .error .fault

namespace Verdict

variable {α β : Type}

variable {f : α → Verdict β}

theorem bind_eq_ok {x : Verdict α} {y : β} :
    (x >>= f) = .ok y ↔ ∃ a, x = .ok a ∧ f a = .ok y := by
  cases x with
  | ok a => simp [bind, Except.bind]
  | error e => simp [bind, Except.bind]

theorem bind_eq_fault {x : Verdict α} :
    (x >>= f) = .error .fault ↔ x = .error .fault ∨ ∃ a, x = .ok a ∧ f a = .error .fault := by
  cases x with
  | ok a => simp [bind, Except.bind]
  | error e => simp [bind, Except.bind]

theorem exists_unit {p : Unit → Prop} : (∃ u, p u) ↔ p () := ⟨fun ⟨_, h⟩ => h, fun h => ⟨(), h⟩⟩

@[simp] theorem interrIf_eq_ok {c : Bool} {code : Nat} {u : Unit} : interrIf c code = .ok u ↔ c = false := by
  cases c <;> simp [interrIf]

@[simp] theorem interrIf_ne_fault {c : Bool} {code : Nat} : interrIf c code ≠ .error .fault := by
  cases c <;> simp [interrIf]

@[simp] theorem raise_ne_fault {code : Option Nat} : raise code ≠ .error .fault := by
  cases code <;> simp [raise]

@[simp] theorem readAt_eq_ok {array : List α} {i : Int} {x : α} :
    readAt array i = .ok x ↔ 0 ≤ i ∧ array[i.toNat]? = some x := by
  unfold readAt
  split_ifs with hi
  · cases array[i.toNat]? <;> simp [hi]
  · simp [hi]

@[simp] theorem readAt_eq_fault {array : List α} {i : Int} :
    readAt array i = .error .fault ↔ i < 0 ∨ array.length ≤ i := by
  unfold readAt
  split_ifs with hi
  · cases hx : array[i.toNat]? with
    | some x =>
        obtain ⟨hlt, -⟩ := List.getElem?_eq_some_iff.mp hx
        simp only [reduceCtorEq, false_iff]
        omega
    | none =>
        have hle := List.getElem?_eq_none_iff.mp hx
        simp only [true_iff]
        omega
  · simp only [true_iff]
    omega

@[simp] theorem deref_eq_ok {ptr : Option α} {x : α} : deref ptr = .ok x ↔ ptr = some x := by
  cases ptr <;> simp [deref]

theorem forM_eq_ok {f : α → Verdict Unit} {xs : List α} : xs.forM f = .ok () ↔ ∀ x ∈ xs, f x = .ok () := by
  induction xs with
  | nil => simp [pure, Except.pure]
  | cons x xs ih =>
      rw [List.forM, bind_eq_ok, exists_unit, List.forall_mem_cons, ← ih]

@[simp] theorem deref_eq_fault {ptr : Option α} : deref ptr = .error .fault ↔ ptr = none := by
  cases ptr <;> simp [deref]

end Verdict

/-! ### Operands and instructions -/

structure CaseScan where
  seenDefault : Bool
  seen : List Int
  targset : List Int

/-- `for ( sval_t val : v ) if ( !seen.insert(val).second ) ...`. -/
def insertValues (seen : List Int) : List Int → Verdict (List Int)
  | [] => .ok seen
  | val :: vals => if val ∈ seen then .error (.interr 50751) else insertValues (val :: seen) vals

variable (cases : Mcases)

def Mcases.verifyCase (qty : Nat) (s : CaseScan) (i : Nat) : Verdict CaseScan := do
  let v ← readAt cases.values i
  interrIf (v.isEmpty && s.seenDefault) 50750
  let seen ← insertValues s.seen v
  let b ← readAt cases.targets i
  interrIf (b ≤ 0 || b ≥ qty) 50752
  interrIf (s.targset.contains b) 50753
  .ok ⟨s.seenDefault || v.isEmpty, seen, b :: s.targset⟩

/-- A list of one case has values. -/
def Mcases.verifySingle (n : Nat) : Verdict Unit :=
  if n = 1 then do
    let v ← readAt cases.values 0
    interrIf v.isEmpty 50748
  else
    .ok ()

/-- `mcases_t::verify`. -/
def Mcases.verify (qty : Nat) : Verdict Unit := do
  let n := cases.targets.length
  interrIf (n ≠ cases.values.length) 50746
  interrIf (n = 0) 50747
  cases.verifySingle n
  let _ ← (List.range n).foldlM (cases.verifyCase qty) ⟨false, [], []⟩
  .ok ()

section
variable {A I B V : Type} [DecidableEq I] (env : Env A I B V) (mba : Mba A I B V)

/-- The check of the list pointers of the instruction at `this`. -/
def Minsn.verifyLinks (this : I) (withTarget : Bool) (m : Minsn A I) : Verdict Unit := do
  interrIf (m.next.any fun next => (mba.insn next).prev ≠ some this) 50797
  interrIf (m.prev.any fun prev => (mba.insn prev).next ≠ some this) 50798
  interrIf (!withTarget && (m.prev.isSome || m.next.isSome)) 50799

/-- Which opcodes may stand at the top level and in subinstructions. -/
def Minsn.verifyOpcode (withTarget : Bool) (m : Minsn A I) : Verdict Unit :=
  match m.opcode with
  | .goto | .nop | .ext | .push | .ijmp | .stx | .und | .pop | .jcnd | .jnz | .jz | .jae | .jb | .ja | .jbe | .jg | .jge
  | .jl | .jle | .jtbl | .ret => interrIf (!withTarget) 50802
  | .add | .sub | .mul | .or | .and | .xor | .shl | .shr | .sar | .cfadd | .ofadd | .cfshl | .cfshr | .ldc | .neg | .xds
  | .xdu | .low | .high | .setz | .setp | .setnz | .sets | .lnot | .bnot | .setae | .setb | .seta | .setbe | .setg
  | .setge | .setl | .setle | .seto | .f2i | .f2u | .i2f | .u2f | .f2f | .fneg | .fadd | .fsub | .fmul | .fdiv =>
    interrIf (!m.d.empty ≠ withTarget) 50803
  | .ldx | .mov | .udiv | .sdiv | .umod | .smod => .ok ()
  | .call | .icall => .ok ()
  | .other _ => .error (.interr 50804)

/-- `is_valid_m_ext_op`, which looks into a subinstruction without checking that there is one. -/
def Mop.isValidExtOp : Mop A I → Verdict Bool
  | .b _ _ => .ok false
  | .f _ _ _ => .ok false
  | .d _ _ insn => .ok (env.validExtOp insn)
  | .null _ .f => .ok false
  | .null _ .d => .error .fault
  | _ => .ok true

/-- The check that the operands are there; `callsKnown` is for the flag MBL_CALL of the block. -/
def Minsn.verifyPresence (callsKnown : Bool) (m : Minsn A I) (seen : List UInt64) : Verdict (List UInt64) :=
  match m.opcode with
  | .nop | .ret => do
    interrIf (!m.l.empty || !m.r.empty || !m.d.empty) 50806
    .ok seen
  | .ext => do
    interrIf (!(← m.l.isValidExtOp env)) 50807
    interrIf (!(← m.r.isValidExtOp env)) 50808
    interrIf (!(← m.d.isValidExtOp env)) 50809
    .ok seen
  | .push => do
    interrIf (m.l.empty || !m.r.empty || !m.d.empty) 50811
    .ok seen
  | .goto => do
    interrIf ((m.l.t ≠ .b && m.l.t ≠ .v) || !m.r.empty || !m.d.empty) 50812
    .ok seen
  | .ijmp => do
    interrIf (!m.l.empty || m.r.empty || m.d.empty) 50813
    .ok seen
  | .stx | .ldx | .add | .sub | .mul | .udiv | .sdiv | .umod | .smod | .or | .and | .xor | .shl | .shr | .sar | .cfadd
  | .ofadd | .cfshl | .cfshr | .setp | .setz | .setnz | .setae | .setb | .seta | .setbe | .setg | .setge | .setl | .setle
  | .seto | .fadd | .fsub | .fmul | .fdiv => do
    interrIf (m.l.empty || m.r.empty) 50815
    .ok seen
  | .low | .high | .ldc | .mov | .neg | .xds | .xdu | .sets | .lnot | .bnot | .f2i | .f2u | .i2f | .u2f | .f2f | .fneg => do
    interrIf (m.l.empty || !m.r.empty) 50817
    .ok seen
  | .und | .pop => do
    interrIf (!m.l.empty || !m.r.empty || m.d.empty) 50818
    .ok seen
  | .jcnd => do
    interrIf (m.l.empty || !m.r.empty || (m.d.t ≠ .v && m.d.t ≠ .b)) 50819
    .ok seen
  | .jnz | .jz | .jae | .jb | .ja | .jbe | .jg | .jge | .jl | .jle => do
    interrIf (m.l.empty || m.r.empty || (m.d.t ≠ .v && m.d.t ≠ .b)) 50820
    .ok seen
  | .jtbl => do
    interrIf (m.l.empty || m.r.t ≠ .c || !m.d.empty) 50821
    .ok seen
  | .call | .icall => do
    interrIf (m.opcode = .call && !m.r.empty) 50822
    interrIf (m.l.t = .z || m.l.t = .b || m.l.t = .f || m.l.t = .a) 50823
    interrIf (callsKnown && m.d.t ≠ .f) 50824
    if mba.noDupCalls && m.l.t ≠ .h && !mba.pattern then
      interrIf (seen.contains m.ea) 51264
      .ok (seen ++ [m.ea])
    else
      .ok seen
  | .other _ => .ok seen

def Mop.walkLow : Mop A I → Verdict Unit
  | .d _ _ (.mk _ opcode _ _ _ inner _ _) => if opcode = .low || opcode = .high then inner.walkLow else .ok ()
  | .null _ .d => .error .fault
  | _ => .ok ()

/-- The read of the number that a shift shifts by. -/
def Mop.readShift (masked : Bool) : Mop A I → Verdict Unit
  | .null _ .n => if masked then .error .fault else .ok ()
  | _ => .ok ()

/-- The reads of operands among the checks of sizes. -/
def Minsn.readSizes (m : Minsn A I) : Verdict Unit :=
  match m.opcode with
  | .shl | .shr | .sar => m.r.readShift (env.shiftMask m.l)
  | .low | .high => m.l.walkLow
  | _ => .ok ()

def Mop.verifyDest (opcode : Mcode) : Mop A I → Verdict Unit
  | .d _ _ insn => interrIf (opcode ≠ .und || insn.opcode ≠ .ldx) 50839
  | .null _ .d => if opcode = .und then .error .fault else .error (.interr 50839)
  | op => interrIf (op.t = .a || op.t = .n || op.t = .fn || op.t = .str || op.t = .h) 51652

def Minsn.verifyDest (m : Minsn A I) : Verdict Unit :=
  if m.opcode = .ijmp || m.opcode = .stx || m.opcode = .ext then .ok () else m.d.verifyDest m.opcode

/-- The read of the variable that an operand names. -/
def Mop.verifyVar (op : Mop A I) (idx : Int) : Verdict Unit :=
  if mba.lvarAllocFailed then
    .ok ()
  else do
    let v ← readAt mba.vars idx
    raise (env.lvarRef v op)

/-- A scattered operand is looked into, without checking that there is a location. -/
def Mop.readScattered : Mop A I → Verdict Unit
  | .null _ .sc => .error .fault
  | _ => .ok ()

def Pos.mopb (pos : Pos) (opcode : Mcode) : Bool := (pos = .l && opcode = .goto) || (pos = .d && opcode.isJcond)

def Pos.mopc (pos : Pos) (opcode : Mcode) : Bool := pos = .r && opcode = .jtbl

/-- The checks of an instruction before those of its operands. -/
def Minsn.verifyShape (callsKnown : Bool) (this : I) (withTarget : Bool) (m : Minsn A I) (seen : List UInt64) :
    Verdict (List UInt64) := do
  raise (if mba.pattern then none else env.insn .address m)
  m.verifyLinks mba this withTarget
  interrIf (!withTarget && !env.isMcodePropagatable m.opcode) 50800
  raise (env.insn .props m)
  m.verifyOpcode withTarget
  let seen ← m.verifyPresence env mba callsKnown seen
  raise (env.insn .sizes m)
  m.readSizes env
  raise (env.insn .sizesOfParts m)
  m.verifyDest
  raise (env.insn .assert m)
  .ok seen

mutual

/-- `mop_t::verify` for an operand of the instruction `m`. -/
def Mop.verify (callsKnown : Bool) (m : Minsn A I) (pos : Pos) (op : Mop A I) (seen : List UInt64) :
    Verdict (List UInt64) := do
  raise (env.mop .size m pos op)
  match op with
  | .null _ .n => .error (.interr 50758)
  | .null _ .d => .error (.interr 50767)
  | .null _ .f => .error (.interr 50771)
  | .null _ .a => .error (.interr 51067)
  | .null _ .h => .error (.interr 50782)
  | .null _ .str => .error (.interr 50785)
  | .null _ .c =>
    interrIf (!pos.mopc m.opcode) 51651
    .error (.interr 50786)
  | .null _ .fn => .error (.interr 50787)
  | .null _ .p => .error (.interr 50789)
  -- the verifier looks into these without checking the pointer
  | .null _ .S => .error .fault
  | .null _ .l => .error .fault
  | .null _ .sc => .error .fault
  | .z _ => .ok seen
  | .v _ _ =>
    raise (env.mop .value m pos op)
    .ok seen
  | .plain _ t =>
    if t.toMopType = .other then
      .error (.interr 50794)
    else
      raise (env.mop .value m pos op)
      interrIf (t.toMopType = .h && m.opcode ≠ .call) 50784
      .ok seen
  | .b _ num =>
    interrIf (!mba.pattern && (num < 0 || num ≥ mba.qty)) 50770
    interrIf (!pos.mopb m.opcode) 51650
    .ok seen
  | .c _ cases =>
    interrIf (!pos.mopc m.opcode) 51651
    cases.verify mba.qty
    .ok seen
  | .l info idx =>
    raise (env.mop .value m pos op)
    -- a negative index is a large one, since the comparison is unsigned
    interrIf (idx < 0 || idx ≥ mba.vars.length) 50776
    Mop.verifyVar env mba (.l info idx) idx
    .ok seen
  | .d _ addr insn =>
    raise (env.mop .value m pos op)
    insn.verify callsKnown addr false seen
  | .a _ target =>
    target.readScattered
    raise (env.mop .value m pos op)
    target.verify callsKnown m .addr seen
  | .p _ lop hop =>
    raise (env.mop .value m pos op)
    let seen ← lop.verify callsKnown m .lop seen
    let seen ← hop.verify callsKnown m .hop seen
    raise (env.mop .after m pos op)
    .ok seen
  | .f info args retregs =>
    raise (env.mop .value m pos op)
    let seen ← args.verify callsKnown m .arg seen
    raise (env.mop .retvals m pos op)
    let seen ← if env.checksRetregs info then retregs.verify callsKnown m .retreg seen else .ok seen
    raise (env.mop .after m pos op)
    interrIf (pos ≠ .d) 50772
    interrIf (!m.opcode.isCall) 50773
    .ok seen

def Mops.verify (callsKnown : Bool) (m : Minsn A I) (pos : Pos) (ops : Mops A I) (seen : List UInt64) :
    Verdict (List UInt64) :=
  match ops with
  | .nil => .ok seen
  | .cons op ops => do
    raise (env.mop .value m pos op)
    let seen ← op.verify callsKnown m pos seen
    raise (env.mop .argDone m pos op)
    ops.verify callsKnown m pos seen

/-- `minsn_t::verify`; `this` is where the instruction is. -/
def Minsn.verify (callsKnown : Bool) (this : I) (withTarget : Bool) (m : Minsn A I) (seen : List UInt64) :
    Verdict (List UInt64) :=
  match m with
  | .mk info opcode ea next prev l r d => do
    let m : Minsn A I := .mk info opcode ea next prev l r d
    let seen ← m.verifyShape env mba callsKnown this withTarget seen
    let seen ← l.verify callsKnown m .l seen
    let seen ← r.verify callsKnown m .r seen
    d.verify callsKnown m .d seen

end

end

/-! ### Blocks -/

section
variable {A I B V : Type} [DecidableEq I] [DecidableEq B] (env : Env A I B V) (mba : Mba A I B V)

/-- The union of an operand, read as a block number. -/
def Mop.unionB : Mop A I → Int
  | .b _ num => num
  | .v _ g => g.toUInt32.toInt32.toInt
  | op => env.unionB op

variable (this : B)

/-- The beginning of `mblock_t::verify` for the block at `this`: its list pointers. -/
def verifyLinks : Verdict Unit := do
  let b := mba.block this
  interrIf (b.nextb.any fun next => (mba.block next).prevb ≠ some this) 50840
  interrIf (b.prevb.any fun prev => (mba.block prev).nextb ≠ some this) 50841
  interrIf (b.nextb.isNone ≠ decide ((mba.qty : Int) - 1 = b.serial)) 50842
  interrIf (b.prevb.isNone ≠ decide (b.serial = 0)) 50843

def verifyLists : Verdict Unit := do
  let b := mba.block this
  interrIf (b.flags &&& ~~~MBL_ALL ≠ 0) 50844
  raise (env.block .lists this)
  if b.serial = 0 || b.type = .stop || b.type = .xtrn then
    interrIf (b.head.isSome && !mba.pattern) 51814
    raise (env.block .emptyLists this)

def verifyNumber : Verdict Unit := do
  let b := mba.block this
  interrIf (b.serial ≥ mba.qty) 50851
  let natural ← readAt mba.natural b.serial
  interrIf (natural ≠ some this) 50852
  raise (env.block .frame this)

def tailOpcode (b : Mblock I B) : Option Mcode := b.tail.map fun tail => (mba.insn tail).opcode

/-- The number of successors that a block of this type has. -/
def expectedSuccs : Verdict Nat :=
  let b := mba.block this
  match b.type with
  | .stop => do
    raise (env.block .stopLists this)
    .ok 0
  | .xtrn | .zeroWay => .ok 0
  | .oneWay => do
    if (tailOpcode mba b).any Mcode.isCall then
      raise (env.block .noretCall this)
      interrIf (b.succset.head? ≠ some (b.serial + 1)) 50854
    .ok 1
  | .twoWay => .ok 2
  | .nWay => .ok b.succset.length
  | .none | .other => .error (.interr 51815)

def verifySucc (serial : Int) (n : Int) : Verdict Unit := do
  interrIf (n < 0 || n ≥ mba.qty) 50857
  let next ← deref (← readAt mba.natural n)
  interrIf (!(mba.block next).predset.contains serial) 50858

/-- The list `outs` that the successors are compared with. -/
def outs (ns : Nat) (b : Mblock I B) : Verdict (List Int) :=
  match b.tail with
  | none => .ok (if ns ≠ 0 then [b.serial + 1] else [])
  | some tail =>
    let m := mba.insn tail
    match m.opcode with
    | .jtbl =>
      match m.r with
      | .c _ cases => .ok cases.targets
      | .null _ .c => .error .fault
      | _ => .error (.interr 50859)
    | .goto =>
      match m.l with
      | .b _ num => .ok [num]
      | _ => .ok []
    | .jcnd | .jnz | .jz | .jae | .jb | .ja | .jbe | .jg | .jge | .jl | .jle =>
      let target := m.d.unionB env
      .ok (if target = b.serial + 1 then [b.serial + 1] else [b.serial + 1, target])
    | .ijmp | .ret => .ok []
    | .ext => .ok b.succset
    | _ => .ok (if ns ≠ 0 then [b.serial + 1] else [])

def verifySuccset : Verdict Unit := do
  let b := mba.block this
  if b.type ≠ .none then
    let ns ← expectedSuccs env mba this
    interrIf (decide (b.type = .nWay) ≠ decide (tailOpcode mba b = some .jtbl)) 50855
    interrIf (b.succset.length ≠ ns) 50856
    b.succset.forM (verifySucc mba b.serial)
    let outs ← outs env mba ns b
    interrIf (outs ≠ b.succset) 50860

/-- The number of a predecessor is not checked before it is used. -/
def verifyPred (serial : Int) (p : Int) : Verdict Unit := do
  let prev ← deref (← readAt mba.natural p)
  interrIf (!(mba.block prev).succset.contains serial) 50861

def verifyPredset : Verdict Unit := do
  let b := mba.block this
  b.predset.forM (verifyPred mba b.serial)
  interrIf (!decide b.predset.Nodup) 50862

/-- `mblock_t::verify` up to the loop over the instructions. -/
def verifyHead : Verdict Unit := do
  verifyLinks mba this
  verifyLists env mba this
  verifyNumber env mba this
  verifySuccset env mba this
  verifyPredset mba this

/-- One round of the loop over the instructions of a block. -/
def verifyInsn (i : I) (foundTail : Bool) (seen : List UInt64) : Verdict (Bool × List UInt64) := do
  let b := mba.block this
  let m := mba.insn i
  let seen ← m.verify env mba (b.flags &&& MBL_CALL ≠ 0) i true seen
  interrIf (b.tail ≠ some i && env.mustMcodeCloseBlock m.opcode m.d.empty) 50864
  interrIf (b.flags &&& MBL_PUSH = 0 && (m.opcode = .push || m.opcode = .pop)) 50865
  .ok (foundTail || b.tail = some i, seen)

/-- `mblock_t::verify` from the end of the loop over the instructions. -/
def verifyTail (foundTail : Bool) : Verdict Unit := do
  let b := mba.block this
  match b.head with
  | some head =>
    interrIf (!foundTail) 50866
    interrIf (mba.insn head).prev.isSome 50867
    let tail ← deref b.tail
    interrIf (mba.insn tail).next.isSome 50868
    raise (env.block .range this)
  | none => interrIf b.tail.isSome 50872
  raise (env.block .useDef this)

/-! ### The verifier -/

/-- Where the verifier is: before a block, or before an instruction of a block. -/
inductive Point (I B : Type) where
  | block (b : Option B)
  | insn (b : B) (i : Option I) (foundTail : Bool)

/-- The variables of `mba_t::verify`, with the addresses of calls that the instructions record. -/
structure State (I B : Type) where
  cnt : Nat
  seen : List UInt64
  bodies : List B
  point : Point I B

/-- The loop body of `mba_t::verify` after a block is verified. -/
def verifyPlace (cnt : Nat) (bodies : List B) (this : B) : Verdict (List B) := do
  let natural ← readAt mba.natural cnt
  interrIf (natural ≠ some this) 50878
  if !mba.pattern && !mba.loaded && (mba.block this).flags &&& MBL_FAKE = 0 && !mba.preopt then
    interrIf (env.overlaps bodies this) 50879
    .ok (this :: bodies)
  else
    .ok bodies

/-- The loop of `verify_args`; `k` is the number of the argument. -/
def verifyArgs : Nat → List Int → Verdict Unit
  | _, [] => .ok ()
  | k, ai :: rest => do
    let v ← readAt mba.vars ai
    raise (env.arg k v)
    verifyArgs (k + 1) rest

/-- `mba_t::verify` after the loop over the blocks. -/
def verifyEnd (cnt : Nat) : Verdict Unit := do
  interrIf (cnt ≠ mba.qty) 50880
  raise (env.ending .frame)
  raise (if mba.pattern then none else env.ending .lvars)
  verifyArgs env mba 0 mba.argidx
  raise (env.ending .thisArg)
  interrIf (mba.retvaridx ≠ -1 && (mba.retvaridx < 0 || mba.retvaridx ≥ mba.vars.length)) 50911
  raise (env.ending .prototype)

/-- One round of the loop over the blocks, or of the loop over the instructions of a block. -/
def verifyStep (s : State I B) : Result (State I B) (Verdict Unit) :=
  match s.point with
  | .block none => .done (verifyEnd env mba s.cnt)
  | .block (some b) =>
    match verifyHead env mba b with
    | .error e => .done (.error e)
    | .ok () => .next { s with point := .insn b (mba.block b).head false }
  | .insn b (some i) foundTail =>
    match verifyInsn env mba b i foundTail s.seen with
    | .error e => .done (.error e)
    | .ok (foundTail, seen) => .next { s with seen, point := .insn b (mba.insn i).next foundTail }
  | .insn b none foundTail =>
    match verifyTail env mba b foundTail >>= fun _ => verifyPlace env mba s.cnt s.bodies b with
    | .error e => .done (.error e)
    | .ok bodies => .next { s with cnt := s.cnt + 1, bodies, point := .block (mba.block b).nextb }

variable {env mba} in
theorem verifyStep_cases {s s' : State I B} (h : verifyStep env mba s = .next s') :
    (∃ b, s.point = .block (some b) ∧ verifyHead env mba b = .ok () ∧
      s' = { s with point := .insn b (mba.block b).head false }) ∨
    (∃ b i foundTail foundTail' seen, s.point = .insn b (some i) foundTail ∧
      verifyInsn env mba b i foundTail s.seen = .ok (foundTail', seen) ∧
      s' = { s with seen, point := .insn b (mba.insn i).next foundTail' }) ∨
    (∃ b foundTail bodies, s.point = .insn b none foundTail ∧ verifyTail env mba b foundTail = .ok () ∧
      verifyPlace env mba s.cnt s.bodies b = .ok bodies ∧
      s' = { s with cnt := s.cnt + 1, bodies, point := .block (mba.block b).nextb }) := by
  obtain ⟨cnt, seen, bodies, point⟩ := s
  cases point with
  | block b =>
      cases b with
      | none => simp [verifyStep] at h
      | some b =>
          simp only [verifyStep] at h
          cases hhead : verifyHead env mba b with
          | error e => simp [hhead] at h
          | ok u =>
              simp only [hhead, Result.next.injEq] at h
              exact Or.inl ⟨b, rfl, hhead, h.symm⟩
  | insn b i foundTail =>
      cases i with
      | some i =>
          simp only [verifyStep] at h
          cases hinsn : verifyInsn env mba b i foundTail seen with
          | error e => simp [hinsn] at h
          | ok r =>
              simp only [hinsn, Result.next.injEq] at h
              exact Or.inr (Or.inl ⟨b, i, foundTail, r.1, r.2, rfl, hinsn, h.symm⟩)
      | none =>
          simp only [verifyStep] at h
          cases htail : verifyTail env mba b foundTail >>= fun _ => verifyPlace env mba cnt bodies b with
          | error e => simp [htail] at h
          | ok bodies' =>
              simp only [htail, Result.next.injEq] at h
              obtain ⟨_, htail, hplace⟩ := Verdict.bind_eq_ok.mp htail
              exact Or.inr (Or.inr ⟨b, foundTail, bodies', rfl, htail, hplace, h.symm⟩)

def startState : State I B := ⟨0, [], [], .block mba.blocks⟩

def verify (always : Bool) (fuel : Nat) : Option (Verdict Unit) :=
  if (!always && !env.shouldVerify) || mba.dontVerify then some (.ok ())
  else run (verifyStep env mba) fuel (startState mba)

end

end IdaSdk.Micro
