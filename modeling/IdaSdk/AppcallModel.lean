import IdaSdk.DebmodCalls
import IdaSdk.LibTable
import Mathlib.Order.Nat
import Mathlib.Logic.Function.Basic

/-!
Calls of a function of the debugged application. The registers are saved on a stack that every thread has, the
arguments and a control breakpoint are written below the stack pointer, and the application runs until it reaches the
breakpoint. What is specific to a processor is a case of `Arch`.
-/

namespace IdaSdk.Debmod
open Effects

/-- The error codes of `dbg_appcall`; success is the absence of an error. -/
inductive AppcallErr where
  | E_READREGS | E_NOSTACK | E_REG_USED | E_ARG_ALLOC | E_WRITE_ARGS | E_WRITE_REGS | E_HANDLE_EVENT | E_DEBUG_EVENT
  | E_RESUME | E_EXCEPTION | E_APPCALL_FROM_EXC | E_TIMEOUT
deriving DecidableEq

def AppcallErr.errstr : AppcallErr → String
  | .E_READREGS => "failed to read registers"
  | .E_NOSTACK => "failed to allocate stack frame"
  | .E_REG_USED => "the calling convention refers to reserved registers"
  | .E_ARG_ALLOC => "failed to allocate memory for stack arguments"
  | .E_WRITE_ARGS => "failed to setup stack arguments"
  | .E_WRITE_REGS => "failed to setup register arguments"
  | .E_HANDLE_EVENT => "failed to handle debug event"
  | .E_DEBUG_EVENT => "could not get debug events"
  | .E_RESUME => "failed to resume the application"
  | .E_EXCEPTION => "an exception has occurred"
  | .E_APPCALL_FROM_EXC => "last event was an exception, cannot perform an appcall"
  | .E_TIMEOUT => "timeout"

/-- The classes that override virtual functions of `debmod_t`: `pc_debmod_t`, for 32-bit programs if `x86`, and
`arm_debmod_t`. -/
inductive Arch where
  | base
  | pc (x86 : Bool)
  | arm
deriving DecidableEq

/-- What an appcall uses of `register_info_t`. -/
structure RegInfo where
  dtype : Nat
  flags : Nat

def REGISTER_CUSTFMT : Nat := 0x100

/-- `dt_float`, `dt_double`, `dt_tbyte`, `dt_ldbl` and `dt_half`. -/
def is_floating_dtype (dtype : Nat) : Bool := dtype ∈ [3, 4, 5, 15, 18]

/-- What does not change during an appcall. `relocate` is the function of the kernel that relocates the stack
arguments. -/
structure AppcallEnv where
  arch : Arch
  nregs : Nat
  sp_idx : Nat
  pc_idx : Nat
  sr_idx : Nat
  lr_idx : Nat
  addrsize : Nat
  ri_vec : List RegInfo
  bpt_code : bytevec_t
  relocate : bytevec_t → ea_t → Option bytevec_t

/-- `regobj_t`. -/
structure RegObj where
  regidx : Nat
  relocate : Bool
  value : bytevec_t

abbrev regval_map_t := Table Nat RegVal

def APPCALL_MANUAL : Nat := 0x1
def APPCALL_DEBEV : Nat := 0x2
def APPCALL_TIMEOUT : Nat := 0x4
def RQ_SUSPEND : Nat := 0x2
def RQ_SILENT : Nat := 0x8
def X86_RC_GENERAL : Int := 1
def TIMEOUT : Int := 40

def GET_APPCALL_TIMEOUT (options : Nat) : Nat := options >>> 16

def to_bytes (n : Nat) (x : UInt64) : bytevec_t := (List.range n).map fun i => UInt8.ofNat (x.toNat >>> (8 * i))

def of_bytes : bytevec_t → Nat
  | [] => 0
  | b :: bs => b.toNat + 256 * of_bytes bs

def overwrite (x : UInt64) (bytes : bytevec_t) : UInt64 :=
  UInt64.ofNat (of_bytes bytes + 2 ^ (8 * bytes.length) * (x.toNat >>> (8 * bytes.length)))

variable (v : RegVal)

def RegVal.use_bytevec : Bool := RVT_FLOAT ≤ v.rvtype

def RegVal.clear : RegVal := if v.use_bytevec then { v with rvtype := RVT_INT, bytes := [] } else v

def RegVal.get_data : bytevec_t := if v.use_bytevec then v.bytes else to_bytes 8 v.ival

def ival (values : regvals_t) (idx : Nat) : UInt64 := (values.getD idx RegVal.default).ival

def regval_map_t.set (regs : regval_map_t) (idx : Nat) (v : RegVal) : regval_map_t := (regs.erase idx).insertNew idx v

def align_up (x n : Nat) : Nat := (x + (n - 1)) / n * n

variable (cb : Callbacks) (env : AppcallEnv)

def calc_appcall_stack (regvals : regvals_t) : ea_t :=
  let ea := ival regvals env.sp_idx
  match env.arch with
  | .pc false => if 128 < ea then ea - 128 else BADADDR
  | _ => ea

/-- The adjustment of the stack pointer, the registers and the stack image. -/
def finalize_appcall_stack (ctx : CallContext) (regs : regval_map_t) (stk : bytevec_t) :
    Nat × regval_map_t × bytevec_t :=
  match env.arch with
  | .base => (0, regs, stk)
  | .pc _ => (0, regs, stk ++ [0xCC, 0xEB, 0xFE])
  | .arm =>
    let lr := (regs.find env.lr_idx).getD RegVal.default
    (env.addrsize, regs.set env.lr_idx { lr with ival := ctx.ctrl_ea }, stk)

/-- `debmod_t::should_stop_appcall`. -/
def reached_control (event : Event) (ea : ea_t) : Bool :=
  match event.eid with
  | .EXCEPTION => event.exc_ea = ea ∨ event.ea = ea
  | .BREAKPOINT => event.ea = ea
  | _ => false

variable (tid : thid_t)

/-- Whether the application is about to return to the control address. -/
def at_return (ea : ea_t) : Code State Bool := do
  let (drc, regs) ← dbg_read_registers cb env.nregs tid X86_RC_GENERAL
  if drc ≠ DRC_OK then pure false
  else
    let (n, opcode) ← dbg_read_memory cb (ival regs env.pc_idx) 1
    if n ≠ 1 ∨ opcode.getD 0 0 ≠ 0xC3 ∧ opcode.getD 0 0 ≠ 0xC2 then pure false
    else
      let (n, at_sp) ← dbg_read_memory cb (ival regs env.sp_idx) 8
      pure (n = 8 ∧ ea = overwrite BADADDR at_sp)

def should_stop_appcall (event : Event) (ea : ea_t) : Code State Bool :=
  if reached_control event ea then pure true
  else
    match env.arch with
    | .pc _ => at_return cb env tid ea
    | _ => pure false

/-- The trace flag is cleared in the saved status register. -/
def clear_trace_flag (env : AppcallEnv) (values : regvals_t) : regvals_t :=
  match env.arch with
  | .pc _ => values.modify env.sr_idx fun v => { v with ival := v.ival &&& ~~~0x100 }
  | _ => values

def preprocess_appcall_cleanup (ctx : CallContext) : Bool × CallContext :=
  (true, { ctx with saved_regs := clear_trace_flag env ctx.saved_regs })

/-- The calls that are pending in a thread, the last one first. -/
def State.stack (dm : State) (tid : thid_t) : List CallContext := (dm.appcalls tid).getD []

def CallContext.default : CallContext := ⟨[], BADADDR, BADADDR, false⟩

def set_stack (stack : Option (List CallContext)) : Code State PUnit :=
  modify fun dm => { dm with appcalls := Function.update dm.appcalls tid stack }

def set_top (ctx : CallContext) : Code State PUnit :=
  modify fun dm => { dm with appcalls := Function.update dm.appcalls tid (some (ctx :: (dm.stack tid).tail)) }

def dbg_cleanup_appcall : Code State drc_t := do
  let dm ← get
  match dm.stack tid with
  | [] => pure DRC_FAILED
  | ctx :: calls => do
    let (ok, ctx) := preprocess_appcall_cleanup env ctx
    set_top tid ctx
    if ok then
      let _ ← dbg_del_bpt cb BPT_SOFT ctx.ctrl_ea env.bpt_code env.bpt_code.length
      let restored ← (if ctx.regs_spoiled then write_registers cb tid ctx.saved_regs else pure true)
      if restored then
        set_stack tid (if calls.isEmpty then none else some calls)
        let dm ← get
        pure (if dm.has_events then DRC_EVENTS else DRC_OK)
      else pure DRC_FAILED
    else pure DRC_FAILED

/-! ### The parts of `dbg_appcall` -/

/-- The arguments of `dbg_appcall`. -/
structure AppcallArgs where
  func_ea : ea_t
  tid : thid_t
  stkarg_nbytes : Int
  regargs : List RegObj
  stkbytes : bytevec_t
  retregs : Option (List RegObj)
  event : Event
  options : Nat

/-- What a part of the code gives: a value, or the error that ends the call. -/
abbrev Part (α : Type) := Except AppcallErr α

/-- The registers are saved, and the stack pointer is found. -/
def save_registers : Code State (Part (CallContext × ea_t)) := do
  let dm ← get
  if dm.last_event.eid = .EXCEPTION then pure (.error .E_APPCALL_FROM_EXC)
  else
    let (drc, regs) ← dbg_read_registers cb env.nregs tid (-1)
    let ctx := { CallContext.default with saved_regs := regs }
    set_top tid ctx
    if drc ≠ DRC_OK then pure (.error .E_READREGS)
    else
      let org_sp := calc_appcall_stack env ctx.saved_regs
      pure (if org_sp = BADADDR then .error .E_NOSTACK else .ok (ctx, org_sp))

/-- The stack with the arguments: what is known after it is prepared. -/
structure Prepared where
  ctx : CallContext
  args_sp : ea_t
  stkbytes : bytevec_t
  call_regs : regval_map_t

variable (a : AppcallArgs)

/-- The stack image is written and the control breakpoint is set. -/
def prepare_stack (ctx : CallContext) (org_sp : ea_t) : Code State (Part Prepared) := do
  let ctrl_ea := org_sp - UInt64.ofNat env.addrsize
  let stkbytes_size := align_up a.stkbytes.length env.addrsize
  let args_sp := (ctrl_ea - UInt64.ofNat stkbytes_size) &&& ~~~15
  let ctx := { ctx with ctrl_ea := args_sp + UInt64.ofNat stkbytes_size }
  set_top a.tid ctx
  match env.relocate a.stkbytes args_sp with
  | none => pure (.error .E_ARG_ALLOC)
  | some stkbytes => do
    let stk := to_bytes env.addrsize ctx.ctrl_ea ++ stkbytes
    let stk := (List.range (env.addrsize + stkbytes_size)).map fun i => stk.getD i 0
    let ctx := { ctx with sp := args_sp - UInt64.ofNat env.addrsize }
    set_top a.tid ctx
    if org_sp ≤ ctx.sp then pure (.error .E_NOSTACK)
    else
      let (delta, call_regs, stk) := finalize_appcall_stack env ctx Table.empty stk
      let ctx := { ctx with sp := ctx.sp + UInt64.ofNat delta }
      set_top a.tid ctx
      let image := stk.drop delta
      let written ← (if image = [] then pure 0 else dbg_write_memory cb ctx.sp image)
      if written ≠ image.length then pure (.error .E_WRITE_ARGS)
      else
        let _ ← dbg_add_bpt cb BPT_SOFT ctx.ctrl_ea (-1)
        pure (.ok ⟨ctx, args_sp, stkbytes, call_regs⟩)

/-- The value that an argument gives its register, from the value that was built last. -/
def argument_value (rif : RegInfo) (ri : RegObj) (args_sp : ea_t) (rv : RegVal) : RegVal :=
  if is_floating_dtype rif.dtype then { rv with rvtype := RVT_FLOAT, bytes := ri.value }
  else if ri.value.length ≤ 8 ∧ rif.flags &&& REGISTER_CUSTFMT = 0 then
    let ival := overwrite rv.ival ri.value
    { rv.clear with ival := if ri.relocate then ival + args_sp else ival }
  else { rv with rvtype := 0, bytes := ri.value }

/-- The registers of the arguments. -/
def copy_arguments (args_sp : ea_t) :
    List RegObj → RegVal → regval_map_t → Code State (Part (RegVal × regval_map_t))
  | [], rv, call_regs => pure (.ok (rv, call_regs))
  | ri :: regargs, rv, call_regs =>
    if ri.regidx = env.sp_idx ∨ ri.regidx = env.pc_idx then pure (.error .E_REG_USED)
    else
      match env.ri_vec[ri.regidx]? with
      | none => hang
      | some rif => do
        let rv := argument_value rif ri args_sp rv
        copy_arguments args_sp regargs rv (call_regs.set ri.regidx rv)

/-- The registers are written one by one; the first one that is written marks the call. -/
def change_registers (tid : thid_t) : List (Nat × RegVal) → CallContext → Code State (Part CallContext)
  | [], ctx => pure (.ok ctx)
  | (idx, v) :: regs, ctx => do
    let drc ← dbg_write_register cb tid idx v
    if drc ≠ DRC_OK then pure (.error .E_WRITE_REGS)
    else
      let ctx := { ctx with regs_spoiled := true }
      set_top tid ctx
      change_registers tid regs ctx

def setup_registers (p : Prepared) : Code State (Part CallContext) := do
  match ← copy_arguments env p.args_sp a.regargs RegVal.default p.call_regs with
  | .error err => pure (.error err)
  | .ok (rv, call_regs) =>
    let rv := { rv.clear with ival := p.ctx.sp }
    let call_regs := (call_regs.set env.sp_idx rv).set env.pc_idx { rv with ival := a.func_ea }
    change_registers cb a.tid call_regs.entries p.ctx

def set_last_event (f : Event → Event) : Code State PUnit := modify fun dm => { dm with last_event := f dm.last_event }

def continue_after_last_event (handled : Bool) : Code State Bool := do
  set_last_event fun ev => { ev with handled := handled }
  let dm ← get
  let drc ← dbg_continue_after_event cb dm.last_event
  pure (drc = DRC_OK)

/-- The state of the loop. `recalc` is `recalc_timeout`, and `timed_out` that the error is `E_TIMEOUT`. -/
structure Wait where
  event : Event
  recalc : Nat
  timeout_ms : Int
  endtime : UInt64
  timed_out : Bool

/-- How the loop ends: with an error or without, or because the process or the thread has gone. -/
structure WaitEnd where
  event : Event
  err : Option AppcallErr
  gone : Bool

def Wait.err (w : Wait) : Option AppcallErr := if w.timed_out then some .E_TIMEOUT else none

def Wait.begin : Code State Wait :=
  if a.options &&& APPCALL_TIMEOUT ≠ 0 then do
    let dm ← get
    let timeout_ms := GET_APPCALL_TIMEOUT a.options
    pure ⟨a.event, 1, timeout_ms,
      if 0 < timeout_ms then cb.get_nsec_stamp dm + UInt64.ofNat timeout_ms * 1000000 else 0, false⟩
  else pure ⟨a.event, 0, TIMEOUT, 0, false⟩

/-- The timeout that is left, and whether the wait goes on. -/
def Wait.update_timeout (w : Wait) : Code State (Wait × Bool) :=
  if w.recalc = 0 then pure (w, true)
  else if w.recalc ≠ 2 then pure ({ w with recalc := 2 }, true)
  else do
    let dm ← get
    let left := ((w.endtime - cb.get_nsec_stamp dm).toInt64.toInt.tdiv 1000000).bmod (2 ^ 32)
    let w := { w with timeout_ms := if 0 < w.timeout_ms then left else w.timeout_ms }
    if w.timeout_ms ≤ 0 then
      let drc ← dbg_prepare_to_pause_process cb
      pure ({ w with timed_out := true }, DRC_NONE < drc)
    else pure (w, true)

def Event.ends (event : Event) (tid : thid_t) : Bool :=
  event.eid = .PROCESS_EXITED ∨ event.eid = .THREAD_EXITED ∧ event.tid = tid

/-- An event that is not the end of the process or of the thread. -/
def Wait.handle_event (ctrl_ea : ea_t) (w : Wait) (event : Event) : Code State (Wait ⊕ WaitEnd) := do
  if w.timed_out then
    let _ ← send_debug_event_to_ida cb event (RQ_SILENT ||| RQ_SUSPEND)
    set_last_event Event.clear_eid
    pure (.inr ⟨event.clear_eid, some .E_TIMEOUT, false⟩)
  else if ← should_stop_appcall cb env tid event ctrl_ea then
    set_last_event Event.clear_eid
    pure (.inr ⟨event, none, false⟩)
  else if event.eid = .EXCEPTION then
    set_last_event fun ev => { ev.clear_eid with handled := true }
    pure (.inr ⟨event, some .E_EXCEPTION, false⟩)
  else
    let code ← send_debug_event_to_ida cb event (RQ_SILENT ||| RQ_SUSPEND)
    if code ≠ 0 then pure (.inr ⟨event, some .E_HANDLE_EVENT, false⟩)
    else
      let _ ← dbg_continue_after_event cb event
      pure (.inl { w with event := event.clear_eid })

def Wait.round (ctrl_ea : ea_t) (w : Wait) : Code State (Wait ⊕ WaitEnd) := do
  let (w, goes_on) ← w.update_timeout cb
  if goes_on then
    let (r, event) ← dbg_get_debug_event cb w.event w.timeout_ms
    if r = .GDE_NO_EVENT then pure (.inl { w with event := event })
    else if r = .GDE_ERROR then pure (.inr ⟨event, some .E_DEBUG_EVENT, false⟩)
    else if event.ends tid then
      let _ ← send_debug_event_to_ida cb event RQ_SILENT
      pure (.inr ⟨event, w.err, true⟩)
    else w.handle_event cb env tid ctrl_ea event
  else pure (.inr ⟨w.event, w.err, false⟩)

variable (fuel : Nat)

def wait_appcall (a : AppcallArgs) (ctrl_ea : ea_t) : Code State WaitEnd := do
  let w ← Wait.begin cb a
  loop (Wait.round cb env a.tid ctrl_ea) fuel w

/-- The argument vector is written back. -/
def write_arguments (p : Prepared) : Code State (Part Unit) :=
  if 0 < a.stkarg_nbytes then
    if (p.stkbytes.length : Int) < a.stkarg_nbytes then pure (.error .E_WRITE_ARGS)
    else do
      let written ← dbg_write_memory cb p.args_sp (p.stkbytes.take a.stkarg_nbytes.toNat)
      pure (if written ≠ a.stkarg_nbytes then .error .E_WRITE_ARGS else .ok ())
  else pure (.ok ())

def RegObj.receive (retr : regvals_t) (r : RegObj) : RegObj :=
  let data := (retr.getD r.regidx RegVal.default).get_data
  ⟨r.regidx, false, data.take r.value.length ++ r.value.drop data.length⟩

/-- The return registers get their values. -/
def read_result : Code State (Part (Option (List RegObj))) :=
  match a.retregs with
  | none | some [] => pure (.ok a.retregs)
  | some regs => do
    let (drc, retr) ← dbg_read_registers cb env.nregs a.tid (-1)
    pure (if drc ≤ DRC_NONE then .error .E_READREGS
      else .ok (some (regs.map (RegObj.receive retr))))

/-- How the body of `dbg_appcall` ends. -/
structure AppcallEnd where
  err : Option AppcallErr
  gone : Bool
  args_sp : ea_t
  event : Event
  retregs : Option (List RegObj)

def AppcallEnd.failed (err : AppcallErr) : AppcallEnd :=
  ⟨some err, false, BADADDR, a.event, a.retregs⟩

/-- The part after the registers are changed. -/
def run_appcall (a : AppcallArgs) (p : Prepared) (ctx : CallContext) : Code State AppcallEnd := do
  if a.options &&& APPCALL_MANUAL ≠ 0 then pure ⟨none, false, p.args_sp, a.event, a.retregs⟩
  else if ← continue_after_last_event cb true then
    let w ← wait_appcall cb env fuel a ctx.ctrl_ea
    if w.err ≠ none ∨ w.gone then pure ⟨w.err, w.gone, BADADDR, w.event, a.retregs⟩
    else
      match ← write_arguments cb a p with
      | .error err => pure ⟨some err, false, BADADDR, w.event, a.retregs⟩
      | .ok _ =>
        match ← read_result cb env a with
        | .error err => pure ⟨some err, false, BADADDR, w.event, a.retregs⟩
        | .ok retregs => pure ⟨none, false, p.args_sp, w.event, retregs⟩
  else pure (.failed a .E_RESUME)

/-- The body of `dbg_appcall`. -/
def appcall_body (a : AppcallArgs) : Code State AppcallEnd := do
  match ← save_registers cb env a.tid with
  | .error err => pure (.failed a err)
  | .ok (ctx, org_sp) =>
    match ← prepare_stack cb env a ctx org_sp with
    | .error err => pure (.failed a err)
    | .ok p =>
      match ← setup_registers cb env a p with
      | .error err => pure (.failed a err)
      | .ok ctx => run_appcall cb env fuel a p ctx

/-- What `dbg_appcall` gives: the address, the text of the error if there is one, the last event and the return
registers. -/
structure AppcallResult where
  ea : ea_t
  errbuf : Option String
  event : Event
  retregs : Option (List RegObj)

/-- The text of an exception, unless the event itself is given back. -/
def AppcallEnd.errbuf (e : AppcallEnd) (options : Nat) : Option String :=
  match e.err with
  | none => none
  | some .E_EXCEPTION => if options &&& APPCALL_DEBEV = 0 then some e.event.exc_info else none
  | some err => some err.errstr

def dbg_appcall (a : AppcallArgs) : Code State AppcallResult := do
  let dm ← get
  set_stack a.tid (some (CallContext.default :: dm.stack a.tid))
  let e ← appcall_body cb env fuel a
  if e.err ≠ none then
    let _ ← dbg_cleanup_appcall cb env a.tid
    pure ⟨BADADDR, e.errbuf a.options, e.event, e.retregs⟩
  else pure ⟨if e.gone then BADADDR else e.args_sp, none, e.event, e.retregs⟩

end IdaSdk.Debmod
