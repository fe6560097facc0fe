import IdaSdk.LibTable
import Mathlib.Data.Nat.Basic

/-!
Thread breakpoints of the Windows debugger: temporary breakpoints that stop single threads. An address with such
breakpoints has one entry with the number of threads and the byte that the breakpoint code replaced. What the accesses
to memory and to thread contexts return is given from outside.
-/

namespace IdaSdk.ThreadBpts

abbrev BADADDR : Nat := 2 ^ 64 - 1

def bpt_code : UInt8 := 0xCC

abbrev bpt_size : Int := 1

/-- `thread_info_t`. -/
structure thread_info_t where
  bpt_ea : Nat
  callgate_ea : Nat
deriving DecidableEq

/-- `internal_bpt_info_t`. -/
structure internal_bpt_info_t where
  count : Int
  orig_bytes : UInt8
deriving DecidableEq

structure State where
  threads : Table Nat thread_info_t
  thread_bpts : Table Nat internal_bpt_info_t
  memory : Nat → UInt8

/-- An access to one byte of memory: it is done, or no byte is transferred, or it is not permitted. -/
inductive Access where
  | done | nothing | denied
deriving DecidableEq

def Access.count : Access → Int
  | .done => 1
  | .nothing => 0
  | .denied => -1

/-- What one thread's accesses return: its instruction pointer if the context can be read, writing the original byte
back, reading it, and writing the breakpoint code. -/
structure Outcome where
  context : Option Nat
  restore : Access
  read : Access
  write : Access

/-- `QASSERT` and `INTERR` stop the debugger. -/
inductive Fault where
  | assert1488 | interr1489 | interr637
deriving DecidableEq

/-- `mask` is the largest address of the program. -/
def like_badaddr (mask ea : Nat) : Bool := (if ea = mask then BADADDR else ea) = BADADDR

variable (s : State)

def State.set_bpt_ea (tid ea : Nat) : State :=
  { s with threads := s.threads.modify tid fun ti => { ti with bpt_ea := ea } }

def State.write (ea : Nat) (byte : UInt8) : State :=
  { s with memory := fun a => if a = ea then byte else s.memory a }

variable (out : Access)

def restore_original_bytes (s : State) (ea : Nat) (really_restore : Bool) : Except Fault State :=
  match s.thread_bpts.find ea with
  | none => .error .assert1488
  | some ibi =>
    if ibi.count - 1 = 0 then
      if really_restore then
        if out.count ≠ bpt_size then .error .interr1489
        else .ok { s.write ea ibi.orig_bytes with thread_bpts := s.thread_bpts.erase ea }
      else .ok { s with thread_bpts := s.thread_bpts.erase ea }
    else .ok { s with thread_bpts := s.thread_bpts.modify ea fun ibi => { ibi with count := ibi.count - 1 } }

/-- `save_original_bytes`: 0 for an error, 1 for a new entry, 2 for one that was there. -/
def save_original_bytes (s : State) (ea : Nat) : Nat × State :=
  match s.thread_bpts.find ea with
  | none =>
    if out.count ≠ bpt_size then (0, s)
    else (1, { s with thread_bpts := s.thread_bpts.insertNew ea ⟨1, s.memory ea⟩ })
  | some _ => (2, { s with thread_bpts := s.thread_bpts.modify ea fun ibi => { ibi with count := ibi.count + 1 } })

variable (mask : Nat)

def del_thread_bpt (out : Outcome) (s : State) (tid ea : Nat) : Except Fault (Bool × State) :=
  match s.threads.find tid with
  | none => .ok (false, s)
  | some ti =>
    if like_badaddr mask ti.bpt_ea then .ok (false, s)
    else if ti.bpt_ea = ea ∧ out.context = none then .ok (false, s)
    else (restore_original_bytes out.restore s ti.bpt_ea true).map fun s => (true, s.set_bpt_ea tid BADADDR)

def del_loop (mask : Nat) (env : Nat → Outcome) (ea : Nat) : List Nat → State → Bool → Except Fault (Bool × State)
  | [], s, found => .ok (found, s)
  | tid :: tids, s, found =>
    match del_thread_bpt mask (env tid) s tid ea with
    | .error e => .error e
    | .ok (deleted, s) => del_loop mask env ea tids s (found || deleted)

def del_thread_bpts (env : Nat → Outcome) (s : State) (ea : Nat) : Except Fault (Bool × State) :=
  del_loop mask env ea s.threads.keys s false

def write_code (s : State) (ea : Nat) : State := if out = .done then s.write ea bpt_code else s

/-- `set_thread_bpt` once the old breakpoint is gone. -/
def place_thread_bpt (out : Outcome) (s : State) (tid ea : Nat) : Except Fault (Bool × State) :=
  match save_original_bytes out.read (s.set_bpt_ea tid ea) ea with
  | (0, s) => .ok (false, s.set_bpt_ea tid BADADDR)
  | (2, s) => .ok (true, s)
  | (_, s) =>
    if out.write.count = bpt_size then .ok (true, write_code out.write s ea)
    else if 0 < out.write.count then
      (restore_original_bytes out.restore (write_code out.write s ea) ea false).map fun s =>
        (false, s.set_bpt_ea tid BADADDR)
    else .ok (false, (write_code out.write s ea).set_bpt_ea tid BADADDR)

def set_thread_bpt (out : Outcome) (s : State) (tid ea : Nat) : Except Fault (Bool × State) :=
  match del_thread_bpt mask out s tid BADADDR with
  | .error e => .error e
  | .ok (_, s) => place_thread_bpt out s tid ea

/-- The loop of `dbg_prepare_to_pause_process`; `bpts` are the addresses of the breakpoints set by the user. -/
def pause_loop (mask : Nat) (env : Nat → Outcome) (bpts : Nat → Bool) :
    List Nat → State → Bool → Except Fault (Bool × State)
  | [], s, ok => .ok (ok, s)
  | tid :: tids, s, ok =>
    match (env tid).context with
    | none => pause_loop mask env bpts tids s false
    | some ip =>
      if bpts ((ip + 2 ^ 64 - 1) % 2 ^ 64) then pause_loop mask env bpts tids s ok
      else
        match set_thread_bpt mask (env tid) s tid (ip &&& mask) with
        | .error e => .error e
        | .ok (set, s) => pause_loop mask env bpts tids s (ok && set)

/-- `dbg_prepare_to_pause_process`; `debug_break` is the answer of `debug_break_process` where it is used. -/
def dbg_prepare_to_pause_process (env : Nat → Outcome) (debug_break : Option Bool) (bpts : Nat → Bool)
    (s : State) : Except Fault (Bool × State) :=
  match debug_break with
  | some ok => .ok (ok, s)
  | none =>
    if s.threads.entries = [] then .ok (false, s)
    else pause_loop mask env bpts s.threads.keys s true

def install_callgate_workaround (out : Outcome) (s : State) (tid event_ea : Nat) : Except Fault State :=
  match set_thread_bpt mask out
    { s with threads := s.threads.modify tid fun ti => { ti with callgate_ea := (event_ea + 7) % 2 ^ 64 } }
    tid ((event_ea + 7) % 2 ^ 64) with
  | .error e => .error e
  | .ok (set, s) => if set then .ok s else .error .interr637

def add_thread (tid : Nat) : State := { s with threads := s.threads.insertNew tid ⟨BADADDR, 0⟩ }

/-- `EXIT_THREAD_DEBUG_EVENT` in `get_debug_event`. -/
def exit_thread (tid : Nat) : State := { s with threads := s.threads.erase tid }

end IdaSdk.ThreadBpts
