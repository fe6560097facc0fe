import Mathlib.Logic.Function.Basic
import Mathlib.Order.Defs.LinearOrder
import Mathlib.Data.Int.Order.Basic
import Mathlib.Tactic.Common
import IdaSdk.LibTable

/-!
The threads of a debugged Linux process as `linux_debmod_t` keeps them: their run states and suspend
counts, and the wait statuses that arrived before anybody asked for them. Freezing and thawing change
many threads at once; what the kernel answers meanwhile is a parameter.
-/

namespace IdaSdk.LinuxThreads

abbrev thid_t := Int
abbrev status_t := BitVec 32

def SIGTRAP : status_t := 5
def SIGSTOP : status_t := 19

variable (status : status_t)

def WIFSTOPPED : Bool := status &&& 0xff = 0x7f
def WSTOPSIG : status_t := (status >>> 8) &&& 0xff
def WIFEXITED : Bool := status &&& 0x7f = 0

def isSigstop : Bool := WIFSTOPPED status && WSTOPSIG status = SIGSTOP

def is_bpt_status : Bool := WIFSTOPPED status && WSTOPSIG status = SIGTRAP

inductive thstate_t where
  | RUNNING
  | STOPPED
  | DYING
  | DEAD
  deriving DecidableEq

structure thread_info_t where
  suspend_count : Nat := 0
  user_suspend : Nat := 0
  child_signum : status_t := 0
  single_step : Bool := false
  state : thstate_t := .STOPPED
  waiting_sigstop : Bool := false
  got_pending_status : Bool := false
  pending_status : status_t := 0
  deriving DecidableEq

variable (ti : thread_info_t)

def thread_info_t.is_running : Bool :=
  ti.state = .RUNNING && !ti.waiting_sigstop && !ti.got_pending_status

inductive event_id_t where
  | NO_EVENT
  | THREAD_EXITED
  | other (eid : Nat)
  deriving DecidableEq

structure debug_event_t where
  eid : event_id_t
  tid : thid_t
  deriving DecidableEq

structure linux_debmod_t where
  threads : Table thid_t thread_info_t
  deleted_threads : List thid_t
  seen_threads : List thid_t
  events : List debug_event_t
  npending_signals : Int
  may_run : Bool
  exited : Bool
  last_event_tid : thid_t

def linux_debmod_t.start : linux_debmod_t := ⟨Table.empty, [], [], [], 0, false, false, 0⟩

/-- A request to let a thread go on, with the signal that is passed to it. -/
structure ptrace_call where
  step : Bool
  tid : thid_t
  signum : status_t
  deriving DecidableEq

/-- The debuggers of all clients, in the order in which they are visited. -/
structure Server where
  order : List Nat
  mods : Nat → linux_debmod_t
  calls : List ptrace_call

variable (srv : Server)

def Server.set (i : Nat) (ld : linux_debmod_t) : Server :=
  { srv with mods := Function.update srv.mods i ld }

theorem Server.set_mods (i : Nat) (ld : linux_debmod_t) (j : Nat) :
    (srv.set i ld).mods j = if j = i then ld else srv.mods j := Function.update_apply _ _ _ _

@[simp] theorem Server.set_mods_self (i : Nat) (ld : linux_debmod_t) :
    (srv.set i ld).mods i = ld := by
  rw [Server.set_mods, if_pos rfl]

variable (ld : linux_debmod_t)

def linux_debmod_t.modify (tid : thid_t) (f : thread_info_t → thread_info_t) :
    linux_debmod_t :=
  { ld with threads := ld.threads.modify tid f }

variable (tid : thid_t)

def add_thread (ld : linux_debmod_t) : linux_debmod_t :=
  { ld with threads := ld.threads.insertNew tid {} }

/-- A thread that is deleted must be there. At most ten deleted threads are remembered. -/
def del_thread (ld : linux_debmod_t) : Except Nat linux_debmod_t :=
  match ld.threads.find tid with
  | none => .error 30064
  | some ti => .ok
      { ld with
        threads := ld.threads.erase tid
        npending_signals := if ti.got_pending_status then ld.npending_signals - 1 else ld.npending_signals
        deleted_threads := (if ld.deleted_threads.length ≥ 10 then ld.deleted_threads.tail
          else ld.deleted_threads) ++ [tid] }

def enqueue_event (ev : debug_event_t) (ld : linux_debmod_t) : linux_debmod_t :=
  if ev.eid = .NO_EVENT then ld
  else { ld with events := ld.events ++ [ev], may_run := false }

/-- Set the state of a thread that died and report it. -/
def linux_debmod_t.die (tid : thid_t) (state : thstate_t) : linux_debmod_t :=
  enqueue_event ⟨.THREAD_EXITED, tid⟩ (ld.modify tid fun ti => { ti with state := state })

def dead_thread (state : thstate_t) (ld : linux_debmod_t) : Except Nat linux_debmod_t :=
  if (ld.threads.find tid).isSome then
    if state = .DEAD then del_thread tid (ld.die tid state) else .ok (ld.die tid state)
  else .ok ld

/-- The thread has been sent a SIGSTOP, and this is it. -/
def thread_info_t.awaits (status : status_t) : Bool :=
  ti.waiting_sigstop && isSigstop status

/-- What `linux_signal_storer_t::visit` does to the thread. -/
def thread_info_t.receive (status : status_t) : thread_info_t :=
  if ti.awaits status then { ti with waiting_sigstop := false, state := .STOPPED }
  else { ti with got_pending_status := true, pending_status := status }

def resume_dying_thread (srv : Server) : Server :=
  { srv with calls := ⟨false, tid, 0⟩ :: srv.calls }

/-- `for_all_debuggers` with a `linux_signal_storer_t`: whether some debugger took the status. -/
def linux_signal_storer (pid : thid_t) (status : status_t) : List Nat → Server → Except Nat (Bool × Server)
  | [], srv => .ok (false, srv)
  | i :: rest, srv =>
      let ld := srv.mods i
      match ld.threads.find pid with
      | some ti =>
          if !(!ti.got_pending_status || ld.exited || WIFEXITED status) then .error 30185
          else .ok (true, srv.set i
            { ld.modify pid fun ti => ti.receive status with
              npending_signals :=
                if ti.awaits status then ld.npending_signals else ld.npending_signals + 1 })
      | none =>
          if pid ∈ ld.deleted_threads then .ok (true, resume_dying_thread pid srv)
          else linux_signal_storer pid status rest srv

variable (this : Nat)

/-- Called by the debugger `this`. -/
def store_pending_signal (pid : thid_t) (status : status_t) (srv : Server) : Except Nat Server := do
  let (stored, srv) ← linux_signal_storer pid status srv.order srv
  if stored then return srv
  else if WIFSTOPPED status then
    let ld := srv.mods this
    return srv.set this { ld with seen_threads := ld.seen_threads ++ [pid] }
  else return srv

/-- The thread has a status and may be asked for it. -/
def thread_info_t.ready : Bool :=
  ti.got_pending_status && !(ti.user_suspend > 0 || ti.suspend_count > 0)

/-- One pass over the threads for a signal of this priority. -/
def retrieve_pending_signal.pass (i : Nat) : Option thid_t :=
  (ld.threads.entries.find? fun p => p.2.ready &&
    (if i = 0 then p.2.single_step else if i = 1 then is_bpt_status p.2.pending_status else true)).map Prod.fst

/-- Leaving the inner loop does not leave the outer one, so the last pass decides. -/
def retrieve_pending_signal.search : Option thid_t :=
  [0, 1, 2].foldl (fun _ i => retrieve_pending_signal.pass ld i) none

def retrieve_pending_signal.pick : Option thid_t :=
  match ld.threads.find ld.last_event_tid with
  | some ti => if ti.ready then some ld.last_event_tid else retrieve_pending_signal.search ld
  | none => retrieve_pending_signal.search ld

def retrieve_pending_signal (ld : linux_debmod_t) :
    Except Nat (Option (thid_t × status_t) × linux_debmod_t) :=
  if ld.npending_signals = 0 then .ok (none, ld)
  else
    match retrieve_pending_signal.pick ld with
    | none => .ok (none, ld)
    | some tid =>
        match ld.threads.find tid with
        | none => .ok (none, ld)
        | some ti =>
            if ld.npending_signals - 1 < 0 then .error 30186
            else .ok (some (tid, ti.pending_status),
              { ld.modify tid fun ti => { ti with got_pending_status := false } with
                npending_signals := ld.npending_signals - 1 })

/-- The outcome of sending SIGSTOP to a thread. -/
inductive kill_t where
  | sent
  | ESRCH
  | failed
  deriving DecidableEq

/-- What the loop over the threads has done. -/
structure Freeze where
  ld : linux_debmod_t
  queue : List thid_t
  deadtids : List thid_t

def selected (exclude : Bool) (p : thid_t) : Bool := decide (p = tid) != exclude

def freeze_thread (kill : thid_t → kill_t) (fr : Freeze) (tid : thid_t) : Freeze :=
  match fr.ld.threads.find tid with
  | none => fr
  | some ti =>
      if ti.is_running then
        match kill tid with
        | .ESRCH => { fr with deadtids := fr.deadtids ++ [tid] }
        | .failed => fr
        | .sent =>
            { fr with
              ld := fr.ld.modify tid fun ti =>
                { ti with waiting_sigstop := true, suspend_count := ti.suspend_count + 1 }
              queue := fr.queue ++ [tid] }
      else { fr with ld := fr.ld.modify tid fun ti => { ti with suspend_count := ti.suspend_count + 1 } }

def freeze_select (exclude : Bool) (kill : thid_t → kill_t) (ld : linux_debmod_t) : Freeze :=
  (ld.threads.keys.filter (selected tid exclude)).foldl (freeze_thread kill) ⟨ld, [], []⟩

/-- What `check_for_signal` returned. -/
structure Report where
  stid : thid_t
  status : status_t

/-- One round of the second loop. -/
def freeze_report (r : Report) (queue : List thid_t) (srv : Server) :
    Except Nat (List thid_t × Server) :=
  if r.stid > 0 then
    if r.stid ∈ queue then do
      let srv ←
        (if isSigstop r.status then
          .ok (srv.set this ((srv.mods this).modify r.stid fun ti =>
            { ti with waiting_sigstop := false, state := .STOPPED }))
        else store_pending_signal this r.stid r.status srv)
      return (queue.erase r.stid, srv)
    else do
      let srv ← store_pending_signal this r.stid r.status srv
      return (queue, srv)
  else .ok (queue, srv)

/-- The second loop; `none` where it still waits after the last report. -/
def freeze_wait (this : Nat) : List Report → List thid_t → Server → Except Nat (Option Server)
  | _, [], srv => .ok (some srv)
  | [], _ :: _, _ => .ok none
  | r :: rest, q :: queue, srv => do
      let (queue, srv) ← freeze_report this r (q :: queue) srv
      freeze_wait this rest queue srv

def dbg_freeze_threads (tid : thid_t) (exclude : Bool) (kill : thid_t → kill_t)
    (reports : List Report) (srv : Server) : Except Nat (Option Server) := do
  let fr := freeze_select tid exclude kill (srv.mods this)
  let r ← freeze_wait this reports fr.queue (srv.set this fr.ld)
  match r with
  | none => return none
  | some srv =>
      let ld ← fr.deadtids.foldlM (fun ld tid => dead_thread tid .DEAD ld) (srv.mods this)
      return some (srv.set this ld)

/-- The answers to `ptrace` and to the question whether the thread is a zombie. -/
structure Kernel where
  resumes : thid_t → Bool
  zombie : thid_t → Bool

/-- What the loop over the threads has done. -/
structure Thaw where
  ld : linux_debmod_t
  ok : Bool
  calls : List ptrace_call

def Thaw.set_state (th : Thaw) (tid : thid_t) (state : thstate_t) : Thaw :=
  { th with ld := th.ld.modify tid fun ti => { ti with state := state } }

variable (k : Kernel)

/-- What follows a request to resume a thread. -/
def thaw_resumed (tid : thid_t) (ti : thread_info_t) (th : Thaw) : Except Nat Thaw :=
  if !k.resumes tid && ti.state ≠ .DYING then
    if !k.zombie tid then .ok { th with ok := false }
    else do
      let ld ← dead_thread tid .DYING th.ld
      return Thaw.set_state { th with ld := ld } tid .DEAD
  else if ti.state = .DYING then .ok (th.set_state tid .DEAD)
  else if ti.state = .STOPPED then .ok (th.set_state tid .RUNNING)
  else .error 30178

/-- What is done with a thread that is not suspended by a freeze any more. -/
def thaw_counted (tid : thid_t) (ti : thread_info_t) (th : Thaw) : Except Nat Thaw :=
  if ti.user_suspend > 0 then .ok th
  else if ti.got_pending_status then .ok th
  else if (!th.ld.may_run && ti.state ≠ .DYING) || th.ld.exited then .ok th
  else if ti.state = .STOPPED ∨ ti.state = .DYING then
    thaw_resumed k tid ti { th with calls := ⟨ti.single_step, tid, ti.child_signum⟩ :: th.calls }
  else .ok th

def Thaw.uncount (th : Thaw) (tid : thid_t) : Thaw :=
  { th with ld := th.ld.modify tid fun ti => { ti with suspend_count := ti.suspend_count - 1 } }

def thaw_thread (th : Thaw) (tid : thid_t) : Except Nat Thaw :=
  match th.ld.threads.find tid with
  | none => .ok th
  | some ti =>
      if ti.is_running then
        if ti.suspend_count = 0 then .ok th else .error 30188
      else if ti.suspend_count - 1 > 0 then .ok (th.uncount tid)
      else thaw_counted k tid ti (th.uncount tid)

def dbg_thaw_threads (exclude : Bool) (k : Kernel) (ld : linux_debmod_t) : Except Nat Thaw :=
  (ld.threads.keys.filter (selected tid exclude)).foldlM (thaw_thread k) ⟨ld, true, []⟩

/-- The server after the debugger has thawed its threads. -/
def Server.thawed (this : Nat) (th : Thaw) : Server :=
  { srv.set this th.ld with calls := th.calls ++ srv.calls }

/-! ### Runs -/

/-- What the other routines do to a thread. -/
inductive Edit where
  /-- `get_debug_event` handles a status of the thread. -/
  | event
  /-- The SIGSTOP that was sent before arrived there. -/
  | sigstop
  /-- A group stop, after which the thread goes on. -/
  | group_stop (status : status_t)
  | signum (code : status_t)
  | single_step (on : Bool)
  /-- `dbg_thread_suspend` after freezing. -/
  | user_suspend
  /-- `dbg_thread_continue` before thawing. -/
  | user_continue
  /-- `dbg_continue_after_event` for a thread that is about to die. -/
  | dying
  /-- `dbg_prepare_to_pause_process` and `finish_attaching` expect a SIGSTOP. -/
  | expect
  /-- `finish_attaching` after another status of the thread was stored. -/
  | attached

def Edit.apply : Edit → thread_info_t → thread_info_t
  | .event, ti => { ti with state := .STOPPED }
  | .sigstop, ti => { ti with waiting_sigstop := false }
  | .group_stop status, ti =>
      { ti with
        waiting_sigstop := if WSTOPSIG status = SIGTRAP then false else ti.waiting_sigstop
        state := .RUNNING }
  | .signum code, ti => { ti with child_signum := code }
  | .single_step on, ti => { ti with single_step := on }
  | .user_suspend, ti => { ti with user_suspend := ti.user_suspend + 1 }
  | .user_continue, ti => { ti with user_suspend := ti.user_suspend - 1 }
  | .dying, ti => if ti.state = .DYING then { ti with suspend_count := 0, user_suspend := 0 } else ti
  | .expect, ti => { ti with waiting_sigstop := true }
  | .attached, ti => { ti with state := .RUNNING }

/-- A freeze that waits: whose it is, for which threads it waits and which it found dead. -/
structure Freezing where
  this : Nat
  queue : List thid_t
  deadtids : List thid_t

structure Machine where
  srv : Server
  freezing : Option Freezing

def Machine.start (order : List Nat) : Machine := ⟨⟨order, fun _ => .start, []⟩, none⟩

/-- A call by the debugger `this`, or a report to the freeze that waits. -/
inductive Label where
  | store (this : Nat) (pid : thid_t) (status : status_t)
  | retrieve (this : Nat) (r : Option (thid_t × status_t))
  | freeze (this : Nat) (tid : thid_t) (exclude : Bool) (kill : thid_t → kill_t)
  | report (r : Report)
  | frozen
  | thaw (this : Nat) (tid : thid_t) (exclude : Bool) (k : Kernel)
  | add_thread (this : Nat) (tid : thid_t)
  | del_thread (this : Nat) (tid : thid_t)
  | dead_thread (this : Nat) (tid : thid_t) (state : thstate_t)
  | edit (this : Nat) (tid : thid_t) (e : Edit)
  | other (this : Nat) (events : List debug_event_t) (may_run exited : Bool) (last_event_tid : thid_t)

/-- An assertion that fails ends the run. -/
inductive Step : Machine → Label → Machine → Prop where
  | store {srv srv' : Server} {this : Nat} {pid : thid_t} {status : status_t}
      (h : store_pending_signal this pid status srv = .ok srv') :
      Step ⟨srv, none⟩ (.store this pid status) ⟨srv', none⟩
  | retrieve {srv : Server} {this : Nat} {r : Option (thid_t × status_t)} {ld : linux_debmod_t}
      (h : retrieve_pending_signal (srv.mods this) = .ok (r, ld)) :
      Step ⟨srv, none⟩ (.retrieve this r) ⟨srv.set this ld, none⟩
  | freeze {srv : Server} {this : Nat} {tid : thid_t} {exclude : Bool} {kill : thid_t → kill_t} {fr : Freeze}
      (h : freeze_select tid exclude kill (srv.mods this) = fr) :
      Step ⟨srv, none⟩ (.freeze this tid exclude kill) ⟨srv.set this fr.ld, some ⟨this, fr.queue, fr.deadtids⟩⟩
  | report {srv srv' : Server} {this : Nat} {q : thid_t} {queue queue' deadtids : List thid_t} {r : Report}
      (h : freeze_report this r (q :: queue) srv = .ok (queue', srv')) :
      Step ⟨srv, some ⟨this, q :: queue, deadtids⟩⟩ (.report r) ⟨srv', some ⟨this, queue', deadtids⟩⟩
  | frozen {srv : Server} {this : Nat} {deadtids : List thid_t} {ld : linux_debmod_t}
      (h : deadtids.foldlM (fun ld tid => LinuxThreads.dead_thread tid .DEAD ld) (srv.mods this) = .ok ld) :
      Step ⟨srv, some ⟨this, [], deadtids⟩⟩ .frozen ⟨srv.set this ld, none⟩
  | thaw {srv : Server} {this : Nat} {tid : thid_t} {exclude : Bool} {k : Kernel} {th : Thaw}
      (h : dbg_thaw_threads tid exclude k (srv.mods this) = .ok th) :
      Step ⟨srv, none⟩ (.thaw this tid exclude k) ⟨srv.thawed this th, none⟩
  | add_thread {srv : Server} {this : Nat} {tid : thid_t} :
      Step ⟨srv, none⟩ (.add_thread this tid) ⟨srv.set this (LinuxThreads.add_thread tid (srv.mods this)), none⟩
  | del_thread {srv : Server} {this : Nat} {tid : thid_t} {ld : linux_debmod_t}
      (h : LinuxThreads.del_thread tid (srv.mods this) = .ok ld) :
      Step ⟨srv, none⟩ (.del_thread this tid) ⟨srv.set this ld, none⟩
  | dead_thread {srv : Server} {this : Nat} {tid : thid_t} {state : thstate_t} {ld : linux_debmod_t}
      (h : LinuxThreads.dead_thread tid state (srv.mods this) = .ok ld) :
      Step ⟨srv, none⟩ (.dead_thread this tid state) ⟨srv.set this ld, none⟩
  | edit {srv : Server} {this : Nat} {tid : thid_t} {e : Edit} :
      Step ⟨srv, none⟩ (.edit this tid e) ⟨srv.set this ((srv.mods this).modify tid e.apply), none⟩
  | other {srv : Server} {this : Nat} {events : List debug_event_t} {may_run exited : Bool} {tid : thid_t} :
      Step ⟨srv, none⟩ (.other this events may_run exited tid)
        ⟨srv.set this { srv.mods this with
          events := events, may_run := may_run, exited := exited, last_event_tid := tid }, none⟩

end IdaSdk.LinuxThreads
