import Mathlib.Tactic.Common
import IdaSdk.LinuxFreeze

/-!
Which signals the Linux server passes on. A stop that `get_debug_event` handles decides what
`child_signum` of the thread becomes, and every resumption passes what the field holds. A monitor
sees the stops and the resumptions and knows for each thread which signal it is owed.
-/

namespace IdaSdk.LinuxThreads

abbrev ea_t := BitVec 64

def BADADDR : ea_t := -1

def PTRACE_EVENT_STOP : status_t := 128

/-- What a stop meets: the exception that is known for its signal and whether it suspends, where the
internal breakpoints are, whether returning from them works and brings news, whether a low level
condition takes care of the event, and which breakpoints there are. -/
structure StopEnv where
  event_ready : Bool
  handle : Option Bool
  suspend : Bool
  shlib_bpt : ea_t
  birth_bpt : ea_t
  death_bpt : ea_t
  emulate_retn : Option ea_t
  news : Bool
  lowcnd : Bool
  hwbpt : Bool
  bpts : ea_t → Bool
  removed_bpts : ea_t → Bool
  handling_lowcnds : ea_t → Bool

/-- What handling a stop does: what is written to `child_signum`, whether the SIGSTOP that was awaited
is here, where the thread goes on, whether the application is to be resumed at once, and whether the
event is ready to be reported. -/
structure StopResult where
  code : Option status_t := none
  arrived : Bool := false
  ip : Option ea_t := none
  resume : Bool := false
  ready : Bool := false

/-- x86 reports the address after the breakpoint. -/
def calc_bpt_event_ea (code : status_t) (ea : ea_t) : ea_t :=
  if code = SIGTRAP then ea - 1 else BADADDR

variable (env : StopEnv)

def StopEnv.suspends : Bool := if env.handle.isSome then env.suspend else true

/-- Write `child_signum`, and go on with the event. -/
def StopEnv.assign (code : status_t) (exception : Bool) : StopResult :=
  if env.lowcnd then { code := some code }
  else if !env.suspends && exception then { code := some code, resume := true }
  else { code := some code, ready := true }

/-- An internal breakpoint: the thread returns from the function it is in. -/
def StopEnv.internal_bpt : StopResult :=
  match env.emulate_retn with
  | none => {}
  | some ret => if !env.news then { ip := some ret, resume := true } else { env.assign 0 false with ip := some ret }

/-- The part of `get_debug_event` about breakpoints. -/
def StopEnv.handle_bpt (ti : thread_info_t) (proc_ip : ea_t) : StopResult :=
  if proc_ip = env.shlib_bpt ∧ env.shlib_bpt ≠ 0 then env.internal_bpt
  else if (proc_ip = env.birth_bpt ∧ env.birth_bpt ≠ 0) ∨ (proc_ip = env.death_bpt ∧ env.death_bpt ≠ 0) then
    env.internal_bpt
  else if env.hwbpt then env.assign 0 false
  else if env.bpts proc_ip && !env.handling_lowcnds proc_ip then
    if env.removed_bpts proc_ip then { resume := true } else env.assign 0 false
  else if ti.single_step then env.assign 0 false
  else env.assign (if env.handle = some true then 0 else SIGTRAP) true

/-- `get_debug_event` for a thread that stopped, after the other threads were frozen. -/
def StopEnv.handle_stop (ti : thread_info_t) (status : status_t) (ea : ea_t) : StopResult :=
  if env.event_ready then {}
  else if WSTOPSIG status = SIGSTOP ∧ ti.waiting_sigstop = true then { arrived := true, resume := true }
  else if calc_bpt_event_ea (WSTOPSIG status) ea ≠ BADADDR then
    env.handle_bpt ti (calc_bpt_event_ea (WSTOPSIG status) ea)
  else env.assign (if !env.suspends && env.handle = some true then 0 else WSTOPSIG status) true

def StopResult.apply (r : StopResult) (ti : thread_info_t) : thread_info_t :=
  { ti with
    waiting_sigstop := if r.arrived then false else ti.waiting_sigstop
    child_signum := r.code.getD ti.child_signum
    single_step := if r.ready then false else ti.single_step }

/-- A stop by which the kernel reports a group stop. -/
def isGroupStop (status : status_t) : Bool := WIFSTOPPED status && status >>> 16 = PTRACE_EVENT_STOP

def begin_event (status : status_t) (ti : thread_info_t) : thread_info_t :=
  if isGroupStop status then Edit.apply (.group_stop status) ti else Edit.apply .event ti

inductive event_t where
  | EXCEPTION (handled : Bool)
  | thread_or_library
  | other

/-- Whether `dbg_continue_after_event` clears `child_signum`. -/
def event_t.clears : event_t → Bool
  | .EXCEPTION handled => handled
  | .thread_or_library => false
  | .other => true

/-- What can be seen of a thread: it stopped, and this signal of the application may be passed to it
(0 where there is none) and there it has to go on; the user takes the signal away; it is resumed. -/
inductive Obs where
  | stop (tid : thid_t) (owed : status_t) (target : Option ea_t)
  | mask (tid : thid_t)
  | resume (tid : thid_t) (signum : status_t) (ip : ea_t)

structure Monitor where
  owed : thid_t → status_t
  target : thid_t → Option ea_t

def Monitor.start : Monitor := ⟨fun _ => 0, fun _ => none⟩

/-- `none` where a thread is resumed with a signal that it is not owed or somewhere else. -/
def Monitor.next (mon : Monitor) : Obs → Option Monitor
  | .stop tid owed target =>
      some ⟨Function.update mon.owed tid owed, Function.update mon.target tid target⟩
  | .mask tid => some { mon with owed := Function.update mon.owed tid 0 }
  | .resume tid signum ip =>
      if (signum = 0 ∨ signum = mon.owed tid) ∧ (mon.target tid = none ∨ mon.target tid = some ip) then
        some ⟨Function.update mon.owed tid 0, Function.update mon.target tid none⟩
      else none

def Transparent (trace : List Obs) : Prop := (trace.foldlM Monitor.next Monitor.start).isSome = true

instance (trace : List Obs) : Decidable (Transparent trace) := inferInstanceAs (Decidable (_ = true))

/-- The address of one of the breakpoints that the server itself has set. -/
def StopEnv.at_internal_bpt (proc_ip : ea_t) : Prop :=
  (proc_ip = env.shlib_bpt ∧ env.shlib_bpt ≠ 0) ∨ (proc_ip = env.birth_bpt ∧ env.birth_bpt ≠ 0) ∨
    (proc_ip = env.death_bpt ∧ env.death_bpt ≠ 0)

def StopEnv.at_bpt (proc_ip : ea_t) : Prop :=
  env.bpts proc_ip = true ∧ env.handling_lowcnds proc_ip = false

def StopEnv.ghost (proc_ip : ea_t) : Prop :=
  ¬env.at_internal_bpt proc_ip ∧ env.hwbpt = false ∧ env.at_bpt proc_ip ∧ env.removed_bpts proc_ip = true

/-- A stop that the debugger itself has caused. -/
def StopEnv.internal (ti : thread_info_t) (status : status_t) (proc_ip : ea_t) : Prop :=
  env.event_ready = true ∨ (WSTOPSIG status = SIGSTOP ∧ ti.waiting_sigstop = true) ∨
    (proc_ip ≠ BADADDR ∧ (env.at_internal_bpt proc_ip ∨ env.hwbpt = true ∨ env.at_bpt proc_ip ∨ ti.single_step = true))

def StopEnv.skips (ti : thread_info_t) (status : status_t) (proc_ip : ea_t) : Prop :=
  env.event_ready = true ∨ (WSTOPSIG status = SIGSTOP ∧ ti.waiting_sigstop = true) ∨
    (proc_ip ≠ BADADDR ∧
      ((env.at_internal_bpt proc_ip ∧ (env.emulate_retn = none ∨ env.news = false)) ∨ env.ghost proc_ip))

section

variable (env : StopEnv) (ti : thread_info_t) (status : status_t) (proc_ip : ea_t)

instance : Decidable (env.at_internal_bpt proc_ip) := by
  unfold StopEnv.at_internal_bpt
  infer_instance

instance : Decidable (env.at_bpt proc_ip) := by
  unfold StopEnv.at_bpt
  infer_instance

instance : Decidable (env.ghost proc_ip) := by
  unfold StopEnv.ghost
  infer_instance

instance : Decidable (env.internal ti status proc_ip) := by
  unfold StopEnv.internal
  infer_instance

end

/-- The signal of the application that the thread may get, unless it is masked. -/
def StopEnv.owed (ti : thread_info_t) (status : status_t) (proc_ip : ea_t) : status_t :=
  if env.internal ti status proc_ip then 0
  else if !env.suspends && env.handle = some true then 0
  else WSTOPSIG status

/-- At a ghost the thread has to execute the instruction that is there. -/
def StopEnv.target (proc_ip : ea_t) : Option ea_t :=
  if env.event_ready = false ∧ proc_ip ≠ BADADDR ∧ env.ghost proc_ip then some proc_ip else none

/-! ### Runs -/

structure Signals where
  m : Machine
  ip : thid_t → ea_t
  handling : Option (thid_t × status_t)

def Signals.start (order : List Nat) : Signals := ⟨.start order, fun _ => 0, none⟩

inductive Action where
  | call (l : Label)
  | begin_event (tid : thid_t) (status : status_t) (ea : ea_t)
  | end_event (env : StopEnv)
  | exit_process
  | exit_thread
  | continue_after_event (tid : thid_t) (event : event_t)

/-- The status is the SIGSTOP for which a thread of this debugger waits. -/
def Server.consumes (srv : Server) (this : Nat) (pid : thid_t) (status : status_t) : Bool :=
  srv.knower srv.order pid = some this &&
    match (srv.mods this).threads.find pid with
    | none => false
    | some ti => ti.awaits status

def Machine.consumes (m : Machine) (this : Nat) (r : Report) : Bool :=
  match m.freezing with
  | none => false
  | some fr =>
      r.stid > 0 && if r.stid ∈ fr.queue ∧ isSigstop r.status then true else m.srv.consumes this r.stid r.status

/-- Calls by this debugger that neither stop nor resume a thread. -/
def Machine.Quiet (m : Machine) (this : Nat) : Label → Prop
  | .retrieve i _ => i = this
  | .freeze i _ _ _ => i = this
  | .frozen => True
  | .add_thread i _ => i = this
  | .del_thread i _ => i = this
  | .dead_thread i _ state => i = this ∧ (state = .DYING ∨ state = .DEAD)
  | .edit i _ e => i = this ∧ match e with
      | .single_step _ => True
      | .user_suspend => True
      | .user_continue => True
      | .dying => True
      | .expect => True
      | _ => False
  | .other i _ _ exited _ => i = this ∧ ((m.srv.mods this).exited = true → exited = true)
  | _ => False

def Label.freezes : Label → Bool
  | .freeze _ _ _ _ => true
  | .frozen => true
  | _ => false

/-- The resumptions that the kernel has carried out, oldest first. -/
def resumes (k : Kernel) (ip : thid_t → ea_t) (calls : List ptrace_call) : List Obs :=
  (calls.reverse.filter fun c => k.resumes c.tid).map fun c => .resume c.tid c.signum (ip c.tid)

/-- Between the start of an event and its end only a freeze takes place. -/
inductive SigStep (this : Nat) : Signals → Action → List Obs → Signals → Prop where
  | quiet {m m' : Machine} {ip : thid_t → ea_t} {handling : Option (thid_t × status_t)} {l : Label}
      (h : Step m l m') (hl : m.Quiet this l) (hh : handling = none ∨ l.freezes = true) :
      SigStep this ⟨m, ip, handling⟩ (.call l) [] ⟨m', ip, handling⟩
  | store {m m' : Machine} {ip : thid_t → ea_t} {pid : thid_t} {status : status_t}
      (h : Step m (.store this pid status) m') :
      SigStep this ⟨m, ip, none⟩ (.call (.store this pid status))
        (if m.srv.consumes this pid status then [.stop pid 0 none] else []) ⟨m', ip, none⟩
  | report {m m' : Machine} {ip : thid_t → ea_t} {handling : Option (thid_t × status_t)} {r : Report}
      (h : Step m (.report r) m') :
      SigStep this ⟨m, ip, handling⟩ (.call (.report r))
        (if m.consumes this r then [.stop r.stid 0 none] else []) ⟨m', ip, handling⟩
  | thaw {srv : Server} {ip : thid_t → ea_t} {tid : thid_t} {exclude : Bool} {k : Kernel} {th : Thaw}
      (h : dbg_thaw_threads tid exclude k (srv.mods this) = .ok th) :
      SigStep this ⟨⟨srv, none⟩, ip, none⟩ (.call (.thaw this tid exclude k)) (resumes k ip th.calls)
        ⟨⟨srv.thawed this th, none⟩, ip, none⟩
  | begin_event {srv : Server} {ip : thid_t → ea_t} {tid : thid_t} {status : status_t} {ea : ea_t} :
      SigStep this ⟨⟨srv, none⟩, ip, none⟩ (.begin_event tid status ea)
        (if isGroupStop status then [.stop tid 0 none, .resume tid 0 ea] else [])
        ⟨⟨srv.set this ((srv.mods this).modify tid (LinuxThreads.begin_event status)), none⟩,
          Function.update ip tid ea, if isGroupStop status then none else some (tid, status)⟩
  | end_event {srv : Server} {ip : thid_t → ea_t} {tid : thid_t} {status : status_t} {ti : thread_info_t}
      {env : StopEnv} (hstop : WIFSTOPPED status = true)
      (hti : (srv.mods this).threads.find tid = some ti) :
      SigStep this ⟨⟨srv, none⟩, ip, some (tid, status)⟩ (.end_event env)
        [.stop tid (env.owed ti status (calc_bpt_event_ea (WSTOPSIG status) (ip tid)))
          (env.target (calc_bpt_event_ea (WSTOPSIG status) (ip tid)))]
        ⟨⟨srv.set this ((srv.mods this).modify tid (env.handle_stop ti status (ip tid)).apply), none⟩,
          Function.update ip tid ((env.handle_stop ti status (ip tid)).ip.getD (ip tid)), none⟩
  | vanished {srv : Server} {ip : thid_t → ea_t} {tid : thid_t} {status : status_t} {env : StopEnv}
      (hti : (srv.mods this).threads.find tid = none) :
      SigStep this ⟨⟨srv, none⟩, ip, some (tid, status)⟩ (.end_event env) [] ⟨⟨srv, none⟩, ip, none⟩
  | exit_process {srv : Server} {ip : thid_t → ea_t} {tid : thid_t} {status : status_t}
      (hstop : WIFSTOPPED status = false) :
      SigStep this ⟨⟨srv, none⟩, ip, some (tid, status)⟩ .exit_process []
        ⟨⟨srv.set this { srv.mods this with exited := true }, none⟩, ip, none⟩
  | exit_thread {srv : Server} {ip : thid_t → ea_t} {tid : thid_t} {status : status_t} {ld : linux_debmod_t}
      (hstop : WIFSTOPPED status = false) (h : dead_thread tid .DEAD (srv.mods this) = .ok ld) :
      SigStep this ⟨⟨srv, none⟩, ip, some (tid, status)⟩ .exit_thread [] ⟨⟨srv.set this ld, none⟩, ip, none⟩
  | continue_after_event {srv : Server} {ip : thid_t → ea_t} {tid : thid_t} {event : event_t} :
      SigStep this ⟨⟨srv, none⟩, ip, none⟩ (.continue_after_event tid event)
        (if event.clears then [.mask tid] else [])
        ⟨⟨srv.set this ((srv.mods this).modify tid fun ti =>
          if event.clears then { ti with child_signum := 0 } else ti), none⟩, ip, none⟩

/-- No thread stops for the debugger's own sake with a signal left in its field, and no trap of a
removed breakpoint is met. -/
def Signals.Clean (s : Signals) (this : Nat) : Action → Prop
  | .call (.store _ pid status) => s.m.srv.consumes this pid status = true →
      ∀ ti, (s.m.srv.mods this).threads.find pid = some ti → ti.child_signum = 0
  | .call (.report r) => s.m.consumes this r = true →
      ∀ ti, (s.m.srv.mods this).threads.find r.stid = some ti → ti.child_signum = 0
  | .call (.dead_thread _ tid .DYING) => ∀ ti, (s.m.srv.mods this).threads.find tid = some ti →
      (ti.state = .STOPPED ∨ ti.state = .DYING) ∨ ti.child_signum = 0
  | .end_event env => ∀ tid status ti, s.handling = some (tid, status) →
      (s.m.srv.mods this).threads.find tid = some ti →
      (env.skips ti status (calc_bpt_event_ea (WSTOPSIG status) (s.ip tid)) → ti.child_signum = 0) ∧
      env.target (calc_bpt_event_ea (WSTOPSIG status) (s.ip tid)) = none
  | _ => True

/-- Runs whose steps all satisfy `P`, with what can be seen of them. -/
inductive SigRun (this : Nat) (P : Signals → Action → Prop) (order : List Nat) : List Obs → Signals → Prop where
  | start : SigRun this P order [] (.start order)
  | step {trace obs : List Obs} {s s' : Signals} {a : Action} (h : SigRun this P order trace s)
      (hs : SigStep this s a obs s') (hp : P s a) : SigRun this P order (trace ++ obs) s'

/-! ### One stop -/

section Stops

variable {env : StopEnv} {ti : thread_info_t} {status : status_t} {ea proc_ip : ea_t} {c : status_t}

@[simp] theorem assign_code (env : StopEnv) (c : status_t) (e : Bool) : (env.assign c e).code = some c := by
  rw [StopEnv.assign]
  split
  · rfl
  · split <;> rfl

theorem internal_bpt_code_none : env.internal_bpt.code = none ↔ env.emulate_retn = none ∨ env.news = false := by
  rw [StopEnv.internal_bpt]
  split
  · next h => simp [h]
  · next h =>
      split
      · next hn => simpa [h] using hn
      · next hn => simpa [h] using hn

theorem internal_bpt_code_some (h : env.internal_bpt.code = some c) : c = 0 := by
  rw [StopEnv.internal_bpt] at h
  split at h
  · cases h
  · split at h
    · cases h
    · exact (Option.some.inj ((assign_code env 0 false).symm.trans h)).symm

theorem calc_bpt_event_ea_trap (h : calc_bpt_event_ea c ea ≠ BADADDR) : c = SIGTRAP := by
  rw [calc_bpt_event_ea] at h
  split at h
  · next hc => exact hc
  · exact absurd rfl h

theorem handle_bpt_of_internal (h : env.at_internal_bpt proc_ip) : env.handle_bpt ti proc_ip = env.internal_bpt := by
  rw [StopEnv.handle_bpt]
  split
  · rfl
  · next hno => exact if_pos (h.resolve_left hno)

theorem handle_bpt_of_not_internal (h : ¬env.at_internal_bpt proc_ip) : env.handle_bpt ti proc_ip =
    if env.hwbpt then env.assign 0 false
    else if env.at_bpt proc_ip then
      if env.removed_bpts proc_ip then { resume := true } else env.assign 0 false
    else if ti.single_step then env.assign 0 false
    else env.assign (if env.handle = some true then 0 else SIGTRAP) true := by
  rw [StopEnv.at_internal_bpt, not_or] at h
  rw [StopEnv.handle_bpt, if_neg h.1, if_neg h.2]
  simp only [StopEnv.at_bpt, Bool.and_eq_true, Bool.not_eq_true']

theorem handle_bpt_code_none : (env.handle_bpt ti proc_ip).code = none ↔
    (env.at_internal_bpt proc_ip ∧ (env.emulate_retn = none ∨ env.news = false)) ∨ env.ghost proc_ip := by
  by_cases h : env.at_internal_bpt proc_ip
  · rw [handle_bpt_of_internal h, internal_bpt_code_none]
    simp [StopEnv.ghost, h]
  rw [handle_bpt_of_not_internal h, StopEnv.ghost]
  split
  · next hhw => simp [h, hhw]
  rename_i hhw
  split
  · next hbpt =>
      split
      · next hg => simp [h, hhw, hbpt, hg]
      · next hg => simp [h, hhw, hbpt, hg]
  · next hbpt =>
      split
      · simp [h, hbpt]
      · simp [h, hbpt]

theorem handle_stop_code_none : (env.handle_stop ti status ea).code = none ↔
    env.skips ti status (calc_bpt_event_ea (WSTOPSIG status) ea) := by
  rw [StopEnv.handle_stop, StopEnv.skips]
  split
  · next h => simp [h]
  rename_i hready
  split
  · next h => simp [h]
  rename_i hstop
  split
  · next hip =>
      rw [handle_bpt_code_none]
      simp [hready, hstop, hip]
  · next hip => simp [hready, hstop, hip]

theorem handle_stop_code_some (h : (env.handle_stop ti status ea).code = some c) :
    c = 0 ∨ c = env.owed ti status (calc_bpt_event_ea (WSTOPSIG status) ea) := by
  rw [StopEnv.handle_stop] at h
  split at h
  · cases h
  rename_i hready
  split at h
  · cases h
  rename_i hstop
  split at h
  · next hip =>
      have htrap := calc_bpt_event_ea_trap hip
      generalize calc_bpt_event_ea (WSTOPSIG status) ea = proc_ip at h hip
      by_cases hint : env.at_internal_bpt proc_ip
      · rw [handle_bpt_of_internal hint] at h
        exact .inl (internal_bpt_code_some h)
      rw [handle_bpt_of_not_internal hint] at h
      split at h
      · exact .inl (Option.some.inj ((assign_code env 0 false).symm.trans h)).symm
      rename_i hhw
      split at h
      · split at h
        · cases h
        · exact .inl (Option.some.inj ((assign_code env 0 false).symm.trans h)).symm
      rename_i hbpt
      split at h
      · exact .inl (Option.some.inj ((assign_code env 0 false).symm.trans h)).symm
      rename_i hstep
      rw [assign_code] at h
      have hno : ¬env.internal ti status proc_ip := by
        simp [StopEnv.internal, hready, hstop, hint, hhw, hbpt, hstep]
      rw [StopEnv.owed, if_neg hno, htrap, ← Option.some.inj h]
      split
      · exact .inl rfl
      · next hhandle => exact .inr (if_neg (by simp [hhandle])).symm
  · next hip =>
      rw [assign_code] at h
      have hno : ¬env.internal ti status (calc_bpt_event_ea (WSTOPSIG status) ea) := by
        simp [StopEnv.internal, hready, hstop, hip]
      rw [StopEnv.owed, if_neg hno]
      exact .inr (Option.some.inj h).symm

end Stops

def thread_info_t.Halted (ti : thread_info_t) : Prop := ti.state = .STOPPED ∨ ti.state = .DYING

/-- The field of every halted thread holds nothing that the thread is not owed. The thread whose stop
is being handled is left out, and so is a process that has exited. -/
structure Owing (mon : Monitor) (ld : linux_debmod_t) (handling : Option (thid_t × status_t)) : Prop where
  signum : ld.exited = false → ∀ t ti, ld.threads.find t = some ti →
    (∀ x, handling = some x → x.1 ≠ t) → ti.Halted → ti.child_signum = 0 ∨ ti.child_signum = mon.owed t
  target : ∀ t, mon.target t = none

/-- No thread is halted that was not, no field changes, and an exited process stays so. -/
structure KeepsSignals (ld ld' : linux_debmod_t) : Prop where
  threads : ∀ t ti', ld'.threads.find t = some ti' → ti'.Halted →
    ti'.child_signum = 0 ∨ ∃ ti, ld.threads.find t = some ti ∧ ti.Halted ∧ ti'.child_signum = ti.child_signum
  exited : ld.exited = true → ld'.exited = true

section Invariant

variable {mon mon' : Monitor} {ld ld' ld'' : linux_debmod_t} {handling : Option (thid_t × status_t)}
  {tid : thid_t} {ti ti' : thread_info_t} {k : Kernel} {th th' : Thaw} {ip : thid_t → ea_t} {this : Nat}
  {srv srv' : Server}

theorem KeepsSignals.of_threads (h : ld'.threads = ld.threads) (he : ld.exited = true → ld'.exited = true) :
    KeepsSignals ld ld' := by
  refine ⟨fun t ti hti hh => .inr ⟨ti, ?_, hh, rfl⟩, he⟩
  rw [← h]
  exact hti

theorem KeepsSignals.refl (ld : linux_debmod_t) : KeepsSignals ld ld := .of_threads rfl id

theorem KeepsSignals.trans (h : KeepsSignals ld ld') (h' : KeepsSignals ld' ld'') : KeepsSignals ld ld'' := by
  refine ⟨fun t ti hti hh => ?_, fun he => h'.exited (h.exited he)⟩
  rcases h'.threads t ti hti hh with h0 | ⟨ti', hti', hh', hs'⟩
  · exact .inl h0
  · rw [hs']
    exact h.threads t ti' hti' hh'

theorem KeepsSignals.modify {f : thread_info_t → thread_info_t}
    (hf : ∀ ti, ld.threads.find tid = some ti → (f ti).Halted →
      (f ti).child_signum = 0 ∨ (ti.Halted ∧ (f ti).child_signum = ti.child_signum)) :
    KeepsSignals ld (ld.modify tid f) := by
  refine ⟨fun t ti' hti' hh => ?_, id⟩
  rw [linux_debmod_t.modify, Table.find_modify] at hti'
  split at hti'
  · next ht =>
      subst ht
      rw [Option.map_eq_some_iff] at hti'
      obtain ⟨ti, hti, rfl⟩ := hti'
      exact (hf ti hti hh).imp_right fun hhalt => ⟨ti, hti, hhalt.1, hhalt.2⟩
  · exact .inr ⟨ti', hti', hh, rfl⟩

theorem Owing.keeps (h : Owing mon ld handling) (hk : KeepsSignals ld ld') : Owing mon ld' handling := by
  refine ⟨fun he t ti' hti' hhandling hh => ?_, h.target⟩
  have hexited : ld.exited = false := by
    cases hx : ld.exited with
    | false => rfl
    | true =>
        rw [hk.exited hx] at he
        exact absurd he (by decide)
  rcases hk.threads t ti' hti' hh with h0 | ⟨ti, hti, hh', hs⟩
  · exact .inl h0
  · rw [hs]
    exact h.signum hexited t ti hti hhandling hh'

theorem Owing.stop (h : Owing mon ld handling) (tid : thid_t) (f : thread_info_t → thread_info_t)
    (owed : status_t) (handling' : Option (thid_t × status_t))
    (hhandling : ∀ t, t ≠ tid → (∀ x, handling' = some x → x.1 ≠ t) → ∀ x, handling = some x → x.1 ≠ t)
    (hf : ∀ ti, ld.threads.find tid = some ti → (f ti).Halted →
      (f ti).child_signum = 0 ∨ (f ti).child_signum = owed) :
    ∃ mon', Monitor.next mon (.stop tid owed none) = some mon' ∧ Owing mon' (ld.modify tid f) handling' := by
  refine ⟨_, rfl, fun he t ti' hti' hno hh => ?_, fun t => ?_⟩
  · change ti'.child_signum = 0 ∨ ti'.child_signum = Function.update mon.owed tid owed t
    rw [linux_debmod_t.modify, Table.find_modify] at hti'
    split at hti'
    · next ht =>
        subst ht
        rw [Option.map_eq_some_iff] at hti'
        obtain ⟨ti, hti, rfl⟩ := hti'
        rw [Function.update_self]
        exact hf ti hti hh
    · next ht =>
        rw [Function.update_of_ne ht]
        exact h.signum he t ti' hti' (hhandling t ht hno) hh
  · change Function.update mon.target tid none t = none
    rw [Function.update_apply]
    split
    · rfl
    · exact h.target t

/-! ### Thawing -/

variable {s : thstate_t}

theorem not_halted_of_state (hs : s = .RUNNING ∨ s = .DEAD) :
    ¬({ ti with state := s } : thread_info_t).Halted := by
  rintro (h | h)
  · rcases hs with rfl | rfl
    · cases h
    · cases h
  · rcases hs with rfl | rfl
    · cases h
    · cases h

theorem keeps_set_state (th : Thaw) (tid : thid_t) (hs : s = .RUNNING ∨ s = .DEAD) :
    KeepsSignals th.ld (th.set_state tid s).ld :=
  .modify fun _ _ hh => absurd hh (not_halted_of_state hs)

theorem not_halted_set_state (hs : s = .RUNNING ∨ s = .DEAD)
    (h : (th.set_state tid s).ld.threads.find tid = some ti) : ¬ti.Halted := by
  change (th.ld.threads.modify tid _).find tid = some ti at h
  rw [Table.find_modify_self, Option.map_eq_some_iff] at h
  obtain ⟨ti', -, rfl⟩ := h
  exact not_halted_of_state hs

theorem die_keeps_signals (h : ∀ ti, ld.threads.find tid = some ti → ti.Halted ∨ ti.child_signum = 0) :
    KeepsSignals ld (ld.die tid .DYING) := by
  have hk : KeepsSignals ld (ld.modify tid fun ti => { ti with state := .DYING }) :=
    .modify fun ti hti _ => (h ti hti).symm.imp_right fun hh => ⟨hh, rfl⟩
  exact hk.trans (.of_threads rfl id)

theorem thaw_resumed_signals (th : Thaw) {tj : thread_info_t} (hti : th.ld.threads.find tid = some tj) (hh : tj.Halted)
    (h : thaw_resumed k tid ti th = .ok th') : th'.calls = th.calls ∧ KeepsSignals th.ld th'.ld ∧
      (k.resumes tid = true → ∀ ti', th'.ld.threads.find tid = some ti' → ¬ti'.Halted) := by
  rw [thaw_resumed] at h
  split at h
  · next hfail =>
      have hno : k.resumes tid ≠ true := by
        rw [Bool.and_eq_true] at hfail
        simpa using hfail.1
      split at h
      · obtain rfl := Except.ok.inj h
        exact ⟨rfl, .refl _, fun hr => absurd hr hno⟩
      have hdie : KeepsSignals th.ld (th.ld.die tid .DYING) :=
        die_keeps_signals fun ti' hti' => .inl (Option.some.inj (hti.symm.trans hti') ▸ hh)
      have hdead : dead_thread tid .DYING th.ld = .ok (th.ld.die tid .DYING) := by
        rw [dead_thread, hti]
        rfl
      rw [hdead] at h
      obtain rfl := Except.ok.inj h
      exact ⟨rfl, hdie.trans (keeps_set_state { th with ld := th.ld.die tid .DYING } tid (.inr rfl)),
        fun hr => absurd hr hno⟩
  · split at h
    · obtain rfl := Except.ok.inj h
      exact ⟨rfl, keeps_set_state th tid (.inr rfl), fun _ _ => not_halted_set_state (.inr rfl)⟩
    · split at h
      · obtain rfl := Except.ok.inj h
        exact ⟨rfl, keeps_set_state th tid (.inl rfl), fun _ _ => not_halted_set_state (.inl rfl)⟩
      · cases h

theorem thaw_thread_signals (h : thaw_thread k th tid = .ok th') :
    (th'.calls = th.calls ∧ KeepsSignals th.ld th'.ld) ∨
      ∃ ti, th.ld.threads.find tid = some ti ∧ ti.Halted ∧ th.ld.exited = false ∧
        th'.calls = ⟨ti.single_step, tid, ti.child_signum⟩ :: th.calls ∧ KeepsSignals th.ld th'.ld ∧
        (k.resumes tid = true → ∀ ti', th'.ld.threads.find tid = some ti' → ¬ti'.Halted) := by
  have huncount : KeepsSignals th.ld (th.uncount tid).ld := .modify fun _ _ hh => .inr ⟨hh, rfl⟩
  rw [thaw_thread] at h
  split at h
  · obtain rfl := Except.ok.inj h
    exact .inl ⟨rfl, .refl _⟩
  rename_i ti hti
  split at h
  · split at h
    · obtain rfl := Except.ok.inj h
      exact .inl ⟨rfl, .refl _⟩
    · cases h
  · split at h
    · obtain rfl := Except.ok.inj h
      exact .inl ⟨rfl, huncount⟩
    rw [thaw_counted] at h
    split at h
    · obtain rfl := Except.ok.inj h
      exact .inl ⟨rfl, huncount⟩
    split at h
    · obtain rfl := Except.ok.inj h
      exact .inl ⟨rfl, huncount⟩
    split at h
    · obtain rfl := Except.ok.inj h
      exact .inl ⟨rfl, huncount⟩
    rename_i hmay
    split at h
    · next hst =>
        have hexited : th.ld.exited = false := by
          rw [Bool.or_eq_true, not_or] at hmay
          exact Bool.eq_false_iff.mpr hmay.2
        obtain ⟨hcalls, hk, hrun⟩ := thaw_resumed_signals { th.uncount tid with
          calls := ⟨ti.single_step, tid, ti.child_signum⟩ :: th.calls } (uncount_find hti) hst h
        exact .inr ⟨ti, hti, hst, hexited, hcalls, huncount.trans hk, hrun⟩
    · obtain rfl := Except.ok.inj h
      exact .inl ⟨rfl, huncount⟩

theorem resumes_cons (c : ptrace_call) (calls : List ptrace_call) : resumes k ip (c :: calls) =
    resumes k ip calls ++ if k.resumes c.tid then [.resume c.tid c.signum (ip c.tid)] else [] := by
  rw [resumes, resumes, List.reverse_cons, List.filter_append, List.map_append]
  congr 1
  by_cases hc : k.resumes c.tid = true
  · simp [hc]
  · simp [hc]

theorem Owing.resume {signum : status_t} (h : Owing mon ld handling) (tid : thid_t) (ea : ea_t)
    (hsig : signum = 0 ∨ signum = mon.owed tid) (hrun : ∀ ti, ld.threads.find tid = some ti → ¬ti.Halted) :
    ∃ mon', Monitor.next mon (.resume tid signum ea) = some mon' ∧ Owing mon' ld handling := by
  refine ⟨_, if_pos ⟨hsig, .inl (h.target tid)⟩, fun he t ti hti hno hh => ?_, fun t => ?_⟩
  · by_cases ht : t = tid
    · subst ht
      exact absurd hh (hrun ti hti)
    · change ti.child_signum = 0 ∨ ti.child_signum = Function.update mon.owed tid 0 t
      rw [Function.update_of_ne ht]
      exact h.signum he t ti hti hno hh
  · change Function.update mon.target tid none t = none
    rw [Function.update_apply]
    split
    · rfl
    · exact h.target t

theorem owing_thaw_thread (ip : thid_t → ea_t) (mon₀ : Monitor) (h : thaw_thread k th tid = .ok th')
    (hmon : (resumes k ip th.calls).foldlM Monitor.next mon₀ = some mon) (ho : Owing mon th.ld none) :
    ∃ mon', (resumes k ip th'.calls).foldlM Monitor.next mon₀ = some mon' ∧ Owing mon' th'.ld none := by
  rcases thaw_thread_signals h with ⟨hcalls, hk⟩ | ⟨ti, hti, hh, hexited, hcalls, hk, hrun⟩
  · rw [hcalls]
    exact ⟨mon, hmon, ho.keeps hk⟩
  rw [hcalls, resumes_cons, List.foldlM_append, hmon]
  by_cases hr : k.resumes tid = true
  · have hsig := ho.signum hexited tid ti hti (fun x hx => absurd hx (by simp)) hh
    obtain ⟨mon', hnext, ho'⟩ := (ho.keeps hk).resume tid (ip tid) hsig (hrun hr)
    rw [if_pos hr]
    change ∃ mon', ([Obs.resume tid ti.child_signum (ip tid)].foldlM Monitor.next mon) = some mon' ∧ _
    rw [List.foldlM_cons, hnext]
    exact ⟨mon', rfl, ho'⟩
  · rw [if_neg hr]
    exact ⟨mon, rfl, ho.keeps hk⟩

theorem owing_thaw_fold {L : List thid_t} (ip : thid_t → ea_t) (mon₀ : Monitor) (h : L.foldlM (thaw_thread k) th = .ok th')
    (hmon : (resumes k ip th.calls).foldlM Monitor.next mon₀ = some mon) (ho : Owing mon th.ld none) :
    ∃ mon', (resumes k ip th'.calls).foldlM Monitor.next mon₀ = some mon' ∧ Owing mon' th'.ld none := by
  induction L generalizing th mon with
  | nil =>
      obtain rfl := Except.ok.inj h
      exact ⟨mon, hmon, ho⟩
  | cons tid L ih =>
      rw [List.foldlM_cons] at h
      cases hs : thaw_thread k th tid with
      | error n =>
          rw [hs] at h
          exact absurd h (by simp [bind, Except.bind])
      | ok th'' =>
          rw [hs] at h
          obtain ⟨mon', hmon', ho'⟩ := owing_thaw_thread ip mon₀ hs hmon ho
          exact ih h hmon' ho'

/-! ### Steps -/

theorem erase_keeps_signals (tid : thid_t) (h : ld'.threads = ld.threads.erase tid) (he : ld'.exited = ld.exited) :
    KeepsSignals ld ld' := by
  refine ⟨fun t ti hti hh => ?_, fun hx => he.trans hx⟩
  rw [h, Table.find_erase] at hti
  split at hti
  · exact absurd hti (by simp)
  · exact .inr ⟨ti, hti, hh, rfl⟩

theorem del_thread_keeps_signals (h : del_thread tid ld = .ok ld') : KeepsSignals ld ld' := by
  rw [del_thread] at h
  split at h
  · exact absurd h (by simp)
  · obtain rfl := Except.ok.inj h
    exact erase_keeps_signals tid rfl rfl

theorem dead_thread_keeps_signals {state : thstate_t} (h : dead_thread tid state ld = .ok ld')
    (hs : state = .DEAD ∨ (state = .DYING ∧ ∀ ti, ld.threads.find tid = some ti → ti.Halted ∨ ti.child_signum = 0)) :
    KeepsSignals ld ld' := by
  rw [dead_thread] at h
  split at h
  · rcases hs with rfl | ⟨rfl, hs⟩
    · have hk : KeepsSignals ld (ld.modify tid fun ti => { ti with state := .DEAD }) :=
        .modify fun _ _ hh => absurd hh (not_halted_of_state (.inr rfl))
      have hdie : KeepsSignals ld (ld.die tid .DEAD) := hk.trans (.of_threads rfl id)
      rw [if_pos rfl] at h
      exact hdie.trans (del_thread_keeps_signals h)
    · rw [if_neg (by decide)] at h
      obtain rfl := Except.ok.inj h
      exact die_keeps_signals hs
  · obtain rfl := Except.ok.inj h
    exact .refl _

theorem dead_threads_keep_signals {deadtids : List thid_t}
    (h : deadtids.foldlM (fun ld tid => dead_thread tid .DEAD ld) ld = .ok ld') : KeepsSignals ld ld' := by
  induction deadtids generalizing ld with
  | nil =>
      obtain rfl := Except.ok.inj h
      exact .refl _
  | cons tid deadtids ih =>
      rw [List.foldlM_cons] at h
      cases hd : dead_thread tid .DEAD ld with
      | error n =>
          rw [hd] at h
          exact absurd h (by simp [bind, Except.bind])
      | ok ld'' =>
          rw [hd] at h
          exact (dead_thread_keeps_signals hd (.inl rfl)).trans (ih h)

theorem freeze_thread_keeps_signals (kill : thid_t → kill_t) (fr : Freeze) (tid : thid_t) :
    KeepsSignals fr.ld (freeze_thread kill fr tid).ld := by
  rw [freeze_thread]
  split
  · exact .refl _
  split
  · split
    · exact .refl _
    · exact .refl _
    · exact .modify fun _ _ hh => .inr ⟨hh, rfl⟩
  · exact .modify fun _ _ hh => .inr ⟨hh, rfl⟩

theorem freeze_select_keeps_signals (tid : thid_t) (exclude : Bool) (kill : thid_t → kill_t) (ld : linux_debmod_t) :
    KeepsSignals ld (freeze_select tid exclude kill ld).ld := by
  have hfold : ∀ (L : List thid_t) (fr : Freeze), KeepsSignals fr.ld (L.foldl (freeze_thread kill) fr).ld := by
    intro L
    induction L with
    | nil => exact fun fr => .refl _
    | cons tid L ih => exact fun fr => (freeze_thread_keeps_signals kill fr tid).trans (ih _)
  exact hfold _ ⟨ld, [], []⟩

theorem retrieve_keeps_signals {r : Option (thid_t × status_t)}
    (h : retrieve_pending_signal ld = .ok (r, ld')) : KeepsSignals ld ld' := by
  rcases retrieve_spec h with ⟨-, rfl⟩ | ⟨tid, ti, -, -, -, rfl⟩
  · exact .refl _
  · have hk : KeepsSignals ld (ld.modify tid fun ti => { ti with got_pending_status := false }) :=
      .modify fun _ _ hh => .inr ⟨hh, rfl⟩
    exact hk.trans (.of_threads rfl id)

/-- A quiet call leaves the fields of the halted threads alone. -/
theorem quiet_keeps_signals {m m' : Machine} {l : Label} (h : Step m l m') (hl : m.Quiet this l)
    (hclean : ∀ i tid, l = .dead_thread i tid .DYING → ∀ ti, (m.srv.mods this).threads.find tid = some ti →
      ti.Halted ∨ ti.child_signum = 0) :
    KeepsSignals (m.srv.mods this) (m'.srv.mods this) := by
  have hset : ∀ (srv : Server) (i : Nat) (ld : linux_debmod_t), KeepsSignals (srv.mods i) ld →
      KeepsSignals (srv.mods this) ((srv.set i ld).mods this) := by
    intro srv i ld hk
    rw [Server.set_mods]
    split
    · next hi => exact hi ▸ hk
    · exact .refl _
  cases h with
  | store h => cases hl
  | report h => cases hl
  | thaw h => cases hl
  | retrieve h => exact hset _ _ _ (retrieve_keeps_signals h)
  | freeze h =>
      subst h
      exact hset _ _ _ (freeze_select_keeps_signals _ _ _ _)
  | frozen h => exact hset _ _ _ (dead_threads_keep_signals h)
  | @add_thread srv i tid =>
      refine hset _ _ _ ⟨fun t ti hti hh => ?_, id⟩
      cases hno : (srv.mods i).threads.find tid with
      | some ti' =>
          rw [add_thread, Table.insertNew_of_mem hno] at hti
          exact .inr ⟨ti, hti, hh, rfl⟩
      | none =>
          rw [add_thread, Table.find_insertNew hno] at hti
          split at hti
          · obtain rfl := Option.some.inj hti
            exact .inl rfl
          · exact .inr ⟨ti, hti, hh, rfl⟩
  | del_thread h => exact hset _ _ _ (del_thread_keeps_signals h)
  | @dead_thread srv i tid state ld h =>
      obtain ⟨rfl, hs⟩ := hl
      refine hset _ _ _ (dead_thread_keeps_signals h ?_)
      rcases hs with rfl | rfl
      · exact .inr ⟨rfl, hclean _ tid rfl⟩
      · exact .inl rfl
  | @edit srv i tid e =>
      obtain ⟨rfl, he⟩ := hl
      refine hset _ _ _ (.modify fun ti _ hh => .inr ?_)
      cases e with
      | single_step on => exact ⟨hh, rfl⟩
      | user_suspend => exact ⟨hh, rfl⟩
      | user_continue => exact ⟨hh, rfl⟩
      | expect => exact ⟨hh, rfl⟩
      | dying =>
          rw [Edit.apply] at hh ⊢
          split
          · next hd => exact ⟨.inr hd, rfl⟩
          · next hd =>
              rw [if_neg hd] at hh
              exact ⟨hh, rfl⟩
      | event => exact absurd he (by simp)
      | sigstop => exact absurd he (by simp)
      | group_stop _ => exact absurd he (by simp)
      | signum _ => exact absurd he (by simp)
      | attached => exact absurd he (by simp)
  | other =>
      obtain ⟨rfl, he⟩ := hl
      exact hset _ _ _ (.of_threads rfl he)

theorem receive_signum (ti : thread_info_t) (status : status_t) :
    (ti.receive status).child_signum = ti.child_signum := by
  rw [thread_info_t.receive]
  split
  · rfl
  · rfl

theorem linux_signal_storer_keeps_signals {L : List Nat} {pid : thid_t} {status : status_t} {b : Bool} (this : Nat)
    (h : linux_signal_storer pid status L srv = .ok (b, srv'))
    (hzero : srv.knower L pid = some this → ∀ ti, (srv.mods this).threads.find pid = some ti →
      ti.awaits status = true → ti.child_signum = 0) :
    KeepsSignals (srv.mods this) (srv'.mods this) := by
  induction L with
  | nil =>
      obtain ⟨-, rfl⟩ := Prod.mk.inj (Except.ok.inj h)
      exact .refl _
  | cons i rest ih =>
      rw [linux_signal_storer] at h
      split at h
      · next ti hti =>
          split at h
          · exact absurd h (by simp)
          obtain ⟨-, rfl⟩ := Prod.mk.inj (Except.ok.inj h)
          rw [Server.set_mods]
          split
          · next hi =>
              subst hi
              have hknower : srv.knower (this :: rest) pid = some this := by
                rw [Server.knower, List.find?_cons_of_pos]
                rw [hti]
                rfl
              have hk : KeepsSignals (srv.mods this) ((srv.mods this).modify pid fun ti => ti.receive status) := by
                refine .modify fun ti' hti' hh => ?_
                rw [receive_signum]
                by_cases haw : ti'.awaits status = true
                · exact .inl (hzero hknower ti' hti' haw)
                · rw [thread_info_t.receive, if_neg haw] at hh
                  exact .inr ⟨hh, rfl⟩
              exact hk.trans (.of_threads rfl id)
          · exact .refl _
      · next hno =>
          split at h
          · obtain ⟨-, rfl⟩ := Prod.mk.inj (Except.ok.inj h)
            exact .refl _
          · next hdel =>
              refine ih h fun hknower => hzero ?_
              rw [Server.knower, List.find?_cons_of_neg (by simp [hno, hdel])]
              exact hknower

/-- The condition under which the awaited SIGSTOP finds nothing in the field. -/
def Server.Empties (srv : Server) (this : Nat) (pid : thid_t) (status : status_t) : Prop :=
  srv.consumes this pid status = true →
    ∀ ti, (srv.mods this).threads.find pid = some ti → ti.child_signum = 0

theorem store_pending_signal_keeps_signals {i : Nat} {pid : thid_t} {status : status_t}
    (h : store_pending_signal i pid status srv = .ok srv') (hzero : srv.Empties this pid status) :
    KeepsSignals (srv.mods this) (srv'.mods this) := by
  rw [store_pending_signal] at h
  cases hs : linux_signal_storer pid status srv.order srv with
  | error n =>
      rw [hs] at h
      exact absurd h (by simp [bind, Except.bind])
  | ok x =>
      obtain ⟨b, srv''⟩ := x
      rw [hs] at h
      change (if b = true then Except.ok srv'' else _) = _ at h
      have hstored : KeepsSignals (srv.mods this) (srv''.mods this) := by
        refine linux_signal_storer_keeps_signals this hs fun hknower ti hti haw => hzero ?_ ti hti
        rw [Server.consumes, hti, hknower]
        simpa using haw
      split at h
      · obtain rfl := Except.ok.inj h
        exact hstored
      split at h
      · obtain rfl := Except.ok.inj h
        rw [Server.set_mods]
        split
        · next hi =>
            subst hi
            exact hstored.trans (.of_threads rfl id)
        · exact hstored
      · obtain rfl := Except.ok.inj h
        exact hstored

theorem Owing.consume (h : Owing mon ld handling) (hk : KeepsSignals ld ld')
    (hzero : ∀ ti, ld.threads.find tid = some ti → ti.child_signum = 0) :
    ∃ mon', [Obs.stop tid 0 none].foldlM Monitor.next mon = some mon' ∧ Owing mon' ld' handling := by
  obtain ⟨mon', hmon', ho⟩ := h.stop tid id 0 handling (fun _ _ hno => hno) fun ti hti _ => .inl (hzero ti hti)
  have hid : KeepsSignals (ld.modify tid id) ld :=
    ⟨fun t ti hti hh => .inr ⟨ti, by
      rw [linux_debmod_t.modify, Table.find_modify, hti]
      split
      · rfl
      · rfl, hh, rfl⟩, id⟩
  exact ⟨mon', by rw [List.foldlM_cons, hmon']; rfl, ho.keeps (hid.trans hk)⟩

theorem freeze_report_keeps_signals {r : Report} {queue queue' : List thid_t}
    (h : freeze_report this r queue srv = .ok (queue', srv'))
    (hzero : r.stid > 0 → ∀ ti, (srv.mods this).threads.find r.stid = some ti →
      (r.stid ∈ queue ∧ isSigstop r.status = true) ∨ srv.consumes this r.stid r.status = true → ti.child_signum = 0) :
    KeepsSignals (srv.mods this) (srv'.mods this) := by
  have hstore : ∀ {queue'' : List thid_t}, r.stid > 0 →
      (do
        let srv ← store_pending_signal this r.stid r.status srv
        return (queue'', srv) : Except Nat (List thid_t × Server)) = .ok (queue', srv') →
      KeepsSignals (srv.mods this) (srv'.mods this) := by
    intro queue'' hpos h
    cases hs : store_pending_signal this r.stid r.status srv with
    | error n =>
        rw [hs] at h
        exact absurd h (by simp [bind, Except.bind])
    | ok srv'' =>
        rw [hs] at h
        obtain ⟨-, rfl⟩ := Prod.mk.inj (Except.ok.inj h)
        exact store_pending_signal_keeps_signals hs fun hc ti hti => hzero hpos ti hti (.inr hc)
  rw [freeze_report] at h
  split at h
  · next hpos =>
      split at h
      · next hq =>
          by_cases hsig : isSigstop r.status = true
          · rw [if_pos hsig] at h
            obtain ⟨-, rfl⟩ := Prod.mk.inj (Except.ok.inj h)
            rw [Server.set_mods_self]
            exact .modify fun ti hti _ => .inl (hzero hpos ti hti (.inl ⟨hq, hsig⟩))
          · rw [if_neg hsig] at h
            exact hstore hpos h
      · exact hstore hpos h
  · obtain ⟨-, rfl⟩ := Prod.mk.inj (Except.ok.inj h)
    exact .refl _

/-- One clean step keeps what the monitor knows in line with the fields. -/
theorem Owing.step {s s' : Signals} {a : Action} {obs : List Obs} (hs : SigStep this s a obs s')
    (hclean : s.Clean this a) (hf : ∀ fr, s.m.freezing = some fr → fr.this = this)
    (h : Owing mon (s.m.srv.mods this) s.handling) :
    (∃ mon', obs.foldlM Monitor.next mon = some mon' ∧ Owing mon' (s'.m.srv.mods this) s'.handling) ∧
      ∀ fr, s'.m.freezing = some fr → fr.this = this := by
  cases hs with
  | @quiet m m' ip handling l hstep hl hh =>
      refine ⟨⟨mon, rfl, h.keeps (quiet_keeps_signals hstep hl ?_)⟩, ?_⟩
      · intro i tid hdead ti hti
        subst hdead
        exact hclean ti hti
      cases hstep with
      | freeze _ =>
          intro fr hfr
          obtain rfl := Option.some.inj hfr
          exact hl
      | report _ => cases hl
      | _ => exact fun fr hfr => absurd hfr (by simp)
  | @store m m' ip pid status hstep =>
      cases hstep with
      | store hst =>
          refine ⟨?_, fun fr hfr => absurd hfr (by simp)⟩
          have hk := store_pending_signal_keeps_signals hst hclean
          split
          · next hc => exact h.consume hk (hclean hc)
          · exact ⟨mon, rfl, h.keeps hk⟩
  | @report m m' ip handling r hstep =>
      cases hstep with
      | @report srv srv' i q queue queue' deadtids _ hr =>
          obtain rfl : i = this := hf _ rfl
          refine ⟨?_, fun fr hfr => Option.some.inj hfr ▸ rfl⟩
          have hk : KeepsSignals (srv.mods i) (srv'.mods i) := by
            refine freeze_report_keeps_signals hr fun hpos ti hti hc => hclean ?_ ti hti
            change (decide (r.stid > 0) && if r.stid ∈ q :: queue ∧ isSigstop r.status then true
              else srv.consumes i r.stid r.status) = true
            rw [decide_eq_true hpos, Bool.true_and]
            split
            · rfl
            · next hno => exact hc.resolve_left hno
          split
          · next hc => exact h.consume hk (hclean hc)
          · exact ⟨mon, rfl, h.keeps hk⟩
  | @thaw srv ip tid exclude k th hth =>
      refine ⟨?_, fun fr hfr => absurd hfr (by simp)⟩
      obtain ⟨mon', hmon', ho⟩ := owing_thaw_fold ip mon hth rfl h
      refine ⟨mon', hmon', ?_⟩
      change Owing mon' ((srv.set this th.ld).mods this) none
      rw [Server.set_mods_self]
      exact ho
  | @begin_event srv ip tid status ea =>
      refine ⟨?_, fun fr hfr => absurd hfr (by simp)⟩
      change ∃ mon', _ ∧ Owing mon' ((srv.set this ((srv.mods this).modify tid (begin_event status))).mods this) _
      rw [Server.set_mods_self]
      by_cases hg : isGroupStop status = true
      · have hrun : ∀ ti, ¬(begin_event status ti).Halted := by
          intro ti
          rw [begin_event, if_pos hg]
          rintro (hst | hst)
          · exact absurd hst (by simp [Edit.apply])
          · exact absurd hst (by simp [Edit.apply])
        obtain ⟨mon', hmon', ho⟩ := h.stop tid (begin_event status) 0 none (fun _ _ _ _ hx => absurd hx (by simp))
          fun ti _ hh => absurd hh (hrun ti)
        obtain ⟨mon'', hmon'', ho'⟩ := ho.resume tid ea (.inl rfl : (0 : status_t) = 0 ∨ _) fun ti hti => by
          rw [linux_debmod_t.modify, Table.find_modify_self, Option.map_eq_some_iff] at hti
          obtain ⟨ti', -, rfl⟩ := hti
          exact hrun ti'
        rw [if_pos hg, if_pos hg]
        refine ⟨mon'', ?_, ho'⟩
        rw [List.foldlM_cons, hmon']
        change [Obs.resume tid 0 ea].foldlM Monitor.next mon' = _
        rw [List.foldlM_cons, hmon'']
        rfl
      · rw [if_neg hg, if_neg hg]
        refine ⟨mon, rfl, fun he t ti hti hno hh => ?_, h.target⟩
        rw [linux_debmod_t.modify, Table.find_modify_of_ne fun ht => hno _ rfl ht.symm] at hti
        exact h.signum he t ti hti (fun x hx => absurd hx (by simp)) hh
  | @end_event srv ip tid status ti env hstop hti =>
      refine ⟨?_, fun fr hfr => absurd hfr (by simp)⟩
      change ∃ mon', _ ∧
        Owing mon' ((srv.set this ((srv.mods this).modify tid (env.handle_stop ti status (ip tid)).apply)).mods this) none
      rw [Server.set_mods_self]
      obtain ⟨hskips, htarget⟩ := hclean tid status ti rfl hti
      rw [htarget]
      obtain ⟨mon', hmon', ho⟩ := h.stop tid (env.handle_stop ti status (ip tid)).apply
        (env.owed ti status (calc_bpt_event_ea (WSTOPSIG status) (ip tid))) none
        (fun t ht _ x hx => by
          obtain rfl := Option.some.inj hx
          exact ht.symm) fun ti' hti' _ => by
          obtain rfl := Option.some.inj (hti.symm.trans hti')
          change (env.handle_stop ti status (ip tid)).code.getD ti.child_signum = 0 ∨
            (env.handle_stop ti status (ip tid)).code.getD ti.child_signum = _
          cases hc : (env.handle_stop ti status (ip tid)).code with
          | none => exact .inl (hskips (handle_stop_code_none.mp hc))
          | some c => exact handle_stop_code_some hc
      exact ⟨mon', by rw [List.foldlM_cons, hmon']; rfl, ho⟩
  | @vanished srv ip tid status env hti =>
      refine ⟨⟨mon, rfl, fun he t ti ht _ => h.signum he t ti ht fun x hx => ?_, h.target⟩,
        fun fr hfr => absurd hfr (by simp)⟩
      obtain rfl := Option.some.inj hx
      rintro rfl
      rw [hti] at ht
      exact absurd ht (by simp)
  | @exit_process srv ip tid status hstop =>
      refine ⟨⟨mon, rfl, fun he => ?_, h.target⟩, fun fr hfr => absurd hfr (by simp)⟩
      change ((srv.set this { srv.mods this with exited := true }).mods this).exited = false at he
      rw [Server.set_mods_self] at he
      exact absurd he (by simp)
  | @exit_thread srv ip tid status ld hstop hd =>
      refine ⟨⟨mon, rfl, ?_⟩, fun fr hfr => absurd hfr (by simp)⟩
      change Owing mon ((srv.set this ld).mods this) none
      rw [Server.set_mods_self]
      have hk := h.keeps (dead_thread_keeps_signals hd (.inl rfl))
      refine ⟨fun he t ti hti _ hh => hk.signum he t ti hti (fun x hx => ?_) hh, h.target⟩
      obtain rfl := Option.some.inj hx
      rintro rfl
      obtain ⟨ld', hd', hfind⟩ := dead_thread_spec tid (srv.mods this)
      obtain rfl := Except.ok.inj (hd.symm.trans hd')
      rw [hfind, if_pos rfl] at hti
      exact absurd hti (by simp)
  | @continue_after_event srv ip tid event =>
      refine ⟨?_, fun fr hfr => absurd hfr (by simp)⟩
      change ∃ mon', _ ∧ Owing mon' ((srv.set this ((srv.mods this).modify tid fun ti =>
        if event.clears then { ti with child_signum := 0 } else ti)).mods this) none
      rw [Server.set_mods_self]
      by_cases hc : event.clears = true
      · simp only [hc, if_true]
        refine ⟨_, rfl, fun he t ti hti _ hh => ?_, h.target⟩
        rw [linux_debmod_t.modify, Table.find_modify] at hti
        split at hti
        · rw [Option.map_eq_some_iff] at hti
          obtain ⟨ti', -, rfl⟩ := hti
          exact .inl rfl
        · next ht =>
            change ti.child_signum = 0 ∨ ti.child_signum = Function.update mon.owed tid 0 t
            rw [Function.update_of_ne ht]
            exact h.signum he t ti hti (fun x hx => absurd hx (by simp)) hh
      · simp only [hc, if_false, Bool.false_eq_true]
        exact ⟨mon, rfl, h.keeps (.modify fun _ _ hh => .inr ⟨hh, rfl⟩)⟩

theorem owing_start (order : List Nat) :
    Owing .start ((Signals.start order).m.srv.mods this) (Signals.start order).handling :=
  ⟨fun _ _ _ hti => absurd hti (by simp [Signals.start, Machine.start, linux_debmod_t.start, Table.find, Table.empty]),
    fun _ => rfl⟩

theorem SigRun.owing {order : List Nat} {trace : List Obs} {s : Signals}
    (h : SigRun this (fun s a => s.Clean this a) order trace s) :
    (∃ mon, trace.foldlM Monitor.next .start = some mon ∧ Owing mon (s.m.srv.mods this) s.handling) ∧
      ∀ fr, s.m.freezing = some fr → fr.this = this := by
  induction h with
  | start => exact ⟨⟨.start, rfl, owing_start order⟩, fun fr hfr => absurd hfr (by simp [Signals.start, Machine.start])⟩
  | step _ hs hclean ih =>
      obtain ⟨⟨mon, hmon, ho⟩, hfreezing⟩ := ih
      obtain ⟨⟨mon', hmon', ho'⟩, hfreezing'⟩ := ho.step hs hclean hfreezing
      refine ⟨⟨mon', ?_, ho'⟩, hfreezing'⟩
      rw [List.foldlM_append, hmon]
      exact hmon'

/-- In a clean run every signal of the application is passed on at most once, to the thread that
received it, and nothing else is. -/
theorem transparent_of_clean {order : List Nat} {trace : List Obs} {s : Signals}
    (h : SigRun this (fun s a => s.Clean this a) order trace s) : Transparent trace := by
  obtain ⟨⟨mon, hmon, -⟩, -⟩ := h.owing
  rw [Transparent, hmon]
  rfl

end Invariant

section Example

/-- Nothing is known about the signal, and there are no breakpoints. -/
def exampleEnv : StopEnv where
  event_ready := false
  handle := none
  suspend := false
  shlib_bpt := 0
  birth_bpt := 0
  death_bpt := 0
  emulate_retn := none
  news := false
  lowcnd := false
  hwbpt := false
  bpts := fun _ => false
  removed_bpts := fun _ => false
  handling_lowcnds := fun _ => false

def exampleSignal : status_t := 0x0a7f

def exampleBegun : Server := exampleServer.set 0 ((exampleServer.mods 0).modify 5 (begin_event exampleSignal))

def exampleHandled : Server := exampleBegun.set 0 ((exampleBegun.mods 0).modify 5
  (exampleEnv.handle_stop (Edit.apply .event {}) exampleSignal 0x1000).apply)

/-- The thread has stopped with the signal, and the application may go on. -/
def exampleSignalled : Server := exampleHandled.set 0
  { exampleHandled.mods 0 with events := [], may_run := true, exited := false, last_event_tid := 5 }

def exampleIp : thid_t → ea_t := Function.update (fun _ => 0) 5 0x1000

theorem example_begun : SigStep 0 ⟨⟨exampleServer, none⟩, fun _ => 0, none⟩ (.begin_event 5 exampleSignal 0x1000) []
    ⟨⟨exampleBegun, none⟩, exampleIp, some (5, exampleSignal)⟩ := .begin_event

theorem example_handled : SigStep 0 ⟨⟨exampleBegun, none⟩, exampleIp, some (5, exampleSignal)⟩
    (.end_event exampleEnv) [.stop 5 10 none] ⟨⟨exampleHandled, none⟩, exampleIp, none⟩ := by
  have hend : SigStep 0 ⟨⟨exampleBegun, none⟩, exampleIp, some (5, exampleSignal)⟩ (.end_event exampleEnv)
      [.stop 5 10 none] ⟨⟨exampleHandled, none⟩, Function.update exampleIp 5 (exampleIp 5), none⟩ :=
    .end_event rfl (show (exampleBegun.mods 0).threads.find 5 = some (Edit.apply .event {}) from rfl)
  rwa [Function.update_eq_self] at hend

theorem example_signalled : SigRun 0 (fun s a => s.Clean 0 a) [0] [.stop 5 10 none]
    ⟨⟨exampleSignalled, none⟩, exampleIp, none⟩ := by
  have hclean : Signals.Clean ⟨⟨exampleBegun, none⟩, exampleIp, some (5, exampleSignal)⟩ 0 (.end_event exampleEnv) := by
    intro tid status ti hs _
    obtain ⟨rfl, rfl⟩ := Prod.mk.inj (Option.some.inj hs)
    refine ⟨fun hskips => absurd hskips ?_, rfl⟩
    rw [← handle_stop_code_none]
    exact fun h => absurd (show some (10 : status_t) = none from h) (by simp)
  have hadd : SigRun 0 (fun s a => s.Clean 0 a) [0] [] ⟨⟨exampleServer, none⟩, fun _ => 0, none⟩ :=
    SigRun.step .start (.quiet example_add rfl (.inl rfl)) trivial
  exact ((hadd.step example_begun trivial).step example_handled hclean).step
    (.quiet .other ⟨rfl, fun h => h⟩ (.inl rfl)) trivial

/-- The thread goes on with its signal. -/
theorem transparent_of_clean_signalled : ∃ th, dbg_thaw_threads 0 true exampleKernel (exampleSignalled.mods 0) = .ok th ∧
    Transparent ([.stop 5 10 none] ++ resumes exampleKernel exampleIp th.calls) ∧
    resumes exampleKernel exampleIp th.calls = [.resume 5 10 0x1000] := by
  obtain ⟨th, hth⟩ : ∃ th, dbg_thaw_threads 0 true exampleKernel (exampleSignalled.mods 0) = .ok th := ⟨_, rfl⟩
  refine ⟨th, hth, transparent_of_clean (example_signalled.step (.thaw hth) trivial), ?_⟩
  obtain rfl := Except.ok.inj hth
  rfl

theorem SigRun.imp {this : Nat} {P Q : Signals → Action → Prop} {order : List Nat} {trace : List Obs} {s : Signals}
    (hPQ : ∀ s a, P s a → Q s a) (h : SigRun this P order trace s) : SigRun this Q order trace s := by
  induction h with
  | start => exact .start
  | step _ hs hp ih => exact ih.step hs (hPQ _ _ hp)

/-- The thread was resumed with its signal, and while it runs memory is read: a SIGSTOP halts it, and
it is resumed with the same signal. -/
theorem not_transparent : ¬∀ (this : Nat) (order : List Nat) (trace : List Obs) (s : Signals),
    SigRun this (fun _ _ => True) order trace s → Transparent trace := by
  intro h
  obtain ⟨th, hth⟩ : ∃ th, dbg_thaw_threads 0 true exampleKernel (exampleSignalled.mods 0) = .ok th := ⟨_, rfl⟩
  have hrun := (example_signalled.imp (Q := fun _ _ => True) fun _ _ _ => trivial).step (.thaw hth) trivial
  obtain rfl := Except.ok.inj hth
  have hfreeze := hrun.step (.quiet (show Step _ (.freeze 0 0 true fun _ => .sent) _ from .freeze rfl) rfl
    (.inl rfl)) trivial
  have hreport := hfreeze.step (.report (show Step _ (.report ⟨5, 0x137f⟩) _ from .report rfl)) trivial
  have hfrozen := hreport.step (.quiet (.frozen rfl) trivial (.inl rfl)) trivial
  have hthaw := hfrozen.step (show SigStep 0 _ (.call (.thaw 0 0 true exampleKernel)) _ _ from .thaw rfl) trivial
  exact absurd (h _ _ _ _ hthaw) (by decide)

end Example

end IdaSdk.LinuxThreads
