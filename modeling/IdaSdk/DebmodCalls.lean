import IdaSdk.LibEffects

/-!
A debug module as its own code sees it: the state it keeps, and the calls to its virtual functions, whose outcomes
are chosen outside and may depend on everything that was called before. Every call is recorded with its outcome.
-/

namespace IdaSdk.Debmod
open Effects

abbrev ea_t := UInt64
abbrev thid_t := Int
abbrev drc_t := Int
abbrev bpttype_t := Int
abbrev bytevec_t := List UInt8

def BADADDR : ea_t := 0xFFFFFFFFFFFFFFFF

def DRC_OK : drc_t := 1
def DRC_NONE : drc_t := 0
def DRC_EVENTS : drc_t := 3
def DRC_FAILED : drc_t := -1

def BPT_SOFT : bpttype_t := 4

/-- `event_id_t`. -/
inductive EventId where
  | NO_EVENT | PROCESS_STARTED | PROCESS_EXITED | THREAD_STARTED | THREAD_EXITED | BREAKPOINT | STEP | EXCEPTION
  | LIB_LOADED | LIB_UNLOADED | INFORMATION | PROCESS_ATTACHED | PROCESS_DETACHED | PROCESS_SUSPENDED | TRACE_FULL
deriving DecidableEq

/-- `gdecode_t`. -/
inductive Gdecode where
  | GDE_ERROR | GDE_NO_EVENT | GDE_ONE_EVENT | GDE_MANY_EVENTS
deriving DecidableEq

/-- `debug_event_t`, with the address and the text of an exception. -/
structure Event where
  tid : thid_t
  ea : ea_t
  handled : Bool
  eid : EventId
  exc_ea : ea_t
  exc_info : String
deriving DecidableEq

/-- The event has no information of its own left when its code becomes `NO_EVENT`. -/
def Event.clear_eid (ev : Event) : Event := { ev with eid := .NO_EVENT, exc_ea := 0, exc_info := "" }

def RVT_FLOAT : Int := -1
def RVT_INT : Int := -2

/-- `regval_t`; its union is kept as two fields. -/
structure RegVal where
  rvtype : Int
  ival : UInt64
  bytes : bytevec_t
deriving DecidableEq

abbrev regvals_t := List RegVal

def RegVal.default : RegVal := ⟨RVT_INT, 0xFFFFFFFFFFFFFFFF, []⟩

/-- `call_context_t`. -/
structure CallContext where
  saved_regs : regvals_t
  sp : ea_t
  ctrl_ea : ea_t
  regs_spoiled : Bool
deriving DecidableEq

/-- A call to a virtual function, with its outcome. -/
inductive Call where
  | dbg_read_registers (tid : thid_t) (clsmask : Int) (drc : drc_t) (values : regvals_t)
  | dbg_write_register (tid : thid_t) (reg_idx : Nat) (value : RegVal) (drc : drc_t)
  | write_registers (tid : thid_t) (values : regvals_t) (ok : Bool)
  | dbg_read_memory (ea : ea_t) (size : Nat) (n : Int) (bytes : bytevec_t)
  | dbg_write_memory (ea : ea_t) (bytes : bytevec_t) (n : Int)
  | dbg_add_bpt (type : bpttype_t) (ea : ea_t) (len : Int) (code : Int)
  | dbg_del_bpt (type : bpttype_t) (ea : ea_t) (orig_bytes : bytevec_t) (len : Int) (code : Int)
  | dbg_set_resume_mode (tid : thid_t) (drc : drc_t)
  | dbg_continue_after_event (event : Event) (drc : drc_t)
  | dbg_get_debug_event (timeout_ms : Int) (gc : Gdecode) (event : Event)
  | dbg_freeze_threads_except (tid : thid_t) (code : Int)
  | dbg_thaw_threads_except (tid : thid_t) (code : Int)
  | dbg_prepare_to_pause_process (drc : drc_t)
  | send_debug_event_to_ida (event : Event) (rqflags : Nat) (code : Int)
deriving DecidableEq

/-- The part of `debmod_t` that the code below works on, with the calls so far. -/
structure State where
  handling_lowcnds : List ea_t
  appcalls : thid_t → Option (List CallContext)
  last_event : Event
  has_events : Bool
  calls : List Call

def State.called (dm : State) (c : Call) : State := { dm with calls := dm.calls ++ [c] }

/-- The outcomes of the virtual functions. Waiting for an event also sets the last event and the queue of pending
events. -/
structure Callbacks where
  dbg_read_registers : State → thid_t → Int → drc_t × regvals_t
  dbg_write_register : State → thid_t → Nat → RegVal → drc_t
  write_registers : State → thid_t → regvals_t → Bool
  dbg_read_memory : State → ea_t → Nat → Int × bytevec_t
  dbg_write_memory : State → ea_t → bytevec_t → Int
  dbg_add_bpt : State → bpttype_t → ea_t → Int → Int
  dbg_del_bpt : State → bpttype_t → ea_t → bytevec_t → Int → Int
  dbg_set_resume_mode : State → thid_t → drc_t
  dbg_continue_after_event : State → Event → drc_t
  dbg_get_debug_event : State → Event → Int → Gdecode × Event × Event × Bool
  dbg_freeze_threads_except : State → thid_t → Int
  dbg_thaw_threads_except : State → thid_t → Int
  dbg_prepare_to_pause_process : State → drc_t
  send_debug_event_to_ida : State → Event → Nat → Int
  get_nsec_stamp : State → UInt64

variable (cb : Callbacks)

def dbg_read_registers (n : Nat) (tid : thid_t) (clsmask : Int) : Code State (drc_t × regvals_t) :=
  ask (fun dm => let r := cb.dbg_read_registers dm tid clsmask
      (r.1, (List.range n).map fun i => r.2.getD i RegVal.default))
    fun r dm => dm.called (.dbg_read_registers tid clsmask r.1 r.2)

def dbg_write_register (tid : thid_t) (reg_idx : Nat) (value : RegVal) : Code State drc_t :=
  ask (fun dm => cb.dbg_write_register dm tid reg_idx value) fun drc dm =>
    dm.called (.dbg_write_register tid reg_idx value drc)

def write_registers (tid : thid_t) (values : regvals_t) : Code State Bool :=
  ask (fun dm => cb.write_registers dm tid values) fun ok dm => dm.called (.write_registers tid values ok)

def dbg_read_memory (ea : ea_t) (size : Nat) : Code State (Int × bytevec_t) :=
  ask (fun dm => cb.dbg_read_memory dm ea size) fun r dm => dm.called (.dbg_read_memory ea size r.1 r.2)

def dbg_write_memory (ea : ea_t) (bytes : bytevec_t) : Code State Int :=
  ask (fun dm => cb.dbg_write_memory dm ea bytes) fun n dm => dm.called (.dbg_write_memory ea bytes n)

def dbg_add_bpt (type : bpttype_t) (ea : ea_t) (len : Int) : Code State Int :=
  ask (fun dm => cb.dbg_add_bpt dm type ea len) fun code dm => dm.called (.dbg_add_bpt type ea len code)

def dbg_del_bpt (type : bpttype_t) (ea : ea_t) (orig_bytes : bytevec_t) (len : Int) : Code State Int :=
  ask (fun dm => cb.dbg_del_bpt dm type ea orig_bytes len) fun code dm =>
    dm.called (.dbg_del_bpt type ea orig_bytes len code)

/-- The only mode that is asked for is `RESMOD_INTO`. -/
def dbg_set_resume_mode (tid : thid_t) : Code State drc_t :=
  ask (fun dm => cb.dbg_set_resume_mode dm tid) fun drc dm => dm.called (.dbg_set_resume_mode tid drc)

def dbg_continue_after_event (event : Event) : Code State drc_t :=
  ask (fun dm => cb.dbg_continue_after_event dm event) fun drc dm => dm.called (.dbg_continue_after_event event drc)

/-- The event is an output that the callback need not fill. -/
def dbg_get_debug_event (event : Event) (timeout_ms : Int) : Code State (Gdecode × Event) := do
  let r ← ask (fun dm => cb.dbg_get_debug_event dm event timeout_ms) fun r dm =>
    { dm.called (.dbg_get_debug_event timeout_ms r.1 r.2.1) with last_event := r.2.2.1, has_events := r.2.2.2 }
  pure (r.1, r.2.1)

def dbg_freeze_threads_except (tid : thid_t) : Code State Int :=
  ask (fun dm => cb.dbg_freeze_threads_except dm tid) fun code dm => dm.called (.dbg_freeze_threads_except tid code)

def dbg_thaw_threads_except (tid : thid_t) : Code State Int :=
  ask (fun dm => cb.dbg_thaw_threads_except dm tid) fun code dm => dm.called (.dbg_thaw_threads_except tid code)

def dbg_prepare_to_pause_process : Code State drc_t :=
  ask cb.dbg_prepare_to_pause_process fun drc dm => dm.called (.dbg_prepare_to_pause_process drc)

def send_debug_event_to_ida (event : Event) (rqflags : Nat) : Code State Int :=
  ask (fun dm => cb.send_debug_event_to_ida dm event rqflags) fun code dm =>
    dm.called (.send_debug_event_to_ida event rqflags code)

/-- The calls that were made between two states. -/
def since (dm dm' : State) : List Call := dm'.calls.drop dm.calls.length

/-- Some more calls were made, and the rest of the state that the code below changes is as before. -/
structure Extends (dm : State) (new : List Call) (dm' : State) : Prop where
  calls : dm'.calls = dm.calls ++ new
  handling_lowcnds : dm'.handling_lowcnds = dm.handling_lowcnds
  appcalls : dm'.appcalls = dm.appcalls

variable {cb : Callbacks} {dm dm' dm'' : State} {new new' : List Call}

theorem Extends.refl (dm : State) : Extends dm [] dm := ⟨(List.append_nil _).symm, rfl, rfl⟩

theorem Extends.called (dm : State) (c : Call) : Extends dm [c] (dm.called c) := ⟨rfl, rfl, rfl⟩

theorem Extends.trans (h : Extends dm new dm') (h' : Extends dm' new' dm'') : Extends dm (new ++ new') dm'' where
  calls := by rw [h'.calls, h.calls, List.append_assoc]
  handling_lowcnds := h'.handling_lowcnds.trans h.handling_lowcnds
  appcalls := h'.appcalls.trans h.appcalls

theorem runs_get_debug_event {event event' : Event} {timeout_ms : Int} {gc : Gdecode}
    (h : Runs (dbg_get_debug_event cb event timeout_ms) dm (gc, event') dm') :
    Extends dm [.dbg_get_debug_event timeout_ms gc event'] dm' := by
  unfold dbg_get_debug_event at h
  simp only [runs_bind, runs_ask, runs_pure, Prod.mk.injEq] at h
  obtain ⟨r, u, ⟨rfl, rfl⟩, ⟨rfl, rfl⟩, rfl⟩ := h
  exact ⟨rfl, rfl, rfl⟩

/-- Everything succeeds, and a wait brings the event. -/
def obliging (event : Event) : Callbacks where
  dbg_read_registers _ _ _ := (DRC_OK, [])
  dbg_write_register _ _ _ _ := DRC_OK
  write_registers _ _ _ := true
  dbg_read_memory _ _ _ := (0, [])
  dbg_write_memory _ _ bytes := bytes.length
  dbg_add_bpt _ _ _ _ := 1
  dbg_del_bpt _ _ _ _ _ := 1
  dbg_set_resume_mode _ _ := DRC_OK
  dbg_continue_after_event _ _ := DRC_OK
  dbg_get_debug_event _ _ _ := (.GDE_ONE_EVENT, event, event, false)
  dbg_freeze_threads_except _ _ := 1
  dbg_thaw_threads_except _ _ := 1
  dbg_prepare_to_pause_process _ := DRC_OK
  send_debug_event_to_ida _ _ _ := 0
  get_nsec_stamp _ := 0

def eventOf (tid : thid_t) (eid : EventId) : Event := ⟨tid, 0x1000, false, eid, 0, ""⟩

/-- Thread 1 is at a breakpoint, and nothing was called. -/
def idle : State := ⟨[], fun _ => none, eventOf 1 .BREAKPOINT, false, []⟩

end IdaSdk.Debmod
