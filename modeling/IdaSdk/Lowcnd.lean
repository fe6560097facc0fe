import IdaSdk.DebmodCalls
import IdaSdk.PageBptsModel

/-!
Breakpoints with a condition that the debugger evaluates itself. When the condition is false, the program is resumed:
where the debugger cannot continue from a breakpoint, the breakpoint is removed for one step while the other threads are
frozen. A ledger of the calls says which threads and breakpoints are still waiting to be restored.
-/

namespace IdaSdk.Debmod
open Effects

/-! ### The code -/

/-- `lowcnd_t`. -/
structure Lowcnd where
  ea : ea_t
  type : bpttype_t
  orgbytes : bytevec_t
  size : Int

def DBG_FLAG_CAN_CONT_BPT : Nat := 0x10
def ELC_KEEP_EIP : Nat := 0x1
def ELC_KEEP_SUSP : Nat := 0x2
def TIMEOUT_INFINITY : Int := -1

/-- What does not change while a condition is handled. -/
structure LowcndEnv where
  debugger_flags : Nat
  page_bpts : PageBpts.page_bpts_t
  pc_idx : Nat

variable (cb : Callbacks)

def wait_for_event : Nat → Event → Code State Event :=
  loop fun dev => do
    let (gc, dev) ← dbg_get_debug_event cb dev TIMEOUT_INFINITY
    pure (if gc ≠ .GDE_NO_EVENT then .inr dev else .inl dev)

def resume_app_and_get_event (fuel : Nat) (dev : Event) : Code State (drc_t × Event) := do
  let tid := dev.tid
  let drc ← dbg_continue_after_event cb dev
  if DRC_NONE < drc then
    let dev ← wait_for_event cb fuel dev
    pure (if tid ≠ dev.tid then DRC_FAILED else drc, dev)
  else pure (drc, dev)

def dbg_perform_single_step (fuel : Nat) (dev : Event) : Code State (drc_t × Event) := do
  let drc ← dbg_set_resume_mode cb dev.tid
  if DRC_NONE < drc then resume_app_and_get_event cb fuel dev else pure (drc, dev)

/-- The length with which the breakpoint is removed and added back. -/
def Lowcnd.bptlen (lc : Lowcnd) : Int := if lc.type = BPT_SOFT then lc.orgbytes.length else lc.size

/-- The part of `handle_lowcnd` while the other threads are frozen. -/
def step_without_bpt (fuel : Nat) (lc : Lowcnd) (event : Event) : Code State (Int × Event) := do
  let code ← dbg_del_bpt cb lc.type lc.ea lc.orgbytes lc.bptlen
  if 0 < code then
    let (drc, event) ← dbg_perform_single_step cb fuel event
    let code := if drc ≤ DRC_NONE then 0 else code
    let added ← dbg_add_bpt cb lc.type lc.ea lc.bptlen
    pure (if added ≤ 0 then 0 else code, event)
  else pure (code, event)

def freeze_and_step (fuel : Nat) (lc : Lowcnd) (event : Event) : Code State (Int × Event) := do
  let code ← dbg_freeze_threads_except cb event.tid
  if 0 < code then
    let (code, event) ← step_without_bpt cb fuel lc event
    let thawed ← dbg_thaw_threads_except cb event.tid
    pure (if thawed ≤ 0 then 0 else code, event)
  else pure (code, event)

def push_handling (ea : ea_t) : Code State PUnit :=
  modify fun dm => { dm with handling_lowcnds := dm.handling_lowcnds ++ [ea] }

def del_handling (ea : ea_t) : Code State PUnit :=
  modify fun dm => { dm with handling_lowcnds := dm.handling_lowcnds.erase ea }

/-- The register write that resets the program counter. -/
def reset_pc (env : LowcndEnv) (lc : Lowcnd) (event : Event) (elc_flags : Nat) : Code State drc_t :=
  if elc_flags &&& ELC_KEEP_EIP = 0 then
    dbg_write_register cb event.tid env.pc_idx { RegVal.default with ival := lc.ea }
  else pure DRC_OK

/-- The difficult case: whether the application made its step. -/
def step_over_bpt (env : LowcndEnv) (fuel : Nat) (lc : Lowcnd) (event : Event) (elc_flags : Nat) :
    Code State (Bool × Event) := do
  let dm ← get
  require (!dm.handling_lowcnds.contains lc.ea)
  push_handling lc.ea
  let drc ← reset_pc cb env lc event elc_flags
  if drc ≤ DRC_NONE then
    del_handling lc.ea
    pure (false, event)
  else
    let (code, event) ← freeze_and_step cb fuel lc event
    del_handling lc.ea
    pure (0 < code ∧ event.eid = .STEP, event)

def LowcndEnv.difficult (env : LowcndEnv) (lc : Lowcnd) : Prop :=
  env.debugger_flags &&& DBG_FLAG_CAN_CONT_BPT = 0 ∨
    lc.type ≠ BPT_SOFT ∧ (PageBpts.find_page_bpt env.page_bpts lc.ea.toNat lc.size).isSome

instance (env : LowcndEnv) (lc : Lowcnd) : Decidable (env.difficult lc) := inferInstanceAs (Decidable (_ ∨ _))

def resume_after_lowcnd (event : Event) (elc_flags : Nat) : Code State Bool :=
  if elc_flags &&& ELC_KEEP_SUSP ≠ 0 then pure true
  else do
    let drc ← dbg_continue_after_event cb event
    pure (DRC_NONE < drc)

def handle_lowcnd (env : LowcndEnv) (fuel : Nat) (lc : Lowcnd) (event : Event) (elc_flags : Nat) :
    Code State (Bool × Event) := do
  let (stepped, event) ← (if env.difficult lc then step_over_bpt cb env fuel lc event elc_flags
    else pure (true, event))
  if stepped then
    let resumed ← resume_after_lowcnd cb event elc_flags
    pure (resumed, event)
  else pure (false, event)

/-- A breakpoint as it is removed and added back. -/
structure BptKey where
  type : bpttype_t
  ea : ea_t
  len : Int
deriving DecidableEq

/-- The threads for whose sake the others were frozen and not yet thawed, and the breakpoints that were removed and not
yet added back. -/
structure Ledger where
  frozen : List thid_t
  removed : List BptKey
deriving DecidableEq

/-- A call that fails changes nothing. -/
def Ledger.post (l : Ledger) : Call → Ledger
  | .dbg_freeze_threads_except tid code => if 0 < code then { l with frozen := tid :: l.frozen } else l
  | .dbg_thaw_threads_except tid code => if 0 < code then { l with frozen := l.frozen.erase tid } else l
  | .dbg_del_bpt type ea _ len code => if 0 < code then { l with removed := ⟨type, ea, len⟩ :: l.removed } else l
  | .dbg_add_bpt type ea len code => if 0 < code then { l with removed := l.removed.erase ⟨type, ea, len⟩ } else l
  | _ => l

def ledger (calls : List Call) : Ledger := calls.foldl Ledger.post ⟨[], []⟩

def Call.exits : Call → Bool
  | .dbg_get_debug_event _ gc event => gc ≠ .GDE_NO_EVENT ∧ event.eid = .PROCESS_EXITED
  | _ => false

/-- If the call brings an event, it is one of the thread. -/
def Call.OfThread (tid : thid_t) : Call → Prop
  | .dbg_get_debug_event _ gc event => gc ≠ .GDE_NO_EVENT → event.tid = tid
  | _ => True

def Call.ThawOk : Call → Prop
  | .dbg_thaw_threads_except _ code => 0 < code
  | _ => True

/-- If the call adds a breakpoint, it succeeds. -/
def Call.AddOk : Call → Prop
  | .dbg_add_bpt _ _ _ code => 0 < code
  | _ => True

/-- Everything is as before: the handling flag, the threads, and the breakpoint unless the process is gone. -/
structure LowcndRestored (dm dm' : State) : Prop where
  handling_lowcnds : dm'.handling_lowcnds = dm.handling_lowcnds
  thawed : (ledger (since dm dm')).frozen = []
  added_back : (ledger (since dm dm')).removed = [] ∨ (since dm dm').any Call.exits = true

/-- The calls went as the code expects: every event it received was of the thread, and what it called to restore the
threads and the breakpoint succeeded, the breakpoint again only unless the process is gone. -/
structure LowcndRegular (tid : thid_t) (calls : List Call) : Prop where
  same_thread : ∀ c ∈ calls, c.OfThread tid
  thaws : ∀ c ∈ calls, c.ThawOk
  adds : (∀ c ∈ calls, c.AddOk) ∨ calls.any Call.exits = true

/-! ### What the parts of the code do -/

variable {cb : Callbacks} {env : LowcndEnv} {fuel : Nat} {lc : Lowcnd} {elc_flags : Nat} {dm dm' : State}
  {event event' : Event} {drc : drc_t} {code : Int} {new : List Call}

/-- Calls that neither freeze nor thaw threads, nor remove nor add breakpoints. -/
def Call.Neutral : Call → Prop
  | .dbg_freeze_threads_except _ _ | .dbg_thaw_threads_except _ _ => False
  | .dbg_del_bpt _ _ _ _ _ | .dbg_add_bpt _ _ _ _ => False
  | _ => True

variable {c : Call}

theorem Ledger.post_neutral (h : c.Neutral) (l : Ledger) : l.post c = l := by
  cases c <;> first | rfl | exact h.elim

theorem Ledger.foldl_neutral (h : ∀ c ∈ new, c.Neutral) (l : Ledger) : new.foldl Ledger.post l = l := by
  induction new generalizing l with
  | nil => rfl
  | cons c new ih =>
      rw [List.foldl_cons, Ledger.post_neutral (h c List.mem_cons_self)]
      exact ih (fun c hc => h c (List.mem_cons_of_mem _ hc)) l

/-- Calls around a wait: they restore nothing, and tell which thread the last event is of. -/
structure Waited (tid : thid_t) (new : List Call) (event' : Event) : Prop where
  neutral : ∀ c ∈ new, c.Neutral
  same_thread : (∀ c ∈ new, c.OfThread tid) ↔ event'.tid = tid

theorem Waited.cons {tid : thid_t} (h : Waited tid new event') (hneutral : c.Neutral) (hof : c.OfThread tid) :
    Waited tid (c :: new) event' where
  neutral := List.forall_mem_cons.mpr ⟨hneutral, h.neutral⟩
  same_thread := by rw [List.forall_mem_cons, and_iff_right hof, h.same_thread]

theorem wait_for_event_spec (h : Runs (wait_for_event cb fuel event) dm event' dm') (tid : thid_t) :
    ∃ new, Extends dm new dm' ∧ Waited tid new event' := by
  refine loop_rule (I := fun _ u => ∃ new, Extends dm new u ∧ ∀ c ∈ new, c.Neutral ∧ c.OfThread tid)
    (Q := fun dev u => ∃ new, Extends dm new u ∧ Waited tid new dev) ?_ ⟨[], .refl dm, by simp⟩ h
  rintro dev s r t ⟨new, hext, hnew⟩ hround
  rw [runs_bind] at hround
  obtain ⟨⟨gc, dev'⟩, u, hget, hr⟩ := hround
  obtain ⟨rfl, rfl⟩ := runs_pure.mp hr
  have hext := hext.trans (runs_get_debug_event hget)
  have hneutral : (Call.dbg_get_debug_event TIMEOUT_INFINITY gc dev').Neutral := trivial
  by_cases hgc : gc = .GDE_NO_EVENT
  · rw [if_neg (not_not.mpr hgc)]
    refine ⟨_, hext, List.forall_mem_append.mpr ⟨hnew, ?_⟩⟩
    rw [List.forall_mem_singleton]
    exact ⟨hneutral, fun hne => absurd hgc hne⟩
  · rw [if_pos hgc]
    refine ⟨_, hext, List.forall_mem_append.mpr ⟨fun c hc => (hnew c hc).1, List.forall_mem_singleton.mpr hneutral⟩, ?_⟩
    rw [List.forall_mem_append, List.forall_mem_singleton, and_iff_right fun c hc => (hnew c hc).2]
    exact ⟨fun hof => hof hgc, fun htid _ => htid⟩

theorem Waited.refl (event : Event) : Waited event.tid [] event where
  neutral := by simp
  same_thread := by simp

theorem resume_spec (h : Runs (resume_app_and_get_event cb fuel event) dm (drc, event') dm') :
    ∃ new, Extends dm new dm' ∧ Waited event.tid new event' := by
  unfold resume_app_and_get_event at h
  simp only [runs_bind, runs_ite, runs_pure, dbg_continue_after_event, runs_ask, Prod.mk.injEq] at h
  obtain ⟨drc', u, ⟨rfl, rfl⟩, ⟨-, dev, v, hwait, ⟨-, rfl⟩, rfl⟩ | ⟨-, ⟨-, rfl⟩, rfl⟩⟩ := h
  · obtain ⟨new, hext, hwaited⟩ := wait_for_event_spec hwait event.tid
    exact ⟨_, (Extends.called _ _).trans hext, hwaited.cons trivial trivial⟩
  · exact ⟨_, Extends.called _ _, (Waited.refl event').cons trivial trivial⟩

theorem single_step_spec (h : Runs (dbg_perform_single_step cb fuel event) dm (drc, event') dm') :
    ∃ new, Extends dm new dm' ∧ Waited event.tid new event' := by
  unfold dbg_perform_single_step at h
  simp only [runs_bind, runs_ite, runs_pure, dbg_set_resume_mode, runs_ask, Prod.mk.injEq] at h
  obtain ⟨drc', u, ⟨rfl, rfl⟩, ⟨-, hresume⟩ | ⟨-, ⟨-, rfl⟩, rfl⟩⟩ := h
  · obtain ⟨new, hext, hwaited⟩ := resume_spec hresume
    exact ⟨_, (Extends.called _ _).trans hext, hwaited.cons trivial trivial⟩
  · exact ⟨_, Extends.called _ _, (Waited.refl event').cons trivial trivial⟩

def Lowcnd.key (lc : Lowcnd) : BptKey := ⟨lc.type, lc.ea, lc.bptlen⟩

/-- The calls while the other threads are frozen, and the event after them. -/
inductive StepCalls (lc : Lowcnd) (event : Event) : List Call → Event → Prop where
  | kept (code : Int) (h : ¬0 < code) : StepCalls lc event [.dbg_del_bpt lc.type lc.ea lc.orgbytes lc.bptlen code] event
  | stepped (code : Int) (h : 0 < code) (new : List Call) (event' : Event) (hwait : Waited event.tid new event')
      (added : Int) :
      StepCalls lc event (.dbg_del_bpt lc.type lc.ea lc.orgbytes lc.bptlen code ::
        (new ++ [.dbg_add_bpt lc.type lc.ea lc.bptlen added])) event'

theorem step_without_bpt_spec (h : Runs (step_without_bpt cb fuel lc event) dm (code, event') dm') :
    ∃ new, Extends dm new dm' ∧ StepCalls lc event new event' := by
  unfold step_without_bpt at h
  simp only [runs_bind, runs_ite, runs_pure, dbg_del_bpt, dbg_add_bpt, runs_ask, Prod.mk.injEq] at h
  obtain ⟨deleted, u, ⟨rfl, rfl⟩, ⟨hpos, ⟨drc, dev⟩, v, hstep, added, w, ⟨rfl, rfl⟩, ⟨-, rfl⟩, rfl⟩ |
    ⟨hpos, ⟨-, rfl⟩, rfl⟩⟩ := h
  · obtain ⟨new, hext, hwait⟩ := single_step_spec hstep
    refine ⟨_, ((Extends.called _ _).trans hext).trans (Extends.called v _), ?_⟩
    exact .stepped _ hpos new event' hwait _
  · exact ⟨_, Extends.called _ _, .kept _ hpos⟩

/-- The calls of the difficult case after the program counter is reset. -/
inductive FreezeCalls (lc : Lowcnd) (event : Event) : List Call → Prop where
  | running (code : Int) (h : ¬0 < code) : FreezeCalls lc event [.dbg_freeze_threads_except event.tid code]
  | frozen (code : Int) (h : 0 < code) (new : List Call) (event' : Event) (hstep : StepCalls lc event new event')
      (thawed : Int) :
      FreezeCalls lc event (.dbg_freeze_threads_except event.tid code ::
        (new ++ [.dbg_thaw_threads_except event'.tid thawed]))

theorem freeze_and_step_spec (h : Runs (freeze_and_step cb fuel lc event) dm (code, event') dm') :
    ∃ new, Extends dm new dm' ∧ FreezeCalls lc event new := by
  unfold freeze_and_step at h
  simp only [runs_bind, runs_ite, runs_pure, dbg_freeze_threads_except, dbg_thaw_threads_except, runs_ask,
    Prod.mk.injEq] at h
  obtain ⟨frozen, u, ⟨rfl, rfl⟩, ⟨hpos, ⟨code', dev⟩, v, hstep, thawed, w, ⟨rfl, rfl⟩, ⟨-, rfl⟩, rfl⟩ |
    ⟨hpos, ⟨-, rfl⟩, rfl⟩⟩ := h
  · obtain ⟨new, hext, hcalls⟩ := step_without_bpt_spec hstep
    refine ⟨_, ((Extends.called _ _).trans hext).trans (Extends.called v _), ?_⟩
    exact .frozen _ hpos new event' hcalls _
  · exact ⟨_, Extends.called _ _, .running _ hpos⟩

/-! ### Restored exactly when regular -/

def Settled (calls : List Call) : Prop :=
  (ledger calls).frozen = [] ∧ ((ledger calls).removed = [] ∨ calls.any Call.exits = true)

theorem Call.Neutral.thawOk (h : c.Neutral) : c.ThawOk := by
  cases c <;> trivial

theorem Call.Neutral.addOk (h : c.Neutral) : c.AddOk := by
  cases c <;> trivial

theorem settled_kept {deleted thawed : Int} {frozen : Int} (hfrozen : 0 < frozen) (hdeleted : ¬0 < deleted) :
    Settled (.dbg_freeze_threads_except event.tid frozen ::
        ([.dbg_del_bpt lc.type lc.ea lc.orgbytes lc.bptlen deleted] ++ [.dbg_thaw_threads_except event.tid thawed])) ↔
      0 < thawed := by
  unfold Settled ledger
  by_cases hthawed : 0 < thawed
  · simp [Ledger.post, hfrozen, hdeleted, hthawed]
  · simp [Ledger.post, hfrozen, hdeleted, hthawed]

theorem settled_stepped {frozen deleted added thawed : Int} {tid tid' : thid_t} (hfrozen : 0 < frozen)
    (hdeleted : 0 < deleted) (hnew : ∀ c ∈ new, c.Neutral) :
    Settled (.dbg_freeze_threads_except tid frozen ::
        (.dbg_del_bpt lc.type lc.ea lc.orgbytes lc.bptlen deleted ::
          (new ++ [.dbg_add_bpt lc.type lc.ea lc.bptlen added]) ++ [.dbg_thaw_threads_except tid' thawed])) ↔
      (0 < thawed ∧ tid' = tid) ∧ (0 < added ∨ new.any Call.exits = true) := by
  unfold Settled ledger
  have hfold : ∀ l : Ledger, new.foldl Ledger.post l = l := Ledger.foldl_neutral hnew
  have herase : [tid].erase tid' = [] ↔ tid' = tid := by
    rw [List.erase_cons]
    by_cases h : tid = tid'
    · simp [h]
    · simp [h, Ne.symm h]
  by_cases hthawed : 0 < thawed
  · by_cases hadded : 0 < added
    · simp [Ledger.post, hfrozen, hdeleted, hthawed, hadded, hfold, herase, Call.exits]
    · simp [Ledger.post, hfrozen, hdeleted, hthawed, hadded, hfold, herase, Call.exits]
  · by_cases hadded : 0 < added
    · simp [Ledger.post, hfrozen, hdeleted, hthawed, hadded, hfold]
    · simp [Ledger.post, hfrozen, hdeleted, hthawed, hadded, hfold]

theorem settled_iff_of_freeze (h : FreezeCalls lc event new) : Settled new ↔ LowcndRegular event.tid new := by
  cases h with
  | running code hpos =>
      have hregular : LowcndRegular event.tid [.dbg_freeze_threads_except event.tid code] :=
        ⟨by simp [Call.OfThread], by simp [Call.ThawOk], .inl (by simp [Call.AddOk])⟩
      simp [Settled, ledger, Ledger.post, hpos, hregular]
  | frozen frozen hfrozen inner event' hstep thawed =>
      cases hstep with
      | kept deleted hdeleted =>
          rw [settled_kept hfrozen hdeleted]
          constructor
          · intro hthawed
            exact ⟨by simp [Call.OfThread], by simpa [Call.ThawOk] using hthawed, .inl (by simp [Call.AddOk])⟩
          · intro h
            exact h.thaws (.dbg_thaw_threads_except event.tid thawed) (by simp)
      | stepped deleted hdeleted w _ hwait added =>
          rw [settled_stepped hfrozen hdeleted hwait.neutral, ← hwait.same_thread]
          have hthaws : ∀ c ∈ w, c.ThawOk := fun c hc => (hwait.neutral c hc).thawOk
          have hadds : ∀ c ∈ w, c.AddOk := fun c hc => (hwait.neutral c hc).addOk
          constructor
          · rintro ⟨⟨hthawed, hsame⟩, hadded⟩
            refine ⟨?_, ?_, ?_⟩
            · simpa [Call.OfThread, or_imp, forall_and] using hsame
            · simpa [Call.ThawOk, or_imp, forall_and, hthawed] using hthaws
            apply hadded.imp
            · intro hadded
              simpa [Call.AddOk, or_imp, forall_and, hadded] using hadds
            · intro hgone
              simp [hgone]
          · intro h
            refine ⟨⟨h.thaws (.dbg_thaw_threads_except event'.tid thawed) (by simp), ?_⟩, ?_⟩
            · exact fun c hc => h.same_thread c (by simp [hc])
            · apply h.adds.imp
              · intro hadds
                exact hadds (.dbg_add_bpt lc.type lc.ea lc.bptlen added) (by simp)
              · simp [Call.exits]

/-- Calls that the ledger, the threads of the events and the end of the process do not depend on. -/
structure Call.Plain (c : Call) : Prop where
  neutral : c.Neutral
  of_thread : ∀ tid, c.OfThread tid
  exits : c.exits = false

section
variable {tid : thid_t} {pre post : List Call} (hpre : ∀ c ∈ pre, c.Plain) (hpost : ∀ c ∈ post, c.Plain)
include hpre hpost

theorem forall_plain {p : Call → Prop} (hp : ∀ c : Call, c.Plain → p c) :
    (∀ c ∈ pre ++ new ++ post, p c) ↔ ∀ c ∈ new, p c := by
  rw [List.forall_mem_append, List.forall_mem_append, and_iff_left fun c hc => hp c (hpost c hc),
    and_iff_right fun c hc => hp c (hpre c hc)]

theorem exits_plain : (pre ++ new ++ post).any Call.exits = new.any Call.exits := by
  rw [Bool.eq_iff_iff, ← not_iff_not, Bool.not_eq_true, Bool.not_eq_true, List.any_eq_false, List.any_eq_false]
  exact forall_plain hpre hpost fun c hc => by simp [hc.exits]

theorem settled_plain : Settled (pre ++ new ++ post) ↔ Settled new := by
  unfold Settled
  rw [exits_plain hpre hpost]
  unfold ledger
  rw [List.foldl_append, List.foldl_append, Ledger.foldl_neutral fun c hc => (hpre c hc).neutral,
    Ledger.foldl_neutral fun c hc => (hpost c hc).neutral]

theorem regular_plain : LowcndRegular tid (pre ++ new ++ post) ↔ LowcndRegular tid new := by
  have hsame : (∀ c ∈ pre ++ new ++ post, c.OfThread tid) ↔ ∀ c ∈ new, c.OfThread tid :=
    forall_plain hpre hpost fun c hc => hc.of_thread tid
  have hthaws : (∀ c ∈ pre ++ new ++ post, c.ThawOk) ↔ ∀ c ∈ new, c.ThawOk :=
    forall_plain hpre hpost fun c hc => hc.neutral.thawOk
  have hadds : (∀ c ∈ pre ++ new ++ post, c.AddOk) ↔ ∀ c ∈ new, c.AddOk :=
    forall_plain hpre hpost fun c hc => hc.neutral.addOk
  have hexits : (pre ++ new ++ post).any Call.exits = new.any Call.exits := exits_plain hpre hpost
  constructor
  · intro h
    exact ⟨hsame.mp h.same_thread, hthaws.mp h.thaws, h.adds.imp hadds.mp fun hgone => hexits ▸ hgone⟩
  · intro h
    exact ⟨hsame.mpr h.same_thread, hthaws.mpr h.thaws, h.adds.imp hadds.mpr fun hgone => hexits.symm ▸ hgone⟩

end

theorem settled_iff_nil (tid : thid_t) : Settled [] ↔ LowcndRegular tid [] :=
  iff_of_true ⟨rfl, .inl rfl⟩ ⟨by simp, by simp, .inl (by simp)⟩

theorem reset_pc_spec (h : Runs (reset_pc cb env lc event elc_flags) dm drc dm') :
    ∃ new, Extends dm new dm' ∧ ∀ c ∈ new, c.Plain := by
  unfold reset_pc at h
  rw [runs_ite] at h
  obtain ⟨-, h⟩ | ⟨-, h⟩ := h
  · simp only [dbg_write_register, runs_ask] at h
    obtain ⟨rfl, rfl⟩ := h
    refine ⟨_, Extends.called _ _, ?_⟩
    rw [List.forall_mem_singleton]
    exact ⟨trivial, fun _ => trivial, rfl⟩
  · obtain ⟨rfl, rfl⟩ := runs_pure.mp h
    exact ⟨[], .refl dm', by simp⟩

theorem resume_after_spec {ok : Bool} (h : Runs (resume_after_lowcnd cb event elc_flags) dm ok dm') :
    ∃ new, Extends dm new dm' ∧ ∀ c ∈ new, c.Plain := by
  unfold resume_after_lowcnd at h
  rw [runs_ite] at h
  obtain ⟨-, h⟩ | ⟨-, h⟩ := h
  · obtain ⟨rfl, rfl⟩ := runs_pure.mp h
    exact ⟨[], .refl dm', by simp⟩
  simp only [dbg_continue_after_event, runs_bind, runs_ask, runs_pure] at h
  obtain ⟨drc, u, ⟨rfl, rfl⟩, rfl, rfl⟩ := h
  refine ⟨_, Extends.called _ _, ?_⟩
  rw [List.forall_mem_singleton]
  exact ⟨trivial, fun _ => trivial, rfl⟩

/-- The handling flag is as before, and the calls settle the ledger exactly when they are regular. -/
structure StepsOver (event : Event) (dm : State) (pre mid : List Call) (dm' : State) : Prop where
  handling_lowcnds : dm'.handling_lowcnds = dm.handling_lowcnds
  calls : dm'.calls = dm.calls ++ (pre ++ mid)
  plain : ∀ c ∈ pre, c.Plain
  settled : Settled mid ↔ LowcndRegular event.tid mid

theorem step_over_spec {ok : Bool} (h : Runs (step_over_bpt cb env fuel lc event elc_flags) dm (ok, event') dm') :
    ∃ pre mid, StepsOver event dm pre mid dm' := by
  unfold step_over_bpt push_handling del_handling at h
  simp only [runs_bind, runs_get, runs_require, runs_modify, runs_ite, runs_pure] at h
  obtain ⟨_, _, ⟨rfl, rfl⟩, _, dm, ⟨hfresh, rfl⟩, _, _, rfl, drc, u, hreset, hrest⟩ := h
  obtain ⟨pre, hpre, hplain⟩ := reset_pc_spec hreset
  have hfresh : lc.ea ∉ dm.handling_lowcnds := by simpa using hfresh
  have herase : (dm.handling_lowcnds ++ [lc.ea]).erase lc.ea = dm.handling_lowcnds := by
    rw [List.erase_append_right _ hfresh, List.erase_cons_head, List.append_nil]
  obtain ⟨-, _, _, rfl, -, rfl⟩ | ⟨-, ⟨code, dev⟩, v, hfreeze, _, _, rfl, -, rfl⟩ := hrest
  · refine ⟨pre, [], ?_, ?_, hplain, settled_iff_nil _⟩
    · rw [← herase, hpre.handling_lowcnds]
    · rw [List.append_nil]
      exact hpre.calls
  · obtain ⟨mid, hmid, hcalls⟩ := freeze_and_step_spec hfreeze
    have hext := hpre.trans hmid
    refine ⟨pre, mid, ?_, hext.calls, hplain, settled_iff_of_freeze hcalls⟩
    rw [← herase, hext.handling_lowcnds]

/-- Whenever the code returns, everything is as before exactly when every event it waited for was of the thread, and
the calls that restore the threads and the breakpoint succeeded: the threads are thawed for the thread of the last
event. -/
theorem handle_lowcnd_restores {ok : Bool} (h : Runs (handle_lowcnd cb env fuel lc event elc_flags) dm (ok, event') dm') :
    LowcndRestored dm dm' ↔ LowcndRegular event.tid (since dm dm') := by
  have hsteps : ∃ pre mid post, ∃ u, StepsOver event dm pre mid u ∧ Extends u post dm' ∧ ∀ c ∈ post, c.Plain := by
    unfold handle_lowcnd at h
    rw [runs_bind] at h
    obtain ⟨⟨stepped, dev⟩, u, hover, hrest⟩ := h
    have hsteps : ∃ pre mid, StepsOver event dm pre mid u := by
      rw [runs_ite] at hover
      obtain ⟨-, hover⟩ | ⟨-, hover⟩ := hover
      · exact step_over_spec hover
      · obtain ⟨-, rfl⟩ := runs_pure.mp hover
        exact ⟨[], [], rfl, by simp, by simp, settled_iff_nil _⟩
    obtain ⟨pre, mid, hsteps⟩ := hsteps
    rw [runs_ite] at hrest
    obtain ⟨-, hrest⟩ | ⟨-, hrest⟩ := hrest
    · simp only [runs_bind, runs_pure] at hrest
      obtain ⟨resumed, v, hresume, -, rfl⟩ := hrest
      obtain ⟨post, hpost, hplain⟩ := resume_after_spec hresume
      exact ⟨pre, mid, post, u, hsteps, hpost, hplain⟩
    · obtain ⟨-, rfl⟩ := runs_pure.mp hrest
      exact ⟨pre, mid, [], dm', hsteps, .refl dm', by simp⟩
  obtain ⟨pre, mid, post, u, hsteps, hpost, hplain⟩ := hsteps
  have hsince : since dm dm' = pre ++ mid ++ post := by
    rw [since, hpost.calls, hsteps.calls, List.append_assoc, List.drop_left]
  have hhandling : dm'.handling_lowcnds = dm.handling_lowcnds :=
    hpost.handling_lowcnds.trans hsteps.handling_lowcnds
  have hrestored : LowcndRestored dm dm' ↔ Settled (since dm dm') :=
    ⟨fun h => ⟨h.thawed, h.added_back⟩, fun h => ⟨hhandling, h.1, h.2⟩⟩
  rw [hrestored, hsince, settled_plain hsteps.plain hplain, regular_plain hsteps.plain hplain, hsteps.settled]

def oneBpt : Lowcnd := ⟨0x1000, BPT_SOFT, [0x55], 1⟩

/-- The debugger cannot continue from breakpoints. -/
def stepping : LowcndEnv := ⟨0, .empty, 0⟩

/-- The state after the step of thread 1. -/
def stepped : State where
  handling_lowcnds := []
  appcalls _ := none
  last_event := eventOf 1 .STEP
  has_events := false
  calls := [.dbg_write_register 1 0 ⟨RVT_INT, 0x1000, []⟩ 1, .dbg_freeze_threads_except 1 1,
    .dbg_del_bpt BPT_SOFT 0x1000 [0x55] 1 1, .dbg_set_resume_mode 1 1,
    .dbg_continue_after_event (eventOf 1 .BREAKPOINT) 1, .dbg_get_debug_event (-1) .GDE_ONE_EVENT (eventOf 1 .STEP),
    .dbg_add_bpt BPT_SOFT 0x1000 1 1, .dbg_thaw_threads_except 1 1, .dbg_continue_after_event (eventOf 1 .STEP) 1]

theorem handle_lowcnd_restores_step : LowcndRestored idle stepped := by
  have hruns : Runs (handle_lowcnd (obliging (eventOf 1 .STEP)) stepping 1 oneBpt (eventOf 1 .BREAKPOINT) 0) idle
      (true, eventOf 1 .STEP) stepped := rfl
  refine (handle_lowcnd_restores hruns).mpr ⟨?_, ?_, .inl ?_⟩
  · simp [since, idle, stepped, Call.OfThread, eventOf]
  · simp [since, idle, stepped, Call.ThawOk]
  · simp [since, idle, stepped, Call.AddOk]

/-- Thread 2 starts during the step of thread 1: then the threads are thawed for thread 2. -/
theorem handle_lowcnd_other_thread : ∃ r dm',
    Runs (handle_lowcnd (obliging (eventOf 2 .THREAD_STARTED)) stepping 1 oneBpt (eventOf 1 .BREAKPOINT) 0)
      idle r dm' ∧ ¬LowcndRestored idle dm' := by
  refine ⟨_, _, rfl, ?_⟩
  intro h
  have hthawed := h.thawed
  revert hthawed
  decide

end IdaSdk.Debmod
