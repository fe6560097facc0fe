import IdaSdk.AppcallModel

/-!
What a failed appcall leaves behind, and what the cleanup after a successful one does. A ledger of the calls says which
breakpoint is set and whether the registers of the thread are still changed; the record on the stack of the thread has
what is needed to settle it.
-/

namespace IdaSdk.Debmod
open Effects

/-- The breakpoints that were set and not removed, the registers that were read first, and whether registers were
changed and not restored. -/
structure AppcallLedger where
  bpts : List ea_t
  saved : Option regvals_t
  changed : Bool
deriving DecidableEq

/-- A call that fails changes nothing. The registers are restored when the saved ones are written again. -/
def AppcallLedger.post (env : AppcallEnv) (tid : thid_t) (l : AppcallLedger) : Call → AppcallLedger
  | .dbg_read_registers t clsmask _ values =>
    if t = tid ∧ clsmask = -1 ∧ l.saved = none then { l with saved := some values } else l
  | .dbg_write_register t _ _ drc => if t = tid ∧ drc = DRC_OK then { l with changed := true } else l
  | .write_registers t values ok =>
    if t = tid ∧ ok ∧ l.saved.map (clear_trace_flag env) = some values then { l with changed := false } else l
  | .dbg_add_bpt _ ea _ code => if 0 < code then { l with bpts := ea :: l.bpts } else l
  | .dbg_del_bpt _ ea _ _ code => if 0 < code then { l with bpts := l.bpts.erase ea } else l
  | _ => l

def appcall_ledger (env : AppcallEnv) (tid : thid_t) (calls : List Call) : AppcallLedger :=
  calls.foldl (AppcallLedger.post env tid) ⟨[], none, false⟩

/-- The stack of the thread is as high as before, no breakpoint is left, and no register is changed. -/
structure AppcallUndone (env : AppcallEnv) (tid : thid_t) (dm dm' : State) : Prop where
  depth : (dm'.stack tid).length = (dm.stack tid).length
  bpts : (appcall_ledger env tid (since dm dm')).bpts = []
  registers : (appcall_ledger env tid (since dm dm')).changed = false

/-- The call reports that the process or the thread is gone. -/
def Call.Ends (tid : thid_t) : Call → Prop
  | .dbg_get_debug_event _ gc event => gc ≠ .GDE_NO_EVENT ∧ gc ≠ .GDE_ERROR ∧ event.ends tid = true
  | _ => False

/-- The call asks for a pause, as it is done when the time is up. -/
def Call.Pauses : Call → Prop
  | .dbg_prepare_to_pause_process _ => True
  | _ => False

/-- If the call restores registers, it succeeds. -/
def Call.RestoreOk : Call → Prop
  | .write_registers _ _ ok => ok = true
  | _ => True

/-- If the call removes a breakpoint, it succeeds. -/
def Call.DelOk : Call → Prop
  | .dbg_del_bpt _ _ _ _ code => 0 < code
  | _ => True

def Call.Adds : Call → Prop
  | .dbg_add_bpt _ _ _ code => 0 < code
  | _ => False

/-- The process and the thread are not gone before the time is up. -/
def Stays (tid : thid_t) (calls : List Call) : Prop := (∃ c ∈ calls, c.Ends tid) → ∃ c ∈ calls, c.Pauses

/-- The calls went as the code expects: the process and the thread stayed until the time was up, the registers could be
restored, and the breakpoint, if it was set, could be removed. -/
structure AppcallRegular (tid : thid_t) (calls : List Call) : Prop where
  stays : Stays tid calls
  restores : ∀ c ∈ calls, c.RestoreOk
  removes : (∀ c ∈ calls, c.DelOk) ∨ ∀ c ∈ calls, ¬c.Adds

/-- Calls that neither change registers nor breakpoints. -/
def Call.Idle : Call → Prop
  | .dbg_write_register _ _ _ _ | .write_registers _ _ _ | .dbg_add_bpt _ _ _ _ | .dbg_del_bpt _ _ _ _ _ => False
  | _ => True

/-- Calls that neither restore registers nor remove breakpoints. -/
def Call.Forward : Call → Prop
  | .write_registers _ _ _ | .dbg_del_bpt _ _ _ _ _ => False
  | _ => True

/-- Calls that neither bring an event nor ask for a pause. -/
def Call.Silent : Call → Prop
  | .dbg_get_debug_event _ _ _ | .dbg_prepare_to_pause_process _ => False
  | _ => True

section
variable {c : Call} {tid : thid_t}

theorem Call.Idle.forward (h : c.Idle) : c.Forward := by cases c <;> trivial

theorem Call.Idle.not_adds (h : c.Idle) : ¬c.Adds := by cases c <;> simp_all [Call.Idle, Call.Adds]

theorem Call.Forward.restoreOk (h : c.Forward) : c.RestoreOk := by cases c <;> trivial

theorem Call.Forward.delOk (h : c.Forward) : c.DelOk := by cases c <;> trivial

theorem Call.Silent.not_ends (h : c.Silent) : ¬c.Ends tid := by cases c <;> simp_all [Call.Silent, Call.Ends]

theorem Call.Silent.not_pauses (h : c.Silent) : ¬c.Pauses := by cases c <;> simp_all [Call.Silent, Call.Pauses]

end

variable {cb : Callbacks} {env : AppcallEnv} {tid : thid_t} {a : AppcallArgs} {fuel : Nat} {dm dm' s t u : State}
  {ctx ctx' : CallContext} {new more pre mid post : List Call}

theorem exists_append {p : Call → Prop} (hpost : ∀ c ∈ post, ¬p c) : (∃ c ∈ mid ++ post, p c) ↔ ∃ c ∈ mid, p c := by
  have hnone : ¬∃ c ∈ post, p c := fun ⟨c, hc, hpc⟩ => hpost c hc hpc
  simp only [List.mem_append, or_and_right, exists_or, hnone, or_false]

theorem append_exists {p : Call → Prop} (hpre : ∀ c ∈ pre, ¬p c) : (∃ c ∈ pre ++ mid, p c) ↔ ∃ c ∈ mid, p c := by
  have hnone : ¬∃ c ∈ pre, p c := fun ⟨c, hc, hpc⟩ => hpre c hc hpc
  simp only [List.mem_append, or_and_right, exists_or, hnone, false_or]

theorem stays_append (hpost : ∀ c ∈ post, c.Silent) : Stays tid (mid ++ post) ↔ Stays tid mid := by
  unfold Stays
  rw [exists_append fun c hc => (hpost c hc).not_ends, exists_append fun c hc => (hpost c hc).not_pauses]

theorem append_stays (hpre : ∀ c ∈ pre, c.Silent) : Stays tid (pre ++ mid) ↔ Stays tid mid := by
  unfold Stays
  rw [append_exists fun c hc => (hpre c hc).not_ends, append_exists fun c hc => (hpre c hc).not_pauses]

theorem AppcallLedger.foldl_idle (hidle : ∀ c ∈ more, c.Idle) (l : AppcallLedger) (hsaved : l.saved ≠ none) :
    more.foldl (AppcallLedger.post env tid) l = l := by
  induction more with
  | nil => rfl
  | cons c more ih =>
      have hpost : l.post env tid c = l := by
        have hc := hidle c List.mem_cons_self
        cases c with
        | dbg_read_registers t clsmask drc values => exact if_neg fun h => hsaved h.2.2
        | _ => first | rfl | exact hc.elim
      rw [List.foldl_cons, hpost]
      exact ih fun c hc => hidle c (List.mem_cons_of_mem _ hc)

/-! ### The pending call -/

/-- The calls since `dm`, when the call is pending: its record is the last one of the thread, and knows what there is to
restore. -/
structure Pushed (env : AppcallEnv) (tid : thid_t) (dm : State) (ctx : CallContext) (new : List Call) (u : State) :
    Prop where
  calls : u.calls = dm.calls ++ new
  appcalls : u.appcalls = Function.update dm.appcalls tid (some (ctx :: dm.stack tid))
  bpts : (appcall_ledger env tid new).bpts = [] ∧ (∀ c ∈ new, ¬c.Adds) ∨
    (appcall_ledger env tid new).bpts = [ctx.ctrl_ea] ∧ ∃ c ∈ new, c.Adds
  saved : ctx.regs_spoiled = true → (appcall_ledger env tid new).saved = some ctx.saved_regs
  changed : (appcall_ledger env tid new).changed = ctx.regs_spoiled
  forward : ∀ c ∈ new, c.Forward

/-- The registers have been saved, too. -/
structure Pending (env : AppcallEnv) (tid : thid_t) (dm : State) (ctx : CallContext) (new : List Call) (u : State) : Prop
    extends Pushed env tid dm ctx new u where
  has_saved : (appcall_ledger env tid new).saved = some ctx.saved_regs

theorem ledger_append : appcall_ledger env tid (new ++ more) =
    more.foldl (AppcallLedger.post env tid) (appcall_ledger env tid new) := List.foldl_append

theorem Pending.extend (h : Pending env tid dm ctx new u) (hcalls : t.calls = u.calls ++ more)
    (happcalls : t.appcalls = Function.update dm.appcalls tid (some (ctx' :: dm.stack tid)))
    (hctrl : ctx'.ctrl_ea = ctx.ctrl_ea) (hregs : ctx'.saved_regs = ctx.saved_regs)
    (hforward : ∀ c ∈ more, c.Forward) (hadds : ∀ c ∈ more, ¬c.Adds)
    (hledger : appcall_ledger env tid (new ++ more) =
      { appcall_ledger env tid new with changed := ctx'.regs_spoiled }) :
    Pending env tid dm ctx' (new ++ more) t := by
  have hsaved : (appcall_ledger env tid (new ++ more)).saved = some ctx'.saved_regs := by
    rw [hledger, hregs, ← h.has_saved]
  refine ⟨⟨?_, happcalls, ?_, fun _ => hsaved, ?_, ?_⟩, hsaved⟩
  · rw [hcalls, h.calls, List.append_assoc]
  · rw [hledger, hctrl]
    apply h.bpts.imp
    · exact And.imp_right fun hno => List.forall_mem_append.mpr ⟨hno, hadds⟩
    · refine And.imp_right fun ⟨c, hc, hcadds⟩ => ?_
      exact ⟨c, List.mem_append_left _ hc, hcadds⟩
  · rw [hledger]
  · exact List.forall_mem_append.mpr ⟨h.forward, hforward⟩

theorem Pending.idle (h : Pending env tid dm ctx new u) (hidle : ∀ c ∈ more, c.Idle) (hext : Extends u more t) :
    Pending env tid dm ctx (new ++ more) t := by
  refine h.extend hext.calls (hext.appcalls.trans h.appcalls) rfl rfl (fun c hc => (hidle c hc).forward)
    (fun c hc => (hidle c hc).not_adds) ?_
  have hsaved : (appcall_ledger env tid new).saved ≠ none := by
    rw [h.has_saved]
    exact Option.some_ne_none _
  rw [ledger_append, AppcallLedger.foldl_idle hidle _ hsaved, ← h.changed]

theorem Pushed.stack (h : Pushed env tid dm ctx new u) : u.stack tid = ctx :: dm.stack tid := by
  rw [State.stack, h.appcalls, Function.update_self, Option.getD_some]

variable {r : PUnit}

theorem Pushed.set_top (h : Pushed env tid dm ctx new u) (hset : Runs (set_top tid ctx') u r t) :
    t.calls = u.calls ∧ t.appcalls = Function.update dm.appcalls tid (some (ctx' :: dm.stack tid)) := by
  unfold Debmod.set_top at hset
  rw [runs_modify] at hset
  subst hset
  refine ⟨rfl, ?_⟩
  rw [h.stack, List.tail_cons, h.appcalls, Function.update_idem]

theorem Pushed.no_bpts (h : Pushed env tid dm ctx new u) (hadds : ∀ c ∈ new, ¬c.Adds) :
    (appcall_ledger env tid new).bpts = [] := by
  obtain ⟨hbpts, -⟩ | ⟨-, c, hc, hcadds⟩ := h.bpts
  · exact hbpts
  · exact absurd hcadds (hadds c hc)

theorem Pending.set_ctrl (h : Pending env tid dm ctx new u) (hset : Runs (set_top tid ctx') u r t)
    (hadds : ∀ c ∈ new, ¬c.Adds) (hregs : ctx'.saved_regs = ctx.saved_regs)
    (hspoiled : ctx'.regs_spoiled = ctx.regs_spoiled) : Pending env tid dm ctx' new t := by
  obtain ⟨hcalls, happcalls⟩ := h.set_top hset
  have hsaved : (appcall_ledger env tid new).saved = some ctx'.saved_regs := by rw [hregs, h.has_saved]
  exact ⟨⟨by rw [hcalls, h.calls], happcalls, .inl ⟨h.no_bpts hadds, hadds⟩, fun _ => hsaved, by rw [h.changed, hspoiled],
    h.forward⟩, hsaved⟩

theorem Pending.add_bpt (h : Pending env tid dm ctx new u) (hadds : ∀ c ∈ new, ¬c.Adds) {code : Int}
    (hext : Extends u [.dbg_add_bpt BPT_SOFT ctx.ctrl_ea (-1) code] t) :
    Pending env tid dm ctx (new ++ [.dbg_add_bpt BPT_SOFT ctx.ctrl_ea (-1) code]) t := by
  have hforward : ∀ c ∈ new ++ [Call.dbg_add_bpt BPT_SOFT ctx.ctrl_ea (-1) code], c.Forward :=
    List.forall_mem_append.mpr ⟨h.forward, List.forall_mem_singleton.mpr trivial⟩
  have hcalls := hext.calls
  rw [h.calls, List.append_assoc] at hcalls
  by_cases hcode : 0 < code
  · have hledger : appcall_ledger env tid (new ++ [Call.dbg_add_bpt BPT_SOFT ctx.ctrl_ea (-1) code]) =
        { appcall_ledger env tid new with bpts := ctx.ctrl_ea :: (appcall_ledger env tid new).bpts } := by
      rw [ledger_append]
      exact if_pos hcode
    have hsaved : (appcall_ledger env tid (new ++ [Call.dbg_add_bpt BPT_SOFT ctx.ctrl_ea (-1) code])).saved =
        some ctx.saved_regs := by rw [hledger, ← h.has_saved]
    refine ⟨⟨hcalls, hext.appcalls.trans h.appcalls, .inr ⟨?_, ?_⟩, fun _ => hsaved, ?_, hforward⟩, hsaved⟩
    · rw [hledger, h.no_bpts hadds]
    · exact ⟨_, List.mem_append_right _ (List.mem_singleton_self _), hcode⟩
    · rw [hledger, ← h.changed]
  · have hledger : appcall_ledger env tid (new ++ [Call.dbg_add_bpt BPT_SOFT ctx.ctrl_ea (-1) code]) =
        { appcall_ledger env tid new with changed := ctx.regs_spoiled } := by
      rw [ledger_append, ← h.changed]
      exact if_neg hcode
    exact h.extend hext.calls (hext.appcalls.trans h.appcalls) rfl rfl (List.forall_mem_singleton.mpr trivial)
      (List.forall_mem_singleton.mpr hcode) hledger

/-- Nothing happened but calls that are idle and silent. -/
def Passes (u t : State) : Prop := ∃ more, Extends u more t ∧ (∀ c ∈ more, c.Idle) ∧ ∀ c ∈ more, c.Silent

theorem Passes.refl (u : State) : Passes u u := ⟨[], .refl u, by simp, by simp⟩

variable {c : Call}

theorem Passes.called (hidle : c.Idle) (hsilent : c.Silent) : Passes u (u.called c) :=
  ⟨[c], .called u c, List.forall_mem_singleton.mpr hidle, List.forall_mem_singleton.mpr hsilent⟩

theorem Passes.trans (h : Passes s t) (h' : Passes t u) : Passes s u := by
  obtain ⟨more, hext, hidle, hsilent⟩ := h
  obtain ⟨more', hext', hidle', hsilent'⟩ := h'
  exact ⟨more ++ more', hext.trans hext', List.forall_mem_append.mpr ⟨hidle, hidle'⟩,
    List.forall_mem_append.mpr ⟨hsilent, hsilent'⟩⟩

theorem Passes.head (h : Passes (u.called c) t) (hidle : c.Idle) (hsilent : c.Silent) : Passes u t :=
  (Passes.called hidle hsilent).trans h

theorem Passes.last_event {f : Event → Event} (h : Runs (set_last_event f) u r t) : Passes u t := by
  unfold set_last_event at h
  obtain rfl := runs_modify.mp h
  exact ⟨[], ⟨(List.append_nil _).symm, rfl, rfl⟩, by simp, by simp⟩

/-! ### Up to the start of the application -/

/-- What a part of the code gives: that it failed, or its value. -/
def Part.Gives {α : Type} (failed : Prop) (ok : α → Prop) : Part α → Prop
  | .error _ => failed
  | .ok x => ok x

/-- The call is pending, and no event was waited for. -/
def FailedEarly (env : AppcallEnv) (tid : thid_t) (dm t : State) : Prop :=
  ∃ ctx new, Pushed env tid dm ctx new t ∧ ∀ c ∈ new, c.Silent

theorem save_registers_spec {r : Part (CallContext × ea_t)}
    (hpush : Pushed env tid dm CallContext.default [] u) (h : Runs (save_registers cb env tid) u r t) :
    Part.Gives (FailedEarly env tid dm t)
      (fun x => ∃ new, Pending env tid dm x.1 new t ∧ (∀ c ∈ new, c.Silent) ∧ ∀ c ∈ new, ¬c.Adds) r := by
  unfold save_registers at h
  rw [runs_bind] at h
  obtain ⟨dm₀, v, hget, h⟩ := h
  obtain ⟨rfl, rfl⟩ := runs_get.mp hget
  rw [runs_ite] at h
  obtain ⟨-, h⟩ | ⟨-, h⟩ := h
  · obtain ⟨rfl, rfl⟩ := runs_pure.mp h
    exact ⟨CallContext.default, [], hpush, by simp⟩
  simp only [runs_bind, dbg_read_registers, runs_ask] at h
  obtain ⟨⟨drc, regs⟩, w, ⟨-, rfl⟩, _, x, hset, h⟩ := h
  dsimp only at hset h
  have hread : Pushed env tid dm CallContext.default [.dbg_read_registers tid (-1) drc regs]
      (v.called (.dbg_read_registers tid (-1) drc regs)) := by
    refine ⟨?_, hpush.appcalls, .inl ⟨?_, List.forall_mem_singleton.mpr id⟩, (fun h => by cases h), ?_,
      List.forall_mem_singleton.mpr trivial⟩
    · simp only [State.called, hpush.calls, List.append_nil]
    · simp [appcall_ledger, AppcallLedger.post]
    · simp [appcall_ledger, AppcallLedger.post, CallContext.default]
  obtain ⟨hcalls, happcalls⟩ := hread.set_top hset
  have hpending : Pending env tid dm { CallContext.default with saved_regs := regs }
      [.dbg_read_registers tid (-1) drc regs] x := by
    have hsaved : (appcall_ledger env tid [.dbg_read_registers tid (-1) drc regs]).saved = some regs := by
      simp [appcall_ledger, AppcallLedger.post]
    exact ⟨⟨hcalls.trans hread.calls, happcalls, hread.bpts, fun _ => hsaved, hread.changed, hread.forward⟩, hsaved⟩
  have hsilent : ∀ c ∈ [Call.dbg_read_registers tid (-1) drc regs], c.Silent := List.forall_mem_singleton.mpr trivial
  rw [runs_ite] at h
  obtain ⟨-, h⟩ | ⟨-, h⟩ := h
  · obtain ⟨rfl, rfl⟩ := runs_pure.mp h
    exact ⟨_, _, hpending.toPushed, hsilent⟩
  · obtain ⟨rfl, rfl⟩ := runs_pure.mp h
    split
    · exact ⟨_, _, hpending.toPushed, hsilent⟩
    · exact ⟨_, hpending, hsilent, List.forall_mem_singleton.mpr id⟩

variable {ea : ea_t}

theorem optional_write_passes {image : bytevec_t} {n : Int}
    (h : Runs (if image = [] then pure 0 else dbg_write_memory cb ea image) u n t) : Passes u t := by
  rw [runs_ite] at h
  obtain ⟨-, h⟩ | ⟨-, h⟩ := h
  · obtain ⟨-, rfl⟩ := runs_pure.mp h
    exact .refl t
  · obtain ⟨-, rfl⟩ := runs_ask.mp h
    exact .called trivial trivial

theorem and_not_15_ne_badaddr (x : ea_t) : x &&& ~~~15 ≠ BADADDR := by
  intro h
  have hbit := congrArg (fun y : ea_t => y.toBitVec.getLsbD 0) h
  simp [BADADDR] at hbit

theorem prepare_stack_spec {r : Part Prepared} {org_sp : ea_t} (hpending : Pending env a.tid dm ctx new u)
    (hsilent : ∀ c ∈ new, c.Silent) (hadds : ∀ c ∈ new, ¬c.Adds)
    (h : Runs (prepare_stack cb env a ctx org_sp) u r t) :
    Part.Gives (FailedEarly env a.tid dm t)
      (fun p => (∃ new, Pending env a.tid dm p.ctx new t ∧ ∀ c ∈ new, c.Silent) ∧ p.args_sp ≠ BADADDR) r := by
  unfold prepare_stack at h
  rw [runs_bind] at h
  obtain ⟨_, v, hset, h⟩ := h
  have hpending := hpending.set_ctrl hset hadds rfl rfl
  cases hrelocate : env.relocate a.stkbytes
      (((org_sp - UInt64.ofNat env.addrsize) - UInt64.ofNat (align_up a.stkbytes.length env.addrsize)) &&& ~~~15) with
  | none =>
      rw [hrelocate] at h
      obtain ⟨rfl, rfl⟩ := runs_pure.mp h
      exact ⟨_, _, hpending.toPushed, hsilent⟩
  | some stkbytes =>
      rw [hrelocate] at h
      rw [runs_bind] at h
      obtain ⟨_, w, hset, h⟩ := h
      have hpending := hpending.set_ctrl hset hadds rfl rfl
      rw [runs_ite] at h
      obtain ⟨-, h⟩ | ⟨-, h⟩ := h
      · obtain ⟨rfl, rfl⟩ := runs_pure.mp h
        exact ⟨_, _, hpending.toPushed, hsilent⟩
      generalize finalize_appcall_stack env _ _ _ = fin at h
      obtain ⟨delta, call_regs, stk⟩ := fin
      rw [runs_bind] at h
      obtain ⟨_, x, hset, h⟩ := h
      have hpending := hpending.set_ctrl hset hadds rfl rfl
      rw [runs_bind] at h
      obtain ⟨written, y, hwrite, h⟩ := h
      obtain ⟨more, hext, hidle, hmore⟩ := optional_write_passes hwrite
      have hpending := hpending.idle hidle hext
      have hsilent := List.forall_mem_append.mpr ⟨hsilent, hmore⟩
      rw [runs_ite] at h
      obtain ⟨-, h⟩ | ⟨-, h⟩ := h
      · obtain ⟨rfl, rfl⟩ := runs_pure.mp h
        exact ⟨_, _, hpending.toPushed, hsilent⟩
      simp only [runs_bind, dbg_add_bpt, runs_ask] at h
      obtain ⟨code, z, ⟨-, rfl⟩, h⟩ := h
      obtain ⟨rfl, rfl⟩ := runs_pure.mp h
      have hadds : ∀ c ∈ new ++ more, ¬c.Adds :=
        List.forall_mem_append.mpr ⟨hadds, fun c hc => (hidle c hc).not_adds⟩
      refine ⟨⟨_, hpending.add_bpt hadds (Extends.called y _), ?_⟩, and_not_15_ne_badaddr _⟩
      exact List.forall_mem_append.mpr ⟨hsilent, List.forall_mem_singleton.mpr trivial⟩

theorem copy_arguments_keeps {args_sp : ea_t} {regargs : List RegObj} {rv : RegVal} {regs : regval_map_t}
    {r : Part (RegVal × regval_map_t)} (h : Runs (copy_arguments env args_sp regargs rv regs) u r t) : t = u := by
  induction regargs generalizing rv regs with
  | nil => exact (runs_pure.mp h).2
  | cons ri regargs ih =>
      rw [copy_arguments, runs_ite] at h
      obtain ⟨-, h⟩ | ⟨-, h⟩ := h
      · exact (runs_pure.mp h).2
      cases hinfo : env.ri_vec[ri.regidx]? with
      | none =>
          rw [hinfo] at h
          exact absurd h not_runs_hang
      | some rif =>
          rw [hinfo] at h
          exact ih h

variable {drc : drc_t}

theorem Pending.write_register (h : Pending env tid dm ctx new u) {idx : Nat} {v : RegVal}
    (hext : Extends u [.dbg_write_register tid idx v drc] t) (hdrc : drc ≠ DRC_OK) :
    Pending env tid dm ctx (new ++ [.dbg_write_register tid idx v drc]) t := by
  refine h.extend hext.calls (hext.appcalls.trans h.appcalls) rfl rfl (List.forall_mem_singleton.mpr trivial)
    (List.forall_mem_singleton.mpr id) ?_
  rw [ledger_append, ← h.changed]
  exact if_neg fun hand => hdrc hand.2

theorem Pending.change_register (h : Pending env tid dm ctx new u) {idx : Nat} {v : RegVal}
    (hext : Extends u [.dbg_write_register tid idx v DRC_OK] s)
    (hset : Runs (set_top tid { ctx with regs_spoiled := true }) s r t) :
    Pending env tid dm { ctx with regs_spoiled := true } (new ++ [.dbg_write_register tid idx v DRC_OK]) t := by
  have hs : s.stack tid = u.stack tid := by rw [State.stack, State.stack, hext.appcalls]
  unfold Debmod.set_top at hset
  rw [runs_modify] at hset
  subst hset
  refine h.extend hext.calls ?_ rfl rfl (List.forall_mem_singleton.mpr trivial) (List.forall_mem_singleton.mpr id) ?_
  · rw [hs, h.stack, List.tail_cons, hext.appcalls, h.appcalls, Function.update_idem]
  · rw [ledger_append]
    exact if_pos ⟨rfl, rfl⟩

theorem change_registers_spec {regs : List (Nat × RegVal)} {r : Part CallContext}
    (hpending : Pending env tid dm ctx new u) (hsilent : ∀ c ∈ new, c.Silent)
    (h : Runs (change_registers cb tid regs ctx) u r t) :
    Part.Gives (FailedEarly env tid dm t)
      (fun ctx' => (∃ new, Pending env tid dm ctx' new t ∧ ∀ c ∈ new, c.Silent) ∧
        (regs ≠ [] ∨ ctx.regs_spoiled = true → ctx'.regs_spoiled = true)) r := by
  induction regs generalizing ctx new u with
  | nil =>
      obtain ⟨rfl, rfl⟩ := runs_pure.mp h
      exact ⟨⟨new, hpending, hsilent⟩, fun h => h.resolve_left fun hne => hne rfl⟩
  | cons e regs ih =>
      obtain ⟨idx, v⟩ := e
      simp only [change_registers, runs_bind, dbg_write_register, runs_ask] at h
      obtain ⟨drc, w, ⟨-, rfl⟩, h⟩ := h
      have hsilent : ∀ c ∈ new ++ [Call.dbg_write_register tid idx v drc], c.Silent :=
        List.forall_mem_append.mpr ⟨hsilent, List.forall_mem_singleton.mpr trivial⟩
      rw [runs_ite] at h
      obtain ⟨hdrc, h⟩ | ⟨hdrc, h⟩ := h
      · obtain ⟨rfl, rfl⟩ := runs_pure.mp h
        exact ⟨_, _, (hpending.write_register (.called u _) hdrc).toPushed, hsilent⟩
      obtain rfl := not_not.mp hdrc
      rw [runs_bind] at h
      obtain ⟨_, x, hset, h⟩ := h
      have hrest := ih (hpending.change_register (.called u _) hset) hsilent h
      cases r with
      | error err => exact hrest
      | ok ctx' => exact ⟨hrest.1, fun _ => hrest.2 (.inr rfl)⟩

theorem set_entries_ne_nil (regs : regval_map_t) (idx : Nat) (v : RegVal) : (regs.set idx v).entries ≠ [] := by
  have hfind : ((regs.erase idx).find idx).isSome = false := by
    rw [Table.find_erase]
    simp
  rw [regval_map_t.set, Table.insertNew, if_neg (by simp [hfind])]
  simp

variable {p : Prepared}

theorem setup_registers_spec {r : Part CallContext} (hpending : Pending env a.tid dm p.ctx new u)
    (hsilent : ∀ c ∈ new, c.Silent) (h : Runs (setup_registers cb env a p) u r t) :
    Part.Gives (FailedEarly env a.tid dm t)
      (fun ctx => (∃ new, Pending env a.tid dm ctx new t ∧ ∀ c ∈ new, c.Silent) ∧ ctx.regs_spoiled = true) r := by
  unfold setup_registers at h
  rw [runs_bind] at h
  obtain ⟨r', v, hcopy, h⟩ := h
  obtain rfl := copy_arguments_keeps hcopy
  cases r' with
  | error err =>
      obtain ⟨rfl, rfl⟩ := runs_pure.mp h
      exact ⟨_, _, hpending.toPushed, hsilent⟩
  | ok x =>
      have hrest := change_registers_spec hpending hsilent h
      cases r with
      | error err => exact hrest
      | ok ctx => exact ⟨hrest.1, hrest.2 (.inl (set_entries_ne_nil _ _ _))⟩

/-! ### While the application runs -/

variable {b : Bool}

theorem at_return_passes (h : Runs (at_return cb env tid ea) u b t) : Passes u t := by
  simp only [at_return, runs_bind, dbg_read_registers, runs_ask, runs_ite] at h
  obtain ⟨r, v, ⟨-, rfl⟩, ⟨-, h⟩ | ⟨-, n, w, hread, h⟩⟩ := h
  · obtain ⟨-, rfl⟩ := runs_pure.mp h
    exact .called trivial trivial
  simp only [dbg_read_memory, runs_ask] at hread h
  obtain ⟨-, rfl⟩ := hread
  obtain ⟨-, h⟩ | ⟨-, m, x, ⟨-, rfl⟩, h⟩ := h
  · obtain ⟨-, rfl⟩ := runs_pure.mp h
    exact Passes.head (.called trivial trivial) trivial trivial
  · obtain ⟨-, rfl⟩ := runs_pure.mp h
    exact Passes.head (Passes.head (.called trivial trivial) trivial trivial) trivial trivial

theorem should_stop_passes {event : Event}
    (h : Runs (should_stop_appcall cb env tid event ea) u b t) : Passes u t := by
  rw [should_stop_appcall, runs_ite] at h
  obtain ⟨-, h⟩ | ⟨-, h⟩ := h
  · obtain ⟨-, rfl⟩ := runs_pure.mp h
    exact .refl t
  cases harch : env.arch with
  | pc x86 =>
      rw [harch] at h
      exact at_return_passes h
  | _ =>
      rw [harch] at h
      obtain ⟨-, rfl⟩ := runs_pure.mp h
      exact .refl t

variable {ctrl_ea : ea_t} {w : Wait}

theorem handle_event_spec {event : Event} {r : Wait ⊕ WaitEnd}
    (h : Runs (w.handle_event cb env tid ctrl_ea event) u r t) :
    Passes u t ∧ r.elim (fun w' => w'.timed_out = w.timed_out) (fun e => e.gone = false) := by
  unfold Wait.handle_event at h
  rw [runs_ite] at h
  obtain ⟨-, h⟩ | ⟨-, h⟩ := h
  · simp only [runs_bind, send_debug_event_to_ida, runs_ask] at h
    obtain ⟨code, v, ⟨-, rfl⟩, _, x, hlast, h⟩ := h
    obtain ⟨rfl, rfl⟩ := runs_pure.mp h
    exact ⟨(Passes.last_event hlast).head trivial trivial, rfl⟩
  · simp only [runs_bind] at h
    obtain ⟨stop, v, hstop, h⟩ := h
    have hstop := should_stop_passes hstop
    rw [runs_ite] at h
    obtain ⟨-, h⟩ | ⟨-, h⟩ := h
    · rw [runs_bind] at h
      obtain ⟨_, x, hlast, h⟩ := h
      obtain ⟨rfl, rfl⟩ := runs_pure.mp h
      exact ⟨hstop.trans (.last_event hlast), rfl⟩
    · rw [runs_ite] at h
      obtain ⟨-, h⟩ | ⟨-, h⟩ := h
      · rw [runs_bind] at h
        obtain ⟨_, x, hlast, h⟩ := h
        obtain ⟨rfl, rfl⟩ := runs_pure.mp h
        exact ⟨hstop.trans (.last_event hlast), rfl⟩
      · simp only [runs_bind, send_debug_event_to_ida, dbg_continue_after_event, runs_ask, runs_ite] at h
        obtain ⟨code, x, ⟨-, rfl⟩, ⟨-, h⟩ | ⟨-, drc, y, ⟨-, rfl⟩, h⟩⟩ := h
        · obtain ⟨rfl, rfl⟩ := runs_pure.mp h
          exact ⟨hstop.trans (.called trivial trivial), rfl⟩
        · obtain ⟨rfl, rfl⟩ := runs_pure.mp h
          exact ⟨hstop.trans (Passes.head (.called trivial trivial) trivial trivial), rfl⟩

/-- The loop goes on: nobody has gone, and the time is up if a pause was asked for. -/
def Waiting (tid : thid_t) (s : State) (timed_out : Bool) (t : State) : Prop :=
  ∃ more, Extends s more t ∧ (∀ c ∈ more, c.Idle) ∧ (∀ c ∈ more, ¬c.Ends tid) ∧
    (timed_out = true ↔ ∃ c ∈ more, c.Pauses)

/-- The loop is over, and `stays` says whether it ended in time. -/
def WaitOver (tid : thid_t) (s : State) (stays : Prop) (t : State) : Prop :=
  ∃ more, Extends s more t ∧ (∀ c ∈ more, c.Idle) ∧ (Stays tid more ↔ stays)

theorem Waiting.passes (h : Waiting tid s b t) (hpasses : Passes t u) : Waiting tid s b u := by
  obtain ⟨more, hext, hidle, hends, htime⟩ := h
  obtain ⟨more', hext', hidle', hsilent⟩ := hpasses
  refine ⟨more ++ more', hext.trans hext', List.forall_mem_append.mpr ⟨hidle, hidle'⟩,
    List.forall_mem_append.mpr ⟨hends, fun c hc => (hsilent c hc).not_ends⟩, ?_⟩
  rw [htime, exists_append fun c hc => (hsilent c hc).not_pauses]

theorem Waiting.over (h : Waiting tid s b t) : WaitOver tid s True t := by
  obtain ⟨more, hext, hidle, hends, -⟩ := h
  exact ⟨more, hext, hidle, iff_of_true (fun ⟨c, hc, hcends⟩ => absurd hcends (hends c hc)) trivial⟩

theorem WaitOver.passes {P : Prop} (h : WaitOver tid s P t) (hpasses : Passes t u) : WaitOver tid s P u := by
  obtain ⟨more, hext, hidle, hstays⟩ := h
  obtain ⟨more', hext', hidle', hsilent⟩ := hpasses
  refine ⟨more ++ more', hext.trans hext', List.forall_mem_append.mpr ⟨hidle, hidle'⟩, ?_⟩
  rw [stays_append hsilent, hstays]

theorem Waiting.call (h : Waiting tid s b t) (hext : Extends t [c] u) (hidle : c.Idle)
    (hends : ¬c.Ends tid) {b' : Bool} (hb : b' = true ↔ b = true ∨ c.Pauses) : Waiting tid s b' u := by
  obtain ⟨more, hmore, hidles, hnone, htime⟩ := h
  refine ⟨more ++ [c], hmore.trans hext, List.forall_mem_append.mpr ⟨hidles, List.forall_mem_singleton.mpr hidle⟩,
    List.forall_mem_append.mpr ⟨hnone, List.forall_mem_singleton.mpr hends⟩, ?_⟩
  simp only [hb, htime, List.mem_append, List.mem_singleton, or_and_right, exists_or, exists_eq_left]

theorem Waiting.other (h : Waiting tid s b t) (hext : Extends t [c] u) (hidle : c.Idle)
    (hends : ¬c.Ends tid) (hpauses : ¬c.Pauses) : Waiting tid s b u :=
  h.call hext hidle hends (by simp [hpauses])

theorem Waiting.ends (h : Waiting tid s b t) (hext : Extends t [c] u) (hidle : c.Idle)
    (hends : c.Ends tid) (hpauses : ¬c.Pauses) : WaitOver tid s (b = true) u := by
  obtain ⟨more, hmore, hidles, -, htime⟩ := h
  refine ⟨more ++ [c], hmore.trans hext, List.forall_mem_append.mpr ⟨hidles, List.forall_mem_singleton.mpr hidle⟩, ?_⟩
  have hlast : ∃ c' ∈ more ++ [c], c'.Ends tid := ⟨c, List.mem_append_right _ (List.mem_singleton_self c), hends⟩
  unfold Stays
  rw [forall_prop_of_true hlast, htime]
  simp only [List.mem_append, List.mem_singleton, or_and_right, exists_or, exists_eq_left, hpauses, or_false]

theorem update_timeout_spec {w' : Wait} {goes_on : Bool} (hwait : Waiting tid s w.timed_out u)
    (h : Runs (w.update_timeout cb) u (w', goes_on) t) : Waiting tid s w'.timed_out t := by
  unfold Wait.update_timeout at h
  rw [runs_ite] at h
  obtain ⟨-, h⟩ | ⟨-, h⟩ := h
  · obtain ⟨heq, rfl⟩ := runs_pure.mp h
    obtain ⟨rfl, -⟩ := Prod.mk.inj heq
    exact hwait
  rw [runs_ite] at h
  obtain ⟨-, h⟩ | ⟨-, h⟩ := h
  · obtain ⟨heq, rfl⟩ := runs_pure.mp h
    obtain ⟨rfl, -⟩ := Prod.mk.inj heq
    exact hwait
  rw [runs_bind] at h
  obtain ⟨dm₀, v, hget, h⟩ := h
  obtain ⟨rfl, rfl⟩ := runs_get.mp hget
  dsimp only at h
  rw [runs_ite] at h
  obtain ⟨-, h⟩ | ⟨-, h⟩ := h
  · simp only [runs_bind, dbg_prepare_to_pause_process, runs_ask] at h
    obtain ⟨drc, x, ⟨-, rfl⟩, h⟩ := h
    obtain ⟨heq, rfl⟩ := runs_pure.mp h
    obtain ⟨rfl, -⟩ := Prod.mk.inj heq
    refine hwait.call (.called v _) ?_ ?_ ?_
    · trivial
    · exact id
    · simp [Call.Pauses]
  · obtain ⟨heq, rfl⟩ := runs_pure.mp h
    obtain ⟨rfl, -⟩ := Prod.mk.inj heq
    exact hwait

theorem err_eq_none : w.err = none ↔ w.timed_out = false := by
  unfold Wait.err
  cases w.timed_out <;> simp

theorem round_spec {r : Wait ⊕ WaitEnd} (hwait : Waiting tid s w.timed_out u)
    (h : Runs (w.round cb env tid ctrl_ea) u r t) :
    r.elim (fun w' => Waiting tid s w'.timed_out t)
      (fun e => WaitOver tid s (¬(e.gone = true ∧ e.err = none)) t) := by
  have hover : ∀ e : WaitEnd, e.gone = false → ∀ {b t}, Waiting tid s b t →
      WaitOver tid s (¬(e.gone = true ∧ e.err = none)) t := by
    intro e he b t h
    have hgone : ¬(e.gone = true ∧ e.err = none) := by simp [he]
    simpa only [hgone, not_false_eq_true] using h.over
  unfold Wait.round at h
  rw [runs_bind] at h
  obtain ⟨⟨w', goes_on⟩, v, htime, h⟩ := h
  have hwait := update_timeout_spec hwait htime
  dsimp only at h
  rw [runs_ite] at h
  obtain ⟨-, h⟩ | ⟨-, h⟩ := h
  · rw [runs_bind] at h
    obtain ⟨⟨gc, event⟩, x, hget, h⟩ := h
    have hext := runs_get_debug_event hget
    rw [runs_ite] at h
    obtain ⟨hgc, h⟩ | ⟨hgc, h⟩ := h
    · obtain ⟨rfl, rfl⟩ := runs_pure.mp h
      exact hwait.other hext trivial (fun hends => hends.1 hgc) id
    rw [runs_ite] at h
    obtain ⟨herror, h⟩ | ⟨herror, h⟩ := h
    · obtain ⟨rfl, rfl⟩ := runs_pure.mp h
      exact hover _ rfl (hwait.other hext trivial (fun hends => hends.2.1 herror) id)
    rw [runs_ite] at h
    obtain ⟨hends, h⟩ | ⟨hends, h⟩ := h
    · simp only [runs_bind, send_debug_event_to_ida, runs_ask] at h
      obtain ⟨code, y, ⟨-, rfl⟩, h⟩ := h
      obtain ⟨rfl, rfl⟩ := runs_pure.mp h
      have hended := hwait.ends hext trivial ⟨hgc, herror, hends⟩ id
      simp only [Sum.elim_inr, true_and, err_eq_none, Bool.not_eq_false]
      exact hended.passes (.called trivial trivial)
    · have hwait := hwait.other hext trivial (fun hend => hends hend.2.2) id
      obtain ⟨hpasses, hr⟩ := handle_event_spec h
      have hwait := hwait.passes hpasses
      cases r with
      | inl w'' =>
          rw [Sum.elim_inl] at hr ⊢
          rwa [hr]
      | inr e => exact hover e hr hwait
  · obtain ⟨rfl, rfl⟩ := runs_pure.mp h
    exact hover _ rfl hwait

theorem wait_appcall_spec {e : WaitEnd} (h : Runs (wait_appcall cb env fuel a ctrl_ea) u e t) :
    WaitOver a.tid u (¬(e.gone = true ∧ e.err = none)) t := by
  unfold wait_appcall at h
  rw [runs_bind] at h
  obtain ⟨w, v, hbegin, h⟩ := h
  have hstart : Waiting a.tid u w.timed_out v := by
    unfold Wait.begin at hbegin
    rw [runs_ite] at hbegin
    have hnone : Waiting a.tid u false u := ⟨[], .refl u, by simp, by simp, by simp⟩
    obtain ⟨-, hbegin⟩ | ⟨-, hbegin⟩ := hbegin
    · rw [runs_bind] at hbegin
      obtain ⟨dm₀, x, hget, hbegin⟩ := hbegin
      obtain ⟨rfl, rfl⟩ := runs_get.mp hget
      obtain ⟨rfl, rfl⟩ := runs_pure.mp hbegin
      exact hnone
    · obtain ⟨rfl, rfl⟩ := runs_pure.mp hbegin
      exact hnone
  refine loop_rule (I := fun w v => Waiting a.tid u w.timed_out v)
    (Q := fun e v => WaitOver a.tid u (¬(e.gone = true ∧ e.err = none)) v) ?_ hstart h
  intro w v r t hinv hround
  exact round_spec hinv hround

/-! ### The body -/

/-- The call is pending, and `stays` says whether the process and the thread stayed until the time was up. -/
def Awaited (env : AppcallEnv) (tid : thid_t) (dm : State) (ctx : CallContext) (stays : Prop) (t : State) : Prop :=
  ∃ new, Pending env tid dm ctx new t ∧ (Stays tid new ↔ stays)

theorem Awaited.passes {P : Prop} (h : Awaited env tid dm ctx P t) (hpasses : Passes t u) :
    Awaited env tid dm ctx P u := by
  obtain ⟨new, hpending, hstays⟩ := h
  obtain ⟨more, hext, hidle, hsilent⟩ := hpasses
  exact ⟨new ++ more, hpending.idle hidle hext, by rw [stays_append hsilent, hstays]⟩

/-- How the body leaves the state: the call is pending whatever happened, and it succeeded only if the registers were
changed. -/
def Finished (env : AppcallEnv) (a : AppcallArgs) (dm : State) (e : AppcallEnd) (t : State) : Prop :=
  ∃ ctx new, Pushed env a.tid dm ctx new t ∧ (Stays a.tid new ↔ ¬(e.gone = true ∧ e.err = none)) ∧
    (e.err = none → e.gone = false → ctx.regs_spoiled = true ∧ e.args_sp ≠ BADADDR)

theorem stays_of_silent (h : ∀ c ∈ new, c.Silent) : Stays tid new :=
  fun ⟨c, hc, hends⟩ => absurd hends (h c hc).not_ends

theorem FailedEarly.finished (h : FailedEarly env a.tid dm t) (err : AppcallErr) :
    Finished env a dm (.failed a err) t := by
  obtain ⟨ctx, new, hpushed, hsilent⟩ := h
  refine ⟨ctx, new, hpushed, iff_of_true (stays_of_silent hsilent) ?_, fun hnone => nomatch hnone⟩
  rintro ⟨-, hnone⟩
  cases hnone

variable {e : AppcallEnd}

theorem Awaited.finished (h : Awaited env a.tid dm ctx (¬(e.gone = true ∧ e.err = none)) t)
    (hspoiled : ctx.regs_spoiled = true) (hsp : e.err = none → e.gone = false → e.args_sp ≠ BADADDR) :
    Finished env a dm e t := by
  obtain ⟨new, hpending, hstays⟩ := h
  exact ⟨ctx, new, hpending.toPushed, hstays, fun hnone hgone => ⟨hspoiled, hsp hnone hgone⟩⟩

theorem continue_passes {handled : Bool} (h : Runs (continue_after_last_event cb handled) u b t) : Passes u t := by
  simp only [continue_after_last_event, runs_bind, runs_get, dbg_continue_after_event, runs_ask] at h
  obtain ⟨_, v, hlast, _, _, ⟨rfl, rfl⟩, _, _, ⟨-, rfl⟩, h⟩ := h
  obtain ⟨-, rfl⟩ := runs_pure.mp h
  exact (Passes.last_event hlast).trans (.called trivial trivial)

theorem write_arguments_passes {r : Part Unit} (h : Runs (write_arguments cb a p) u r t) :
    Passes u t := by
  simp only [write_arguments, runs_ite, runs_bind, dbg_write_memory, runs_ask] at h
  obtain ⟨-, ⟨-, h⟩ | ⟨-, n, v, ⟨-, rfl⟩, h⟩⟩ | ⟨-, h⟩ := h
  · obtain ⟨-, rfl⟩ := runs_pure.mp h
    exact .refl t
  · obtain ⟨-, rfl⟩ := runs_pure.mp h
    exact .called trivial trivial
  · obtain ⟨-, rfl⟩ := runs_pure.mp h
    exact .refl t

theorem read_result_passes {r : Part (Option (List RegObj))} (h : Runs (read_result cb env a) u r t) : Passes u t := by
  unfold read_result at h
  split at h
  · obtain ⟨-, rfl⟩ := runs_pure.mp h
    exact .refl t
  · obtain ⟨-, rfl⟩ := runs_pure.mp h
    exact .refl t
  · simp only [runs_bind, dbg_read_registers, runs_ask] at h
    obtain ⟨n, v, ⟨-, rfl⟩, h⟩ := h
    obtain ⟨-, rfl⟩ := runs_pure.mp h
    exact .called trivial trivial

theorem run_appcall_spec (hpending : Pending env a.tid dm ctx new u)
    (hsilent : ∀ c ∈ new, c.Silent) (hspoiled : ctx.regs_spoiled = true) (hsp : p.args_sp ≠ BADADDR)
    (h : Runs (run_appcall cb env fuel a p ctx) u e t) : Finished env a dm e t := by
  have hstays : Stays a.tid new := stays_of_silent hsilent
  unfold run_appcall at h
  rw [runs_ite] at h
  obtain ⟨-, h⟩ | ⟨-, h⟩ := h
  · obtain ⟨rfl, rfl⟩ := runs_pure.mp h
    refine ⟨ctx, new, hpending.toPushed, iff_of_true hstays ?_, fun _ _ => ⟨hspoiled, hsp⟩⟩
    rintro ⟨hgone, -⟩
    cases hgone
  · rw [runs_bind] at h
    obtain ⟨resumed, v, hresume, h⟩ := h
    obtain ⟨more, hext, hidle, hmore⟩ := continue_passes hresume
    have hpending := hpending.idle hidle hext
    have hsilent := List.forall_mem_append.mpr ⟨hsilent, hmore⟩
    rw [runs_ite] at h
    obtain ⟨-, h⟩ | ⟨-, h⟩ := h
    · rw [runs_bind] at h
      obtain ⟨w, x, hwait, h⟩ := h
      obtain ⟨more', hext', hidle', hover⟩ := wait_appcall_spec hwait
      have hawaited : Awaited env a.tid dm ctx (¬(w.gone = true ∧ w.err = none)) x :=
        ⟨_, hpending.idle hidle' hext', by rw [append_stays hsilent, hover]⟩
      rw [runs_ite] at h
      obtain ⟨hended, h⟩ | ⟨hended, h⟩ := h
      · obtain ⟨rfl, rfl⟩ := runs_pure.mp h
        refine hawaited.finished hspoiled fun hnone hgone => ?_
        simp_all
      obtain ⟨herr, hgone⟩ : w.err = none ∧ ¬w.gone = true := by simpa using hended
      have hin : ∀ e : AppcallEnd, e.gone = false → (¬(w.gone = true ∧ w.err = none)) =
          ¬(e.gone = true ∧ e.err = none) := by
        intro e he
        simp [hgone, he]
      rw [runs_bind] at h
      obtain ⟨r, y, hargs, h⟩ := h
      have hawaited := hawaited.passes (write_arguments_passes hargs)
      cases r with
      | error err =>
          obtain ⟨rfl, rfl⟩ := runs_pure.mp h
          rw [hin ⟨some err, false, BADADDR, w.event, a.retregs⟩ rfl] at hawaited
          exact hawaited.finished hspoiled fun hnone => nomatch hnone
      | ok _ =>
          rw [runs_bind] at h
          obtain ⟨r, z, hresult, h⟩ := h
          have hawaited := hawaited.passes (read_result_passes hresult)
          cases r with
          | error err =>
              obtain ⟨rfl, rfl⟩ := runs_pure.mp h
              rw [hin ⟨some err, false, BADADDR, w.event, a.retregs⟩ rfl] at hawaited
              exact hawaited.finished hspoiled fun hnone => nomatch hnone
          | ok retregs =>
              obtain ⟨rfl, rfl⟩ := runs_pure.mp h
              rw [hin ⟨none, false, p.args_sp, w.event, retregs⟩ rfl] at hawaited
              exact hawaited.finished hspoiled fun _ _ => hsp
    · obtain ⟨rfl, rfl⟩ := runs_pure.mp h
      exact FailedEarly.finished ⟨_, _, hpending.toPushed, hsilent⟩ .E_RESUME

theorem appcall_body_spec (hpush : Pushed env a.tid dm CallContext.default [] u)
    (h : Runs (appcall_body cb env fuel a) u e t) : Finished env a dm e t := by
  unfold appcall_body at h
  rw [runs_bind] at h
  obtain ⟨r, v, hsave, h⟩ := h
  have hsaved := save_registers_spec hpush hsave
  cases r with
  | error err =>
      obtain ⟨rfl, rfl⟩ := runs_pure.mp h
      exact FailedEarly.finished hsaved err
  | ok x =>
      obtain ⟨ctx, org_sp⟩ := x
      obtain ⟨new, hpending, hsilent, hadds⟩ := hsaved
      dsimp only at h
      rw [runs_bind] at h
      obtain ⟨r, w, hprepare, h⟩ := h
      have hprepared := prepare_stack_spec hpending hsilent hadds hprepare
      cases r with
      | error err =>
          obtain ⟨rfl, rfl⟩ := runs_pure.mp h
          exact FailedEarly.finished hprepared err
      | ok p =>
          obtain ⟨⟨new, hpending, hsilent⟩, hsp⟩ := hprepared
          dsimp only at h
          rw [runs_bind] at h
          obtain ⟨r, x, hsetup, h⟩ := h
          have hset := setup_registers_spec hpending hsilent hsetup
          cases r with
          | error err =>
              obtain ⟨rfl, rfl⟩ := runs_pure.mp h
              exact FailedEarly.finished hset err
          | ok ctx =>
              obtain ⟨⟨new, hpending, hsilent⟩, hspoiled⟩ := hset
              exact run_appcall_spec hpending hsilent hspoiled hsp h

/-! ### The cleanup -/

/-- What the cleanup of a call does: the breakpoint is removed, and the record goes unless the registers cannot be
restored. -/
inductive CleanedUp (env : AppcallEnv) (tid : thid_t) (ctx : CallContext) (calls : List CallContext) (u t : State) :
    List Call → Prop where
  | popped (code : Int) (hspoiled : ctx.regs_spoiled = false)
      (happcalls : t.appcalls = Function.update u.appcalls tid (if calls.isEmpty then none else some calls)) :
      CleanedUp env tid ctx calls u t [.dbg_del_bpt BPT_SOFT ctx.ctrl_ea env.bpt_code env.bpt_code.length code]
  | restored (code : Int) (hspoiled : ctx.regs_spoiled = true)
      (happcalls : t.appcalls = Function.update u.appcalls tid (if calls.isEmpty then none else some calls)) :
      CleanedUp env tid ctx calls u t [.dbg_del_bpt BPT_SOFT ctx.ctrl_ea env.bpt_code env.bpt_code.length code,
        .write_registers tid (clear_trace_flag env ctx.saved_regs) true]
  | stuck (code : Int) (hspoiled : ctx.regs_spoiled = true)
      (happcalls : t.appcalls = Function.update u.appcalls tid
        (some ({ ctx with saved_regs := clear_trace_flag env ctx.saved_regs } :: calls))) :
      CleanedUp env tid ctx calls u t [.dbg_del_bpt BPT_SOFT ctx.ctrl_ea env.bpt_code env.bpt_code.length code,
        .write_registers tid (clear_trace_flag env ctx.saved_regs) false]

variable {calls : List CallContext}

theorem dbg_cleanup_appcall_spec (hstack : u.stack tid = ctx :: calls)
    (h : Runs (dbg_cleanup_appcall cb env tid) u drc t) :
    ∃ new, t.calls = u.calls ++ new ∧ CleanedUp env tid ctx calls u t new := by
  unfold dbg_cleanup_appcall at h
  rw [runs_bind] at h
  obtain ⟨dm₀, v, hget, h⟩ := h
  obtain ⟨rfl, rfl⟩ := runs_get.mp hget
  rw [hstack] at h
  unfold preprocess_appcall_cleanup at h
  dsimp only at h
  simp only [set_top, hstack, List.tail_cons, if_true, runs_bind, runs_modify, dbg_del_bpt, runs_ask] at h
  obtain ⟨_, _, rfl, code, w, ⟨-, rfl⟩, ok, x, hrestore, h⟩ := h
  have hpop : ∀ {y : State}, Runs (do
      set_stack tid (if calls.isEmpty then none else some calls)
      let dm ← get
      pure (if dm.has_events then DRC_EVENTS else DRC_OK)) y drc t →
      t.calls = y.calls ∧
        t.appcalls = Function.update y.appcalls tid (if calls.isEmpty then none else some calls) := by
    intro y hrun
    simp only [set_stack, runs_bind, runs_modify, runs_get] at hrun
    obtain ⟨_, _, rfl, _, _, ⟨rfl, rfl⟩, hrun⟩ := hrun
    obtain ⟨-, rfl⟩ := runs_pure.mp hrun
    exact ⟨rfl, rfl⟩
  rw [runs_ite] at hrestore
  obtain ⟨hspoiled, hrestore⟩ | ⟨hspoiled, hrestore⟩ := hrestore
  · obtain ⟨rfl, rfl⟩ := runs_ask.mp hrestore
    rw [runs_ite] at h
    obtain ⟨hok, h⟩ | ⟨hok, h⟩ := h
    · obtain ⟨hcalls, happcalls⟩ := hpop h
      rw [hok] at hcalls
      refine ⟨_, hcalls.trans (List.append_assoc _ _ _), .restored _ hspoiled ?_⟩
      exact happcalls.trans (Function.update_idem _ _ _)
    · obtain ⟨rfl, rfl⟩ := runs_pure.mp h
      rw [Bool.not_eq_true] at hok
      rw [hok]
      exact ⟨_, List.append_assoc _ _ _, .stuck _ hspoiled rfl⟩
  · obtain ⟨rfl, rfl⟩ := runs_pure.mp hrestore
    rw [if_pos rfl] at h
    obtain ⟨hcalls, happcalls⟩ := hpop h
    refine ⟨_, hcalls, .popped _ (by simpa using hspoiled) ?_⟩
    exact happcalls.trans (Function.update_idem _ _ _)

/-- The cleanup took the record, and only it, from the stack, and wrote the saved registers. -/
structure CleanupDone (env : AppcallEnv) (tid : thid_t) (ctx : CallContext) (calls : List CallContext) (u t : State) :
    Prop where
  popped : t.stack tid = calls
  others : ∀ tid', tid' ≠ tid → t.appcalls tid' = u.appcalls tid'
  restored : Call.write_registers tid (clear_trace_flag env ctx.saved_regs) true ∈ since u t

theorem CleanedUp.stack (h : CleanedUp env tid ctx calls u t new)
    (hok : ∀ c ∈ new, c.RestoreOk) :
    t.appcalls = Function.update u.appcalls tid (if calls.isEmpty then none else some calls) := by
  cases h with
  | popped code hspoiled happcalls => exact happcalls
  | restored code hspoiled happcalls => exact happcalls
  | stuck code hspoiled happcalls =>
      have hfalse : false = true := hok _ (List.mem_cons_of_mem _ (List.mem_singleton_self _))
      cases hfalse

theorem stack_popped
    (h : t.appcalls = Function.update u.appcalls tid (if calls.isEmpty then none else some calls)) :
    t.stack tid = calls := by
  rw [State.stack, h, Function.update_self]
  cases calls with
  | nil => rfl
  | cons ctx calls => rfl

theorem cleanup_done_iff (hstack : u.stack tid = ctx :: calls)
    (hspoiled : ctx.regs_spoiled = true) (h : Runs (dbg_cleanup_appcall cb env tid) u drc t) :
    CleanupDone env tid ctx calls u t ↔ ∀ c ∈ since u t, c.RestoreOk := by
  obtain ⟨new, hcalls, hcleaned⟩ := dbg_cleanup_appcall_spec hstack h
  have hsince : since u t = new := by rw [since, hcalls, List.drop_left]
  rw [hsince]
  constructor
  · intro hdone
    have hrestored := hdone.restored
    rw [hsince] at hrestored
    cases hcleaned with
    | popped code hnot => rw [hspoiled] at hnot; cases hnot
    | restored code => simp [Call.RestoreOk]
    | stuck code => simp at hrestored
  · intro hok
    have happcalls := hcleaned.stack hok
    refine ⟨stack_popped happcalls, fun tid' hne => by rw [happcalls, Function.update_of_ne hne], ?_⟩
    rw [hsince]
    cases hcleaned with
    | popped code hnot => rw [hspoiled] at hnot; cases hnot
    | restored code => simp
    | stuck code =>
        have hfalse : false = true := hok _ (List.mem_cons_of_mem _ (List.mem_singleton_self _))
        cases hfalse

/-! ### Failure -/

theorem post_del (l : AppcallLedger) (type : bpttype_t) (ea : ea_t) (orig : bytevec_t) (len code : Int) :
    l.post env tid (.dbg_del_bpt type ea orig len code) =
      ⟨if 0 < code then l.bpts.erase ea else l.bpts, l.saved, l.changed⟩ := by
  rw [AppcallLedger.post]
  split <;> rfl

theorem post_restore (bpts : List ea_t) (values : regvals_t) (changed : Bool) :
    AppcallLedger.post env tid ⟨bpts, some values, changed⟩
      (.write_registers tid (clear_trace_flag env values) true) = ⟨bpts, some values, false⟩ :=
  if_pos ⟨rfl, rfl, rfl⟩

theorem Pushed.bpts_removed (h : Pushed env tid dm ctx new u) (code : Int) :
    (if 0 < code then (appcall_ledger env tid new).bpts.erase ctx.ctrl_ea else (appcall_ledger env tid new).bpts) = [] ↔
      0 < code ∨ ∀ c ∈ new, ¬c.Adds := by
  obtain ⟨hbpts, hadds⟩ | ⟨hbpts, c, hc, hcadds⟩ := h.bpts
  · refine iff_of_true ?_ (.inr hadds)
    rw [hbpts]
    split <;> rfl
  have hsome : ¬∀ c ∈ new, ¬c.Adds := fun hno => hno c hc hcadds
  rw [or_iff_left hsome, hbpts]
  split
  · next hcode => simpa using hcode
  · next hcode => simpa using hcode

theorem failed_iff (h : Pushed env tid dm ctx new u) (hstays : Stays tid new) {cl : List Call}
    (hcalls : t.calls = u.calls ++ cl) (hcleaned : CleanedUp env tid ctx (dm.stack tid) u t cl) :
    AppcallUndone env tid dm t ↔ AppcallRegular tid (since dm t) := by
  have hsince : since dm t = new ++ cl := by
    rw [since, hcalls, h.calls, List.append_assoc, List.drop_left]
  have hsilent : ∀ c ∈ cl, c.Silent := by
    cases hcleaned <;> simp [Call.Silent]
  have hstays : Stays tid (new ++ cl) := (stays_append hsilent).mpr hstays
  have hrestores : (∀ c ∈ new ++ cl, c.RestoreOk) ↔ ∀ c ∈ cl, c.RestoreOk := by
    rw [List.forall_mem_append, and_iff_right fun c hc => (h.forward c hc).restoreOk]
  have hdels : (∀ c ∈ new ++ cl, c.DelOk) ↔ ∀ c ∈ cl, c.DelOk := by
    rw [List.forall_mem_append, and_iff_right fun c hc => (h.forward c hc).delOk]
  have hadds : (∀ c ∈ cl, ¬c.Adds) := by
    cases hcleaned <;> simp [Call.Adds]
  have hnoadds : (∀ c ∈ new ++ cl, ¬c.Adds) ↔ ∀ c ∈ new, ¬c.Adds := by
    rw [List.forall_mem_append, and_iff_left hadds]
  have hregular : AppcallRegular tid (since dm t) ↔
      (∀ c ∈ cl, c.RestoreOk) ∧ ((∀ c ∈ cl, c.DelOk) ∨ ∀ c ∈ new, ¬c.Adds) := by
    rw [hsince]
    constructor
    · intro hreg
      exact ⟨hrestores.mp hreg.restores, hreg.removes.imp hdels.mp hnoadds.mp⟩
    · rintro ⟨hr, hd⟩
      exact ⟨hstays, hrestores.mpr hr, hd.imp hdels.mpr hnoadds.mpr⟩
  have hundone : AppcallUndone env tid dm t ↔ (t.stack tid).length = (dm.stack tid).length ∧
      (appcall_ledger env tid (new ++ cl)).bpts = [] ∧ (appcall_ledger env tid (new ++ cl)).changed = false := by
    rw [← hsince]
    exact ⟨fun h => ⟨h.depth, h.bpts, h.registers⟩, fun h => ⟨h.1, h.2.1, h.2.2⟩⟩
  rw [hregular, hundone, ledger_append]
  cases hcleaned with
  | popped code hspoiled happcalls =>
      rw [stack_popped happcalls, and_iff_right rfl, List.foldl_cons, List.foldl_nil, post_del, h.bpts_removed,
        and_iff_left (h.changed.trans hspoiled)]
      simp [Call.RestoreOk, Call.DelOk]
  | restored code hspoiled happcalls =>
      rw [stack_popped happcalls, and_iff_right rfl, List.foldl_cons, List.foldl_cons, List.foldl_nil, post_del,
        h.saved hspoiled, post_restore, h.bpts_removed, and_iff_left rfl]
      simp [Call.RestoreOk, Call.DelOk]
  | stuck code hspoiled happcalls =>
      have hstack : (t.stack tid).length = (dm.stack tid).length + 1 := by
        rw [State.stack, happcalls, Function.update_self, Option.getD_some, List.length_cons]
      refine iff_of_false (fun hand => ?_) (fun hand => ?_)
      · rw [hstack] at hand
        exact absurd hand.1 (Nat.succ_ne_self _)
      · have hfalse : false = true := hand.1 _ (List.mem_cons_of_mem _ (List.mem_singleton_self _))
        cases hfalse

/-- Where `dbg_appcall` fails, everything it did is undone exactly when the process and the thread stayed until the time
was up and the calls that undo succeeded. Where it succeeds, it pushed one record with the registers it read first, and
a cleanup with this record on top takes it away and restores these registers exactly when they can be written. -/
theorem dbg_appcall_undoes {r : AppcallResult} (h : Runs (dbg_appcall cb env fuel a) dm r dm') :
    (r.ea = BADADDR → (AppcallUndone env a.tid dm dm' ↔ AppcallRegular a.tid (since dm dm'))) ∧
      (r.ea ≠ BADADDR → ∃ ctx, dm'.appcalls = Function.update dm.appcalls a.tid (some (ctx :: dm.stack a.tid)) ∧
        (appcall_ledger env a.tid (since dm dm')).saved = some ctx.saved_regs ∧
        ∀ (cb' : Callbacks) (u t : State) (drc : drc_t) (calls : List CallContext), u.stack a.tid = ctx :: calls →
          Runs (dbg_cleanup_appcall cb' env a.tid) u drc t →
            (CleanupDone env a.tid ctx calls u t ↔ ∀ c ∈ since u t, c.RestoreOk)) := by
  unfold dbg_appcall at h
  simp only [runs_bind, runs_get, set_stack, runs_modify] at h
  obtain ⟨_, dm, ⟨rfl, rfl⟩, _, _, rfl, e, v, hbody, h⟩ := h
  have hpush : Pushed env a.tid dm CallContext.default []
      { dm with appcalls := Function.update dm.appcalls a.tid (some (CallContext.default :: dm.stack a.tid)) } :=
    ⟨(List.append_nil _).symm, rfl, .inl ⟨rfl, by simp⟩, (fun h => by cases h), rfl, by simp⟩
  obtain ⟨ctx, new, hpushed, hstays, hsuccess⟩ := appcall_body_spec hpush hbody
  rw [runs_ite] at h
  obtain ⟨herr, h⟩ | ⟨herr, h⟩ := h
  · rw [runs_bind] at h
    obtain ⟨drc, w, hclean, h⟩ := h
    obtain ⟨rfl, rfl⟩ := runs_pure.mp h
    obtain ⟨cl, hcalls, hcleaned⟩ := dbg_cleanup_appcall_spec hpushed.stack hclean
    refine ⟨fun _ => ?_, fun hne => absurd rfl hne⟩
    exact failed_iff hpushed (hstays.mpr fun hand => herr hand.2) hcalls hcleaned
  · obtain ⟨rfl, rfl⟩ := runs_pure.mp h
    have hsince : since dm dm' = new := by rw [since, hpushed.calls, List.drop_left]
    have herr : e.err = none := not_not.mp herr
    cases hgone : e.gone with
    | true =>
        refine ⟨fun _ => iff_of_false (fun hundone => ?_) (fun hregular => ?_), fun hne => ?_⟩
        · have hdepth := hundone.depth
          rw [hpushed.stack, List.length_cons] at hdepth
          exact absurd hdepth (Nat.succ_ne_self _)
        · rw [hsince] at hregular
          exact hstays.mp hregular.stays ⟨hgone, herr⟩
        · simp at hne
    | false =>
        obtain ⟨hspoiled, hsp⟩ := hsuccess herr hgone
        refine ⟨fun hea => ?_, fun _ => ?_⟩
        · simp [hsp] at hea
        · refine ⟨ctx, hpushed.appcalls, ?_, fun cb' u t drc calls hstack hclean => ?_⟩
          · rw [hsince]
            exact hpushed.saved hspoiled
          · exact cleanup_done_iff hstack hspoiled hclean

/-- A processor with a stack pointer and a program counter only. -/
def twoRegisters : AppcallEnv where
  arch := .base
  nregs := 2
  sp_idx := 0
  pc_idx := 1
  sr_idx := 2
  lr_idx := 3
  addrsize := 8
  ri_vec := []
  bpt_code := [0xCC]
  relocate stkbytes _ := some stkbytes

def plainCall : AppcallArgs := ⟨0x1000, 1, 0, [], [], none, eventOf 1 .NO_EVENT, 0⟩

/-- The registers that are read have no stack pointer. -/
theorem dbg_appcall_undoes_nostack : ∃ r dm', Runs (dbg_appcall (obliging (eventOf 1 .STEP)) twoRegisters 1 plainCall)
    idle r dm' ∧ AppcallUndone twoRegisters 1 idle dm' := by
  have hruns : ∃ r dm', Runs (dbg_appcall (obliging (eventOf 1 .STEP)) twoRegisters 1 plainCall) idle r dm' ∧
      r.ea = BADADDR ∧ since idle dm' = [.dbg_read_registers 1 (-1) DRC_OK [RegVal.default, RegVal.default],
        .dbg_del_bpt BPT_SOFT BADADDR [0xCC] 1 1] := ⟨_, _, rfl, rfl, rfl⟩
  obtain ⟨r, dm', hruns, hea, hsince⟩ := hruns
  refine ⟨r, dm', hruns, ((dbg_appcall_undoes hruns).1 hea).mpr ?_⟩
  change AppcallRegular 1 (since idle dm')
  rw [hsince]
  refine ⟨stays_of_silent ?_, ?_, .inr ?_⟩
  · simp [Call.Silent]
  · simp [Call.RestoreOk]
  · simp [Call.Adds]

/-- The process exits during the call: then the record of the call stays on the stack. -/
theorem dbg_appcall_process_exited : ∃ r dm',
    Runs (dbg_appcall { obliging (eventOf 1 .PROCESS_EXITED) with
        dbg_read_registers := fun _ _ _ => (DRC_OK, [⟨RVT_INT, 0x10000, []⟩]) } twoRegisters 1 plainCall) idle r dm' ∧
      r.ea = BADADDR ∧ ¬AppcallUndone twoRegisters 1 idle dm' := by
  refine ⟨_, _, rfl, rfl, ?_⟩
  intro h
  have hdepth := h.depth
  revert hdepth
  decide

end IdaSdk.Debmod
