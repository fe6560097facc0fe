import Mathlib.Data.Option.Basic
import Mathlib.Tactic.Common
import IdaSdk.LinuxPending

/-!
Freezing and thawing. One loop does something to each selected thread; the loop that waits lets
threads stop and never lets one run; what died is removed. Thawing counts each selected thread down,
so pairs of a freeze and a thaw may be nested.
-/

namespace IdaSdk.LinuxThreads

/-! ### One thread -/

variable (ti : thread_info_t)

/-- A thread that runs is not counted as suspended. -/
def thread_info_t.Uncounted : Prop := ti.is_running = true → ti.suspend_count = 0

def linux_debmod_t.Uncounted (ld : linux_debmod_t) : Prop :=
  ∀ tid ti, ld.threads.find tid = some ti → ti.Uncounted

def thread_info_t.freeze (kill : kill_t) : thread_info_t :=
  if ti.is_running then
    if kill = .sent then { ti with waiting_sigstop := true, suspend_count := ti.suspend_count + 1 } else ti
  else { ti with suspend_count := ti.suspend_count + 1 }

/-- The thread is as it was, or it has stopped or has a status to be handled. -/
def Settled (ti ti' : thread_info_t) : Prop :=
  ti' = ti ∨ (ti'.is_running = false ∧ ti'.suspend_count = ti.suspend_count)

/-- What thawing does to a selected thread. -/
structure Thawed (ti ti' : thread_info_t) : Prop where
  suspend_count : ti'.suspend_count = ti.suspend_count - 1
  user_suspend : ti'.user_suspend = ti.user_suspend
  got_pending_status : ti'.got_pending_status = ti.got_pending_status

section Threads

variable {ti ti' ti'' : thread_info_t} {kill : kill_t} {status : status_t}

theorem is_running_iff : ti.is_running = true ↔
    ti.state = .RUNNING ∧ ti.waiting_sigstop = false ∧ ti.got_pending_status = false := by
  simp [thread_info_t.is_running, and_assoc]

theorem Settled.refl (ti : thread_info_t) : Settled ti ti := .inl rfl

theorem Settled.trans (h : Settled ti ti') (h' : Settled ti' ti'') : Settled ti ti'' := by
  rcases h' with rfl | ⟨hrun, hcount⟩
  · exact h
  · refine .inr ⟨hrun, hcount.trans ?_⟩
    rcases h with rfl | ⟨-, hcount'⟩
    · rfl
    · exact hcount'

theorem Settled.count (h : Settled ti ti') : ti'.suspend_count = ti.suspend_count := by
  rcases h with rfl | ⟨-, h⟩
  · rfl
  · exact h

theorem Settled.stopped (h : Settled ti ti') (hrun : ti.is_running = false) : ti'.is_running = false := by
  rcases h with rfl | ⟨h, -⟩
  · exact hrun
  · exact h

theorem Settled.uncounted (h : Settled ti ti') (hu : ti.Uncounted) : ti'.Uncounted := by
  rcases h with rfl | ⟨h, -⟩
  · exact hu
  · intro hrun
    rw [h] at hrun
    exact absurd hrun (by decide)

theorem settled_stop : Settled ti { ti with waiting_sigstop := false, state := .STOPPED } :=
  .inr ⟨rfl, rfl⟩

theorem settled_receive : Settled ti (ti.receive status) := by
  rw [thread_info_t.receive]
  split
  · exact settled_stop
  · refine .inr ⟨?_, rfl⟩
    rw [Bool.eq_false_iff, Ne, is_running_iff]
    exact fun h => absurd h.2.2 (by simp)

theorem freeze_stopped (hkill : kill = .failed → ti.is_running = false)
    (hdead : kill = .ESRCH → ti.is_running = false) : (ti.freeze kill).is_running = false := by
  rw [Bool.eq_false_iff, Ne, is_running_iff, thread_info_t.freeze]
  split
  · next hrun =>
      cases kill with
      | sent => simp
      | failed =>
          rw [hkill rfl] at hrun
          exact absurd hrun (by decide)
      | ESRCH =>
          rw [hdead rfl] at hrun
          exact absurd hrun (by decide)
  · next hrun =>
      rw [is_running_iff] at hrun
      exact hrun

theorem freeze_uncounted (hu : ti.Uncounted) : (ti.freeze kill).Uncounted := by
  unfold thread_info_t.freeze
  split
  · split
    · intro hrun
      rw [is_running_iff] at hrun
      exact absurd hrun.2.1 (by simp)
    · exact hu
  · next hrun =>
      intro hrun'
      rw [is_running_iff] at hrun hrun'
      exact absurd hrun' hrun

theorem freeze_count (hu : ti.Uncounted) : (ti.freeze kill).suspend_count - 1 = ti.suspend_count := by
  unfold thread_info_t.freeze
  split
  · next hrun =>
      split
      · rfl
      · rw [hu hrun]
  · rfl

end Threads

/-! ### Freezing -/

section Freeze

variable {ld ld' ld'' : linux_debmod_t} {srv srv' srv'' : Server} {this : Nat} {tid t : thid_t}
  {ti ti' : thread_info_t} {kill : thid_t → kill_t} {fr : Freeze} {exclude : Bool}

theorem freeze_thread_find : (freeze_thread kill fr tid).ld.threads.find t =
    if t = tid then (fr.ld.threads.find t).map fun ti => ti.freeze (kill tid) else fr.ld.threads.find t := by
  rw [freeze_thread]
  split
  · next hno =>
      split
      · next ht => rw [ht, hno]; rfl
      · rfl
  · next ti hti =>
      by_cases hrun : ti.is_running = true
      · rw [if_pos hrun]
        split
        · next hk =>
            split
            · next ht =>
                rw [ht, hti, Option.map_some, thread_info_t.freeze, if_pos hrun, hk]
                rfl
            · rfl
        · next hk =>
            split
            · next ht =>
                rw [ht, hti, Option.map_some, thread_info_t.freeze, if_pos hrun, hk]
                rfl
            · rfl
        · next hk =>
            rw [linux_debmod_t.modify, Table.find_modify]
            split
            · next ht =>
                rw [ht, hti, Option.map_some, Option.map_some, thread_info_t.freeze, if_pos hrun, hk]
                rfl
            · rfl
      · rw [if_neg hrun, linux_debmod_t.modify, Table.find_modify]
        split
        · next ht =>
            rw [ht, hti, Option.map_some, Option.map_some, thread_info_t.freeze, if_neg hrun]
        · rfl

theorem mem_freeze_thread_deadtids : t ∈ (freeze_thread kill fr tid).deadtids ↔
    t ∈ fr.deadtids ∨ (t = tid ∧ kill tid = .ESRCH ∧
      ∃ ti, fr.ld.threads.find tid = some ti ∧ ti.is_running = true) := by
  rw [freeze_thread]
  split
  · next hno => simp [hno]
  rename_i ti hti
  by_cases hrun : ti.is_running = true
  · rw [if_pos hrun]
    split
    · next hk => simp [hk, hti, hrun]
    · next hk => simp [hk]
    · next hk => simp [hk]
  · rw [if_neg hrun]
    simp [hti, hrun]

theorem freeze_fold_find {L : List thid_t} (hL : L.Nodup) :
    (L.foldl (freeze_thread kill) fr).ld.threads.find t =
      if t ∈ L then (fr.ld.threads.find t).map fun ti => ti.freeze (kill t) else fr.ld.threads.find t := by
  induction L generalizing fr with
  | nil => rfl
  | cons tid L ih =>
      rw [List.nodup_cons] at hL
      rw [List.foldl_cons, ih hL.2, freeze_thread_find]
      by_cases ht : t = tid
      · subst ht
        rw [if_neg hL.1, if_pos rfl, if_pos List.mem_cons_self]
      · simp [ht]

theorem mem_freeze_fold_deadtids {L : List thid_t} (hL : L.Nodup) :
    t ∈ (L.foldl (freeze_thread kill) fr).deadtids ↔ t ∈ fr.deadtids ∨ (t ∈ L ∧ kill t = .ESRCH ∧
      ∃ ti, fr.ld.threads.find t = some ti ∧ ti.is_running = true) := by
  induction L generalizing fr with
  | nil => simp
  | cons tid L ih =>
      rw [List.nodup_cons] at hL
      rw [List.foldl_cons, ih hL.2, mem_freeze_thread_deadtids, freeze_thread_find]
      by_cases ht : t = tid
      · subst ht
        simp [hL.1]
      · simp [ht]

theorem freeze_select_find (h : ld.threads.find t = some ti) :
    (freeze_select tid exclude kill ld).ld.threads.find t =
      some (if selected tid exclude t then ti.freeze (kill t) else ti) := by
  have hmem : t ∈ ld.threads.keys := Table.mem_keys.mpr (by rw [h]; rfl)
  rw [freeze_select, freeze_fold_find (ld.threads.keys_nodup.filter _), h]
  by_cases hsel : selected tid exclude t = true
  · rw [if_pos (List.mem_filter.mpr ⟨hmem, hsel⟩), if_pos hsel]
    rfl
  · rw [if_neg (fun hm => hsel (List.mem_filter.mp hm).2), if_neg hsel]

theorem freeze_select_find_none (h : ld.threads.find t = none) :
    (freeze_select tid exclude kill ld).ld.threads.find t = none := by
  rw [freeze_select, freeze_fold_find (ld.threads.keys_nodup.filter _), h]
  split <;> rfl

theorem mem_freeze_select_deadtids : t ∈ (freeze_select tid exclude kill ld).deadtids ↔
    selected tid exclude t = true ∧ kill t = .ESRCH ∧
      ∃ ti, ld.threads.find t = some ti ∧ ti.is_running = true := by
  rw [freeze_select, mem_freeze_fold_deadtids (ld.threads.keys_nodup.filter _), List.mem_filter]
  constructor
  · rintro (h | ⟨⟨-, hsel⟩, h⟩)
    · exact absurd h List.not_mem_nil
    · exact ⟨hsel, h⟩
  · rintro ⟨hsel, hkill, ti, hti, hrun⟩
    exact .inr ⟨⟨Table.mem_keys.mpr (by rw [hti]; rfl), hsel⟩, hkill, ti, hti, hrun⟩

/-- No thread comes or goes, and each one settles. -/
def Server.Settles (srv srv' : Server) : Prop :=
  ∀ i t, Option.Rel Settled ((srv.mods i).threads.find t) ((srv'.mods i).threads.find t)

theorem option_rel_refl (x : Option thread_info_t) : Option.Rel Settled x x := by
  cases x with
  | none => exact .none
  | some ti => exact .some (.refl ti)

theorem Server.Settles.refl (srv : Server) : srv.Settles srv := fun _ _ => option_rel_refl _

theorem Server.Settles.trans (h : srv.Settles srv') (h' : srv'.Settles srv'') : srv.Settles srv'' := by
  intro i t
  have h := h i t
  have h' := h' i t
  generalize (srv.mods i).threads.find t = x at *
  generalize (srv'.mods i).threads.find t = y at *
  generalize (srv''.mods i).threads.find t = z at *
  cases h with
  | none => exact h'
  | some hs =>
      cases h' with
      | some hs' => exact .some (hs.trans hs')

theorem Server.Settles.of_threads (h : ld.threads = (srv.mods this).threads) : srv.Settles (srv.set this ld) := by
  intro i t
  rw [Server.set_mods]
  split
  · next hi => rw [h, hi]; exact option_rel_refl _
  · exact option_rel_refl _

theorem Server.Settles.of_modify {f : thread_info_t → thread_info_t}
    (h : ld.threads = (srv.mods this).threads.modify tid f) (hf : ∀ ti, Settled ti (f ti)) :
    srv.Settles (srv.set this ld) := by
  intro i t
  rw [Server.set_mods]
  split
  · next hi =>
      rw [h, hi, Table.find_modify]
      split
      · cases (srv.mods this).threads.find t with
        | none => exact .none
        | some ti => exact .some (hf ti)
      · exact option_rel_refl _
  · exact option_rel_refl _

variable {status : status_t} {pid : thid_t}

theorem linux_signal_storer_settles {L : List Nat} {b : Bool}
    (h : linux_signal_storer pid status L srv = .ok (b, srv')) : srv.Settles srv' := by
  induction L with
  | nil =>
      obtain ⟨-, rfl⟩ := Prod.mk.inj (Except.ok.inj h)
      exact .refl srv
  | cons i rest ih =>
      rw [linux_signal_storer] at h
      split at h
      · split at h
        · cases h
        · obtain ⟨-, rfl⟩ := Prod.mk.inj (Except.ok.inj h)
          exact .of_modify rfl fun _ => settled_receive
      · split at h
        · obtain ⟨-, rfl⟩ := Prod.mk.inj (Except.ok.inj h)
          exact .refl srv
        · exact ih h

variable {n : Nat}

theorem linux_signal_storer_error {L : List Nat}
    (h : linux_signal_storer pid status L srv = .error n) : n = 30185 := by
  induction L with
  | nil => cases h
  | cons i rest ih =>
      rw [linux_signal_storer] at h
      split at h
      · split at h
        · exact (Except.error.inj h).symm
        · cases h
      · split at h
        · cases h
        · exact ih h

theorem store_pending_signal_settles
    (h : store_pending_signal this pid status srv = .ok srv') : srv.Settles srv' := by
  rw [store_pending_signal] at h
  cases hs : linux_signal_storer pid status srv.order srv with
  | error n =>
      rw [hs] at h
      exact absurd h (by simp [bind, Except.bind])
  | ok x =>
      obtain ⟨b, srv''⟩ := x
      rw [hs] at h
      change (if b = true then Except.ok srv'' else _) = _ at h
      have hsettle := linux_signal_storer_settles hs
      split at h
      · obtain rfl := Except.ok.inj h
        exact hsettle
      split at h
      · obtain rfl := Except.ok.inj h
        exact hsettle.trans (.of_threads rfl)
      · obtain rfl := Except.ok.inj h
        exact hsettle

theorem store_pending_signal_error
    (h : store_pending_signal this pid status srv = .error n) : n = 30185 := by
  rw [store_pending_signal] at h
  cases hs : linux_signal_storer pid status srv.order srv with
  | error n' =>
      rw [hs] at h
      obtain rfl := Except.error.inj h
      exact linux_signal_storer_error hs
  | ok x =>
      obtain ⟨b, srv''⟩ := x
      rw [hs] at h
      change (if b = true then Except.ok srv'' else _) = _ at h
      split at h
      · cases h
      · split at h
        · exact absurd h (by simp [pure, Except.pure])
        · exact absurd h (by simp [pure, Except.pure])

theorem freeze_report_cases (this : Nat) (r : Report) (queue : List thid_t) (srv : Server) :
    freeze_report this r queue srv = .ok (queue, srv) ∨
    (∃ queue', freeze_report this r queue srv =
      (store_pending_signal this r.stid r.status srv).map fun srv => (queue', srv)) ∨
    freeze_report this r queue srv = .ok (queue.erase r.stid, srv.set this ((srv.mods this).modify r.stid fun ti =>
      { ti with waiting_sigstop := false, state := .STOPPED })) := by
  rw [freeze_report]
  split
  · split
    · split
      · exact .inr (.inr rfl)
      · refine .inr (.inl ⟨queue.erase r.stid, ?_⟩)
        cases store_pending_signal this r.stid r.status srv <;> rfl
    · refine .inr (.inl ⟨queue, ?_⟩)
      cases store_pending_signal this r.stid r.status srv <;> rfl
  · exact .inl rfl

variable {queue : List thid_t}

theorem freeze_report_settles {r : Report} {queue' : List thid_t}
    (h : freeze_report this r queue srv = .ok (queue', srv')) : srv.Settles srv' := by
  rcases freeze_report_cases this r queue srv with he | ⟨q, he⟩ | he
  · rw [he] at h
    obtain ⟨-, rfl⟩ := Prod.mk.inj (Except.ok.inj h)
    exact .refl srv
  · rw [he] at h
    cases hs : store_pending_signal this r.stid r.status srv with
    | error n =>
        rw [hs] at h
        exact absurd h (by simp [Except.map])
    | ok srv'' =>
        rw [hs] at h
        obtain ⟨-, rfl⟩ := Prod.mk.inj (Except.ok.inj h)
        exact store_pending_signal_settles hs
  · rw [he] at h
    obtain ⟨-, rfl⟩ := Prod.mk.inj (Except.ok.inj h)
    exact .of_modify rfl fun _ => settled_stop

theorem freeze_report_error {r : Report}
    (h : freeze_report this r queue srv = .error n) : n = 30185 := by
  rcases freeze_report_cases this r queue srv with he | ⟨q, he⟩ | he
  · rw [he] at h
    cases h
  · rw [he] at h
    cases hs : store_pending_signal this r.stid r.status srv with
    | error n' =>
        rw [hs] at h
        obtain rfl := Except.error.inj h
        exact store_pending_signal_error hs
    | ok srv'' =>
        rw [hs] at h
        exact absurd h (by simp [Except.map])
  · rw [he] at h
    cases h

variable {reports : List Report}

theorem freeze_wait_settles
    (h : freeze_wait this reports queue srv = .ok (some srv')) : srv.Settles srv' := by
  induction reports generalizing queue srv with
  | nil =>
      cases queue with
      | nil =>
          obtain rfl := Option.some.inj (Except.ok.inj h)
          exact .refl srv
      | cons q queue => cases h
  | cons r rest ih =>
      cases queue with
      | nil =>
          obtain rfl := Option.some.inj (Except.ok.inj h)
          exact .refl srv
      | cons q queue =>
          change freeze_report _ _ _ _ >>= _ = _ at h
          cases hr : freeze_report this r (q :: queue) srv with
          | error n =>
              rw [hr] at h
              cases h
          | ok x =>
              obtain ⟨queue', srv''⟩ := x
              rw [hr] at h
              exact (freeze_report_settles hr).trans (ih h)

theorem freeze_wait_error
    (h : freeze_wait this reports queue srv = .error n) : n = 30185 := by
  induction reports generalizing queue srv with
  | nil => cases queue <;> cases h
  | cons r rest ih =>
      cases queue with
      | nil => cases h
      | cons q queue =>
          change freeze_report _ _ _ _ >>= _ = _ at h
          cases hr : freeze_report this r (q :: queue) srv with
          | error n' =>
              rw [hr] at h
              obtain rfl := Except.error.inj h
              exact freeze_report_error hr
          | ok x =>
              obtain ⟨queue', srv''⟩ := x
              rw [hr] at h
              exact ih h

theorem dead_thread_spec (tid : thid_t) (ld : linux_debmod_t) : ∃ ld', dead_thread tid .DEAD ld = .ok ld' ∧
    ∀ t, ld'.threads.find t = if t = tid then none else ld.threads.find t := by
  rw [dead_thread]
  cases h : ld.threads.find tid with
  | none =>
      refine ⟨ld, by simp, fun t => ?_⟩
      split
      · next ht => rw [ht, h]
      · rfl
  | some ti =>
      have hdie : (ld.die tid .DEAD).threads = ld.threads.modify tid fun ti => { ti with state := .DEAD } := rfl
      have hfind : (ld.die tid .DEAD).threads.find tid = some { ti with state := .DEAD } := by
        rw [hdie, Table.find_modify_self, h]
        rfl
      rw [if_pos rfl, Option.isSome_some, if_pos rfl, del_thread, hfind]
      refine ⟨_, rfl, fun t => ?_⟩
      rw [Table.find_erase, hdie]
      split
      · rfl
      · next ht => rw [Table.find_modify_of_ne ht]

theorem dead_threads_spec (deadtids : List thid_t) (ld : linux_debmod_t) :
    ∃ ld', deadtids.foldlM (fun ld tid => dead_thread tid .DEAD ld) ld = .ok ld' ∧
      ∀ t, ld'.threads.find t = if t ∈ deadtids then none else ld.threads.find t := by
  induction deadtids generalizing ld with
  | nil => exact ⟨ld, rfl, fun _ => rfl⟩
  | cons tid deadtids ih =>
      obtain ⟨ld', hd, hfind⟩ := dead_thread_spec tid ld
      obtain ⟨ld'', hrest, hfind'⟩ := ih ld'
      refine ⟨ld'', ?_, fun t => ?_⟩
      · rw [List.foldlM_cons, hd]
        exact hrest
      · rw [hfind', hfind]
        by_cases ht : t = tid
        · simp [ht]
        · simp [ht]

theorem dbg_freeze_threads_spec
    (h : dbg_freeze_threads this tid exclude kill reports srv = .ok (some srv')) {t : thid_t} {ti' : thread_info_t}
    (hti' : (srv'.mods this).threads.find t = some ti') :
    ∃ ti, (srv.mods this).threads.find t = some ti ∧
      Settled (if selected tid exclude t then ti.freeze (kill t) else ti) ti' ∧
      (selected tid exclude t = true → kill t = .ESRCH → ti.is_running = false) := by
  rw [dbg_freeze_threads] at h
  simp only [bind, Except.bind] at h
  split at h
  · cases h
  rename_i r hr
  cases r with
  | none => exact absurd (Except.ok.inj h) (by simp)
  | some srv'' =>
      obtain ⟨ld, hld, hfind⟩ := dead_threads_spec
        (freeze_select tid exclude kill (srv.mods this)).deadtids (srv''.mods this)
      simp only [hld] at h
      obtain rfl := Option.some.inj (Except.ok.inj h)
      rw [Server.set_mods_self, hfind] at hti'
      split at hti'
      · exact absurd hti' (by simp)
      rename_i hdead
      have hrel := freeze_wait_settles hr this t
      rw [Server.set_mods_self, hti'] at hrel
      cases hti : (srv.mods this).threads.find t with
      | none =>
          rw [freeze_select_find_none hti] at hrel
          cases hrel
      | some ti =>
          rw [freeze_select_find hti] at hrel
          refine ⟨ti, rfl, ?_, ?_⟩
          · cases hrel with
            | some hs => exact hs
          intro hsel hkill
          rw [mem_freeze_select_deadtids] at hdead
          cases hrun : ti.is_running with
          | false => rfl
          | true => exact absurd ⟨hsel, hkill, ti, hti, hrun⟩ hdead

theorem dbg_freeze_threads_error
    (h : dbg_freeze_threads this tid exclude kill reports srv = .error n) : n = 30185 := by
  rw [dbg_freeze_threads] at h
  simp only [bind, Except.bind] at h
  split at h
  · next hr =>
      obtain rfl := Except.error.inj h
      exact freeze_wait_error hr
  rename_i r hr
  cases r with
  | none => exact absurd h (by simp [pure, Except.pure])
  | some srv'' =>
      obtain ⟨ld, hld, -⟩ := dead_threads_spec
        (freeze_select tid exclude kill (srv.mods this)).deadtids (srv''.mods this)
      simp only [hld] at h
      exact absurd h (by simp [pure, Except.pure])

end Freeze

/-! ### Thawing -/

section Thaw

variable {ld : linux_debmod_t} {tid t : thid_t} {ti : thread_info_t} {k : Kernel} {th th' : Thaw} {exclude : Bool}

/-- The thread may be resumed: nothing keeps it once it is counted down, and the application may run
unless the thread is dying. -/
structure Resumable (ld : linux_debmod_t) (ti : thread_info_t) : Prop where
  suspend_count : ti.suspend_count - 1 = 0
  user_suspend : ti.user_suspend = 0
  got_pending_status : ti.got_pending_status = false
  may_run : ld.may_run = true ∨ ti.state = .DYING
  exited : ld.exited = false

/-- What the loop has done to the threads `L`. -/
structure ThawSteps (L : List thid_t) (th th' : Thaw) : Prop where
  others : ∀ t, t ∉ L → th'.ld.threads.find t = th.ld.threads.find t
  threads : ∀ t ∈ L, ∀ ti, th.ld.threads.find t = some ti →
    ∃ ti', th'.ld.threads.find t = some ti' ∧ Thawed ti ti' ∧ ti'.Uncounted ∧
      (ti'.is_running = true → ti.is_running = true ∨ ∃ c ∈ th'.calls, c.tid = t)
  may_run : th'.ld.may_run = true → th.ld.may_run = true
  exited : th'.ld.exited = th.ld.exited
  calls : ∃ new, th'.calls = new ++ th.calls ∧
    ∀ c ∈ new, c.tid ∈ L ∧ ∃ ti, th.ld.threads.find c.tid = some ti ∧ Resumable th.ld ti

/-- At most the state of the thread has changed, and the application is let run by nobody. -/
structure StateOnly (tid : thid_t) (th th' : Thaw) : Prop where
  others : ∀ t, t ≠ tid → th'.ld.threads.find t = th.ld.threads.find t
  thread : ∀ ti, th.ld.threads.find tid = some ti → ∃ s, th'.ld.threads.find tid = some { ti with state := s }
  may_run : th'.ld.may_run = true → th.ld.may_run = true
  exited : th'.ld.exited = th.ld.exited

theorem StateOnly.refl (tid : thid_t) (th : Thaw) : StateOnly tid th th :=
  ⟨fun _ _ => rfl, fun ti h => ⟨ti.state, h⟩, id, rfl⟩

theorem StateOnly.set_state (h : StateOnly tid th th') (state : thstate_t) :
    StateOnly tid th (th'.set_state tid state) := by
  refine ⟨fun t ht => ?_, fun ti hti => ?_, h.may_run, h.exited⟩
  · rw [← h.others t ht]
    exact Table.find_modify_of_ne ht
  obtain ⟨s, hs⟩ := h.thread ti hti
  refine ⟨state, ?_⟩
  change (th'.ld.threads.modify tid _).find tid = _
  rw [Table.find_modify_self, hs]
  rfl

theorem dead_thread_dying (tid : thid_t) (th : Thaw) : ∃ ld, dead_thread tid .DYING th.ld = .ok ld ∧
    StateOnly tid th { th with ld := ld } := by
  rw [dead_thread]
  split
  · rw [if_neg (by decide)]
    refine ⟨_, rfl, fun t ht => ?_, fun ti hti => ⟨.DYING, ?_⟩, fun h => ?_, rfl⟩
    · exact Table.find_modify_of_ne ht
    · change (th.ld.threads.modify tid _).find tid = _
      rw [Table.find_modify_self, hti]
      rfl
    · exact absurd h (by simp [linux_debmod_t.die, enqueue_event])
  · exact ⟨th.ld, rfl, .refl tid th⟩

theorem thaw_resumed_spec (k : Kernel) (tid : thid_t) (th : Thaw) (hst : ti.state = .STOPPED ∨ ti.state = .DYING) :
    ∃ th', thaw_resumed k tid ti th = .ok th' ∧ StateOnly tid th th' ∧ th'.calls = th.calls := by
  rw [thaw_resumed]
  split
  · split
    · exact ⟨_, rfl, ⟨fun _ _ => rfl, fun ti h => ⟨ti.state, h⟩, id, rfl⟩, rfl⟩
    · obtain ⟨ld, hd, hs⟩ := dead_thread_dying tid th
      rw [hd]
      exact ⟨_, rfl, hs.set_state .DEAD, rfl⟩
  · split
    · exact ⟨_, rfl, (StateOnly.refl tid th).set_state .DEAD, rfl⟩
    · next hdying =>
        rw [if_pos (hst.resolve_right hdying)]
        exact ⟨_, rfl, (StateOnly.refl tid th).set_state .RUNNING, rfl⟩

theorem thaw_counted_spec (k : Kernel) (tid : thid_t) (ti : thread_info_t) (th : Thaw) :
    ∃ th', thaw_counted k tid ti th = .ok th' ∧ StateOnly tid th th' ∧
    ∃ new, th'.calls = new ++ th.calls ∧ (new = [] → th' = th) ∧ ∀ c ∈ new, c.tid = tid ∧
      ti.user_suspend = 0 ∧ ti.got_pending_status = false ∧
      (th.ld.may_run = true ∨ ti.state = .DYING) ∧ th.ld.exited = false := by
  have hsame : ∃ th', (.ok th : Except Nat Thaw) = .ok th' ∧ StateOnly tid th th' ∧
      ∃ new, th'.calls = new ++ th.calls ∧ (new = [] → th' = th) ∧ ∀ c ∈ new, c.tid = tid ∧
        ti.user_suspend = 0 ∧ ti.got_pending_status = false ∧
        (th.ld.may_run = true ∨ ti.state = .DYING) ∧ th.ld.exited = false :=
    ⟨th, rfl, .refl tid th, [], rfl, fun _ => rfl, fun _ h => absurd h List.not_mem_nil⟩
  rw [thaw_counted]
  split
  · exact hsame
  rename_i huser
  split
  · exact hsame
  rename_i hgot
  split
  · exact hsame
  rename_i hmay
  split
  · next hst =>
      obtain ⟨th', hr, hs, hcalls⟩ := thaw_resumed_spec k tid
        { th with calls := ⟨ti.single_step, tid, ti.child_signum⟩ :: th.calls } hst
      refine ⟨th', hr, ⟨hs.others, hs.thread, hs.may_run, hs.exited⟩,
        [⟨ti.single_step, tid, ti.child_signum⟩], hcalls, fun h => absurd h (by simp), ?_⟩
      intro c hc
      rw [List.mem_singleton] at hc
      subst hc
      simp only [Bool.or_eq_true, Bool.and_eq_true, Bool.not_eq_true', decide_eq_true_eq, not_or,
        not_and, ne_eq, not_not] at hmay
      refine ⟨rfl, Nat.eq_zero_of_not_pos huser, Bool.eq_false_iff.mpr hgot, ?_,
        Bool.eq_false_iff.mpr hmay.2⟩
      cases hm : th.ld.may_run with
      | true => exact .inl rfl
      | false => exact .inr (hmay.1 hm)
  · exact hsame

theorem uncount_find (h : th.ld.threads.find tid = some ti) :
    (th.uncount tid).ld.threads.find tid = some { ti with suspend_count := ti.suspend_count - 1 } := by
  change (th.ld.threads.modify tid _).find tid = _
  rw [Table.find_modify_self, h]
  rfl

/-- One round. A thread that runs is not counted, so counting it down changes nothing; the assertions
hold. -/
theorem thaw_thread_spec (hu : ∀ ti, th.ld.threads.find tid = some ti → ti.Uncounted) :
    ∃ th', thaw_thread k th tid = .ok th' ∧ ThawSteps [tid] th th' := by
  rw [thaw_thread]
  split
  · next hno =>
      refine ⟨th, rfl, fun _ _ => rfl, fun t ht ti hti => ?_, id, rfl, [], rfl, fun _ h => absurd h List.not_mem_nil⟩
      rw [List.mem_singleton.mp ht, hno] at hti
      exact absurd hti (by simp)
  · next ti hti =>
      split
      · next hrun =>
          have hzero := hu ti hti hrun
          rw [if_pos hzero]
          refine ⟨th, rfl, fun _ _ => rfl, fun t ht tj htj => ?_, id, rfl, [], rfl,
            fun _ h => absurd h List.not_mem_nil⟩
          rw [List.mem_singleton.mp ht, hti] at htj
          obtain rfl := Option.some.inj htj
          refine ⟨ti, List.mem_singleton.mp ht ▸ hti, ⟨?_, rfl, rfl⟩, hu ti hti, .inl⟩
          rw [hzero]
      · next hrun =>
          have hcount := uncount_find hti
          have hothers : ∀ t, t ≠ tid → (th.uncount tid).ld.threads.find t = th.ld.threads.find t :=
            fun t ht => Table.find_modify_of_ne ht
          have hidle : ({ ti with suspend_count := ti.suspend_count - 1 } : thread_info_t).is_running ≠ true := by
            rw [Ne, is_running_iff]
            rw [is_running_iff] at hrun
            exact hrun
          -- a thread that did not run runs only after the counter came to zero
          have hstate : ∀ s, (ti.suspend_count - 1 = 0 ∨ s = ti.state) →
              ({ ti with suspend_count := ti.suspend_count - 1, state := s } : thread_info_t).Uncounted := by
            intro s hs hrun'
            rcases hs with hs | rfl
            · exact hs
            · rw [is_running_iff] at hrun hrun'
              exact absurd hrun' hrun
          split
          · refine ⟨_, rfl, fun t ht => hothers t (by simpa using ht), fun t ht tj htj => ?_, id, rfl, [], rfl,
              fun _ h => absurd h List.not_mem_nil⟩
            rw [List.mem_singleton.mp ht] at htj ⊢
            rw [hti] at htj
            obtain rfl := Option.some.inj htj
            exact ⟨_, hcount, ⟨rfl, rfl, rfl⟩, hstate ti.state (.inr rfl), fun h => absurd h hidle⟩
          · next hpos =>
              obtain ⟨th', hr, hs, new, hnew, hnil, hcalls⟩ := thaw_counted_spec k tid ti (th.uncount tid)
              refine ⟨th', hr, fun t ht => ?_, fun t ht tj htj => ?_, hs.may_run, hs.exited, new, hnew,
                fun c hc => ?_⟩
              · have hne : t ≠ tid := by simpa using ht
                rw [hs.others t hne, hothers t hne]
              · rw [List.mem_singleton.mp ht] at htj ⊢
                rw [hti] at htj
                obtain rfl := Option.some.inj htj
                obtain ⟨s, hs'⟩ := hs.thread _ hcount
                refine ⟨_, hs', ⟨rfl, rfl, rfl⟩, hstate s (.inl (Nat.eq_zero_of_not_pos hpos)), fun hrun' => ?_⟩
                cases new with
                | nil =>
                    rw [hnil rfl, hcount] at hs'
                    rw [← Option.some.inj hs'] at hrun'
                    exact absurd hrun' hidle
                | cons c new =>
                    refine .inr ⟨c, ?_, (hcalls c List.mem_cons_self).1⟩
                    rw [hnew]
                    exact List.mem_append_left _ List.mem_cons_self
              · obtain ⟨htid, huser, hgot, hmay, hexited⟩ := hcalls c hc
                refine ⟨List.mem_singleton.mpr htid, ti, htid ▸ hti, ?_⟩
                exact ⟨Nat.eq_zero_of_not_pos hpos, huser, hgot, hmay, hexited⟩

theorem thaw_fold_spec {L : List thid_t} (hL : L.Nodup)
    (hu : ∀ tid ∈ L, ∀ ti, th.ld.threads.find tid = some ti → ti.Uncounted) :
    ∃ th', L.foldlM (thaw_thread k) th = .ok th' ∧ ThawSteps L th th' := by
  induction L generalizing th with
  | nil =>
      exact ⟨th, rfl, fun _ _ => rfl, fun _ h => absurd h List.not_mem_nil, id, rfl, [], rfl,
        fun _ h => absurd h List.not_mem_nil⟩
  | cons tid L ih =>
      rw [List.nodup_cons] at hL
      obtain ⟨th', h1, hs1⟩ := thaw_thread_spec (k := k) (hu tid List.mem_cons_self)
      have hsame : ∀ t ∈ L, th'.ld.threads.find t = th.ld.threads.find t := by
        intro t ht
        refine hs1.others t fun h => hL.1 ?_
        rw [← List.mem_singleton.mp h]
        exact ht
      obtain ⟨th'', h2, hs2⟩ := @ih th' hL.2 (fun t ht ti hti =>
        hu t (List.mem_cons_of_mem _ ht) ti (hsame t ht ▸ hti))
      refine ⟨th'', ?_, fun t ht => ?_, fun t ht ti hti => ?_, fun h => hs1.may_run (hs2.may_run h),
        hs2.exited.trans hs1.exited, ?_⟩
      · rw [List.foldlM_cons, h1]
        exact h2
      · rw [List.mem_cons, not_or] at ht
        rw [hs2.others t ht.2, hs1.others t (by simpa using ht.1)]
      · rcases List.mem_cons.mp ht with rfl | ht
        · rw [hs2.others t hL.1]
          obtain ⟨ti', hti', hth, hunc, hrun⟩ := hs1.threads t (List.mem_singleton_self t) ti hti
          refine ⟨ti', hti', hth, hunc, fun h => (hrun h).imp_right ?_⟩
          obtain ⟨new2, hnew2, -⟩ := hs2.calls
          rintro ⟨c, hc, hct⟩
          exact ⟨c, hnew2 ▸ List.mem_append_right _ hc, hct⟩
        · exact hs2.threads t ht ti ((hsame t ht).trans hti)
      · obtain ⟨new1, hnew1, hc1⟩ := hs1.calls
        obtain ⟨new2, hnew2, hc2⟩ := hs2.calls
        refine ⟨new2 ++ new1, by rw [hnew2, hnew1, List.append_assoc], fun c hc => ?_⟩
        rcases List.mem_append.mp hc with hc | hc
        · obtain ⟨ht, ti, hti, hres⟩ := hc2 c hc
          refine ⟨List.mem_cons_of_mem _ ht, ti, (hsame _ ht).symm.trans hti, ?_⟩
          exact ⟨hres.suspend_count, hres.user_suspend, hres.got_pending_status,
            hres.may_run.imp_left hs1.may_run, hs1.exited ▸ hres.exited⟩
        · obtain ⟨ht, h⟩ := hc1 c hc
          exact ⟨by rw [List.mem_singleton.mp ht]; exact List.mem_cons_self, h⟩

theorem dbg_thaw_threads_spec (tid : thid_t) (exclude : Bool) (k : Kernel) (hu : ld.Uncounted) :
    ∃ th, dbg_thaw_threads tid exclude k ld = .ok th ∧
      ThawSteps (ld.threads.keys.filter (selected tid exclude)) ⟨ld, true, []⟩ th :=
  thaw_fold_spec (ld.threads.keys_nodup.filter _) fun tid _ ti hti => hu tid ti hti

theorem mem_selected_keys (h : ld.threads.find t = some ti) :
    t ∈ ld.threads.keys.filter (selected tid exclude) ↔ selected tid exclude t = true := by
  rw [List.mem_filter, Table.mem_keys, h]
  simp

end Thaw

/-! ### Runs -/

/-- The thread may be let run by the routine: it is not counted as suspended. -/
def Edit.Allowed : Edit → Prop
  | .sigstop => ti.state ≠ .RUNNING
  | .group_stop _ => ti.suspend_count = 0
  | .attached => ti.suspend_count = 0 ∨ ti.got_pending_status = true
  | _ => True

/-- No routine but a thaw lets run a thread that is counted as suspended. -/
def Machine.Allowed (m : Machine) : Label → Prop
  | .edit this tid e => ∀ ti, (m.srv.mods this).threads.find tid = some ti → e.Allowed ti
  | .dead_thread _ _ state => state ≠ .RUNNING
  | _ => True

/-- Freezes and thaws of one debugger that are nested properly. -/
inductive Nested (this : Nat) : Server → Server → Prop where
  | nil (srv : Server) : Nested this srv srv
  | pair {srv srv₁ srv₂ srv' : Server} {tid : thid_t} {exclude : Bool} {kill : thid_t → kill_t}
      {reports : List Report} {k : Kernel} {th : Thaw}
      (hfreeze : dbg_freeze_threads this tid exclude kill reports srv = .ok (some srv₁))
      (hbody : Nested this srv₁ srv₂)
      (hthaw : dbg_thaw_threads tid exclude k (srv₂.mods this) = .ok th)
      (hrest : Nested this (srv₂.thawed this th) srv') : Nested this srv srv'

section Runs

variable {m m' : Machine} {l : Label} {ld ld' : linux_debmod_t} {srv srv' : Server} {this : Nat} {tid : thid_t}
  {exclude : Bool} {kill : thid_t → kill_t} {reports : List Report} {k : Kernel} {order : List Nat}

theorem Server.Settles.uncounted (h : srv.Settles srv') (hu : ∀ i, (srv.mods i).Uncounted) (i : Nat) :
    (srv'.mods i).Uncounted := by
  intro t ti' hti'
  have hrel := h i t
  rw [hti'] at hrel
  cases hti : (srv.mods i).threads.find t with
  | none =>
      rw [hti] at hrel
      cases hrel
  | some ti =>
      rw [hti] at hrel
      cases hrel with
      | some hs => exact hs.uncounted (hu i t ti hti)

theorem uncounted_set (hu : ∀ i, (srv.mods i).Uncounted) (h : ld.Uncounted) (i : Nat) :
    ((srv.set this ld).mods i).Uncounted := by
  rw [Server.set_mods]
  split
  · exact h
  · exact hu i

theorem uncounted_modify {f : thread_info_t → thread_info_t} (hu : ld.Uncounted)
    (hf : ∀ ti, ld.threads.find tid = some ti → ti.Uncounted → (f ti).Uncounted) : (ld.modify tid f).Uncounted := by
  intro t ti' hti'
  rw [linux_debmod_t.modify, Table.find_modify] at hti'
  split at hti'
  · next ht =>
      subst ht
      rw [Option.map_eq_some_iff] at hti'
      obtain ⟨ti, hti, rfl⟩ := hti'
      exact hf ti hti (hu _ ti hti)
  · exact hu t ti' hti'

theorem uncounted_freeze_select (hu : ld.Uncounted) : (freeze_select tid exclude kill ld).ld.Uncounted := by
  intro t ti' hti'
  cases hti : ld.threads.find t with
  | none =>
      rw [freeze_select_find_none hti] at hti'
      exact absurd hti' (by simp)
  | some ti =>
      rw [freeze_select_find hti] at hti'
      obtain rfl := Option.some.inj hti'
      split
      · exact freeze_uncounted (hu t ti hti)
      · exact hu t ti hti

theorem uncounted_thaw {th : Thaw} (hu : ld.Uncounted) (h : dbg_thaw_threads tid exclude k ld = .ok th) :
    th.ld.Uncounted := by
  obtain ⟨th', hth', hs⟩ := dbg_thaw_threads_spec tid exclude k hu
  obtain rfl := Except.ok.inj (h.symm.trans hth')
  intro t ti' hti'
  by_cases ht : t ∈ ld.threads.keys.filter (selected tid exclude)
  · obtain ⟨ti, hti⟩ := Option.isSome_iff_exists.mp (Table.mem_keys.mp (List.mem_filter.mp ht).1)
    obtain ⟨ti'', hti'', -, hunc, -⟩ := hs.threads t ht ti hti
    rw [hti''] at hti'
    exact Option.some.inj hti' ▸ hunc
  · rw [hs.others t ht] at hti'
    exact hu t ti' hti'

theorem uncounted_dead {state : thstate_t} (hu : ld.Uncounted) (hne : state ≠ .RUNNING)
    (h : dead_thread tid state ld = .ok ld') : ld'.Uncounted := by
  by_cases hd : state = .DEAD
  · subst hd
    obtain ⟨ld'', hld, hfind⟩ := dead_thread_spec tid ld
    obtain rfl := Except.ok.inj (h.symm.trans hld)
    intro t ti hti
    rw [hfind] at hti
    split at hti
    · exact absurd hti (by simp)
    · exact hu t ti hti
  · rw [dead_thread, if_neg hd] at h
    split at h
    · obtain rfl := Except.ok.inj h
      refine uncounted_modify hu fun ti _ _ hrun => ?_
      rw [is_running_iff] at hrun
      exact absurd hrun.1 hne
    · obtain rfl := Except.ok.inj h
      exact hu

theorem uncounted_dead_threads {deadtids : List thid_t} (hu : ld.Uncounted)
    (h : deadtids.foldlM (fun ld tid => dead_thread tid .DEAD ld) ld = .ok ld') : ld'.Uncounted := by
  obtain ⟨ld'', hld, hfind⟩ := dead_threads_spec deadtids ld
  obtain rfl := Except.ok.inj (h.symm.trans hld)
  intro t ti hti
  rw [hfind] at hti
  split at hti
  · exact absurd hti (by simp)
  · exact hu t ti hti

theorem uncounted_retrieve {r : Option (thid_t × status_t)} (hu : ld.Uncounted)
    (h : retrieve_pending_signal ld = .ok (r, ld')) : ld'.Uncounted := by
  rcases retrieve_spec h with ⟨-, rfl⟩ | ⟨tid, ti, -, hti, hready, rfl⟩
  · exact hu
  · refine @uncounted_modify ld _ _ hu fun ti' hti' _ _ => ?_
    obtain rfl := Option.some.inj (hti.symm.trans hti')
    have hzero := count_of_ready hready
    exact hzero

theorem Edit.Allowed.uncounted {e : Edit} {ti : thread_info_t} (h : e.Allowed ti) (hu : ti.Uncounted) :
    (e.apply ti).Uncounted := by
  cases e with
  | event =>
      intro hrun
      rw [is_running_iff] at hrun
      exact absurd hrun.1 (by simp [Edit.apply])
  | sigstop =>
      intro hrun
      rw [is_running_iff] at hrun
      exact absurd hrun.1 h
  | group_stop status => exact fun _ => h
  | signum code => exact hu
  | single_step on => exact hu
  | user_suspend => exact hu
  | user_continue => exact hu
  | dying =>
      rw [Edit.apply]
      split
      · exact fun _ => rfl
      · exact hu
  | expect =>
      intro hrun
      rw [is_running_iff] at hrun
      exact absurd hrun.2.1 (by simp [Edit.apply])
  | attached =>
      intro hrun
      rw [is_running_iff] at hrun
      rcases h with h | h
      · exact h
      · have hgot : ti.got_pending_status = false := hrun.2.2
        rw [hgot] at h
        exact absurd h (by decide)

theorem step_uncounted (h : Step m l m') (hl : m.Allowed l) (hu : ∀ i, (m.srv.mods i).Uncounted) :
    ∀ i, (m'.srv.mods i).Uncounted := by
  cases h with
  | store h => exact (store_pending_signal_settles h).uncounted hu
  | retrieve h => exact uncounted_set hu (uncounted_retrieve (hu _) h)
  | freeze h =>
      subst h
      exact uncounted_set hu (uncounted_freeze_select (hu _))
  | report h => exact (freeze_report_settles h).uncounted hu
  | frozen h => exact uncounted_set hu (uncounted_dead_threads (hu _) h)
  | thaw h => exact uncounted_set hu (uncounted_thaw (hu _) h)
  | @add_thread srv this tid =>
      refine uncounted_set hu fun t ti hti => ?_
      cases hno : (srv.mods this).threads.find tid with
      | some ti' =>
          rw [add_thread, Table.insertNew_of_mem hno] at hti
          exact hu this t ti hti
      | none =>
          rw [add_thread, Table.find_insertNew hno] at hti
          split at hti
          · obtain rfl := Option.some.inj hti
            exact fun _ => rfl
          · exact hu this t ti hti
  | @del_thread srv this tid ld h =>
      refine uncounted_set hu fun t ti hti => ?_
      rw [del_thread] at h
      split at h
      · exact absurd h (by simp)
      obtain rfl := Except.ok.inj h
      rw [Table.find_erase] at hti
      split at hti
      · exact absurd hti (by simp)
      · exact hu this t ti hti
  | dead_thread h => exact uncounted_set hu (uncounted_dead (hu _) hl h)
  | edit => exact uncounted_set hu (uncounted_modify (hu _) fun ti hti => (hl ti hti).uncounted)
  | other => exact uncounted_set hu (hu _)

variable {trace : List (Mailbox.Move (Nat × thid_t) status_t)}

theorem Run.uncounted
    (h : Run Machine.Allowed order trace m) : ∀ i, (m.srv.mods i).Uncounted := by
  induction h with
  | start =>
      intro i t ti hti
      exact absurd hti (by simp [Machine.start, linux_debmod_t.start, Table.empty, Table.find])
  | step _ hs hp ih => exact step_uncounted hs hp ih

theorem Run.freeze_wait {queue deadtids : List thid_t}
    (h : Run Machine.Allowed order trace ⟨srv, some ⟨this, queue, deadtids⟩⟩)
    (hw : freeze_wait this reports queue srv = .ok (some srv')) :
    ∃ trace', Run Machine.Allowed order trace' ⟨srv', some ⟨this, [], deadtids⟩⟩ := by
  induction reports generalizing queue srv trace with
  | nil =>
      cases queue with
      | nil =>
          obtain rfl := Option.some.inj (Except.ok.inj hw)
          exact ⟨trace, h⟩
      | cons q queue => cases hw
  | cons r rest ih =>
      cases queue with
      | nil =>
          obtain rfl := Option.some.inj (Except.ok.inj hw)
          exact ⟨trace, h⟩
      | cons q queue =>
          change freeze_report _ _ _ _ >>= _ = _ at hw
          cases hr : freeze_report this r (q :: queue) srv with
          | error n =>
              rw [hr] at hw
              cases hw
          | ok x =>
              obtain ⟨queue', srv''⟩ := x
              rw [hr] at hw
              exact ih (h.step (.report hr) trivial) hw

theorem Run.freeze
    (h : Run Machine.Allowed order trace ⟨srv, none⟩)
    (hf : dbg_freeze_threads this tid exclude kill reports srv = .ok (some srv')) :
    ∃ trace', Run Machine.Allowed order trace' ⟨srv', none⟩ := by
  rw [dbg_freeze_threads] at hf
  simp only [bind, Except.bind] at hf
  split at hf
  · exact absurd hf (by simp)
  rename_i r hr
  cases r with
  | none => exact absurd (Except.ok.inj hf) (by simp)
  | some srv'' =>
      obtain ⟨ld, hld, -⟩ := dead_threads_spec
        (freeze_select tid exclude kill (srv.mods this)).deadtids (srv''.mods this)
      simp only [hld] at hf
      obtain rfl := Option.some.inj (Except.ok.inj hf)
      obtain ⟨trace', h'⟩ := (h.step (l := .freeze this tid exclude kill) (.freeze rfl) trivial).freeze_wait hr
      exact ⟨_, h'.step (.frozen hld) trivial⟩

theorem Run.nested (hn : Nested this srv srv')
    (h : Run Machine.Allowed order trace ⟨srv, none⟩) :
    ∃ trace', Run Machine.Allowed order trace' ⟨srv', none⟩ := by
  induction hn generalizing trace with
  | nil srv => exact ⟨trace, h⟩
  | pair hf _ ht _ ihb ihr =>
      obtain ⟨_, h₁⟩ := h.freeze hf
      obtain ⟨_, h₂⟩ := ihb h₁
      exact ihr (h₂.step (.thaw ht) trivial)

variable {t : thid_t} {ti' : thread_info_t}

theorem thaw_count {th : Thaw} (hu : ld.Uncounted)
    (h : dbg_thaw_threads tid exclude k ld = .ok th) (hti' : th.ld.threads.find t = some ti') :
    ∃ ti, ld.threads.find t = some ti ∧
      ti'.suspend_count = if selected tid exclude t then ti.suspend_count - 1 else ti.suspend_count := by
  obtain ⟨th', hth', hs⟩ := dbg_thaw_threads_spec tid exclude k hu
  obtain rfl := Except.ok.inj (h.symm.trans hth')
  by_cases ht : t ∈ ld.threads.keys.filter (selected tid exclude)
  · obtain ⟨hkey, hsel⟩ := List.mem_filter.mp ht
    obtain ⟨ti, hti⟩ := Option.isSome_iff_exists.mp (Table.mem_keys.mp hkey)
    obtain ⟨ti'', hti'', hth, -⟩ := hs.threads t ht ti hti
    obtain rfl := Option.some.inj (hti'.symm.trans hti'')
    refine ⟨ti, hti, ?_⟩
    rw [if_pos hsel]
    exact hth.suspend_count
  · rw [hs.others t ht] at hti'
    rw [mem_selected_keys hti'] at ht
    refine ⟨ti', hti', ?_⟩
    rw [if_neg ht]

theorem freeze_thread_count
    (hf : dbg_freeze_threads this tid exclude kill reports srv = .ok (some srv'))
    (hti' : (srv'.mods this).threads.find t = some ti') : ∃ ti, (srv.mods this).threads.find t = some ti ∧
      ti'.suspend_count = if selected tid exclude t then (ti.freeze (kill t)).suspend_count else ti.suspend_count := by
  obtain ⟨ti, hti, hs, -⟩ := dbg_freeze_threads_spec hf hti'
  refine ⟨ti, hti, hs.count.trans ?_⟩
  split <;> rfl

theorem Nested.count (hn : Nested this srv srv')
    (h : Run Machine.Allowed order trace ⟨srv, none⟩)
    (hti' : (srv'.mods this).threads.find t = some ti') :
    ∃ ti, (srv.mods this).threads.find t = some ti ∧ ti'.suspend_count = ti.suspend_count := by
  induction hn generalizing trace ti' with
  | nil srv => exact ⟨ti', hti', rfl⟩
  | @pair srv srv₁ srv₂ srv' tid exclude kill reports k th hf hb ht _ ihb ihr =>
      obtain ⟨_, h₁⟩ := h.freeze hf
      obtain ⟨_, h₂⟩ := Run.nested hb h₁
      obtain ⟨ti₃, hti₃, hcount⟩ := ihr (h₂.step (.thaw ht) trivial) hti'
      rw [Server.thawed] at hti₃
      change ((srv₂.set this th.ld).mods this).threads.find t = some ti₃ at hti₃
      rw [Server.set_mods_self] at hti₃
      obtain ⟨ti₂, hti₂, hthaw⟩ := thaw_count (h₂.uncounted this) ht hti₃
      obtain ⟨ti₁, hti₁, hbody⟩ := ihb h₁ hti₂
      obtain ⟨ti, hti, hfreeze⟩ := freeze_thread_count hf hti₁
      refine ⟨ti, hti, ?_⟩
      rw [hcount, hthaw, hbody, hfreeze]
      split
      · exact freeze_count (h.uncounted this t ti hti)
      · rfl

/-- What a thaw does after a freeze with the same selection. -/
structure Restores (this : Nat) (tid : thid_t) (exclude : Bool) (srv srv' : Server) (th : Thaw) : Prop where
  counts : ∀ t ti', th.ld.threads.find t = some ti' → selected tid exclude t = true →
    ∃ ti, (srv.mods this).threads.find t = some ti ∧ ti'.suspend_count = ti.suspend_count
  resumed : ∀ c ∈ th.calls, selected tid exclude c.tid = true ∧
    ∃ ti, (srv'.mods this).threads.find c.tid = some ti ∧ Resumable (srv'.mods this) ti
  running : ∀ t ti', th.ld.threads.find t = some ti' → ti'.is_running = true →
    (∃ ti, (srv'.mods this).threads.find t = some ti ∧ ti.is_running = true) ∨ ∃ c ∈ th.calls, c.tid = t
  untouched : ∀ t, selected tid exclude t = false → th.ld.threads.find t = (srv'.mods this).threads.find t

theorem restores_of_freeze
    (h : Run Machine.Allowed order trace ⟨srv, none⟩)
    (hf : dbg_freeze_threads this tid exclude kill reports srv = .ok (some srv')) (k : Kernel) :
    ∃ th, dbg_thaw_threads tid exclude k (srv'.mods this) = .ok th ∧ Restores this tid exclude srv srv' th := by
  obtain ⟨_, h'⟩ := h.freeze hf
  obtain ⟨th, hth, hs⟩ := dbg_thaw_threads_spec tid exclude k (h'.uncounted this)
  refine ⟨th, hth, ?_, ?_, ?_, ?_⟩
  · intro t ti'' hti'' hsel
    obtain ⟨ti', hti', hthaw⟩ := thaw_count (h'.uncounted this) hth hti''
    obtain ⟨ti, hti, hfreeze⟩ := freeze_thread_count hf hti'
    rw [if_pos hsel] at hthaw hfreeze
    exact ⟨ti, hti, by rw [hthaw, hfreeze, freeze_count (h.uncounted this t ti hti)]⟩
  · intro c hc
    obtain ⟨new, hnew, hcalls⟩ := hs.calls
    rw [hnew, List.append_nil] at hc
    obtain ⟨hmem, hres⟩ := hcalls c hc
    exact ⟨(List.mem_filter.mp hmem).2, hres⟩
  · intro t ti'' hti'' hrun
    obtain ⟨ti', hti', -⟩ := thaw_count (h'.uncounted this) hth hti''
    by_cases ht : t ∈ (srv'.mods this).threads.keys.filter (selected tid exclude)
    · obtain ⟨tj, htj, -, -, hr⟩ := hs.threads t ht ti' hti'
      obtain rfl := Option.some.inj (hti''.symm.trans htj)
      rcases hr hrun with hr | hr
      · exact .inl ⟨ti', hti', hr⟩
      · exact .inr hr
    · rw [hs.others t ht] at hti''
      exact .inl ⟨ti'', hti'', hrun⟩
  · intro t hsel
    refine hs.others t fun ht => ?_
    rw [(List.mem_filter.mp ht).2] at hsel
    exact absurd hsel (by decide)

/-- In every state that is reached: freezing fails at most where a status arrives on top of a kept one,
and stops the selected threads that can be asked to stop. Thawing them never fails, restores their
counts and resumes only what may be resumed. Pairs may be nested. -/
theorem freeze_thaw {trace : List (Mailbox.Move (Nat × thid_t) status_t)}
    (h : Run Machine.Allowed order trace ⟨srv, none⟩) :
    (∀ n, dbg_freeze_threads this tid exclude kill reports srv = .error n → n = 30185) ∧
    (∀ srv', dbg_freeze_threads this tid exclude kill reports srv = .ok (some srv') →
      (∀ t ti, (srv'.mods this).threads.find t = some ti → selected tid exclude t = true →
        kill t ≠ .failed → ti.is_running = false) ∧
      ∀ k, ∃ th, dbg_thaw_threads tid exclude k (srv'.mods this) = .ok th ∧
        Restores this tid exclude srv srv' th) ∧
    ∀ srv', Nested this srv srv' →
      (∃ trace', Run Machine.Allowed order trace' ⟨srv', none⟩) ∧
      ∀ t ti', (srv'.mods this).threads.find t = some ti' →
        ∃ ti, (srv.mods this).threads.find t = some ti ∧ ti'.suspend_count = ti.suspend_count := by
  refine ⟨fun n => dbg_freeze_threads_error, fun srv' hf => ⟨?_, restores_of_freeze h hf⟩,
    fun srv' hn => ⟨Run.nested hn h, fun t ti' => hn.count h⟩⟩
  intro t ti' hti' hsel hkill
  obtain ⟨ti, -, hs, hdead⟩ := dbg_freeze_threads_spec hf hti'
  rw [if_pos hsel] at hs
  exact hs.stopped (freeze_stopped (fun hk => absurd hk hkill) (hdead hsel))

end Runs

section Example

def exampleKernel : Kernel := ⟨fun _ => true, fun _ => false⟩

def exampleRunning : Server :=
  exampleServer.set 0 ((exampleServer.mods 0).modify 5 (Edit.apply .attached))

def exampleDying : Server := exampleServer.set 0 ((exampleServer.mods 0).die 5 .DYING)

theorem example_running : Run Machine.Allowed [0] [] ⟨exampleRunning, none⟩ := by
  refine Run.step (l := .edit 0 5 .attached) (Run.step (l := .add_thread 0 5) .start example_add trivial) .edit ?_
  intro ti hti
  obtain rfl := Option.some.inj (hti.symm.trans (show (exampleServer.mods 0).threads.find 5 = some {} from rfl))
  exact .inl rfl

theorem example_dying : Run Machine.Allowed [0] [] ⟨exampleDying, none⟩ :=
  Run.step (l := .dead_thread 0 5 .DYING) (Run.step (l := .add_thread 0 5) .start example_add trivial)
    (.dead_thread rfl) (by simp [Machine.Allowed])

theorem freeze_thaw_running :
    ∃ srv', dbg_freeze_threads 0 5 false (fun _ => .sent) [⟨5, 0x137f⟩] exampleRunning = .ok (some srv') ∧
      (srv'.mods 0).threads.find 5 = some { suspend_count := 1 } ∧
      ∃ th, dbg_thaw_threads 5 false exampleKernel (srv'.mods 0) = .ok th ∧
        Restores 0 5 false exampleRunning srv' th := by
  obtain ⟨srv', hf⟩ : ∃ srv', dbg_freeze_threads 0 5 false (fun _ => .sent) [⟨5, 0x137f⟩] exampleRunning =
      .ok (some srv') := ⟨_, rfl⟩
  refine ⟨srv', hf, ?_, ((freeze_thaw example_running).2.1 srv' hf).2 exampleKernel⟩
  obtain rfl := Option.some.inj (Except.ok.inj hf.symm)
  rfl

/-- A thread to which no SIGSTOP can be sent is still running after the freeze, and a thread that is
about to die is resumed although the application may not run. -/
theorem not_freeze_thaw :
    (¬∀ (order : List Nat) (trace : List (Mailbox.Move (Nat × thid_t) status_t)) (srv srv' : Server) (this : Nat)
        (tid : thid_t) (exclude : Bool) (kill : thid_t → kill_t) (reports : List Report),
      Run Machine.Allowed order trace ⟨srv, none⟩ →
      dbg_freeze_threads this tid exclude kill reports srv = .ok (some srv') →
      ∀ t ti, (srv'.mods this).threads.find t = some ti → selected tid exclude t = true → ti.is_running = false) ∧
    ¬∀ (order : List Nat) (trace : List (Mailbox.Move (Nat × thid_t) status_t)) (srv srv' : Server) (this : Nat)
        (tid : thid_t) (exclude : Bool) (kill : thid_t → kill_t) (reports : List Report) (k : Kernel) (th : Thaw),
      Run Machine.Allowed order trace ⟨srv, none⟩ →
      dbg_freeze_threads this tid exclude kill reports srv = .ok (some srv') →
      dbg_thaw_threads tid exclude k (srv'.mods this) = .ok th → th.calls ≠ [] → (srv'.mods this).may_run = true := by
  constructor
  · intro h
    have hrun := h [0] [] exampleRunning _ 0 5 false (fun _ => .failed) [] example_running rfl 5 _ rfl rfl
    exact absurd hrun (by decide)
  · intro h
    have hmay := h [0] [] exampleDying _ 0 0 true (fun _ => .sent) [] exampleKernel _ example_dying rfl rfl
      (List.cons_ne_nil _ _)
    exact absurd hmay (by decide)

end Example

end IdaSdk.LinuxThreads
