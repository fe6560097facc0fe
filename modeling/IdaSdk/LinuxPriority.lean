import IdaSdk.LinuxPending

/-!
Which thread a pending status is taken from. The thread of the last event goes first, then threads that step, then
threads at a breakpoint; but the last pass over the threads forgets what the passes before it have found.
-/

namespace IdaSdk.LinuxThreads

/-- A thread with a status that is not suspended. -/
def linux_debmod_t.Ready (ld : linux_debmod_t) (tid : thid_t) (ti : thread_info_t) : Prop :=
  ld.threads.find tid = some ti ∧ ti.ready = true

def linux_debmod_t.priority (ld : linux_debmod_t) (tid : thid_t) (ti : thread_info_t) : Nat :=
  if tid = ld.last_event_tid then 3 else if ti.single_step then 2 else if is_bpt_status ti.pending_status then 1 else 0

def linux_debmod_t.Best (ld : linux_debmod_t) (tid : thid_t) (ti : thread_info_t) : Prop :=
  ∀ tid' ti', ld.Ready tid' ti' → ld.priority tid' ti' ≤ ld.priority tid ti

/-- The status of a thread with the highest priority is taken, and nothing else changes. -/
structure TakesStatus (ld : linux_debmod_t) (tid : thid_t) (status : status_t) (ld' : linux_debmod_t) : Prop where
  ready : ∃ ti, ld.Ready tid ti ∧ status = ti.pending_status ∧ ld.Best tid ti
  state : ld' = { ld.modify tid fun ti => { ti with got_pending_status := false } with
    npending_signals := ld.npending_signals - 1 }

/-- A status is found if there is one, of a thread with the highest priority. -/
structure TakesByPriority (ld : linux_debmod_t) : Prop where
  ends : ∃ r, retrieve_pending_signal ld = .ok r
  found : ∀ r ld', retrieve_pending_signal ld = .ok (r, ld') → (r.isSome = true ↔ ∃ tid ti, ld.Ready tid ti)
  none : ∀ ld', retrieve_pending_signal ld = .ok (none, ld') → ld' = ld
  taken : ∀ tid status ld', retrieve_pending_signal ld = .ok (some (tid, status), ld') → TakesStatus ld tid status ld'

/-- The thread of the last event is ready, or the first thread that is ready steps if any of them does, and is at a
breakpoint if any of them is and none steps. -/
def linux_debmod_t.FirstIsBest (ld : linux_debmod_t) : Prop :=
  (∃ ti, ld.Ready ld.last_event_tid ti) ∨
    ∀ tid ti, ld.Ready tid ti → (∀ tid' ti', ld.Ready tid' ti' → tid ≤ tid') → ∀ tid' ti', ld.Ready tid' ti' →
      (ti'.single_step = true → ti.single_step = true) ∧
        (is_bpt_status ti'.pending_status = true → ti.single_step = true ∨ is_bpt_status ti.pending_status = true)

variable {ld ld' : linux_debmod_t} {tid : thid_t} {ti : thread_info_t}

theorem mem_ready : ld.Ready tid ti ↔ (tid, ti) ∈ ld.threads.entries ∧ ti.ready = true := by
  rw [linux_debmod_t.Ready, Table.find_eq_some]

variable {ti' : thread_info_t}

theorem Ready.unique (h : ld.Ready tid ti) (h' : ld.Ready tid ti') : ti = ti' :=
  Option.some.inj (h.1.symm.trans h'.1)

theorem last_pass_some : retrieve_pending_signal.pass ld 2 = some tid ↔
    ∃ ti, ld.Ready tid ti ∧ ∀ tid' ti', ld.Ready tid' ti' → tid ≤ tid' := by
  have hpass : retrieve_pending_signal.pass ld 2 = (ld.threads.entries.find? fun p => p.2.ready).map Prod.fst := by
    rw [retrieve_pending_signal.pass]
    refine congrArg (fun p => (ld.threads.entries.find? p).map Prod.fst) (funext fun p => ?_)
    exact Bool.and_true _
  rw [hpass, Option.map_eq_some_iff]
  constructor
  · rintro ⟨⟨tid, ti⟩, hfind, rfl⟩
    obtain ⟨hmem, hready, hfirst⟩ := Table.find?_first.1 hfind
    exact ⟨ti, mem_ready.2 ⟨hmem, hready⟩, fun tid' ti' h => hfirst (tid', ti') (mem_ready.1 h).1 (mem_ready.1 h).2⟩
  · rintro ⟨ti, hready, hfirst⟩
    refine ⟨(tid, ti), Table.find?_first.2 ⟨(mem_ready.1 hready).1, hready.2, fun e he hp => ?_⟩, rfl⟩
    exact hfirst e.1 e.2 (mem_ready.2 ⟨he, hp⟩)

theorem last_pass_none : retrieve_pending_signal.pass ld 2 = none ↔ ∀ tid ti, ¬ld.Ready tid ti := by
  rw [retrieve_pending_signal.pass, Option.map_eq_none_iff, List.find?_eq_none]
  constructor
  · intro h tid ti hready
    have hnot := h (tid, ti) (mem_ready.1 hready).1
    rw [hready.2] at hnot
    exact hnot rfl
  · intro h e he hp
    rw [Bool.and_eq_true] at hp
    exact h e.1 e.2 (mem_ready.2 ⟨he, hp.1⟩)

theorem pick_last (h : ld.Ready ld.last_event_tid ti) : retrieve_pending_signal.pick ld = some ld.last_event_tid := by
  rw [retrieve_pending_signal.pick, h.1]
  exact if_pos h.2

theorem pick_search (h : ∀ ti, ¬ld.Ready ld.last_event_tid ti) :
    retrieve_pending_signal.pick ld = retrieve_pending_signal.pass ld 2 := by
  rw [retrieve_pending_signal.pick]
  cases hlast : ld.threads.find ld.last_event_tid with
  | none => rfl
  | some ti => exact if_neg fun hready => h ti ⟨hlast, hready⟩

theorem pick_none : retrieve_pending_signal.pick ld = none ↔ ∀ tid ti, ¬ld.Ready tid ti := by
  by_cases hlast : ∃ ti, ld.Ready ld.last_event_tid ti
  · obtain ⟨ti, hti⟩ := hlast
    rw [pick_last hti]
    exact iff_of_false nofun fun h => h _ ti hti
  · rw [pick_search fun ti hti => hlast ⟨ti, hti⟩, last_pass_none]

theorem retrieve_none (h : retrieve_pending_signal.pick ld = none) : retrieve_pending_signal ld = .ok (none, ld) := by
  rw [retrieve_pending_signal, h]
  exact ite_self _

theorem retrieve_some (hn : 0 < ld.npending_signals) (h : retrieve_pending_signal.pick ld = some tid)
    (hti : ld.threads.find tid = some ti) :
    retrieve_pending_signal ld = .ok (some (tid, ti.pending_status),
      { ld.modify tid fun ti => { ti with got_pending_status := false } with
        npending_signals := ld.npending_signals - 1 }) := by
  rw [retrieve_pending_signal, if_neg (by omega), h]
  simp only [hti]
  rw [if_neg (by omega)]

theorem ready_of_picked (h : retrieve_pending_signal.pick ld = some tid) : ∃ ti, ld.Ready tid ti := by
  by_cases hlast : ∃ ti, ld.Ready ld.last_event_tid ti
  · obtain ⟨ti, hti⟩ := hlast
    obtain rfl := Option.some.inj ((pick_last hti).symm.trans h)
    exact ⟨ti, hti⟩
  · rw [pick_search fun ti hti => hlast ⟨ti, hti⟩] at h
    obtain ⟨ti, hti, _⟩ := last_pass_some.1 h
    exact ⟨ti, hti⟩

theorem priority_le_last (ld : linux_debmod_t) (tid : thid_t) (ti ti' : thread_info_t) :
    ld.priority tid ti ≤ ld.priority ld.last_event_tid ti' := by
  rw [linux_debmod_t.priority, linux_debmod_t.priority, if_pos rfl]
  split_ifs <;> decide

theorem priority_le_iff {tid' : thid_t} (h : tid ≠ ld.last_event_tid)
    (h' : tid' ≠ ld.last_event_tid) : ld.priority tid' ti' ≤ ld.priority tid ti ↔
      (ti'.single_step = true → ti.single_step = true) ∧
        (is_bpt_status ti'.pending_status = true → ti.single_step = true ∨ is_bpt_status ti.pending_status = true) := by
  rw [linux_debmod_t.priority, linux_debmod_t.priority, if_neg h, if_neg h']
  cases ti'.single_step <;> cases is_bpt_status ti'.pending_status <;> cases ti.single_step <;>
    cases is_bpt_status ti.pending_status <;> decide

theorem picks_best_iff : (∀ tid ti, retrieve_pending_signal.pick ld = some tid → ld.Ready tid ti → ld.Best tid ti) ↔
    ld.FirstIsBest := by
  by_cases hlast : ∃ ti, ld.Ready ld.last_event_tid ti
  · refine iff_of_true (fun tid ti hpick _ tid' ti' _ => ?_) (Or.inl hlast)
    obtain ⟨ti₀, hti₀⟩ := hlast
    obtain rfl := Option.some.inj ((pick_last hti₀).symm.trans hpick)
    exact priority_le_last ld tid' ti' ti
  · have hother {tid : thid_t} {ti : thread_info_t} (h : ld.Ready tid ti) : tid ≠ ld.last_event_tid := by
      rintro rfl
      exact hlast ⟨ti, h⟩
    rw [linux_debmod_t.FirstIsBest, or_iff_right hlast, pick_search fun ti hti => hlast ⟨ti, hti⟩]
    constructor
    · intro h tid ti hready hfirst tid' ti' hready'
      exact (priority_le_iff (hother hready) (hother hready')).1
        (h tid ti (last_pass_some.2 ⟨ti, hready, hfirst⟩) hready tid' ti' hready')
    · intro h tid ti hpass hready tid' ti' hready'
      obtain ⟨ti₀, hti₀, hfirst⟩ := last_pass_some.1 hpass
      obtain rfl := Ready.unique hready hti₀
      exact (priority_le_iff (hother hready) (hother hready')).2 (h tid ti hready hfirst tid' ti' hready')

/-- A status is taken by priority exactly if the thread that the last pass finds is one of the best. -/
theorem takesByPriority_iff (hn : 0 < ld.npending_signals) : TakesByPriority ld ↔ ld.FirstIsBest := by
  rw [← picks_best_iff]
  constructor
  · intro h tid ti hpick hready tid' ti' hready'
    have htaken := h.taken tid ti.pending_status _ (retrieve_some hn hpick hready.1)
    obtain ⟨ti₀, hti₀, _, hbest⟩ := htaken.ready
    obtain rfl := Ready.unique hready hti₀
    exact hbest tid' ti' hready'
  · intro h
    cases hpick : retrieve_pending_signal.pick ld with
    | none =>
        have hnone := retrieve_none hpick
        refine ⟨⟨_, hnone⟩, fun r ld' hr => ?_, fun ld' hr => ?_, fun tid status ld' hr => ?_⟩
        · obtain ⟨rfl, rfl⟩ := Prod.mk.inj (Except.ok.inj (hnone.symm.trans hr))
          exact iff_of_false nofun fun ⟨tid, ti, hready⟩ => pick_none.1 hpick tid ti hready
        · exact (Prod.mk.inj (Except.ok.inj (hnone.symm.trans hr))).2.symm
        · exact nomatch (Prod.mk.inj (Except.ok.inj (hnone.symm.trans hr))).1
    | some tid =>
        obtain ⟨ti, hready⟩ := ready_of_picked hpick
        have hsome := retrieve_some hn hpick hready.1
        refine ⟨⟨_, hsome⟩, fun r ld' hr => ?_, fun ld' hr => ?_, fun tid' status ld' hr => ?_⟩
        · obtain ⟨rfl, rfl⟩ := Prod.mk.inj (Except.ok.inj (hsome.symm.trans hr))
          exact iff_of_true rfl ⟨tid, ti, hready⟩
        · exact nomatch (Prod.mk.inj (Except.ok.inj (hsome.symm.trans hr))).1
        · obtain ⟨hstatus, rfl⟩ := Prod.mk.inj (Except.ok.inj (hsome.symm.trans hr))
          obtain ⟨rfl, rfl⟩ := Prod.mk.inj (Option.some.inj hstatus)
          exact ⟨⟨ti, hready, rfl, h tid ti hpick hready⟩, rfl⟩

/-- Thread 1 has a SIGSTOP, thread 2 has finished a step. -/
def stepBehind : linux_debmod_t :=
  { linux_debmod_t.start with
    threads := (Table.empty.insertNew 1 { got_pending_status := true, pending_status := 0x137f }).insertNew 2
      { got_pending_status := true, pending_status := 0x57f, single_step := true }
    npending_signals := 2 }

theorem takesByPriority_iff_stepBehind : TakesByPriority stepBehind ↔ stepBehind.FirstIsBest :=
  takesByPriority_iff (by decide)

/-- The status of thread 1 is taken. -/
theorem not_takesByPriority_stepBehind : ¬TakesByPriority stepBehind := by
  intro h
  have hpick : retrieve_pending_signal stepBehind = .ok (some (1, 0x137f),
      { stepBehind.modify 1 fun ti => { ti with got_pending_status := false } with npending_signals := 1 }) := rfl
  obtain ⟨ti, hready, _, hbest⟩ := (h.taken 1 0x137f _ hpick).ready
  have hti : ti = { got_pending_status := true, pending_status := 0x137f } :=
    Option.some.inj (hready.1.symm.trans (show _ = some _ from rfl))
  have hle := hbest 2 { got_pending_status := true, pending_status := 0x57f, single_step := true } ⟨rfl, rfl⟩
  rw [hti] at hle
  exact absurd hle (by decide)

end IdaSdk.LinuxThreads
