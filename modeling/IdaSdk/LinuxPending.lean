import Mathlib.Tactic.Common
import IdaSdk.LibMailbox
import IdaSdk.LinuxThreads

/-!
The statuses that the Linux server keeps for later. Each thread is a mailbox that holds one status;
`npending_signals` counts the full ones. A run of the server goes by calls, except that a freeze goes
by the reports of the kernel, which come in any order.
-/

namespace IdaSdk.LinuxThreads

open Mailbox

/-! ### Mailboxes -/

variable (ld : linux_debmod_t)

def linux_debmod_t.pending (tid : thid_t) : Option status_t :=
  (ld.threads.find tid).bind fun ti => if ti.got_pending_status then some ti.pending_status else none

def Server.pending (srv : Server) : Nat × thid_t → Option status_t := fun x => (srv.mods x.1).pending x.2

/-- The number of threads for which a status is kept. -/
def linux_debmod_t.npending : Nat :=
  ld.threads.count fun ti => ti.got_pending_status

def linux_debmod_t.Balanced : Prop := ld.npending_signals = ld.npending

/-- A step of the server, with what it means for the mailboxes. -/
structure Server.Goes (srv : Server) (moves : List (Move (Nat × thid_t) status_t)) (srv' : Server) : Prop where
  counter : (∀ i, (srv.mods i).Balanced) → ∀ i, (srv'.mods i).Balanced
  box : run srv.pending moves = some srv'.pending

section Mailboxes

variable {srv srv' srv'' : Server} {ld ld' ld'' : linux_debmod_t} {this : Nat} {tid : thid_t} {ti : thread_info_t}
  {moves moves' : List (Move (Nat × thid_t) status_t)}

theorem Server.Goes.refl (srv : Server) : srv.Goes [] srv := ⟨id, rfl⟩

theorem Server.Goes.trans (h : srv.Goes moves srv') (h' : srv'.Goes moves' srv'') :
    srv.Goes (moves ++ moves') srv'' := by
  refine ⟨fun hb => h'.counter (h.counter hb), ?_⟩
  rw [run_append, h.box]
  exact h'.box

theorem pending_set :
    (srv.set this ld).pending = fun x => if x.1 = this then ld.pending x.2 else srv.pending x := by
  funext x
  rw [Server.pending, Server.set_mods]
  split <;> rfl

theorem balanced_set (hall : ∀ i, (srv.mods i).Balanced) (h : ld.Balanced) (i : Nat) :
    ((srv.set this ld).mods i).Balanced := by
  rw [Server.set_mods]
  split
  · exact h
  · exact hall i

/-- What touches no status. -/
structure KeepsPending (ld ld' : linux_debmod_t) : Prop where
  pending : ld'.pending = ld.pending
  count : ld'.npending = ld.npending
  counter : ld'.npending_signals = ld.npending_signals

theorem KeepsPending.refl (ld : linux_debmod_t) : KeepsPending ld ld := ⟨rfl, rfl, rfl⟩

theorem KeepsPending.trans (h : KeepsPending ld ld') (h' : KeepsPending ld' ld'') : KeepsPending ld ld'' :=
  ⟨h'.pending.trans h.pending, h'.count.trans h.count, h'.counter.trans h.counter⟩

theorem KeepsPending.of_threads (h : ld'.threads = ld.threads)
    (hn : ld'.npending_signals = ld.npending_signals) : KeepsPending ld ld' := by
  refine ⟨?_, ?_, hn⟩
  · funext tid
    rw [linux_debmod_t.pending, h]
    rfl
  · rw [linux_debmod_t.npending, h]
    rfl

theorem KeepsPending.modify {f : thread_info_t → thread_info_t}
    (hf : ∀ ti, (f ti).got_pending_status = ti.got_pending_status ∧ (f ti).pending_status = ti.pending_status) :
    KeepsPending ld (ld.modify tid f) := by
  refine ⟨?_, ?_, rfl⟩
  · funext tid'
    rw [linux_debmod_t.pending, linux_debmod_t.modify, Table.find_modify]
    split
    · rw [linux_debmod_t.pending]
      cases ld.threads.find tid' with
      | none => rfl
      | some ti => simp [hf ti]
    · rfl
  · exact Table.count_modify_of_eq fun ti _ => (hf ti).1

theorem KeepsPending.balanced (h : KeepsPending ld ld') (hb : ld.Balanced) : ld'.Balanced := by
  rw [linux_debmod_t.Balanced, h.counter, h.count]
  exact hb

theorem Server.Goes.of_keeps (h : KeepsPending (srv.mods this) ld) : srv.Goes [] (srv.set this ld) := by
  refine ⟨fun hb => balanced_set hb (h.balanced (hb this)), ?_⟩
  rw [pending_set, run_nil, h.pending]
  congr 1
  funext x
  split
  · next hx => rw [← hx]; rfl
  · rfl

theorem run_set {m : Move (Nat × thid_t) status_t} {v : Option status_t}
    (h : ld.pending = Function.update (srv.mods this).pending tid v)
    (hm : move srv.pending m = some (Function.update srv.pending (this, tid) v)) :
    run srv.pending [m] = some (srv.set this ld).pending := by
  rw [run, List.foldlM_cons, hm]
  change some (Function.update srv.pending (this, tid) v) = _
  congr 1
  rw [pending_set, h]
  funext x
  rw [Function.update_apply]
  split
  · next hx =>
      rw [hx]
      simp
  rename_i hx
  split
  · next hi =>
      have ht : x.2 ≠ tid := fun ht => hx (Prod.ext hi ht)
      rw [Function.update_of_ne ht, ← hi]
      rfl
  · rfl

/-! ### One debugger -/

theorem pending_eq (h : ld.threads.find tid = some ti) :
    ld.pending tid = if ti.got_pending_status then some ti.pending_status else none := by
  rw [linux_debmod_t.pending, h]
  rfl

theorem add_thread_keeps (tid : thid_t) (ld : linux_debmod_t) : KeepsPending ld (add_thread tid ld) := by
  cases h : ld.threads.find tid with
  | some ti => exact .of_threads (Table.insertNew_of_mem h) rfl
  | none =>
      refine ⟨?_, ?_, rfl⟩
      · funext tid'
        rw [linux_debmod_t.pending, add_thread, Table.find_insertNew h]
        split
        · next heq =>
            rw [heq, linux_debmod_t.pending, h]
            rfl
        · rfl
      · exact Table.count_insertNew h

/-- A thread is removed with its status, and both are counted out. -/
structure Removes (tid : thid_t) (ld ld' : linux_debmod_t) : Prop where
  pending : ld'.pending = Function.update ld.pending tid none
  balanced : ld.Balanced → ld'.Balanced

theorem del_thread_removes (h : del_thread tid ld = .ok ld') : Removes tid ld ld' := by
  rw [del_thread] at h
  split at h
  · exact absurd h (by simp)
  rename_i ti hti
  obtain rfl := Except.ok.inj h
  constructor
  · funext tid'
    rw [linux_debmod_t.pending, Table.find_erase, Function.update_apply]
    split <;> rfl
  intro hb
  have hcount := Table.count_erase (p := fun ti => ti.got_pending_status) hti
  rw [linux_debmod_t.Balanced, linux_debmod_t.npending] at hb ⊢
  rw [hb]
  change (if ti.got_pending_status = true then (_ : Int) else _) =
    ((ld.threads.erase tid).count fun ti => ti.got_pending_status : Nat)
  split
  · next hg =>
      rw [if_pos hg] at hcount
      omega
  · next hg =>
      rw [if_neg hg] at hcount
      omega

theorem die_keeps (ld : linux_debmod_t) (tid : thid_t) (state : thstate_t) : KeepsPending ld (ld.die tid state) :=
  (KeepsPending.modify (f := fun ti => { ti with state := state }) fun _ => ⟨rfl, rfl⟩).trans (.of_threads rfl rfl)

theorem dead_thread_keeps {state : thstate_t} (hne : state ≠ .DEAD) (h : dead_thread tid state ld = .ok ld') :
    KeepsPending ld ld' := by
  rw [dead_thread] at h
  split at h
  · obtain rfl := Except.ok.inj h
    exact die_keeps ld tid state
  · obtain rfl := Except.ok.inj h
    exact .refl _

theorem dead_thread_removes (h : dead_thread tid .DEAD ld = .ok ld') : Removes tid ld ld' := by
  rw [dead_thread] at h
  split at h
  · rw [if_pos rfl] at h
    have hk := die_keeps ld tid .DEAD
    have hr := del_thread_removes h
    exact ⟨by rw [hr.pending, hk.pending], fun hb => hr.balanced (hk.balanced hb)⟩
  · next hno =>
      obtain rfl := Except.ok.inj h
      refine ⟨?_, id⟩
      rw [eq_comm, Function.update_eq_self_iff, linux_debmod_t.pending, Option.not_isSome_iff_eq_none.mp hno]
      rfl

theorem freeze_thread_keeps (kill : thid_t → kill_t) (fr : Freeze) (tid : thid_t) :
    KeepsPending fr.ld (freeze_thread kill fr tid).ld := by
  rw [freeze_thread]
  split
  · exact .refl _
  split
  · split
    · exact .refl _
    · exact .refl _
    · exact .modify fun _ => ⟨rfl, rfl⟩
  · exact .modify fun _ => ⟨rfl, rfl⟩

theorem freeze_select_keeps (tid : thid_t) (exclude : Bool) (kill : thid_t → kill_t) (ld : linux_debmod_t) :
    KeepsPending ld (freeze_select tid exclude kill ld).ld := by
  have hfold : ∀ (L : List thid_t) (fr : Freeze), KeepsPending fr.ld (L.foldl (freeze_thread kill) fr).ld := by
    intro L
    induction L with
    | nil => exact fun fr => .refl _
    | cons tid L ih => exact fun fr => (freeze_thread_keeps kill fr tid).trans (ih _)
  exact hfold _ ⟨ld, [], []⟩

variable {th th' : Thaw} {k : Kernel}

theorem thaw_resumed_keeps (h : thaw_resumed k tid ti th = .ok th') :
    KeepsPending th.ld th'.ld := by
  rw [thaw_resumed] at h
  split at h
  · split at h
    · obtain rfl := Except.ok.inj h
      exact .refl _
    cases hd : dead_thread tid .DYING th.ld with
    | error n =>
        rw [hd] at h
        exact absurd h (by simp [bind, Except.bind])
    | ok ld =>
        rw [hd] at h
        obtain rfl := Except.ok.inj h
        exact (dead_thread_keeps (by simp) hd).trans (.modify fun _ => ⟨rfl, rfl⟩)
  · split at h
    · obtain rfl := Except.ok.inj h
      exact .modify fun _ => ⟨rfl, rfl⟩
    · split at h
      · obtain rfl := Except.ok.inj h
        exact .modify fun _ => ⟨rfl, rfl⟩
      · exact absurd h (by simp)

theorem thaw_counted_keeps (h : thaw_counted k tid ti th = .ok th') :
    KeepsPending th.ld th'.ld := by
  rw [thaw_counted] at h
  split at h
  · obtain rfl := Except.ok.inj h
    exact .refl _
  split at h
  · obtain rfl := Except.ok.inj h
    exact .refl _
  split at h
  · obtain rfl := Except.ok.inj h
    exact .refl _
  split at h
  · have hk := thaw_resumed_keeps h
    exact hk
  · obtain rfl := Except.ok.inj h
    exact .refl _

theorem thaw_thread_keeps (h : thaw_thread k th tid = .ok th') :
    KeepsPending th.ld th'.ld := by
  rw [thaw_thread] at h
  have hk : KeepsPending th.ld (th.uncount tid).ld := .modify fun _ => ⟨rfl, rfl⟩
  split at h
  · obtain rfl := Except.ok.inj h
    exact .refl _
  split at h
  · split at h
    · obtain rfl := Except.ok.inj h
      exact .refl _
    · exact absurd h (by simp)
  · split at h
    · obtain rfl := Except.ok.inj h
      exact hk
    · exact hk.trans (thaw_counted_keeps h)

theorem dbg_thaw_threads_keeps {exclude : Bool}
    (h : dbg_thaw_threads tid exclude k ld = .ok th) : KeepsPending ld th.ld := by
  have hfold : ∀ (L : List thid_t) (th th' : Thaw), L.foldlM (thaw_thread k) th = .ok th' →
      KeepsPending th.ld th'.ld := by
    intro L
    induction L with
    | nil =>
        intro th th' h
        obtain rfl := Except.ok.inj h
        exact .refl _
    | cons tid L ih =>
        intro th th' h
        rw [List.foldlM_cons] at h
        cases hs : thaw_thread k th tid with
        | error n =>
            rw [hs] at h
            exact absurd h (by simp [bind, Except.bind])
        | ok th'' =>
            rw [hs] at h
            exact (thaw_thread_keeps hs).trans (ih _ _ h)
  exact hfold _ _ _ h

theorem got_of_ready (h : ti.ready = true) : ti.got_pending_status = true := by
  rw [thread_info_t.ready, Bool.and_eq_true] at h
  exact h.1

theorem count_of_ready (h : ti.ready = true) : ti.suspend_count = 0 := by
  simp only [thread_info_t.ready, Bool.and_eq_true, Bool.not_eq_true', Bool.or_eq_false_iff,
    decide_eq_false_iff_not, Nat.not_lt, Nat.le_zero] at h
  exact h.2.2

theorem ready_of_pass {i : Nat} (h : retrieve_pending_signal.pass ld i = some tid)
    (hti : ld.threads.find tid = some ti) : ti.ready = true := by
  rw [retrieve_pending_signal.pass, Option.map_eq_some_iff] at h
  obtain ⟨e, he, rfl⟩ := h
  have hp := List.find?_some he
  rw [Bool.and_eq_true] at hp
  have hmem : ld.threads.find e.1 = some e.2 := Table.find_eq_some.mpr (List.mem_of_find?_eq_some he)
  rw [hti] at hmem
  rw [Option.some.inj hmem]
  exact hp.1

theorem ready_of_pick (h : retrieve_pending_signal.pick ld = some tid) (hti : ld.threads.find tid = some ti) :
    ti.ready = true := by
  have hsearch : retrieve_pending_signal.search ld = some tid → ti.ready = true :=
    fun h => ready_of_pass h hti
  rw [retrieve_pending_signal.pick] at h
  split at h
  · next ti' hti' =>
      split at h
      · next hready =>
          obtain rfl := Option.some.inj h
          rw [hti] at hti'
          rw [Option.some.inj hti']
          exact hready
      · exact hsearch h
  · exact hsearch h

variable {r : Option (thid_t × status_t)}

theorem retrieve_spec (h : retrieve_pending_signal ld = .ok (r, ld')) :
    (r = none ∧ ld' = ld) ∨ ∃ tid ti, r = some (tid, ti.pending_status) ∧ ld.threads.find tid = some ti ∧
      ti.ready = true ∧
      ld' = { ld.modify tid fun ti => { ti with got_pending_status := false } with
        npending_signals := ld.npending_signals - 1 } := by
  rw [retrieve_pending_signal] at h
  split at h
  · obtain ⟨rfl, rfl⟩ := Prod.mk.inj (Except.ok.inj h)
    exact .inl ⟨rfl, rfl⟩
  split at h
  · obtain ⟨rfl, rfl⟩ := Prod.mk.inj (Except.ok.inj h)
    exact .inl ⟨rfl, rfl⟩
  rename_i tid htid
  split at h
  · obtain ⟨rfl, rfl⟩ := Prod.mk.inj (Except.ok.inj h)
    exact .inl ⟨rfl, rfl⟩
  rename_i ti hti
  split at h
  · exact absurd h (by simp)
  · obtain ⟨rfl, rfl⟩ := Prod.mk.inj (Except.ok.inj h)
    exact .inr ⟨tid, ti, rfl, hti, ready_of_pick htid hti, rfl⟩

theorem Server.Goes.of_removes (h : Removes tid (srv.mods this) ld) :
    srv.Goes [.remove (this, tid)] (srv.set this ld) :=
  ⟨fun hb => balanced_set hb (h.balanced (hb this)), run_set h.pending rfl⟩

theorem pending_modify (f : thread_info_t → thread_info_t) (hti : ld.threads.find tid = some ti) :
    (ld.modify tid f).pending = Function.update ld.pending tid
      (if (f ti).got_pending_status then some (f ti).pending_status else none) := by
  funext tid'
  rw [linux_debmod_t.pending, linux_debmod_t.modify, Table.find_modify, Function.update_apply]
  split
  · next heq =>
      rw [heq, hti]
      rfl
  · rfl

theorem Server.Goes.of_retrieve
    (h : retrieve_pending_signal (srv.mods this) = .ok (r, ld)) :
    srv.Goes (r.toList.map fun x => .take (this, x.1) x.2) (srv.set this ld) := by
  rcases retrieve_spec h with ⟨rfl, rfl⟩ | ⟨tid, ti, rfl, hti, hready, rfl⟩
  · exact .of_keeps (.refl _)
  have hgot := got_of_ready hready
  have hpending := pending_modify (fun ti => { ti with got_pending_status := false }) hti
  constructor
  · intro hb
    refine balanced_set hb ?_
    have hcount := Table.count_modify (p := fun ti => ti.got_pending_status)
      (f := fun ti : thread_info_t => { ti with got_pending_status := false }) hti
    rw [if_pos hgot] at hcount
    have hbal := hb this
    rw [linux_debmod_t.Balanced, linux_debmod_t.npending] at hbal ⊢
    change (srv.mods this).npending_signals - 1 =
      (((srv.mods this).threads.modify tid fun ti => { ti with got_pending_status := false }).count
        fun ti => ti.got_pending_status : Nat)
    simp only [Bool.false_eq_true, if_false] at hcount
    omega
  · refine run_set hpending (move_take ?_)
    rw [Server.pending, pending_eq hti, if_pos hgot]

/-! ### Arrivals -/

def Server.owner (srv : Server) (L : List Nat) (pid : thid_t) : Option Nat :=
  L.find? fun i => ((srv.mods i).threads.find pid).isSome

/-- The first debugger that has the thread or has removed one with this number. -/
def Server.knower (srv : Server) (L : List Nat) (pid : thid_t) : Option Nat :=
  L.find? fun i => ((srv.mods i).threads.find pid).isSome || decide (pid ∈ (srv.mods i).deleted_threads)

/-- What a status that arrives means: it is put into the mailbox of its thread, unless it is the
SIGSTOP that this thread was sent. -/
def Server.arrival (srv : Server) (L : List Nat) (pid : thid_t) (status : status_t) :
    List (Move (Nat × thid_t) status_t) :=
  match srv.owner L pid with
  | none => []
  | some i =>
      match (srv.mods i).threads.find pid with
      | none => []
      | some ti => if ti.awaits status then [] else [.put (i, pid) status]

/-- The mailbox is empty, and no debugger that is asked before has removed a thread of this number. -/
def Server.CleanArrival (srv : Server) (L : List Nat) (pid : thid_t) (status : status_t) : Prop :=
  ∀ i ti, srv.owner L pid = some i → (srv.mods i).threads.find pid = some ti →
    srv.knower L pid = some i ∧ (ti.got_pending_status = true → ti.awaits status = true)

variable {status : status_t}

theorem Server.Goes.of_receive {i : Nat}
    (hti : (srv.mods i).threads.find tid = some ti)
    (hclean : ti.got_pending_status = true → ti.awaits status = true) :
    srv.Goes (if ti.awaits status then [] else [.put (i, tid) status])
      (srv.set i { (srv.mods i).modify tid fun ti => ti.receive status with
        npending_signals :=
          if ti.awaits status then (srv.mods i).npending_signals else (srv.mods i).npending_signals + 1 }) := by
  have hpending := pending_modify (fun ti => ti.receive status) hti
  have hcount := Table.count_modify (p := fun ti => ti.got_pending_status)
    (f := fun ti => ti.receive status) hti
  split
  · next haw =>
      have hrec : ti.receive status = { ti with waiting_sigstop := false, state := .STOPPED } := if_pos haw
      refine .of_keeps ⟨?_, ?_, rfl⟩
      · refine hpending.trans ?_
        change Function.update (srv.mods i).pending tid (if (ti.receive status).got_pending_status then
          some (ti.receive status).pending_status else none) = (srv.mods i).pending
        rw [hrec]
        exact (congrArg (Function.update (srv.mods i).pending tid) (pending_eq hti).symm).trans
          (Function.update_eq_self _ _)
      · rw [hrec] at hcount
        exact Nat.add_right_cancel hcount
  · next haw =>
      have hrec : ti.receive status = { ti with got_pending_status := true, pending_status := status } := if_neg haw
      have hgot : ti.got_pending_status = false := by
        cases hg : ti.got_pending_status with
        | false => rfl
        | true => exact absurd (hclean hg) haw
      rw [hrec] at hpending hcount
      constructor
      · intro hb
        refine balanced_set hb ?_
        have hbal := hb i
        rw [linux_debmod_t.Balanced, linux_debmod_t.npending] at hbal ⊢
        rw [hgot, if_neg (by decide), if_pos rfl] at hcount
        change (srv.mods i).npending_signals + 1 =
          (((srv.mods i).threads.modify tid fun ti => ti.receive status).count
            fun ti => ti.got_pending_status : Nat)
        omega
      · refine run_set hpending (move_put ?_)
        rw [Server.pending, pending_eq hti, hgot]
        rfl

theorem linux_signal_storer_goes {L : List Nat} {pid : thid_t} {b : Bool}
    (h : linux_signal_storer pid status L srv = .ok (b, srv')) (hclean : srv.CleanArrival L pid status) :
    srv.Goes (srv.arrival L pid status) srv' := by
  induction L with
  | nil =>
      obtain ⟨-, rfl⟩ := Prod.mk.inj (Except.ok.inj h)
      exact .refl srv
  | cons i rest ih =>
      rw [linux_signal_storer] at h
      split at h
      · next ti hti =>
          have howner : srv.owner (i :: rest) pid = some i := by
            rw [Server.owner, List.find?_cons_of_pos]
            rw [hti]
            rfl
          split at h
          · exact absurd h (by simp)
          obtain ⟨-, rfl⟩ := Prod.mk.inj (Except.ok.inj h)
          have harr : srv.arrival (i :: rest) pid status =
              if ti.awaits status then [] else [.put (i, pid) status] := by
            simp only [Server.arrival, howner, hti]
          rw [harr]
          exact .of_receive hti (hclean i ti howner hti).2
      · next hno =>
          have howner : srv.owner (i :: rest) pid = srv.owner rest pid := by
            rw [Server.owner, List.find?_cons_of_neg]
            · rfl
            · rw [hno]
              decide
          have harr : srv.arrival (i :: rest) pid status = srv.arrival rest pid status := by
            simp only [Server.arrival, howner]
          split at h
          · next hdel =>
              obtain ⟨-, rfl⟩ := Prod.mk.inj (Except.ok.inj h)
              -- nobody has the thread, as the first who knows its number has removed it
              have hnone : srv.owner rest pid = none := by
                cases ho : srv.owner rest pid with
                | none => rfl
                | some j =>
                    have hj : ((srv.mods j).threads.find pid).isSome = true := by
                      have hf := List.find?_some ho
                      exact hf
                    obtain ⟨ti, hti⟩ := Option.isSome_iff_exists.mp hj
                    have hk := (hclean j ti (howner.trans ho) hti).1
                    rw [Server.knower, List.find?_cons_of_pos (by simp [hdel])] at hk
                    rw [← Option.some.inj hk, hno] at hti
                    exact absurd hti (by simp)
              rw [harr, Server.arrival, hnone]
              exact ⟨id, rfl⟩
          · next hdel =>
              rw [harr]
              refine ih h ?_
              intro j ti ho hti
              obtain ⟨hk, hg⟩ := hclean j ti (howner.trans ho) hti
              refine ⟨?_, hg⟩
              rw [Server.knower, List.find?_cons_of_neg (by simp [hno, hdel])] at hk
              exact hk

theorem store_pending_signal_goes {pid : thid_t}
    (h : store_pending_signal this pid status srv = .ok srv')
    (hclean : srv.CleanArrival srv.order pid status) : srv.Goes (srv.arrival srv.order pid status) srv' := by
  rw [store_pending_signal] at h
  cases hs : linux_signal_storer pid status srv.order srv with
  | error n =>
      rw [hs] at h
      exact absurd h (by simp [bind, Except.bind])
  | ok x =>
      obtain ⟨b, srv''⟩ := x
      rw [hs] at h
      change (if b = true then Except.ok srv'' else _) = _ at h
      have hgoes := linux_signal_storer_goes hs hclean
      split at h
      · obtain rfl := Except.ok.inj h
        exact hgoes
      split at h
      · obtain rfl := Except.ok.inj h
        have hkeep : srv''.Goes [] (srv''.set this { srv''.mods this with
            seen_threads := (srv''.mods this).seen_threads ++ [pid] }) := .of_keeps (.of_threads rfl rfl)
        simpa using hgoes.trans hkeep
      · obtain rfl := Except.ok.inj h
        exact hgoes

end Mailboxes

/-! ### Runs -/

/-- What a step means for the mailboxes. A report to a freeze arrives like any other status, except
for the SIGSTOP that the freeze waits for. -/
def Machine.moves (m : Machine) : Label → List (Move (Nat × thid_t) status_t)
  | .store _ pid status => m.srv.arrival m.srv.order pid status
  | .retrieve this r => r.toList.map fun x => .take (this, x.1) x.2
  | .report r =>
      match m.freezing with
      | none => []
      | some fr =>
          if r.stid > 0 ∧ ¬(r.stid ∈ fr.queue ∧ isSigstop r.status) then
            m.srv.arrival m.srv.order r.stid r.status
          else []
  | .frozen =>
      match m.freezing with
      | none => []
      | some fr => fr.deadtids.map fun tid => .remove (fr.this, tid)
  | .del_thread this tid => [.remove (this, tid)]
  | .dead_thread this tid state => if state = .DEAD then [.remove (this, tid)] else []
  | _ => []

/-- No status arrives on top of one that is kept. -/
def Machine.Clean (m : Machine) : Label → Prop
  | .store _ pid status => m.srv.CleanArrival m.srv.order pid status
  | .report r => ∀ fr, m.freezing = some fr → ¬(r.stid ∈ fr.queue ∧ isSigstop r.status) →
      m.srv.CleanArrival m.srv.order r.stid r.status
  | _ => True

/-- Runs whose steps all satisfy `P`, with what they mean for the mailboxes. -/
inductive Run (P : Machine → Label → Prop) (order : List Nat) :
    List (Move (Nat × thid_t) status_t) → Machine → Prop where
  | start : Run P order [] (.start order)
  | step {trace : List (Move (Nat × thid_t) status_t)} {m m' : Machine} {l : Label}
      (h : Run P order trace m) (hs : Step m l m') (hp : P m l) : Run P order (trace ++ m.moves l) m'

/-- The counters are right, and the statuses that are kept are those of the mailboxes. -/
structure Server.Accounted (srv : Server) (trace : List (Move (Nat × thid_t) status_t)) : Prop where
  counter : ∀ i, (srv.mods i).npending_signals = (srv.mods i).npending
  kept : run (fun _ => none) trace = some srv.pending

section Runs

variable {m m' : Machine} {l : Label} {srv srv' : Server} {this : Nat}

theorem Edit.apply_pending (e : Edit) (ti : thread_info_t) :
    (e.apply ti).got_pending_status = ti.got_pending_status ∧ (e.apply ti).pending_status = ti.pending_status := by
  cases e with
  | dying =>
      rw [Edit.apply]
      split
      · exact ⟨rfl, rfl⟩
      · exact ⟨rfl, rfl⟩
  | _ => exact ⟨rfl, rfl⟩

theorem freeze_report_goes {r : Report} {queue queue' : List thid_t}
    (h : freeze_report this r queue srv = .ok (queue', srv'))
    (hclean : ¬(r.stid ∈ queue ∧ isSigstop r.status) → srv.CleanArrival srv.order r.stid r.status) :
    srv.Goes (if r.stid > 0 ∧ ¬(r.stid ∈ queue ∧ isSigstop r.status) then
      srv.arrival srv.order r.stid r.status else []) srv' := by
  have hstore : ∀ {queue'' : List thid_t}, ¬(r.stid ∈ queue ∧ isSigstop r.status) →
      (do
        let srv ← store_pending_signal this r.stid r.status srv
        return (queue'', srv) : Except Nat (List thid_t × Server)) = .ok (queue', srv') →
      srv.Goes (srv.arrival srv.order r.stid r.status) srv' := by
    intro queue'' hno h
    cases hs : store_pending_signal this r.stid r.status srv with
    | error n =>
        rw [hs] at h
        exact absurd h (by simp [bind, Except.bind])
    | ok srv'' =>
        rw [hs] at h
        obtain ⟨-, rfl⟩ := Prod.mk.inj (Except.ok.inj h)
        exact store_pending_signal_goes hs (hclean hno)
  rw [freeze_report] at h
  split at h
  · next hpos =>
      split at h
      · next hin =>
          by_cases hstop : isSigstop r.status = true
          · rw [if_pos hstop] at h
            obtain ⟨-, rfl⟩ := Prod.mk.inj (Except.ok.inj h)
            rw [if_neg (fun hc => hc.2 ⟨hin, hstop⟩)]
            exact .of_keeps (.modify fun _ => ⟨rfl, rfl⟩)
          · have hno : ¬(r.stid ∈ queue ∧ isSigstop r.status) := fun hc => hstop hc.2
            rw [if_neg hstop] at h
            rw [if_pos ⟨hpos, hno⟩]
            exact hstore hno h
      · next hin =>
          have hno : ¬(r.stid ∈ queue ∧ isSigstop r.status) := fun hc => hin hc.1
          rw [if_pos ⟨hpos, hno⟩]
          exact hstore hno h
  · next hpos =>
      obtain ⟨-, rfl⟩ := Prod.mk.inj (Except.ok.inj h)
      rw [if_neg (fun hc => hpos hc.1)]
      exact .refl srv

theorem frozen_goes {deadtids : List thid_t} {ld : linux_debmod_t}
    (h : deadtids.foldlM (fun ld tid => dead_thread tid .DEAD ld) (srv.mods this) = .ok ld) :
    srv.Goes (deadtids.map fun tid => .remove (this, tid)) (srv.set this ld) := by
  induction deadtids generalizing srv with
  | nil =>
      obtain rfl := Except.ok.inj h
      exact .of_keeps (.refl _)
  | cons tid deadtids ih =>
      rw [List.foldlM_cons] at h
      cases hd : dead_thread tid .DEAD (srv.mods this) with
      | error n =>
          rw [hd] at h
          exact absurd h (by simp [bind, Except.bind])
      | ok ld' =>
          rw [hd] at h
          have hset : (srv.set this ld').set this ld = srv.set this ld := by
            simp [Server.set]
          have hrest := @ih (srv.set this ld') (by rw [Server.set_mods_self]; exact h)
          rw [hset] at hrest
          exact (Server.Goes.of_removes (dead_thread_removes hd)).trans hrest

theorem step_goes (h : Step m l m') (hclean : m.Clean l) : m.srv.Goes (m.moves l) m'.srv := by
  cases h with
  | store h => exact store_pending_signal_goes h hclean
  | retrieve h => exact .of_retrieve h
  | freeze h =>
      subst h
      exact .of_keeps (freeze_select_keeps _ _ _ _)
  | report h => exact freeze_report_goes h (hclean _ rfl)
  | frozen h => exact frozen_goes h
  | thaw h =>
      have hgoes := Server.Goes.of_keeps (dbg_thaw_threads_keeps h)
      exact ⟨hgoes.counter, hgoes.box⟩
  | add_thread => exact .of_keeps (add_thread_keeps _ _)
  | del_thread h => exact .of_removes (del_thread_removes h)
  | dead_thread h =>
      rw [Machine.moves]
      split
      · next hd =>
          subst hd
          exact .of_removes (dead_thread_removes h)
      · next hd => exact .of_keeps (dead_thread_keeps hd h)
  | edit => exact .of_keeps (.modify (Edit.apply_pending _))
  | other => exact .of_keeps (.of_threads rfl rfl)

theorem accounted_start (order : List Nat) : (Machine.start order).srv.Accounted [] := ⟨fun _ => rfl, rfl⟩

variable {trace : List (Move (Nat × thid_t) status_t)}

theorem Server.Accounted.step (ha : m.srv.Accounted trace)
    (h : m.srv.Goes (m.moves l) m'.srv) : m'.srv.Accounted (trace ++ m.moves l) := by
  refine ⟨h.counter ha.counter, ?_⟩
  rw [run_append, ha.kept]
  exact h.box

theorem accounted_of_clean {order : List Nat}
    (h : Run Machine.Clean order trace m) : m.srv.Accounted trace := by
  induction h with
  | start => exact accounted_start order
  | step _ hs hp ih => exact ih.step (step_goes hs hp)

/-- What was retrieved had arrived before, in this order and once; and of a thread that was not
removed nothing is missing. -/
structure Server.Delivered (srv : Server) (trace : List (Move (Nat × thid_t) status_t)) : Prop
    extends srv.Accounted trace where
  once : ∀ x, (takesAt x trace ++ (srv.pending x).toList).Sublist (putsAt x trace)
  all : ∀ x, .remove x ∉ trace → takesAt x trace ++ (srv.pending x).toList = putsAt x trace

/-- In a run in which no status arrives on top of another one the counters are right, and each status
is kept until it is retrieved, once. -/
theorem delivered_of_clean {order : List Nat} {trace : List (Move (Nat × thid_t) status_t)}
    (h : Run Machine.Clean order trace m) : m.srv.Delivered trace := by
  have ha := accounted_of_clean h
  exact ⟨ha, fun _ => takesAt_sublist ha.kept, fun _ hno => takesAt_eq ha.kept hno⟩

end Runs

section Example

def exampleServer : Server := (Machine.start [0]).srv.set 0 (add_thread 5 .start)

def exampleStop : status_t := 0x057f
def exampleExit : status_t := 0

def exampleStored (srv : Server) (status : status_t) : Server :=
  srv.set 0 { (srv.mods 0).modify 5 fun ti => ti.receive status with
    npending_signals := (srv.mods 0).npending_signals + 1 }

theorem example_add : Step (.start [0]) (.add_thread 0 5) ⟨exampleServer, none⟩ := .add_thread

theorem example_store : Step ⟨exampleServer, none⟩ (.store 0 5 exampleStop)
    ⟨exampleStored exampleServer exampleStop, none⟩ := .store rfl

theorem delivered_of_clean_stop : Server.Delivered (exampleStored exampleServer exampleStop)
    [.put (0, 5) exampleStop] := by
  have hadd : Run Machine.Clean [0] [] ⟨exampleServer, none⟩ := Run.step .start example_add trivial
  have hclean : Machine.Clean ⟨exampleServer, none⟩ (.store 0 5 exampleStop) := by
    intro i ti howner hti
    obtain rfl := Option.some.inj (howner.symm.trans (show exampleServer.owner [0] 5 = some 0 from rfl))
    refine ⟨rfl, ?_⟩
    obtain rfl := Option.some.inj (hti.symm.trans (show (exampleServer.mods 0).threads.find 5 = some {} from rfl))
    exact fun h => absurd h (by decide)
  exact delivered_of_clean (Run.step hadd example_store hclean)

/-- The exit status of a thread replaces the status that is kept for it and is counted as a second
one. -/
theorem not_delivered : ¬∀ (order : List Nat) (trace : List (Move (Nat × thid_t) status_t)) (m : Machine),
    Run (fun _ _ => True) order trace m → m.srv.Delivered trace := by
  intro h
  have hexit : Step ⟨exampleStored exampleServer exampleStop, none⟩ (.store 0 5 exampleExit)
      ⟨exampleStored (exampleStored exampleServer exampleStop) exampleExit, none⟩ := .store rfl
  have hrun := Run.step (Run.step (Run.step (P := fun _ _ => True) .start example_add trivial)
    example_store trivial) hexit trivial
  have hcount := (h _ _ _ hrun).counter 0
  exact absurd hcount (by decide)

end Example

end IdaSdk.LinuxThreads
