import IdaSdk.ThreadBptsCount

/-!
Runs of the thread breakpoints: setting and deleting them, pauses, callgates, and threads that start and exit. Whatever
happens, no counter is too small, so no reference is given back that is not there. A counter that is too large needs a
write that fails or a thread that exits with its breakpoint.
-/

namespace IdaSdk.ThreadBpts

variable {mask : Nat} {mem : Nat → UInt8} {s s' : State} {tid ea : Nat}

/-! ### No counter is too small -/

def Covered (mask : Nat) (s : State) : Prop := ∀ a, like_badaddr mask a = false → (s.stopping a : Int) ≤ s.refs a

theorem stopping_set_le (s : State) (tid b a : Nat) :
    (s.set_bpt_ea tid b).stopping a ≤ s.stopping a + if b = a then 1 else 0 := by
  cases hti : s.threads.find tid with
  | some ti =>
      have := stopping_set hti b a
      omega
  | none =>
      have hcount : (s.set_bpt_ea tid b).stopping a = s.stopping a := by
        apply Table.count_modify_of_eq
        intro ti h
        rw [hti] at h
        cases h
      omega

theorem restore_refs {out : Access} {really_restore : Bool} (h : restore_original_bytes out s ea really_restore = .ok s') :
    s'.threads = s.threads ∧ ∀ a, s'.refs a = s.refs a - if a = ea then 1 else 0 := by
  rw [restore_original_bytes] at h
  cases hfind : s.thread_bpts.find ea with
  | none =>
      rw [hfind] at h
      cases h
  | some ibi =>
      rw [hfind] at h
      dsimp only at h
      have hrefs := refs_of_find hfind
      have herase : ∀ memory a, ibi.count - 1 = 0 →
          State.refs ⟨s.threads, s.thread_bpts.erase ea, memory⟩ a = s.refs a - if a = ea then 1 else 0 := by
        intro memory a hlast
        rw [State.refs]
        dsimp only
        rw [Table.find_erase]
        by_cases heq : a = ea
        · subst heq
          rw [if_pos rfl, if_pos rfl, Option.map_none, Option.getD_none]
          omega
        · rw [if_neg heq, if_neg heq, Int.sub_zero]
          rfl
      split at h
      · next hlast =>
          split at h
          · split at h
            · cases h
            · obtain rfl := Except.ok.inj h
              exact ⟨rfl, fun a => herase _ a hlast⟩
          · obtain rfl := Except.ok.inj h
            exact ⟨rfl, fun a => herase _ a hlast⟩
      · obtain rfl := Except.ok.inj h
        refine ⟨rfl, fun a => ?_⟩
        rw [State.refs]
        dsimp only
        rw [Table.find_modify]
        by_cases heq : a = ea
        · subst heq
          rw [if_pos rfl, if_pos rfl, hfind, hrefs]
          rfl
        · rw [if_neg heq, if_neg heq, Int.sub_zero]
          rfl

theorem save_refs (out : Access) (s : State) (ea : Nat) :
    (save_original_bytes out s ea).2.threads = s.threads ∧
      ((save_original_bytes out s ea).1 = 0 ∧ (save_original_bytes out s ea).2 = s ∨
        (save_original_bytes out s ea).1 ≠ 0 ∧
          ∀ a, (save_original_bytes out s ea).2.refs a = s.refs a + if a = ea then 1 else 0) := by
  rw [save_original_bytes]
  cases hfind : s.thread_bpts.find ea with
  | none =>
      dsimp only
      split
      · exact ⟨rfl, .inl ⟨rfl, rfl⟩⟩
      refine ⟨rfl, .inr ⟨Nat.one_ne_zero, fun a => ?_⟩⟩
      rw [State.refs]
      dsimp only
      rw [Table.find_insertNew hfind]
      by_cases heq : a = ea
      · subst heq
        rw [if_pos rfl, if_pos rfl, State.refs, hfind]
        rfl
      · rw [if_neg heq, if_neg heq, Int.add_zero]
        rfl
  | some ibi =>
      refine ⟨rfl, .inr ⟨Nat.succ_ne_zero 1, fun a => ?_⟩⟩
      rw [State.refs]
      dsimp only
      rw [Table.find_modify]
      by_cases heq : a = ea
      · subst heq
        rw [if_pos rfl, if_pos rfl, hfind, refs_of_find hfind]
        rfl
      · rw [if_neg heq, if_neg heq, Int.add_zero]
        rfl

theorem Covered.set_bad (h : Covered mask s) {b : Nat} (hb : like_badaddr mask b = true) :
    Covered mask (s.set_bpt_ea tid b) := by
  intro a ha
  have hle := stopping_set_le s tid b a
  rw [if_neg (ne_of_good ha hb).symm] at hle
  have := h a ha
  show ((s.set_bpt_ea tid b).stopping a : Int) ≤ s.refs a
  omega

theorem Covered.del (h : Covered mask s) (out : Outcome) (tid ea : Nat) :
    Keeps (Covered mask) (del_thread_bpt mask out s tid ea) := by
  rw [del_thread_bpt]
  cases hti : s.threads.find tid with
  | none => exact Keeps.ok h
  | some ti =>
      dsimp only
      split
      · exact Keeps.ok h
      rename_i hgood
      split
      · exact Keeps.ok h
      have hgood : like_badaddr mask ti.bpt_ea = false := by simpa using hgood
      cases hr : restore_original_bytes out.restore s ti.bpt_ea true with
      | error e =>
          apply Keeps.error
          rintro rfl
          -- the thread's own reference is in the counter
          have hpos : 0 < s.stopping ti.bpt_ea := Table.count_pos.mpr ⟨tid, ti, hti, decide_eq_true rfl⟩
          have hle := h _ hgood
          rw [restore_original_bytes] at hr
          cases hfind : s.thread_bpts.find ti.bpt_ea with
          | none =>
              rw [State.refs, hfind, Option.map_none, Option.getD_none] at hle
              omega
          | some ibi =>
              rw [hfind] at hr
              dsimp only at hr
              split at hr
              · rw [if_pos rfl] at hr
                split at hr
                · cases hr
                · cases hr
              · cases hr
      | ok s₁ =>
          obtain ⟨hthreads, hrefs⟩ := restore_refs hr
          refine Keeps.ok fun a ha => ?_
          have hset := stopping_set (hthreads ▸ hti : s₁.threads.find tid = some ti) BADADDR a
          rw [if_neg (ne_of_good ha (like_badaddr_badaddr mask)).symm] at hset
          have hstop : s₁.stopping a = s.stopping a := by rw [State.stopping, State.stopping, hthreads]
          have hle := h a ha
          have hrefs := hrefs a
          show ((s₁.set_bpt_ea tid BADADDR).stopping a : Int) ≤ s₁.refs a
          by_cases heq : a = ti.bpt_ea
          · rw [if_pos heq] at hrefs
            rw [if_pos heq.symm] at hset
            omega
          · rw [if_neg heq] at hrefs
            rw [if_neg (Ne.symm heq)] at hset
            omega

theorem Covered.add (h : Covered mask s) (ea : Nat) (hthreads : s'.threads = (s.set_bpt_ea tid ea).threads)
    (hrefs : ∀ a, s'.refs a = s.refs a + if a = ea then 1 else 0) :
    Covered mask s' ∧ Covered mask (s'.set_bpt_ea tid BADADDR) := by
  have hcov : Covered mask s' := by
    intro a ha
    have hle := stopping_set_le s tid ea a
    have hstop : s'.stopping a = (s.set_bpt_ea tid ea).stopping a := by rw [State.stopping, State.stopping, hthreads]
    have hrefs := hrefs a
    have := h a ha
    by_cases heq : a = ea
    · rw [if_pos heq] at hrefs
      rw [if_pos heq.symm] at hle
      omega
    · rw [if_neg heq] at hrefs
      rw [if_neg (Ne.symm heq)] at hle
      omega
  exact ⟨hcov, hcov.set_bad (like_badaddr_badaddr mask)⟩

theorem Covered.place (h : Covered mask s) (out : Outcome) (tid ea : Nat) :
    Keeps (Covered mask) (place_thread_bpt out s tid ea) := by
  obtain ⟨hthreads, hsave⟩ := save_refs out.read (s.set_bpt_ea tid ea) ea
  rw [place_thread_bpt]
  generalize save_original_bytes out.read (s.set_bpt_ea tid ea) ea = r at hthreads hsave ⊢
  obtain ⟨code, s₁⟩ := r
  rcases hsave with ⟨rfl, rfl⟩ | ⟨hne, hrefs⟩
  · refine Keeps.ok ?_
    rw [set_bpt_ea_set]
    exact h.set_bad (like_badaddr_badaddr mask)
  have hwrite : ∀ w, Covered mask (write_code w s₁ ea) ∧ Covered mask ((write_code w s₁ ea).set_bpt_ea tid BADADDR) := by
    intro w
    refine h.add ea ?_ ?_
    · rw [write_code]
      split <;> exact hthreads
    · intro a
      rw [write_code]
      split <;> exact hrefs a
  split
  · next heq => exact absurd (Prod.mk.inj heq).1 hne
  · next heq =>
      obtain ⟨-, rfl⟩ := Prod.mk.inj heq
      exact Keeps.ok (h.add ea hthreads hrefs).1
  rename_i heq
  obtain ⟨-, rfl⟩ := Prod.mk.inj heq
  cases hw : out.write with
  | done => exact Keeps.ok (hwrite .done).1
  | nothing => exact Keeps.ok (hwrite .nothing).2
  | denied => exact Keeps.ok (hwrite .denied).2

theorem Covered.set (h : Covered mask s) (out : Outcome) (tid ea : Nat) :
    Keeps (Covered mask) (set_thread_bpt mask out s tid ea) := by
  have hdel := h.del out tid BADADDR
  rw [set_thread_bpt]
  cases hr : del_thread_bpt mask out s tid BADADDR with
  | error e =>
      rw [hr] at hdel
      exact Keeps.error fun he => hdel.1 (he ▸ rfl)
  | ok r => exact (hdel.2 r.1 r.2 hr).place out tid ea

/-! ### Runs -/

inductive Action where
  | set (tid ea : Nat)
  | del (tid ea : Nat)
  | dels (ea : Nat)
  | pause (debug_break : Option Bool) (bpts : Nat → Bool)
  | callgate (tid event_ea : Nat)
  | create (tid : Nat)
  | exit (tid : Nat)

/-- The state after an action. A breakpoint is set for a thread that exists. -/
def step (mask : Nat) (env : Nat → Outcome) (s : State) : Action → Except Fault State
  | .set tid ea =>
    if (s.threads.find tid).isSome then (set_thread_bpt mask (env tid) s tid ea).map Prod.snd else .ok s
  | .del tid ea => (del_thread_bpt mask (env tid) s tid ea).map Prod.snd
  | .dels ea => (del_thread_bpts mask env s ea).map Prod.snd
  | .pause debug_break bpts => (dbg_prepare_to_pause_process mask env debug_break bpts s).map Prod.snd
  | .callgate tid event_ea =>
    if (s.threads.find tid).isSome then install_callgate_workaround mask (env tid) s tid event_ea else .ok s
  | .create tid => .ok (add_thread s tid)
  | .exit tid => .ok (exit_thread s tid)

/-- A run from a memory without thread breakpoints, in which every step meets a condition. -/
inductive Run (C : (Nat → Outcome) → State → Action → Prop) (mask : Nat) (mem : Nat → UInt8) : State → Prop where
  | start : Run C mask mem ⟨Table.empty, Table.empty, mem⟩
  | step {s s' : State} (env : Nat → Outcome) (a : Action) (h : Run C mask mem s) (hc : C env s a)
      (hs : step mask env s a = .ok s') : Run C mask mem s'

/-- A breakpoint may be set: the address stands for itself, and the code can be written where the byte can be read. -/
def Settable (mask : Nat) (out : Outcome) (ea : Nat) : Prop :=
  like_badaddr mask ea = false ∧ (out.read = .done → out.write = .done)

/-- All breakpoints may be set, and a thread exits without one. -/
def Clean (mask : Nat) (env : Nat → Outcome) (s : State) : Action → Prop
  | .set tid ea => Settable mask (env tid) ea
  | .pause _ bpts =>
    ∀ tid ip, (env tid).context = some ip → bpts ((ip + 2 ^ 64 - 1) % 2 ^ 64) = false →
      Settable mask (env tid) (ip &&& mask)
  | .callgate tid event_ea => Settable mask (env tid) ((event_ea + 7) % 2 ^ 64)
  | .exit tid => ∀ ti, s.threads.find tid = some ti → like_badaddr mask ti.bpt_ea = true
  | _ => True

theorem stopping_callgate (s : State) (tid callgate_ea a : Nat) :
    State.stopping { s with threads := s.threads.modify tid fun ti => { ti with callgate_ea := callgate_ea } } a =
      s.stopping a :=
  Table.count_modify_of_eq fun _ _ => rfl

theorem stopping_add (s : State) (tid : Nat) {a : Nat} (ha : like_badaddr mask a = false) :
    (add_thread s tid).stopping a = s.stopping a := by
  cases hti : s.threads.find tid with
  | some ti => rw [State.stopping, add_thread, Table.insertNew_of_mem hti, State.stopping]
  | none =>
      have hcount := Table.count_insertNew (p := fun ti : thread_info_t => decide (ti.bpt_ea = a)) (v := ⟨BADADDR, 0⟩) hti
      have hne : BADADDR ≠ a := (ne_of_good ha (like_badaddr_badaddr mask)).symm
      rw [if_neg (by rwa [decide_eq_true_eq])] at hcount
      exact hcount

theorem stopping_exit {ti : thread_info_t} (h : s.threads.find tid = some ti) (a : Nat) :
    (exit_thread s tid).stopping a + (if ti.bpt_ea = a then 1 else 0) = s.stopping a := by
  have hcount := Table.count_erase (p := fun ti : thread_info_t => decide (ti.bpt_ea = a)) h
  simp only [decide_eq_true_eq] at hcount
  exact hcount

theorem exit_of_none (h : s.threads.find tid = none) (a : Nat) : (exit_thread s tid).stopping a = s.stopping a := by
  rw [State.stopping, State.stopping, Table.count, Table.count, exit_thread, Table.entries_erase, List.filter_eq_self.mpr]
  intro e he
  exact decide_eq_true fun hk => Table.find_eq_none.mp h e.2 (hk ▸ he)

theorem map_snd {P : State → Prop} {r : Except Fault (Bool × State)} (h : Keeps P r) :
    r.map Prod.snd ≠ .error .assert1488 ∧ ∀ s', r.map Prod.snd = .ok s' → P s' := by
  cases r with
  | error e => exact ⟨fun he => h.1 (congrArg _ (Except.error.inj he)), fun s' he => by cases he⟩
  | ok r =>
      refine ⟨fun he => (by cases he), fun s' he => ?_⟩
      obtain rfl := Except.ok.inj he
      exact h.2 r.1 r.2 rfl

theorem step_covered (h : Covered mask s) (env : Nat → Outcome) (a : Action) :
    step mask env s a ≠ .error .assert1488 ∧ ∀ s', step mask env s a = .ok s' → Covered mask s' := by
  have hok : ∀ s₁, Covered mask s₁ → (Except.ok s₁ : Except Fault State) ≠ .error .assert1488 ∧
      ∀ s', Except.ok s₁ = (Except.ok s' : Except Fault State) → Covered mask s' :=
    fun s₁ h₁ => ⟨fun he => (by cases he), fun s' he => Except.ok.inj he ▸ h₁⟩
  cases a with
  | set tid ea =>
      rw [step]
      split
      · exact map_snd (h.set (env tid) tid ea)
      · exact hok s h
  | del tid ea => exact map_snd (h.del (env tid) tid ea)
  | dels ea => exact map_snd (del_loop_keeps (fun s tid h => h.del (env tid) tid ea) s.threads.keys h false)
  | pause debug_break bpts =>
      refine map_snd ?_
      cases debug_break with
      | some ok => exact Keeps.ok h
      | none =>
          rw [dbg_prepare_to_pause_process]
          split
          · exact Keeps.ok h
          · exact pause_loop_keeps (fun s tid _ ip _ _ h => h.set (env tid) tid _) h true
  | callgate tid event_ea =>
      rw [step]
      split
      · rw [install_callgate_workaround]
        have hset := Covered.set (s := { s with
          threads := s.threads.modify tid fun ti => { ti with callgate_ea := (event_ea + 7) % 2 ^ 64 } })
          (fun a ha => (stopping_callgate s tid _ a).symm ▸ h a ha) (env tid) tid ((event_ea + 7) % 2 ^ 64)
        cases hr : set_thread_bpt mask (env tid) _ tid ((event_ea + 7) % 2 ^ 64) with
        | error e =>
            rw [hr] at hset
            exact ⟨fun he => hset.1 (congrArg _ (Except.error.inj he)), fun s' he => by cases he⟩
        | ok r =>
            dsimp only
            split
            · exact hok r.2 (hset.2 r.1 r.2 hr)
            · exact ⟨fun he => absurd (Except.error.inj he) (by decide), fun s' he => by cases he⟩
      · exact hok s h
  | create tid => exact hok _ fun a ha => (stopping_add s tid ha).symm ▸ h a ha
  | exit tid =>
      refine hok _ fun a ha => ?_
      have hle := h a ha
      show ((exit_thread s tid).stopping a : Int) ≤ s.refs a
      cases hti : s.threads.find tid with
      | none =>
          rw [exit_of_none hti]
          exact hle
      | some ti =>
          have := stopping_exit hti a
          omega

theorem Run.covered {C : (Nat → Outcome) → State → Action → Prop} (h : Run C mask mem s) : Covered mask s := by
  induction h with
  | start => exact fun a _ => Int.le_refl 0
  | step env a _ _ hs ih => exact (step_covered ih env a).2 _ hs

/-! ### Runs in which breakpoints can be set -/

theorem Inv.start (mask : Nat) (mem : Nat → UInt8) : Inv mask mem ⟨Table.empty, Table.empty, mem⟩ :=
  ⟨fun _ _ => Here.none rfl rfl rfl, fun _ _ => ⟨rfl, rfl⟩⟩

theorem Inv.threads (h : Inv mask mem s) (hfind : s'.thread_bpts = s.thread_bpts) (hmemory : s'.memory = s.memory)
    (hstopping : ∀ a, like_badaddr mask a = false → s'.stopping a = s.stopping a) : Inv mask mem s' := by
  constructor
  · intro a ha
    obtain ⟨hcounted, hpositive, hcode, horiginal⟩ := h.here a ha
    refine ⟨?_, ?_, ?_, ?_⟩
    · rw [State.refs, hfind, hstopping a ha]
      exact hcounted
    · rwa [hfind]
    · rwa [hfind, hmemory]
    · rw [State.under, hfind, hmemory]
      exact horiginal
  · intro a ha
    rw [hfind, hmemory]
    exact h.bad a ha

theorem Inv.del (h : Inv mask mem s) (out : Outcome) (tid ea : Nat) :
    Keeps (Inv mask mem) (del_thread_bpt mask out s tid ea) := by
  cases hti : s.threads.find tid with
  | none =>
      rw [del_thread_bpt, hti]
      exact Keeps.ok h
  | some ti =>
      rcases del_thread_bpt_spec h out hti ea with herr | ⟨deleted, s', hok, hinv, -⟩
      · rw [herr]
        exact Keeps.error (by decide)
      · rw [hok]
        exact Keeps.ok hinv

theorem Inv.set (h : Inv mask mem s) {out : Outcome} (htid : (s.threads.find tid).isSome = true)
    (hsettable : Settable mask out ea) :
    Keeps (fun s' => Inv mask mem s' ∧ s'.threads.keys = s.threads.keys) (set_thread_bpt mask out s tid ea) := by
  obtain ⟨ti, hti⟩ := Option.isSome_iff_exists.mp htid
  rcases set_thread_bpt_spec h out hti hsettable.1 hsettable.2 with herr | ⟨placed, s', hok, hinv, hkeys, -⟩
  · rw [herr]
    exact Keeps.error (by decide)
  · rw [hok]
    exact Keeps.ok ⟨hinv, hkeys⟩

theorem step_inv {env : Nat → Outcome} {a : Action} (h : Inv mask mem s) (hc : Clean mask env s a)
    (hs : step mask env s a = .ok s') : Inv mask mem s' := by
  cases a with
  | set tid ea =>
      rw [step] at hs
      split at hs
      · next htid => exact ((map_snd (h.set htid hc)).2 s' hs).1
      · exact Except.ok.inj hs ▸ h
  | del tid ea => exact (map_snd (h.del (env tid) tid ea)).2 s' hs
  | dels ea =>
      exact (map_snd (del_loop_keeps (fun s tid h => h.del (env tid) tid ea) s.threads.keys h false)).2 s' hs
  | pause debug_break bpts =>
      cases debug_break with
      | some ok => exact Except.ok.inj hs ▸ h
      | none =>
          rw [step, dbg_prepare_to_pause_process] at hs
          split at hs
          · exact Except.ok.inj hs ▸ h
          have hloop : Keeps (fun s₁ => Inv mask mem s₁ ∧ s₁.threads.keys = s.threads.keys)
              (pause_loop mask env bpts s.threads.keys s true) := by
            refine pause_loop_keeps (fun s₁ tid htid ip hctx hb h₁ => ?_) ⟨h, rfl⟩ true
            have htid : (s₁.threads.find tid).isSome = true := Table.mem_keys.mp (h₁.2 ▸ htid)
            have hset := h₁.1.set htid (hc tid ip hctx hb)
            exact ⟨hset.1, fun b s₂ heq => ⟨(hset.2 b s₂ heq).1, (hset.2 b s₂ heq).2.trans h₁.2⟩⟩
          exact ((map_snd hloop).2 s' hs).1
  | callgate tid event_ea =>
      rw [step] at hs
      split at hs
      · next htid =>
          rw [install_callgate_workaround] at hs
          have hinv : Inv mask mem { s with
              threads := s.threads.modify tid fun ti => { ti with callgate_ea := (event_ea + 7) % 2 ^ 64 } } :=
            h.threads rfl rfl fun a _ => stopping_callgate s tid _ a
          have htid' : ((s.threads.modify tid fun ti =>
              { ti with callgate_ea := (event_ea + 7) % 2 ^ 64 }).find tid).isSome = true := by
            rw [Table.find_modify_self, Option.isSome_map]
            exact htid
          have hset := hinv.set htid' hc
          cases hr : set_thread_bpt mask (env tid) _ tid ((event_ea + 7) % 2 ^ 64) with
          | error e =>
              rw [hr] at hs
              cases hs
          | ok r =>
              rw [hr] at hs
              dsimp only at hs
              split at hs
              · exact Except.ok.inj hs ▸ (hset.2 r.1 r.2 hr).1
              · cases hs
      · exact Except.ok.inj hs ▸ h
  | create tid => exact Except.ok.inj hs ▸ h.threads rfl rfl fun a ha => stopping_add s tid ha
  | exit tid =>
      refine Except.ok.inj hs ▸ h.threads rfl rfl fun a ha => ?_
      cases hti : s.threads.find tid with
      | none => exact exit_of_none hti a
      | some ti =>
          have := stopping_exit hti a
          rwa [if_neg (ne_of_good ha (hc ti hti)).symm] at this

theorem Run.inv (h : Run (Clean mask) mask mem s) : Inv mask mem s := by
  induction h with
  | start => exact Inv.start mask mem
  | step env a _ hc hs ih => exact step_inv ih hc hs

/-- What holds of the thread breakpoints in the runs from this memory. -/
structure Holds (mask : Nat) (mem : Nat → UInt8) : Prop where
  /-- A counter is the number of live threads that stop there, and is not there for zero. -/
  counted : ∀ s, Run (Clean mask) mask mem s → ∀ a, like_badaddr mask a = false →
    s.refs a = s.stopping a ∧ ∀ ibi, s.thread_bpts.find a = some ibi → 0 < ibi.count
  /-- The breakpoint code is where an entry is. -/
  code : ∀ s, Run (Clean mask) mask mem s → ∀ a ibi, s.thread_bpts.find a = some ibi → s.memory a = bpt_code
  /-- Where none is, there is the byte from before, and an entry has it. -/
  restored : ∀ s, Run (Clean mask) mask mem s → ∀ a,
    (s.thread_bpts.find a = none → s.memory a = mem a) ∧
      ∀ ibi, s.thread_bpts.find a = some ibi → ibi.orig_bytes = mem a
  /-- A failing set changes nothing exactly when the thread had no breakpoint. -/
  failed : ∀ s, Run (Clean mask) mask mem s → ∀ tid ti out ea s', s.threads.find tid = some ti → Settable mask out ea →
    set_thread_bpt mask out s tid ea = .ok (false, s') →
      (s'.thread_bpts = s.thread_bpts ∧ s'.memory = s.memory ↔ like_badaddr mask ti.bpt_ea = true)
  /-- The assertion never fails. -/
  asserted : ∀ s, Run (fun _ _ _ => True) mask mem s → ∀ env a, step mask env s a ≠ .error .assert1488

theorem thread_bpts_hold (mask : Nat) (mem : Nat → UInt8) : Holds mask mem where
  counted s h a ha := ⟨(h.inv.here a ha).counted, (h.inv.here a ha).positive⟩
  code s h a ibi hfind := by
    cases ha : like_badaddr mask a with
    | false => exact (h.inv.here a ha).code ibi hfind
    | true =>
        rw [(h.inv.bad a ha).1] at hfind
        cases hfind
  restored s h a := by
    cases ha : like_badaddr mask a with
    | true =>
        rw [(h.inv.bad a ha).1]
        exact ⟨fun _ => (h.inv.bad a ha).2, fun ibi hibi => by cases hibi⟩
    | false =>
        have horig := (h.inv.here a ha).original
        refine ⟨fun hnone => ?_, fun ibi hibi => (under_of_find hibi).symm.trans horig⟩
        rwa [State.under, hnone] at horig
  failed s h tid ti out ea s' hti hsettable hset := by
    rcases set_thread_bpt_spec h.inv out hti hsettable.1 hsettable.2 with herr | ⟨placed, s₁, hok, -, -, hfail⟩
    · rw [herr] at hset
      cases hset
    · rw [hok] at hset
      obtain ⟨rfl, rfl⟩ := Prod.mk.inj (Except.ok.inj hset)
      exact hfail rfl
  asserted s h env a := (step_covered h.covered env a).1

theorem exists_of_toOption {α β ε : Type} {r : Except ε α} {f : α → β} {b : β} (h : r.toOption.map f = some b) :
    ∃ a, r = .ok a ∧ f a = b := by
  cases r with
  | error e => cases h
  | ok a => exact ⟨a, rfl, Option.some.inj h⟩

/-- All accesses are done, except that nothing can be written. -/
def unwritable : Outcome := ⟨some 0x1000, .done, .done, .nothing⟩

def writable : Outcome := ⟨some 0x1000, .done, .done, .done⟩

def one_thread : State := ⟨Table.empty.insertNew 1 ⟨BADADDR, 0⟩, Table.empty, fun _ => 0x90⟩

/-- A write that fails leaves an entry that counts no thread, and the next set finds it and reports success without the
code in memory; a thread that exits leaves its entry, too. -/
theorem not_counted_not_unchanged :
    (∃ s', set_thread_bpt (2 ^ 32 - 1) unwritable one_thread 1 0x1000 = .ok (false, s') ∧
        s'.refs 0x1000 = 1 ∧ s'.stopping 0x1000 = 0 ∧
        ∃ s'', set_thread_bpt (2 ^ 32 - 1) writable s' 1 0x1000 = .ok (true, s'') ∧ s''.memory 0x1000 ≠ bpt_code) ∧
      ∃ s', set_thread_bpt (2 ^ 32 - 1) writable one_thread 1 0x1000 = .ok (true, s') ∧
        (exit_thread s' 1).refs 0x1000 = 1 ∧ (exit_thread s' 1).stopping 0x1000 = 0 := by
  have hfail : (set_thread_bpt (2 ^ 32 - 1) unwritable one_thread 1 0x1000).toOption.map (fun r =>
      (r.1, r.2.refs 0x1000, r.2.stopping 0x1000,
        (set_thread_bpt (2 ^ 32 - 1) writable r.2 1 0x1000).toOption.map fun r => (r.1, r.2.memory 0x1000))) =
      some (false, 1, 0, some (true, 0x90)) := by decide +kernel
  have hexit : (set_thread_bpt (2 ^ 32 - 1) writable one_thread 1 0x1000).toOption.map (fun r =>
      (r.1, (exit_thread r.2 1).refs 0x1000, (exit_thread r.2 1).stopping 0x1000)) = some (true, 1, 0) := by
    decide +kernel
  obtain ⟨⟨placed, s'⟩, hs', heq⟩ := exists_of_toOption hfail
  obtain ⟨⟨placed', t'⟩, ht', heq'⟩ := exists_of_toOption hexit
  simp only [Prod.mk.injEq] at heq heq'
  obtain ⟨rfl, hrefs, hstopping, hnext⟩ := heq
  obtain ⟨rfl, hcounted⟩ := heq'
  obtain ⟨⟨again, s''⟩, hs'', hagain⟩ := exists_of_toOption hnext
  obtain ⟨rfl, hbyte⟩ := Prod.mk.inj hagain
  refine ⟨⟨s', hs', hrefs, hstopping, s'', hs'', ?_⟩, t', ht', hcounted⟩
  rw [show s''.memory 0x1000 = 0x90 from hbyte]
  decide

end IdaSdk.ThreadBpts
