import IdaSdk.PdbSessionPdb

/-!
What a client of the PDB sessions can rely on: a reply carries the results of its own request, no token is taken for
another request, and the two threads never wait for each other.
-/

namespace IdaSdk.PdbSession

variable {s s' : State} {a : Action}

theorem server_step_inv (h : Inv s) (ha : Polite s a) (hs : server_step s a = some s') : Inv s' := by
  cases a with
  | ioctl_open =>
      obtain ⟨hidle, rfl⟩ : s.server = .idle ∧ ioctl_open s = s' := by simpa [server_step] using hs
      exact open_inv h hidle ha
  | ioctl_fetch sid id =>
      obtain ⟨hidle, rfl⟩ : s.server = .idle ∧ ioctl_fetch s sid id = s' := by simpa [server_step] using hs
      exact fetch_inv h hidle ha.1 ha.2
  | ioctl_poll sid =>
      obtain ⟨hidle, rfl⟩ : s.server = .idle ∧ ioctl_poll s sid = s' := by simpa [server_step] using hs
      exact poll_inv h hidle
  | ioctl_close sid =>
      obtain ⟨hidle, rfl⟩ : s.server = .idle ∧ ioctl_close s sid = s' := by simpa [server_step] using hs
      exact close_inv h hidle
  | accept =>
      simp only [server_step] at hs
      split at hs
      · rename_i sid wait hsv
        split at hs
        · rename_i hacc
          obtain ⟨se, hse, rfl⟩ := Option.map_eq_some_iff.mp hs
          exact accept_inv h hsv hacc hse
        · cases hs
      · cases hs
  | complete =>
      simp only [server_step] at hs
      split at hs
      · rename_i sid n hsv
        obtain ⟨se, hse, hs⟩ := Option.bind_eq_some_iff.mp hs
        split at hs
        · cases hs
        · rename_i label rest hfc
          obtain rfl := Option.some.inj hs
          exact complete_inv h hsv hse hfc
      · cases hs
  | reply =>
      simp only [server_step] at hs
      split at hs
      · rename_i sid n hsv
        obtain ⟨se, hse, rfl⟩ := Option.map_eq_some_iff.mp hs
        exact reply_inv h hsv hse
      · cases hs
  | polled =>
      simp only [server_step] at hs
      split at hs
      · rename_i sid hsv
        obtain ⟨se, hse, rfl⟩ := Option.map_eq_some_iff.mp hs
        exact polled_inv h hsv hse
      · cases hs
  | stop =>
      simp only [server_step] at hs
      split at hs
      · rename_i sid hsv
        obtain ⟨se, hse, rfl⟩ := Option.map_eq_some_iff.mp hs
        exact stop_inv h hsv hse
      · cases hs
  | _ => cases hs

theorem pdb_step_inv (h : Inv s) (hs : pdb_step s a = some s') : Inv s' := by
  cases a with
  | post =>
      obtain ⟨hp, hs⟩ := Option.ite_none_right_eq_some.mp hs
      obtain rfl := Option.some.inj hs
      exact post_inv h hp
  | take =>
      simp only [pdb_step] at hs
      split at hs
      · rename_i hp
        split at hs
        · cases hs
        · rename_i label rest hav
          obtain ⟨se, hse, rfl⟩ := Option.map_eq_some_iff.mp hs
          exact take_inv h hp hav hse
      · cases hs
  | request_read =>
      simp only [pdb_step] at hs
      split at hs
      · rename_i sid n hp
        obtain ⟨se, hse, rfl⟩ := Option.map_eq_some_iff.mp hs
        exact request_read_inv h hp hse
      · cases hs
  | resume =>
      simp only [pdb_step] at hs
      split at hs
      · rename_i sid n opens hp
        obtain ⟨se, hse, hs⟩ := Option.bind_eq_some_iff.mp hs
        split at hs
        · rename_i hresp
          obtain rfl := Option.some.inj hs
          exact resume_inv h hp hse hresp
        · cases hs
      · cases hs
  | finish ok opened storage =>
      simp only [pdb_step] at hs
      split at hs
      · rename_i sid n opens hp
        obtain ⟨se, hse, rfl⟩ := Option.map_eq_some_iff.mp hs
        exact finish_inv h hp hse
      · cases hs
  | posted =>
      simp only [pdb_step] at hs
      split at hs
      · rename_i sid n hp
        obtain ⟨se, hse, rfl⟩ := Option.map_eq_some_iff.mp hs
        exact posted_inv h hp hse
      · cases hs
  | _ => cases hs

theorem step_inv (h : Inv s) (ha : Polite s a) (hs : step s a = some s') : Inv s' := by
  unfold step at hs
  split at hs
  · cases hs
  · rcases Option.or_eq_some_iff.mp hs with hs | ⟨-, hs⟩
    · exact server_step_inv h ha hs
    · exact pdb_step_inv h hs

/-- The states of the server while each step of the client and of the two threads meets a condition. -/
inductive Run (C : State → Action → Prop) : State → Prop where
  | initial : Run C initial
  | step {s s' : State} (a : Action) (hrun : Run C s) (hc : C s a) (hs : step s a = some s') : Run C s'

theorem run_inv (h : Run Polite s) : Inv s := by
  induction h with
  | initial => exact inv_initial
  | step a _ hc hs ih => exact step_inv ih hc hs

/-- The server thread waits for a token that the pdb thread has not posted. -/
def ServerBlocked (s : State) : Prop :=
  (∃ sid wait, s.server = .accepting sid wait ∧ s.accepting_request = 0) ∨
    ∃ sid n se, s.server = .completing sid n ∧ s.sessions sid = some se ∧ se.fetch_complete = []

/-- The pdb thread waits for a token that the server thread has not posted. -/
def PdbBlocked (s : State) : Prop :=
  (s.pdb = .waiting ∧ s.request_available = []) ∨
    ∃ sid n opens se, s.pdb = .reading sid n opens ∧ s.sessions sid = some se ∧ se.read_resp = 0

/-- What the server promises: the results in a reply to a fetch are those of the one call of `perform` for that
request, a semaphore holds one token at most and gives it to the request that it was posted for, and one of the two
threads can go on. -/
structure Safe (s : State) : Prop where
  answers : ∀ n ok storage, .fetched n ok storage ∈ s.replies →
    ∃ p ∈ s.performed, p.request = n ∧ ok = p.ok ∧ storage = if p.ok then some p.storage else none
  once : s.performed.Pairwise fun p q => p.request ≠ q.request
  complete : ∀ sid se, s.sessions sid = some se → se.fetch_complete.length ≤ 1
  available : s.request_available.length ≤ 1
  completions : ∀ t ∈ s.completions, t.waiter = t.label
  requests : ∀ t ∈ s.requests, t.waiter = t.label
  progress : ¬ (ServerBlocked s ∧ PdbBlocked s)

theorem Inv.completing (h : Inv s) {sid n : Nat} {se : Session} (hs : s.server = .completing sid n)
    (hse : s.sessions sid = some se) (hfc : se.fetch_complete = []) :
    ∃ st, s.stage sid = some st ∧ st.Fits s.performed s.next se ∧ se.opens = false := by
  have hl := h.here sid se hse
  rw [role_completing hs] at hl
  generalize s.stage sid = stage at hl
  cases hl with
  | fetching st h₁ h₂ h₃ h₄ h₅ h₆ => exact ⟨st, rfl, h₆, h₃⟩
  | completed n hone => rw [hone] at hfc; cases hfc

theorem Inv.accepting (h : Inv s) {sid : Nat} {wait : Bool} (hs : s.server = .accepting sid wait) (i : Nat) :
    s.stage i = none := by
  by_contra hne
  have hi := h.alone i sid hne (by rw [role_accepting hs]; simp)
  subst hi
  obtain ⟨se, hse⟩ := Option.ne_none_iff_exists'.mp (h.staged i hne)
  have hl := h.here i se hse
  rw [role_accepting hs] at hl
  generalize hst : s.stage i = stage at hl
  cases hl with
  | accepting => exact hne hst

theorem Inv.progress (h : Inv s) : ¬ (ServerBlocked s ∧ PdbBlocked s) := by
  rintro ⟨⟨sid, wait, hsv, hacc⟩ | ⟨sid, n, se, hsv, hse, hfc⟩, hpdb⟩
  · rcases hpdb with ⟨hp, hav⟩ | ⟨i, m, opens, se, hp, hse, hresp⟩
    · have hg := h.gate
      rw [hp, hacc, hav] at hg
      cases hg with
      | working p hw => cases hw
    · have hst := stage_reading hp
      rw [h.accepting hsv] at hst
      cases hst
  · obtain ⟨st, hst, hfits, hopens⟩ := h.completing hsv hse hfc
    rcases hpdb with ⟨hp, hav⟩ | ⟨i, m, opens, se', hp, hse', hresp⟩
    · rw [stage_waiting hp hav] at hst
      cases hst
    have hi : i = sid := stage_unique (by rw [stage_reading hp]; simp) (by rw [hst]; simp)
    subst hi
    obtain rfl := Option.some.inj ((stage_reading hp).symm.trans hst)
    obtain ⟨-, -, ho, ht⟩ := hfits
    rw [ho, hopens] at ht
    cases ht

theorem Inv.safe (h : Inv s) : Safe s where
  answers := h.history.answers
  once := h.history.once
  complete sid se hse := (h.here sid se hse).completion
  available := h.gate.available
  completions := h.history.completions
  requests := h.history.requests
  progress := h.progress

/-- The server keeps its promises in every run whose steps meet the condition. -/
def Upheld (C : State → Action → Prop) : Prop := ∀ s, Run C s → Safe s

/-- Whatever the order of the steps, the promises are kept for a polite client. -/
theorem sessions_upheld : Upheld Polite := fun _ h => (run_inv h).safe

def exec : List Action → State → Option State
  | [], s => some s
  | a :: as, s => (step s a).bind (exec as)

theorem exec_run {C : State → Action → Prop} (hc : ∀ s a, C s a) {as : List Action} (h : Run C s)
    (he : exec as s = some s') : Run C s' := by
  induction as generalizing s with
  | nil =>
      obtain rfl := Option.some.inj he
      exact h
  | cons a as ih =>
      obtain ⟨s₁, hs, he⟩ := Option.bind_eq_some_iff.mp he
      exact ih (h.step a (hc s a) hs) he

/-- A client that fetches before it has polled. -/
def early_fetch : List Action :=
  [.ioctl_open, .post, .accept, .take, .finish true true [], .posted, .post, .ioctl_fetch 1 (some 5), .accept, .complete,
    .reply]

/-- A client that opens a second session while the first one reads. -/
def second_open : List Action := [.ioctl_open, .post, .accept, .take, .request_read, .ioctl_open]

theorem early_fetch_run : ∃ s, Run (fun _ _ => True) s ∧
    (s.replies, s.performed, s.completions) =
      ([.session 1, .fetched 1 true (some [])], [⟨0, true, []⟩], [⟨1, 0⟩]) := by
  obtain ⟨s, hs, hr⟩ : ∃ s, exec early_fetch initial = some s ∧
      (s.replies, s.performed, s.completions) =
        ([.session 1, .fetched 1 true (some [])], [⟨0, true, []⟩], [⟨1, 0⟩]) := by
    refine Option.map_eq_some_iff.mp (?_ : (exec early_fetch initial).map _ = some _)
    decide +kernel
  exact ⟨s, exec_run (fun _ _ => trivial) .initial hs, hr⟩

theorem second_open_run : ∃ s, Run (fun _ _ => True) s ∧ ServerBlocked s ∧ PdbBlocked s := by
  obtain ⟨s, hs, hr⟩ : ∃ s, exec second_open initial = some s ∧
      (s.server, s.accepting_request, s.pdb, (s.sessions 1).map Session.read_resp) =
        (.accepting 2 false, 0, .reading 1 0 true, some 0) := by
    refine Option.map_eq_some_iff.mp (?_ : (exec second_open initial).map _ = some _)
    decide +kernel
  simp only [Prod.mk.injEq, Option.map_eq_some_iff] at hr
  obtain ⟨hsv, hacc, hp, se, hse, hresp⟩ := hr
  exact ⟨s, exec_run (fun _ _ => trivial) .initial hs, .inl ⟨2, false, hsv, hacc⟩, .inr ⟨1, 0, true, se, hp, hse, hresp⟩⟩

/-- The promises are not kept for every client. A fetch before the poll takes the token of the opening and is answered
before it is performed; an opening while another one reads leaves both threads waiting. -/
theorem sessions_not_upheld : ¬ Upheld (fun _ _ => True) ∧
    (∃ s, Run (fun _ _ => True) s ∧ .fetched 1 true (some []) ∈ s.replies ∧ (∀ p ∈ s.performed, p.request ≠ 1) ∧
      ∃ t ∈ s.completions, t.waiter ≠ t.label) ∧
    ∃ s, Run (fun _ _ => True) s ∧ ServerBlocked s ∧ PdbBlocked s := by
  refine ⟨?_, ?_, second_open_run⟩
  · intro h
    obtain ⟨s, hrun, hblocked⟩ := second_open_run
    exact (h s hrun).progress hblocked
  obtain ⟨s, hrun, hr⟩ := early_fetch_run
  simp only [Prod.mk.injEq] at hr
  refine ⟨s, hrun, ?_, ?_, ⟨1, 0⟩, ?_, by decide⟩
  · simp [hr.1]
  · simp [hr.2.1]
  · simp [hr.2.2]

end IdaSdk.PdbSession
