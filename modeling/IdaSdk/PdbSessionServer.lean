import IdaSdk.PdbSessionPlaces

/-!
The steps of the server thread keep the places of the requests, if the client opens a session or fetches something
only while no opening is under way.
-/

namespace IdaSdk.PdbSession

variable {s s' : State} {sid : Nat} {se : Session}

def Settled (s : State) : Prop :=
  ∀ sid se, s.sessions sid = some se → se.is_opening = true → se.fetch_complete ≠ []

/-- The steps of a client that opens and fetches only while no opening is under way, and that fetches from a session
only after a poll has reported its opening. -/
def Polite (s : State) : Action → Prop
  | .ioctl_open => Settled s
  | .ioctl_fetch sid _ => Settled s ∧ ∀ se, s.sessions sid = some se → se.is_opening = false
  | _ => True

theorem set_same (s : State) (sid : Nat) (se : Session) : (s.set sid se).sessions sid = some se :=
  Function.update_self ..

variable {j : Nat}

theorem set_other (hj : j ≠ sid) : (s.set sid se).sessions j = s.sessions j := Function.update_of_ne hj ..

theorem delete_same (s : State) (sid : Nat) : (s.delete sid).sessions sid = none := Function.update_self ..

theorem delete_other (hj : j ≠ sid) : (s.delete sid).sessions j = s.sessions j := Function.update_of_ne hj ..

theorem role_idle (hs : s.server = .idle) (i : Nat) : s.role i = none :=
  congrArg (Server.role i) hs

theorem role_polling (hs : s.server = .polling j) (i : Nat) : s.role i = none :=
  congrArg (Server.role i) hs

theorem role_stopping (hs : s.server = .stopping j) (i : Nat) : s.role i = none :=
  congrArg (Server.role i) hs

theorem Inv.no_stage (h : Inv s) (hrole : ∀ i, s.role i = none) (hset : Settled s) (i : Nat) : s.stage i = none := by
  by_contra hne
  obtain ⟨se, hse⟩ := Option.ne_none_iff_exists'.mp (h.staged i hne)
  have hl := h.here i se hse
  obtain ⟨st, hst⟩ := Option.ne_none_iff_exists'.mp hne
  rw [hrole i, hst] at hl
  cases hl with
  | opening _ hfc hopening => exact hset i se hse hopening hfc

theorem History.answer (h : History s) {r : Reply} (hr : ∀ n ok storage, r ≠ .fetched n ok storage) :
    History (s.answer r) where
  older := h.older
  once := h.once
  completions := h.completions
  requests := h.requests
  answers n ok storage hm := by
    rcases List.mem_append.mp hm with hm | hm
    · exact h.answers n ok storage hm
    · exact absurd (List.mem_singleton.mp hm).symm (hr n ok storage)

variable {n : Nat}

theorem History.took (h : History s) : History (s.took n n) where
  older := h.older
  once := h.once
  completions t ht := by
    rcases List.mem_append.mp ht with ht | ht
    · exact h.completions t ht
    · rw [List.mem_singleton.mp ht]
  requests := h.requests
  answers := h.answers

theorem Inv.moved (h : Inv s) (hrole : ∀ i, s.role i = none) {sv : Server} (hsv : ∀ i, sv.role i = none) {r : List Reply}
    (hr : History { s with server := sv, replies := r }) : Inv { s with server := sv, replies := r } where
  here j se hj := by
    have hl := h.here j se hj
    rw [hrole j] at hl
    change Local s.performed s.next (sv.role j) (s.stage j) se
    rw [hsv j]
    exact hl
  alone i j hi hj := absurd (hsv j) hj
  staged := h.staged
  started := h.started
  gate := h.gate
  unused := h.unused
  history := hr

theorem Inv.answered (h : Inv s) (hrole : ∀ i, s.role i = none) {r : Reply}
    (hr : ∀ n ok storage, r ≠ .fetched n ok storage) : Inv (s.answer r) :=
  h.moved hrole (fun _ => rfl) (h.history.answer hr)

theorem open_inv (h : Inv s) (hs : s.server = .idle) (hset : Settled s) : Inv (ioctl_open s) := by
  have hnone := h.no_stage (role_idle hs) hset
  have hstage : ∀ j, (ioctl_open s).stage j = s.stage j := by
    intro j
    rw [hnone j]
    have hj := hnone j
    unfold State.stage at hj ⊢
    simp only [ioctl_open, Pdb.start_if_needed, State.set]
    split
    · rfl
    · exact hj
  have hnew : Unserved s.performed (s.next + 1) s.next :=
    ⟨Nat.lt_succ_self _, fun p hp => Nat.ne_of_lt (h.history.older p hp)⟩
  apply h.change (s.last_id + 1)
  · intro j hj
    refine ⟨set_other hj, ?_, hstage j⟩
    rw [role_idle hs]
    simp [State.role, ioctl_open, Server.role, Ne.symm hj]
  · exact Or.inl ⟨rfl, Nat.le_succ _⟩
  · intro se hse
    have hse := Option.some.inj ((set_same s (s.last_id + 1) (new_session s.next)).symm.trans hse)
    subst hse
    rw [hstage, hnone]
    simp only [State.role, ioctl_open, Server.role, if_true]
    exact .accepting false rfl rfl rfl (fun h => by cases h) (fun _ => rfl) hnew ⟨rfl, rfl⟩
  · intro hst
    rw [hstage, hnone] at hst
    exact absurd rfl hst
  · exact fun _ => Or.inr hnone
  · intro hoff
    simp only [ioctl_open, Pdb.start_if_needed] at hoff
    split at hoff
    · cases hoff
    · contradiction
  · have hg := h.gate
    simp only [ioctl_open, Pdb.start_if_needed, State.set]
    split
    · rename_i hp
      rw [hp] at hg
      generalize s.accepting_request = acc at hg ⊢
      generalize s.request_available = av at hg ⊢
      cases hg with
      | off => exact .posting
      | working p hp => cases hp
    · exact hg
  · refine ⟨Nat.le_succ _, fun hlt => ?_⟩
    exact absurd hlt (Nat.lt_irrefl _)
  · exact ⟨fun p hp => Nat.lt_succ_of_lt (h.history.older p hp), h.history.once, h.history.completions,
      h.history.requests, h.history.answers⟩

theorem with_session_inv (h : Inv s) (hs : s.server = .idle) {f : Session → State}
    (hf : ∀ se, s.sessions sid = some se → Inv (f se)) : Inv (with_session s sid f) := by
  unfold with_session
  split
  · exact h.answered (role_idle hs) (by simp)
  · cases hse : s.sessions sid with
    | none => exact h.answered (role_idle hs) (by simp)
    | some se => exact hf se hse

theorem fetch_inv (h : Inv s) (hs : s.server = .idle) {id : Option Nat} (hset : Settled s)
    (hpolled : ∀ se, s.sessions sid = some se → se.is_opening = false) : Inv (ioctl_fetch s sid id) := by
  apply with_session_inv h hs
  intro se hse
  have hnone := h.no_stage (role_idle hs) hset
  have hnew : Unserved s.performed (s.next + 1) s.next :=
    ⟨Nat.lt_succ_self _, fun p hp => Nat.ne_of_lt (h.history.older p hp)⟩
  have hl := h.here sid se hse
  rw [role_idle hs, hnone] at hl
  apply h.change_at hse
  · intro j hj
    refine ⟨set_other hj, ?_, rfl⟩
    rw [role_idle hs]
    simp [State.role, Server.role, Ne.symm hj]
  · exact Or.inl ⟨rfl, Nat.le_succ _⟩
  · intro se' hse'
    have hse' := Option.some.inj ((set_same s sid _).symm.trans hse')
    subst hse'
    have hst : State.stage
        { s.set sid { se with request := s.next, opens := false, fetch_id := id.getD se.fetch_id } with
          next := s.next + 1, server := .accepting sid true } sid = s.stage sid := rfl
    rw [hst, hnone]
    simp only [State.role, Server.role, if_true]
    cases hl with
    | quiet hfc hopening hopened hreads =>
        exact .accepting true hfc hopening rfl (fun _ => hopened) (fun h => by cases h) hnew hreads
    | unpolled hfc hopening hreads =>
        rw [hpolled se hse] at hopening
        cases hopening
  · exact fun hst => absurd (hnone sid) hst
  · exact fun _ => Or.inr hnone
  · exact fun hoff => hoff
  · exact h.gate
  · rfl
  · exact ⟨fun p hp => Nat.lt_succ_of_lt (h.history.older p hp), h.history.once, h.history.completions,
      h.history.requests, h.history.answers⟩

theorem Inv.set_session (h : Inv s) {se' : Session} (hse : s.sessions sid = some se)
    (hl : Local s.performed s.next (s.role sid) (s.stage sid) se') : Inv (s.set sid se') := by
  apply h.change_at hse
  · exact fun j hj => ⟨set_other hj, rfl, rfl⟩
  · exact Or.inl ⟨rfl, Nat.le_refl _⟩
  · intro se₁ hse₁
    have hse₁ := Option.some.inj ((set_same s sid se').symm.trans hse₁)
    subst hse₁
    exact hl
  · exact fun hst => ⟨by rw [set_same]; simp, Or.inl hst⟩
  · exact fun hr => Or.inl hr
  · exact fun hoff => hoff
  · exact h.gate
  · rfl
  · exact ⟨h.history.older, h.history.once, h.history.completions, h.history.requests, h.history.answers⟩

def Session.read_complete (se : Session) : Session := { se with read_req := se.read_req - 1, read_resp := se.read_resp + 1 }

theorem Local.read_complete {done : List Perform} {next : Nat} {stage : Option Stage}
    (h : Local done next none stage se) (hreq : 0 < se.read_req) : Local done next none stage se.read_complete := by
  cases h with
  | quiet hfc hopening hopened hreads => exact absurd hreads.1 (Nat.ne_of_gt hreq)
  | unpolled hfc hopening hreads => exact absurd hreads.1 (Nat.ne_of_gt hreq)
  | opening st hfc hopening hopens hrequest hopen hfits =>
      refine .opening st hfc hopening hopens hrequest hopen ?_
      cases st with
      | requested n => exact absurd hfits.2.1 (Nat.ne_of_gt hreq)
      | performing n opens => exact absurd hfits.2.1.1 (Nat.ne_of_gt hreq)
      | reading n opens =>
          obtain ⟨hnew, hone, heq, ho⟩ := hfits
          refine ⟨hnew, ?_, heq, ho⟩
          simp only [Session.read_complete]
          omega
      | finishing n => exact absurd hfits.2.1 (Nat.ne_of_gt hreq)
      | failed n fault => exact hfits

theorem poll_inv (h : Inv s) (hs : s.server = .idle) : Inv (ioctl_poll s sid) := by
  apply with_session_inv h hs
  intro se hse
  split
  · rename_i hreq
    have hl := h.here sid se hse
    rw [role_idle hs] at hl
    have hset : Inv (s.set sid se.read_complete) := by
      apply h.set_session hse
      rw [role_idle hs]
      exact hl.read_complete hreq
    exact hset.moved (role_idle hs) (fun i => (rfl : Server.role i (.polling sid) = none))
      ⟨h.history.older, h.history.once, h.history.completions, h.history.requests, h.history.answers⟩
  · exact h.moved (role_idle hs) (fun _ => rfl)
      ⟨h.history.older, h.history.once, h.history.completions, h.history.requests, h.history.answers⟩

theorem close_inv (h : Inv s) (hs : s.server = .idle) : Inv (ioctl_close s sid) := by
  unfold ioctl_close
  split
  · exact h.answered (role_idle hs) (by simp)
  · split
    · exact h.answered (role_idle hs) (by simp)
    · exact h.moved (role_idle hs) (fun _ => rfl)
        ⟨h.history.older, h.history.once, h.history.completions, h.history.requests, h.history.answers⟩

/-! ### After the ioctl -/

theorem Inv.deleted (h : Inv s) (hrole : ∀ i, s.role i = none) (hst : s.stage sid = none) : Inv (s.delete sid) := by
  apply h.change sid
  · exact fun j hj => ⟨delete_other hj, rfl, rfl⟩
  · exact Or.inl ⟨rfl, Nat.le_refl _⟩
  · intro se hse
    rw [delete_same] at hse
    cases hse
  · exact fun hne => absurd hst hne
  · exact fun hne => absurd (hrole sid) hne
  · exact fun hoff => ⟨hoff, delete_same s sid⟩
  · exact h.gate
  · exact ⟨Nat.le_refl _, fun _ => delete_same s sid⟩
  · exact ⟨h.history.older, h.history.once, h.history.completions, h.history.requests, h.history.answers⟩

theorem Local.polled {done : List Perform} {next label : Nat} {stage : Option Stage} {rest : List Nat}
    (h : Local done next none stage se) (hfc : se.fetch_complete = label :: rest) :
    stage = none ∧ label = se.open_request ∧ rest = [] ∧ se.NoReads := by
  cases h with
  | quiet hnil => rw [hnil] at hfc; cases hfc
  | opening st hnil => rw [hnil] at hfc; cases hfc
  | unpolled hone hopening hreads =>
      rw [hone] at hfc
      obtain ⟨rfl, rfl⟩ := List.cons.inj hfc
      exact ⟨rfl, rfl, rfl, hreads⟩

theorem Inv.took (h : Inv s) : Inv (s.took n n) where
  here := h.here
  alone := h.alone
  staged := h.staged
  started := h.started
  gate := h.gate
  unused := h.unused
  history := h.history.took

theorem polled_inv (h : Inv s) (hs : s.server = .polling sid) (hse : s.sessions sid = some se) : Inv (polled s sid se) := by
  have hrole := role_polling hs
  have hl := h.here sid se hse
  rw [hrole] at hl
  unfold polled
  cases hfc : se.fetch_complete with
  | nil => exact h.answered hrole (by simp)
  | cons label rest =>
      obtain ⟨hst, rfl, rfl, hreads⟩ := hl.polled hfc
      dsimp only
      split
      · rename_i hopened
        have hset : Inv ((s.took se.open_request se.open_request).set sid
            { se with fetch_complete := [], is_opening := false }) := by
          apply h.took.set_session hse
          change Local s.performed s.next (s.role sid) (s.stage sid) _
          rw [hrole, hst]
          exact .quiet rfl rfl hopened hreads
        exact hset.answered hrole (by simp)
      · exact (h.took.deleted hrole hst).answered hrole (by simp)

theorem stop_inv (h : Inv s) (hs : s.server = .stopping sid) (hse : s.sessions sid = some se) : Inv (stop s sid se) := by
  have hrole := role_stopping hs
  have hl := h.here sid se hse
  rw [hrole] at hl
  unfold stop
  split
  · cases hfc : se.fetch_complete with
    | cons label rest =>
        obtain ⟨hst, rfl, -, -⟩ := hl.polled hfc
        exact (h.took.deleted hrole hst).answered hrole (by simp)
    | nil =>
        dsimp only
        split
        · rename_i hreq
          apply h.set_session hse
          have hanswered := hl.read_complete hreq
          rw [Session.read_complete, hfc] at hanswered
          rw [hrole]
          exact hanswered
        · exact h
  · rename_i hclosed
    have hst : s.stage sid = none := by
      generalize s.stage sid = stage at hl
      cases hl with
      | quiet | unpolled => rfl
      | opening st hfc hopening => exact absurd hopening hclosed
    exact (h.deleted hrole hst).answered hrole (by simp)

theorem role_accepting {wait : Bool} (hs : s.server = .accepting sid wait) : s.role sid = some (.accepting wait) :=
  (congrArg (Server.role sid) hs).trans (if_pos rfl)

theorem role_completing (hs : s.server = .completing sid n) : s.role sid = some (.completing n) :=
  (congrArg (Server.role sid) hs).trans (if_pos rfl)

theorem role_replying (hs : s.server = .replying sid n) : s.role sid = some (.replying n) :=
  (congrArg (Server.role sid) hs).trans (if_pos rfl)

theorem role_other (hj : j ≠ sid) (hr : s.role sid ≠ none) : s.role j = none := by
  by_contra hne
  exact hj (role_unique hne hr)

theorem Gate.accepting {p : Pdb} {accepting : Nat} {available : List Nat} (h : Gate p accepting available)
    (ha : 0 < accepting) : p = .waiting ∧ accepting = 1 ∧ available = [] := by
  cases h with
  | waiting => exact ⟨rfl, rfl, rfl⟩
  | _ => exact absurd ha (Nat.lt_irrefl 0)

theorem stage_requested (hp : s.pdb = .waiting) (hrsess : s.pdb_rsess = sid)
    (hav : s.request_available = [n]) (j : Nat) :
    s.stage j = if sid = j then some (.requested n) else none := by
  simp [State.stage, hp, hav, hrsess, Pdb.stage]

theorem stage_waiting (hp : s.pdb = .waiting) (hav : s.request_available = []) (j : Nat) : s.stage j = none := by
  simp [State.stage, hp, hav, Pdb.stage]

theorem accept_inv {wait : Bool} (h : Inv s) (hs : s.server = .accepting sid wait) (ha : 0 < s.accepting_request)
    (hse : s.sessions sid = some se) : Inv (accept s sid wait se) := by
  obtain ⟨hp, hone, hav⟩ := h.gate.accepting ha
  have hnone := stage_waiting hp hav
  have hl := h.here sid se hse
  rw [role_accepting hs, hnone] at hl
  cases hl with
  | accepting wait hfc hopening hopens hopened hrequest hnew hreads =>
      have hother : ∀ j, j ≠ sid → s.role j = none := fun j hj => role_other hj (by rw [role_accepting hs]; simp)
      have hav' : (accept s sid wait se).request_available = [se.request] := by
        unfold accept
        split <;> simp [hav]
      have hp' : (accept s sid wait se).pdb = .waiting := by
        unfold accept
        split <;> exact hp
      have hrsess : (accept s sid wait se).pdb_rsess = sid := by
        unfold accept
        split <;> rfl
      have hst := stage_requested hp' hrsess hav'
      apply h.change_at hse
      · intro j hj
        refine ⟨?_, ?_, ?_⟩
        · unfold accept
          split
          · rfl
          · exact set_other hj
        · rw [hother j hj]
          unfold accept
          split
          · simp [State.role, Server.role, Ne.symm hj]
          · rfl
        · rw [hst, hnone, if_neg (Ne.symm hj)]
      · refine Or.inl ?_
        unfold accept
        split <;> exact ⟨rfl, Nat.le_refl _⟩
      · intro se' hse'
        rw [hst, if_pos rfl]
        cases wait with
        | true =>
            have hse' := Option.some.inj (hse.symm.trans hse')
            subst hse'
            have hr : (accept s sid true se).role sid = some (.completing se.request) := by
              simp [accept, State.role, Server.role]
            rw [hr]
            exact .fetching (.requested se.request) hfc hopening hopens (hopened rfl) rfl ⟨hnew, hreads⟩
        | false =>
            have hse' := Option.some.inj ((set_same s sid _).symm.trans hse')
            subst hse'
            exact .opening (.requested se.request) hfc rfl hopens rfl (hrequest rfl) ⟨hnew, hreads⟩
      · intro _
        refine ⟨?_, Or.inr (by rw [role_accepting hs]; simp)⟩
        unfold accept
        split
        · change s.sessions sid ≠ none
          rw [hse]
          simp
        · change (s.set sid _).sessions sid ≠ none
          rw [set_same]
          simp
      · exact fun _ => Or.inl (by rw [role_accepting hs]; simp)
      · intro hoff
        rw [hp'] at hoff
        cases hoff
      · have hacc : (accept s sid wait se).accepting_request = 0 := by
          unfold accept
          split <;> simp [hone]
        rw [hp', hacc, hav']
        exact .requested se.request
      · unfold accept
        split <;> rfl
      · unfold accept
        split
        · exact ⟨h.history.older, h.history.once, h.history.completions, h.history.requests, h.history.answers⟩
        · have hh := h.history.answer (r := .session sid) (by simp)
          exact ⟨hh.older, hh.once, hh.completions, hh.requests, hh.answers⟩

theorem complete_inv {label : Nat} {rest : List Nat} (h : Inv s) (hs : s.server = .completing sid n)
    (hse : s.sessions sid = some se) (hfc : se.fetch_complete = label :: rest) :
    Inv { (s.took n label).set sid { se with fetch_complete := rest } with server := .replying sid n } := by
  have hl := h.here sid se hse
  rw [role_completing hs] at hl
  have hrole : s.role sid ≠ none := by rw [role_completing hs]; simp
  generalize hst : s.stage sid = stage at hl
  cases hl with
  | fetching st hnil => rw [hnil] at hfc; cases hfc
  | completed n hone hopening hopened hreads hserved =>
      rw [hone] at hfc
      obtain ⟨rfl, rfl⟩ := List.cons.inj hfc
      apply h.change_at hse
      · intro j hj
        refine ⟨set_other hj, ?_, rfl⟩
        rw [role_other hj hrole]
        simp [State.role, Server.role, Ne.symm hj]
      · exact Or.inl ⟨rfl, Nat.le_refl _⟩
      · intro se' hse'
        have hse' := Option.some.inj ((set_same (s.took n n) sid _).symm.trans hse')
        subst hse'
        change Local s.performed s.next (Server.role sid (.replying sid n)) (s.stage sid) _
        rw [hst]
        simp only [Server.role, if_true]
        exact .replying n rfl hopening hopened hreads hserved
      · exact fun hne => absurd hst hne
      · exact fun _ => Or.inl hrole
      · exact fun hoff => hoff
      · exact h.gate
      · rfl
      · have hh := h.history.took (n := n)
        exact ⟨hh.older, hh.once, hh.completions, hh.requests, hh.answers⟩

theorem reply_inv (h : Inv s) (hs : s.server = .replying sid n) (hse : s.sessions sid = some se) :
    Inv (reply s n se) := by
  have hl := h.here sid se hse
  rw [role_replying hs] at hl
  have hrole : s.role sid ≠ none := by rw [role_replying hs]; simp
  generalize hst : s.stage sid = stage at hl
  cases hl with
  | replying n hfc hopening hopened hreads hserved =>
      apply h.change_at hse
      · exact fun j hj => ⟨rfl, (role_other hj hrole).symm, rfl⟩
      · exact Or.inl ⟨rfl, Nat.le_refl _⟩
      · intro se' hse'
        have hse' := Option.some.inj (hse.symm.trans hse')
        subst hse'
        change Local s.performed s.next none (s.stage sid) se
        rw [hst]
        exact .quiet hfc hopening hopened hreads
      · exact fun hne => absurd hst hne
      · exact fun hne => absurd rfl hne
      · exact fun hoff => hoff
      · exact h.gate
      · rfl
      · refine ⟨h.history.older, h.history.once, h.history.completions, h.history.requests, ?_⟩
        intro m ok storage hm
        rcases List.mem_append.mp hm with hm | hm
        · exact h.history.answers m ok storage hm
        · obtain ⟨rfl, rfl, rfl⟩ := Reply.fetched.inj (List.mem_singleton.mp hm)
          exact ⟨_, hserved, rfl, rfl, rfl⟩

end IdaSdk.PdbSession
