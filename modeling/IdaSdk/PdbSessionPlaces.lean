import IdaSdk.PdbSessionModel
import Mathlib.Tactic.Common

/-!
Where a request to a PDB session is. The server thread and the pdb thread are each at one session at most, and the
places of the two at a session determine its semaphores.
-/

namespace IdaSdk.PdbSession

variable {s s' : State} {sid : Nat} {se : Session} {done done' : List Perform} {next next' : Nat}

/-- What the server thread waits for at a session. -/
inductive Role where
  | accepting (wait_for_completion : Bool)
  | completing (n : Nat)
  | replying (n : Nat)

def Server.role (sid : Nat) : Server → Option Role
  | .accepting i wait => if i = sid then some (.accepting wait) else none
  | .completing i n => if i = sid then some (.completing n) else none
  | .replying i n => if i = sid then some (.replying n) else none
  | _ => none

/-- How far the pdb thread is with a request. -/
inductive Stage where
  | requested (n : Nat)
  | performing (n : Nat) (opens : Bool)
  | reading (n : Nat) (opens : Bool)
  | finishing (n : Nat)
  | failed (n : Nat) (fault : Fault)

def Stage.request : Stage → Nat
  | .requested n | .performing n _ | .reading n _ | .finishing n | .failed n _ => n

def Pdb.stage (rsess : Nat) (available : List Nat) (sid : Nat) : Pdb → Option Stage
  | .waiting => if rsess = sid then available.head?.map .requested else none
  | .performing i n opens => if i = sid then some (.performing n opens) else none
  | .reading i n opens => if i = sid then some (.reading n opens) else none
  | .finishing i n => if i = sid then some (.finishing n) else none
  | .failed i n fault => if i = sid then some (.failed n fault) else none
  | _ => none

def State.role (s : State) (sid : Nat) : Option Role := s.server.role sid

def State.stage (s : State) (sid : Nat) : Option Stage := s.pdb.stage s.pdb_rsess s.request_available sid

theorem role_unique {i j : Nat} (hi : s.role i ≠ none) (hj : s.role j ≠ none) : i = j := by
  unfold State.role Server.role at hi hj
  cases hs : s.server <;> simp_all

theorem stage_unique {i j : Nat} (hi : s.stage i ≠ none) (hj : s.stage j ≠ none) : i = j := by
  unfold State.stage Pdb.stage at hi hj
  cases hp : s.pdb <;> simp_all

def Session.NoReads (se : Session) : Prop := se.read_req = 0 ∧ se.read_resp = 0

/-- The number of a request that `perform` has not finished. -/
structure Unserved (done : List Perform) (next n : Nat) : Prop where
  lt : n < next
  new : ∀ p ∈ done, p.request ≠ n

theorem Unserved.mono (h : Unserved done next sid) (hn : next ≤ next') : Unserved done next' sid :=
  ⟨Nat.lt_of_lt_of_le h.lt hn, h.new⟩

/-- What holds of a session while the pdb thread is at it. -/
def Stage.Fits (done : List Perform) (next : Nat) (se : Session) : Stage → Prop
  | .requested n => Unserved done next n ∧ se.NoReads
  | .performing n opens => Unserved done next n ∧ se.NoReads ∧ opens = se.opens
  | .reading n opens => Unserved done next n ∧ se.read_req + se.read_resp = 1 ∧ opens = se.opens ∧ opens = true
  | .finishing n => ⟨n, se.fetch_ok, se.storage⟩ ∈ done ∧ se.NoReads
  | .failed _ fault => fault = .assert629

/-- A session by the places of the server thread and the pdb thread at it. -/
inductive Local (done : List Perform) (next : Nat) : Option Role → Option Stage → Session → Prop where
  | quiet {se : Session} (hfc : se.fetch_complete = []) (hopening : se.is_opening = false) (hopened : se.opened = true)
      (hreads : se.NoReads) : Local done next none none se
  | unpolled {se : Session} (hfc : se.fetch_complete = [se.open_request]) (hopening : se.is_opening = true)
      (hreads : se.NoReads) : Local done next none none se
  | accepting {se : Session} (wait : Bool) (hfc : se.fetch_complete = []) (hopening : se.is_opening = false)
      (hopens : se.opens = !wait) (hopened : wait = true → se.opened = true)
      (hrequest : wait = false → se.open_request = se.request) (hnew : Unserved done next se.request)
      (hreads : se.NoReads) : Local done next (some (.accepting wait)) none se
  | opening {se : Session} (st : Stage) (hfc : se.fetch_complete = []) (hopening : se.is_opening = true)
      (hopens : se.opens = true) (hrequest : se.request = st.request) (hopen : se.open_request = st.request)
      (hfits : st.Fits done next se) : Local done next none (some st) se
  | fetching {se : Session} (st : Stage) (hfc : se.fetch_complete = []) (hopening : se.is_opening = false)
      (hopens : se.opens = false) (hopened : se.opened = true) (hrequest : se.request = st.request)
      (hfits : st.Fits done next se) : Local done next (some (.completing st.request)) (some st) se
  | completed {se : Session} (n : Nat) (hfc : se.fetch_complete = [n]) (hopening : se.is_opening = false)
      (hopened : se.opened = true) (hreads : se.NoReads) (hserved : ⟨n, se.fetch_ok, se.storage⟩ ∈ done) :
      Local done next (some (.completing n)) none se
  | replying {se : Session} (n : Nat) (hfc : se.fetch_complete = []) (hopening : se.is_opening = false)
      (hopened : se.opened = true) (hreads : se.NoReads) (hserved : ⟨n, se.fetch_ok, se.storage⟩ ∈ done) :
      Local done next (some (.replying n)) none se

theorem Stage.Fits.mono {st : Stage} (h : st.Fits done next se) (hn : next ≤ next') : st.Fits done next' se := by
  cases st with
  | requested n => exact ⟨h.1.mono hn, h.2⟩
  | performing n opens => exact ⟨h.1.mono hn, h.2⟩
  | reading n opens => exact ⟨h.1.mono hn, h.2⟩
  | finishing n => exact h
  | failed n fault => exact h

theorem Local.mono {role : Option Role} {stage : Option Stage} (h : Local done next role stage se)
    (hn : next ≤ next') : Local done next' role stage se := by
  cases h with
  | quiet h₁ h₂ h₃ h₄ => exact .quiet h₁ h₂ h₃ h₄
  | unpolled h₁ h₂ h₃ => exact .unpolled h₁ h₂ h₃
  | accepting wait h₁ h₂ h₃ h₄ h₅ h₆ h₇ => exact .accepting wait h₁ h₂ h₃ h₄ h₅ (h₆.mono hn) h₇
  | opening st h₁ h₂ h₃ h₄ h₅ h₆ => exact .opening st h₁ h₂ h₃ h₄ h₅ (h₆.mono hn)
  | fetching st h₁ h₂ h₃ h₄ h₅ h₆ => exact .fetching st h₁ h₂ h₃ h₄ h₅ (h₆.mono hn)
  | completed n h₁ h₂ h₃ h₄ h₅ => exact .completed n h₁ h₂ h₃ h₄ h₅
  | replying n h₁ h₂ h₃ h₄ h₅ => exact .replying n h₁ h₂ h₃ h₄ h₅

theorem Local.apart (h : Local done next none none se) : Local done' next' none none se := by
  cases h with
  | quiet h₁ h₂ h₃ h₄ => exact .quiet h₁ h₂ h₃ h₄
  | unpolled h₁ h₂ h₃ => exact .unpolled h₁ h₂ h₃

theorem Local.completion {role : Option Role} {stage : Option Stage} (h : Local done next role stage se) :
    se.fetch_complete.length ≤ 1 := by
  cases h with
  | quiet h₁ => simp [h₁]
  | accepting wait h₁ => simp [h₁]
  | opening st h₁ => simp [h₁]
  | fetching st h₁ => simp [h₁]
  | replying n h₁ => simp [h₁]
  | unpolled h₁ => simp [h₁]
  | completed n h₁ => simp [h₁]

/-! ### The semaphores of the pdb thread -/

def Pdb.works : Pdb → Bool
  | .performing .. | .reading .. | .finishing .. | .failed .. => true
  | _ => false

/-- `accepting_request` and `request_available` by the place of the pdb thread. -/
inductive Gate : Pdb → Nat → List Nat → Prop where
  | off : Gate .off 0 []
  | posting : Gate .posting 0 []
  | waiting : Gate .waiting 1 []
  | requested (n : Nat) : Gate .waiting 0 [n]
  | working (p : Pdb) (hp : p.works = true) : Gate p 0 []

theorem Gate.available {p : Pdb} {accepting : Nat} {available : List Nat} (h : Gate p accepting available) :
    available.length ≤ 1 := by
  cases h <;> simp

/-- What the records say. -/
structure History (s : State) : Prop where
  older : ∀ p ∈ s.performed, p.request < s.next
  once : s.performed.Pairwise fun p q => p.request ≠ q.request
  completions : ∀ t ∈ s.completions, t.waiter = t.label
  requests : ∀ t ∈ s.requests, t.waiter = t.label
  answers : ∀ n ok storage, .fetched n ok storage ∈ s.replies →
    ∃ p ∈ s.performed, p.request = n ∧ ok = p.ok ∧ storage = if p.ok then some p.storage else none

structure Inv (s : State) : Prop where
  here : ∀ sid se, s.sessions sid = some se → Local s.performed s.next (s.role sid) (s.stage sid) se
  alone : ∀ i j, s.stage i ≠ none → s.role j ≠ none → i = j
  staged : ∀ sid, s.stage sid ≠ none → s.sessions sid ≠ none
  started : ∀ sid, s.sessions sid ≠ none → s.pdb ≠ .off
  gate : Gate s.pdb s.accepting_request s.request_available
  unused : ∀ sid, s.last_id < sid → s.sessions sid = none
  history : History s

theorem inv_initial : Inv initial where
  here := by simp [initial]
  alone := by simp [initial, State.stage, Pdb.stage]
  staged := by simp [initial, State.stage, Pdb.stage]
  started := by simp [initial]
  gate := .off
  unused := by simp [initial]
  history := ⟨by simp [initial], by simp [initial], by simp [initial], by simp [initial], by simp [initial]⟩

/-- A step that is about one session: what is left to show is about that session alone. -/
theorem Inv.change (h : Inv s) (sid : Nat)
    (hframe : ∀ j, j ≠ sid → s'.sessions j = s.sessions j ∧ s'.role j = s.role j ∧ s'.stage j = s.stage j)
    (hdone : (s'.performed = s.performed ∧ s.next ≤ s'.next) ∨ s.stage sid ≠ none)
    (hhere : ∀ se, s'.sessions sid = some se → Local s'.performed s'.next (s'.role sid) (s'.stage sid) se)
    (hstage : s'.stage sid ≠ none → s'.sessions sid ≠ none ∧ (s.stage sid ≠ none ∨ s.role sid ≠ none))
    (hrole : s'.role sid ≠ none → s.role sid ≠ none ∨ ∀ i, s.stage i = none)
    (hstarted : s'.pdb = .off → s.pdb = .off ∧ s'.sessions sid = none)
    (hgate : Gate s'.pdb s'.accepting_request s'.request_available)
    (hunused : s.last_id ≤ s'.last_id ∧ (s'.last_id < sid → s'.sessions sid = none))
    (hhistory : History s') : Inv s' where
  here j se hj := by
    by_cases hjs : j = sid
    · subst hjs
      exact hhere se hj
    obtain ⟨hs, hr, hst⟩ := hframe j hjs
    rw [hs] at hj
    rw [hr, hst]
    rcases hdone with ⟨hp, hn⟩ | hbusy
    · rw [hp]
      exact (h.here j se hj).mono hn
    have hstj : s.stage j = none := by
      by_contra hne
      exact hjs (stage_unique hne hbusy)
    have hrj : s.role j = none := by
      by_contra hne
      exact hjs (h.alone sid j hbusy hne).symm
    have hl := h.here j se hj
    rw [hrj, hstj] at hl ⊢
    exact hl.apart
  alone i j hi hj := by
    by_cases his : i = sid
    · by_cases hjs : j = sid
      · rw [his, hjs]
      subst his
      rw [(hframe j hjs).2.1] at hj
      rcases (hstage hi).2 with hold | hold
      · exact h.alone i j hold hj
      · exact role_unique hold hj
    · rw [(hframe i his).2.2] at hi
      by_cases hjs : j = sid
      · subst hjs
        rcases hrole hj with hold | hnone
        · exact h.alone i j hi hold
        · exact absurd (hnone i) hi
      · rw [(hframe j hjs).2.1] at hj
        exact h.alone i j hi hj
  staged j hj := by
    by_cases hjs : j = sid
    · subst hjs
      exact (hstage hj).1
    · rw [(hframe j hjs).2.2] at hj
      rw [(hframe j hjs).1]
      exact h.staged j hj
  started j hj hoff := by
    obtain ⟨hold, hnone⟩ := hstarted hoff
    by_cases hjs : j = sid
    · subst hjs
      exact hj hnone
    · rw [(hframe j hjs).1] at hj
      exact h.started j hj hold
  gate := hgate
  unused j hj := by
    by_cases hjs : j = sid
    · subst hjs
      exact hunused.2 hj
    · rw [(hframe j hjs).1]
      exact h.unused j (Nat.lt_of_le_of_lt hunused.1 hj)
  history := hhistory

theorem Inv.change_at (h : Inv s) (hse : s.sessions sid = some se)
    (hframe : ∀ j, j ≠ sid → s'.sessions j = s.sessions j ∧ s'.role j = s.role j ∧ s'.stage j = s.stage j)
    (hdone : (s'.performed = s.performed ∧ s.next ≤ s'.next) ∨ s.stage sid ≠ none)
    (hhere : ∀ se, s'.sessions sid = some se → Local s'.performed s'.next (s'.role sid) (s'.stage sid) se)
    (hstage : s'.stage sid ≠ none → s'.sessions sid ≠ none ∧ (s.stage sid ≠ none ∨ s.role sid ≠ none))
    (hrole : s'.role sid ≠ none → s.role sid ≠ none ∨ ∀ i, s.stage i = none)
    (hstarted : s'.pdb = .off → s.pdb = .off)
    (hgate : Gate s'.pdb s'.accepting_request s'.request_available)
    (hlast : s'.last_id = s.last_id) (hhistory : History s') : Inv s' := by
  have hsome : s.sessions sid ≠ none := by rw [hse]; simp
  refine h.change sid hframe hdone hhere hstage hrole ?_ hgate ?_ hhistory
  · exact fun hoff => absurd (hstarted hoff) (h.started sid hsome)
  · rw [hlast]
    exact ⟨Nat.le_refl _, fun hlt => absurd (h.unused sid hlt) hsome⟩

end IdaSdk.PdbSession
