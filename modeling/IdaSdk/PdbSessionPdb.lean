import IdaSdk.PdbSessionServer

/-!
The steps of the pdb thread keep the places of the requests.
-/

namespace IdaSdk.PdbSession

variable {s s' : State} {sid n : Nat} {se : Session} {opens : Bool}

variable {av : List Nat} {acc : Nat}

theorem Gate.of_posting (h : Gate .posting acc av) : acc = 0 ∧ av = [] := by
  cases h with
  | posting => exact ⟨rfl, rfl⟩
  | working p hw => cases hw

theorem Gate.of_working {p : Pdb} (h : Gate p acc av) (hw : p.works = true) :
    acc = 0 ∧ av = [] := by
  cases h with
  | working => exact ⟨rfl, rfl⟩
  | _ => cases hw

theorem Gate.of_requested {label : Nat} {rest : List Nat} (h : Gate .waiting acc (label :: rest)) :
    acc = 0 ∧ rest = [] := by
  cases h with
  | requested => exact ⟨rfl, rfl⟩

theorem post_inv (h : Inv s) (hp : s.pdb = .posting) :
    Inv { s with pdb := .waiting, accepting_request := s.accepting_request + 1 } := by
  have hg := h.gate
  rw [hp] at hg
  obtain ⟨hacc, hav⟩ := hg.of_posting
  have hold : ∀ j, s.stage j = none := by simp [State.stage, hp, Pdb.stage]
  have hnew : ∀ j, State.stage { s with pdb := .waiting, accepting_request := s.accepting_request + 1 } j = none := by
    simp [State.stage, Pdb.stage, hav]
  constructor
  · intro j se hj
    have hl := h.here j se hj
    rw [hold] at hl
    rw [hnew]
    exact hl
  · exact fun i j hi hj => absurd (hnew i) hi
  · exact fun i hi => absurd (hnew i) hi
  · exact fun j hj hoff => by cases hoff
  · change Gate .waiting (s.accepting_request + 1) s.request_available
    rw [hacc, hav]
    exact .waiting
  · exact h.unused
  · exact ⟨h.history.older, h.history.once, h.history.completions, h.history.requests, h.history.answers⟩

variable {done : List Perform} {st : Stage}

theorem Inv.advance (h : Inv s) (hse : s.sessions sid = some se) {se' : Session} {p : Pdb}
    {requests : List Token} (hst : s.stage sid = some st)
    (hw : p.works = true ∨ p = .posting) (hgate : s.accepting_request = 0 ∧ av = [])
    (hhere : Local done s.next (s.role sid) (p.stage s.pdb_rsess [] sid) se')
    (hother : ∀ j, j ≠ sid → p.stage s.pdb_rsess [] j = none)
    (hhistory : History { s.set sid se' with
      pdb := p, performed := done, requests := requests, request_available := av }) :
    Inv { s.set sid se' with pdb := p, performed := done, requests := requests, request_available := av } := by
  obtain ⟨hacc, rfl⟩ := hgate
  have hsome : s.stage sid ≠ none := by rw [hst]; simp
  apply h.change_at hse
  · intro j hj
    refine ⟨set_other hj, rfl, ?_⟩
    have hold : s.stage j = none := by
      by_contra hne
      exact hj (stage_unique hne hsome)
    rw [hold]
    exact hother j hj
  · exact Or.inr hsome
  · intro se₁ hse₁
    have hse₁ := Option.some.inj ((set_same s sid se').symm.trans hse₁)
    subst hse₁
    exact hhere
  · refine fun _ => ⟨?_, Or.inl hsome⟩
    change (s.set sid se').sessions sid ≠ none
    rw [set_same]
    simp
  · exact fun hr => Or.inl hr
  · intro hoff
    have hoff : p = .off := hoff
    rw [hoff] at hw
    rcases hw with hw | hw <;> cases hw
  · change Gate p s.accepting_request []
    rw [hacc]
    rcases hw with hw | hw
    · exact .working p hw
    · rw [hw]
      exact .posting
  · rfl
  · exact hhistory

theorem Local.advance {done' : List Perform} {next : Nat} {role : Option Role} {st' : Stage} {se' : Session}
    (h : Local done next role (some st) se) (hst : st'.request = st.request) (hfc : se'.fetch_complete = [])
    (hopening : se'.is_opening = se.is_opening) (hopens : se'.opens = se.opens) (hrequest : se'.request = se.request)
    (hopen : se'.open_request = se.open_request) (hopened : se.opens = false → se'.opened = se.opened)
    (hfits : st'.Fits done' next se') : Local done' next role (some st') se' := by
  cases h with
  | opening st h₁ h₂ h₃ h₄ h₅ h₆ =>
      exact .opening st' hfc (hopening.trans h₂) (hopens.trans h₃) (by rw [hrequest, hst, h₄])
        (by rw [hopen, hst, h₅]) hfits
  | fetching st h₁ h₂ h₃ h₄ h₅ h₆ =>
      rw [← hst]
      exact .fetching st' hfc (hopening.trans h₂) (hopens.trans h₃) ((hopened h₃).trans h₄)
        (by rw [hrequest, hst, h₅]) hfits

theorem Local.busy {next : Nat} {role : Option Role}
    (h : Local done next role (some st) se) :
    se.fetch_complete = [] ∧ se.request = st.request ∧ st.Fits done next se ∧ (se.opens = false → se.opened = true) := by
  cases h with
  | opening st h₁ h₂ h₃ h₄ h₅ h₆ => exact ⟨h₁, h₄, h₆, fun hf => by rw [h₃] at hf; cases hf⟩
  | fetching st h₁ h₂ h₃ h₄ h₅ h₆ => exact ⟨h₁, h₅, h₆, fun _ => h₄⟩

theorem fault_eq (h : se.opens = false → se.opened = true) {fault : Fault} (hf : se.fault = some fault) :
    fault = .assert629 := by
  unfold Session.fault at hf
  split at hf
  · rename_i hno
    cases ho : se.opens with
    | true => simp [ho] at hno
    | false => simp [h ho] at hno
  · split at hf
    · exact (Option.some.inj hf).symm
    · cases hf

theorem take_inv {label : Nat} {rest : List Nat} (h : Inv s) (hp : s.pdb = .waiting)
    (hav : s.request_available = label :: rest) (hse : s.sessions s.pdb_rsess = some se) :
    Inv (take s label rest se) := by
  have hg := h.gate
  rw [hp, hav] at hg
  have hgate := hg.of_requested
  have hst : s.stage s.pdb_rsess = some (.requested label) := by
    rw [hgate.2] at hav
    simp [stage_requested hp rfl hav]
  have hl := h.here s.pdb_rsess se hse
  rw [hst] at hl
  obtain ⟨hfc, hrequest, ⟨hnew, hreads⟩, hopened⟩ := hl.busy
  have hrequest : se.request = label := hrequest
  have hhist : ∀ {se' p}, History { s.set s.pdb_rsess se' with
      pdb := p, performed := s.performed, requests := s.requests ++ [⟨se.request, label⟩], request_available := rest } := by
    intro se' p
    refine ⟨h.history.older, h.history.once, h.history.completions, ?_, h.history.answers⟩
    intro t ht
    rcases List.mem_append.mp ht with ht | ht
    · exact h.history.requests t ht
    · rw [List.mem_singleton.mp ht]
      exact hrequest
  unfold take
  cases hf : se.fault with
  | none =>
      simp only [if_true]
      refine h.advance hse hst (Or.inl rfl) hgate ?_ ?_ hhist
      · simp only [Pdb.stage, if_true]
        exact hl.advance hrequest hfc rfl rfl rfl rfl (fun _ => rfl) ⟨hrequest ▸ hnew, hreads, rfl⟩
      · exact fun j hj => if_neg (Ne.symm hj)
  | some fault =>
      simp only [reduceCtorEq, if_false]
      refine h.advance hse hst (Or.inl rfl) hgate ?_ ?_ hhist
      · simp only [Pdb.stage, if_true]
        exact hl.advance hrequest hfc rfl rfl rfl rfl (fun _ => rfl) (fault_eq hopened hf)
      · exact fun j hj => if_neg (Ne.symm hj)

theorem stage_performing (hp : s.pdb = .performing sid n opens) : s.stage sid = some (.performing n opens) := by
  simp [State.stage, hp, Pdb.stage]

theorem stage_reading (hp : s.pdb = .reading sid n opens) : s.stage sid = some (.reading n opens) := by
  simp [State.stage, hp, Pdb.stage]

theorem stage_finishing (hp : s.pdb = .finishing sid n) : s.stage sid = some (.finishing n) := by
  simp [State.stage, hp, Pdb.stage]

theorem request_read_inv (h : Inv s) (hp : s.pdb = .performing sid n true) (hse : s.sessions sid = some se) :
    Inv { s.set sid { se with read_req := se.read_req + 1 } with pdb := .reading sid n true } := by
  have hst := stage_performing hp
  have hl := h.here sid se hse
  rw [hst] at hl
  obtain ⟨hfc, hrequest, ⟨hnew, hreads, hopens⟩, hopened⟩ := hl.busy
  refine h.advance hse hst (Or.inl rfl) (h.gate.of_working (by rw [hp]; rfl)) ?_ ?_
    ⟨h.history.older, h.history.once, h.history.completions, h.history.requests, h.history.answers⟩
  · simp only [Pdb.stage, if_true]
    refine hl.advance rfl hfc rfl rfl rfl rfl (fun _ => rfl) ⟨hnew, ?_, hopens, rfl⟩
    simp only [hreads.1, hreads.2]
  · exact fun j hj => if_neg (Ne.symm hj)

theorem resume_inv (h : Inv s) (hp : s.pdb = .reading sid n opens) (hse : s.sessions sid = some se)
    (hresp : 0 < se.read_resp) :
    Inv { s.set sid { se with read_resp := se.read_resp - 1 } with pdb := .performing sid n opens } := by
  have hst := stage_reading hp
  have hl := h.here sid se hse
  rw [hst] at hl
  obtain ⟨hfc, hrequest, ⟨hnew, hone, hopens, -⟩, hopened⟩ := hl.busy
  refine h.advance hse hst (Or.inl rfl) (h.gate.of_working (by rw [hp]; rfl)) ?_ ?_
    ⟨h.history.older, h.history.once, h.history.completions, h.history.requests, h.history.answers⟩
  · simp only [Pdb.stage, if_true]
    refine hl.advance rfl hfc rfl rfl rfl rfl (fun _ => rfl) ⟨hnew, ⟨?_, ?_⟩, hopens⟩
    · change se.read_req = 0
      omega
    · change se.read_resp - 1 = 0
      omega
  · exact fun j hj => if_neg (Ne.symm hj)

theorem finish_inv (h : Inv s) (hp : s.pdb = .performing sid n opens) (hse : s.sessions sid = some se)
    {ok opened : Bool} {storage : bytevec_t} : Inv (finish s sid n opens ok opened storage se) := by
  have hst := stage_performing hp
  have hl := h.here sid se hse
  rw [hst] at hl
  obtain ⟨hfc, hrequest, ⟨hnew, hreads, hopens⟩, hopened⟩ := hl.busy
  refine h.advance hse hst (Or.inl rfl) (h.gate.of_working (by rw [hp]; rfl)) ?_ ?_ ?_
  · simp only [Pdb.stage, if_true]
    refine hl.advance rfl hfc rfl rfl rfl rfl ?_ ⟨List.mem_append_right _ (List.mem_singleton.mpr rfl), hreads⟩
    intro hf
    rw [hopens, hf]
    rfl
  · exact fun j hj => if_neg (Ne.symm hj)
  · refine ⟨?_, ?_, h.history.completions, h.history.requests, ?_⟩
    · intro p hp
      rcases List.mem_append.mp hp with hp | hp
      · exact h.history.older p hp
      · rw [List.mem_singleton.mp hp]
        exact hnew.lt
    · change (s.performed ++ [(⟨n, ok, storage⟩ : Perform)]).Pairwise _
      rw [List.pairwise_append]
      refine ⟨h.history.once, List.pairwise_singleton _ _, ?_⟩
      intro p hp q hq
      rw [List.mem_singleton.mp hq]
      exact hnew.new p hp
    · intro m ok storage hm
      obtain ⟨p, hp, heq⟩ := h.history.answers m ok storage hm
      exact ⟨p, List.mem_append_left _ hp, heq⟩

theorem posted_inv (h : Inv s) (hp : s.pdb = .finishing sid n) (hse : s.sessions sid = some se) :
    Inv { s.set sid { se with fetch_complete := se.fetch_complete ++ [n] } with pdb := .posting } := by
  have hst := stage_finishing hp
  have hl := h.here sid se hse
  rw [hst] at hl
  refine h.advance hse hst (Or.inr rfl) (h.gate.of_working (by rw [hp]; rfl)) ?_ (fun j hj => rfl)
    ⟨h.history.older, h.history.once, h.history.completions, h.history.requests, h.history.answers⟩
  change Local s.performed s.next (s.role sid) none _
  generalize s.role sid = role at hl
  cases hl with
  | opening _ hfc hopening hopens hrequest hopen hfits =>
      refine .unpolled ?_ hopening hfits.2
      change se.fetch_complete ++ [n] = [se.open_request]
      rw [hfc, hopen]
      rfl
  | fetching _ hfc hopening hopens hopened hrequest hfits =>
      refine .completed n ?_ hopening hopened hfits.2 hfits.1
      change se.fetch_complete ++ [n] = [n]
      rw [hfc]
      rfl

end IdaSdk.PdbSession
