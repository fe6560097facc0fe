import IdaSdk.ClassFileFraming

/-!
The loader as a whole. It never loops for ever; it ends in step with the layout of the file if and
only if the file is short enough for its counter and all its fields and methods are legal.
-/

namespace IdaSdk.ClassFile

open Program

section Loader

variable (file : File) (env : Env)

theorem nested_judged (s : State) :
    Ensures .endless (load_attributes_with file env (fail .endless) .code) s fun _ s' =>
      Judged s s' True (s'.pos = tableEnd file s.pos) ∧ s'.loc.fatal = s.loc.fatal := by
  refine (load_attributes_with_judged file env (fun _ _ => consistent_code) (fun h => absurd rfl h)
    fun h => absurd rfl h).mono fun _ s' ⟨hj, hf⟩ => ⟨hj.mono ?_ id, hf⟩
  exact ⟨fun _ => trivial, fun _ _ _ => legal_code⟩

variable {s : State}

theorem load_attributes_judged {apk : attr_parent_kind_t}
    (hc : ConsistentTable file env s.old apk s.pos) : Ensures .endless (load_attributes file env apk) s fun _ s' =>
      Judged s s' (LegalTable file env s.old apk s.pos) (s'.pos = tableEnd file s.pos) := by
  refine (load_attributes_with_judged file env hc (fun _ => ?_) fun _ => nested_judged file env).mono fun _ _ h => h.1
  exact keeps_load_attributes_with file env fun h => absurd rfl h

/-! ### Fields and methods -/

variable {Q : Unit → State → Prop}

theorem ensures_member {g : State → State} {x : Load Unit}
    (hg : Moves s (g s) ∧ (g s).pos = s.pos) (h : ∀ s', Moves s s' → s'.pos = s.pos + 6 → Ensures .endless x s' Q) :
    Ensures .endless (do
      modify g
      let _ ← read2 file
      let _ ← read2 file
      let _ ← read2 file
      x) s Q := by
  refine ensures_modify_bind (ensures_bind (read2_spec file _) fun _ s₁ ⟨_, hm₁, hp₁⟩ => ?_)
  refine ensures_bind (read2_spec file s₁) fun _ s₂ ⟨_, hm₂, hp₂⟩ => ?_
  refine ensures_bind (read2_spec file s₂) fun _ s₃ ⟨_, hm₃, hp₃⟩ => h s₃ ?_ ?_
  · exact ((hg.1.trans hm₁).trans hm₂).trans hm₃
  · have := hg.2
    omega

/-- What a member with attributes does to the state. -/
structure IsMember (apk : attr_parent_kind_t) (x : Load Unit) : Prop where
  ensures : ∀ {s : State} {Q : Unit → State → Prop}, (∀ s', Moves s s' → s'.pos = s.pos + 6 →
    Ensures .endless (load_attributes file env apk) s' Q) → Ensures .endless x s Q

theorem isMember_load_field : IsMember file env .field (load_field file env) :=
  ⟨fun h => ensures_member file (moves_of_eq rfl rfl rfl rfl rfl) h⟩

theorem isMember_load_method : IsMember file env .method (load_method file env) :=
  ⟨fun h => ensures_member file (moves_of_eq rfl rfl rfl rfl rfl) h⟩

section Members

variable {file env} {apk : attr_parent_kind_t} {x : Load Unit}

theorem IsMember.keeps (hx : IsMember file env apk x) : Keeps x := by
  intro s
  refine hx.ensures fun s' hm _ => (keeps_load_attributes file env apk s').mono fun _ _ h => hm.steady.trans h

theorem IsMember.reads (hx : IsMember file env apk x) (s : State) : Ensures .endless x s fun _ s' => s.pos < s'.pos := by
  refine hx.ensures fun s' _ hp => (keeps_load_attributes file env apk s').mono fun _ _ h => ?_
  have := h.pos
  omega

variable {s : State}

theorem IsMember.judged (hx : IsMember file env apk x)
    (hc : ConsistentTable file env s.old apk (s.pos + 6)) : Ensures .endless x s fun _ s' =>
      Judged s s' (LegalTable file env s.old apk (s.pos + 6)) (s'.pos = memberEnd file s.pos) := by
  refine hx.ensures fun s' hm hp => ?_
  have hold : s'.old = s.old := old_eq hm.sub
  rw [← hold, ← hp] at hc ⊢
  refine ((load_attributes_judged file env hc).and (keeps_load_attributes file env apk s')).mono fun _ s'' ⟨hj, hst⟩ => ?_
  refine ((hm.judged trivial).seq hst fun _ => hj).mono (by rw [true_and]) fun h => ?_
  rw [h, hp, memberEnd]

/-- What a round of the loop over the members preserves. -/
def MembersAt (file : File) (env : Env) (apk : attr_parent_kind_t) (s : State) (p j : Nat) (s' : State) : Prop :=
  Steady s s' ∧ (ConsistentMembers file env s.old apk p →
    Judged s s' (∀ k, k < j → LegalTable file env s.old apk (memberAt file p k + 6)) (s'.pos = memberAt file p j))

variable {p : Nat}

theorem IsMember.round (hx : IsMember file env apk x) {s' : State} {j : Nat} (hj : j < file.u2 p)
    (h : MembersAt file env apk s p j s') :
    Ensures .endless x s' fun _ s'' => MembersAt file env apk s p (j + 1) s'' := by
  obtain ⟨hst, hjd⟩ := h
  have hold : s'.old = s.old := old_eq hst.sub
  have hskip : ∀ s'', Steady s' s'' → ¬(ConsistentMembers file env s.old apk p ∧ s'.pos = memberAt file p j) →
      MembersAt file env apk s p (j + 1) s'' := by
    refine fun s'' hst' hno => ⟨hst.trans hst', fun hc => ?_⟩
    refine judged_rounds (fun k => LegalTable file env s.old apk (memberAt file p k + 6)) (hjd hc) hst' fun hp => ?_
    exact absurd ⟨hc, hp⟩ hno
  by_cases hcp : ConsistentMembers file env s.old apk p ∧ s'.pos = memberAt file p j
  · obtain ⟨hc, hp⟩ := hcp
    have hcj := hc j hj
    rw [← hp, ← hold] at hcj
    refine ((hx.keeps s').and (hx.judged hcj)).mono fun _ s'' ⟨hst', hj'⟩ => ⟨hst.trans hst', fun _ => ?_⟩
    rw [hold, hp] at hj'
    refine judged_rounds (fun k => LegalTable file env s.old apk (memberAt file p k + 6)) (hjd hc) hst' fun _ => ?_
    exact hj'.mono Iff.rfl fun h => by rw [h, memberAt_succ]
  · exact (hx.keeps s').mono fun _ s'' hst' => hskip s'' hst' hcp

theorem membersAt_zero (hp : s.pos = p + 2) : MembersAt file env apk s p 0 s :=
  ⟨.refl s, fun _ => (judged_of_log rfl hp).mono (by simp) id⟩

theorem MembersAt.record {s' : State} (h : MembersAt file env apk s p (file.u2 p) s') (kind : table_t) :
    Steady s { s' with log := s'.log ++ [.table kind (file.u2 p) (file.u2 p)] } ∧
      (ConsistentMembers file env s.old apk p →
        Judged s { s' with log := s'.log ++ [.table kind (file.u2 p) (file.u2 p)] } (LegalMembers file env s.old apk p)
          (s'.pos = memberAt file p (file.u2 p))) := by
  have hst := (keeps_table kind (file.u2 p) s').post () _ rfl
  refine ⟨h.1.trans hst, fun hc => ?_⟩
  exact ((h.2 hc).seq hst fun hg => judged_table kind _ _ hg).mono (by rw [and_true]; rfl) id

end Members

theorem load_fields_spec {p : Nat} (hp : s.pos = p + 2) :
    Ensures .endless (load_fields file env (file.u2 p)) s fun _ s' => file.u2 p < 0xffff ∧ Steady s s' ∧
      (ConsistentMembers file env s.old .field p → Judged s s' (LegalMembers file env s.old .field p)
        (s'.pos = memberAt file p (file.u2 p))) := by
  have hx := isMember_load_field file env
  refine ensures_get_bind (ensures_bind (ensures_count16 hx.keeps hx.reads (fun _ _ hj h => hx.round hj h)
    (membersAt_zero hp)) fun i s' ⟨hi, hlt, h⟩ => ensures_modify ⟨hlt, ?_⟩)
  rw [hi, Nat.add_sub_cancel]
  exact h.record .fields

theorem load_methods_spec {p : Nat} (hp : s.pos = p + 2) :
    Ensures .endless (load_methods file env (file.u2 p)) s fun _ s' => Steady s s' ∧
      (ConsistentMembers file env s.old .method p → Judged s s' (LegalMembers file env s.old .method p)
        (s'.pos = memberAt file p (file.u2 p))) := by
  have hx := isMember_load_method file env
  refine ensures_bind (ensures_count (fun j _ => by rw [decide_eq_true_eq]; omega) (fun _ _ hj h => hx.round hj h)
    (membersAt_zero hp)) fun i s' ⟨hi, h⟩ => ensures_modify ?_
  rw [hi, Nat.add_sub_cancel_left]
  exact h.record .methods

/-! ### The start of the file -/

variable (maxCPindex : Nat)

theorem read_index_spec : Spends (read_index file maxCPindex) 2 fun _ => 0 :=
  (spends_read2 file (Nat.le_refl 2)).bind fun _ =>
    spends_ite (fun _ => spends_failure _) fun _ => spends_pure rfl

theorem LoadUtf8_spec (s : State) : Ensures .endless (LoadUtf8 file) s fun _ s' =>
    Moves s s' ∧ s'.pos = s.pos + (2 + file.u2 s.pos) := by
  refine ensures_bind (read2_spec file s) fun n s₁ ⟨hn, hm₁, hp₁⟩ => ?_
  subst hn
  refine ensures_bind (utf8_chars_spec file (Nat.le_refl _) s₁) fun r s₂ ⟨hm₂, _, hok⟩ => ?_
  cases r with
  | error msg => exact ensures_fail (by simp)
  | ok _ =>
      have := hok rfl
      exact ensures_pure ⟨hm₁.trans hm₂, by omega⟩

theorem load_constant_spec (s : State) :
    Ensures .endless (load_constant file maxCPindex) s fun wide s' =>
    Moves s s' ∧ s'.pos = s.pos + constantSize file s.pos ∧
      (wide = true ↔ file.u1 s.pos = CONSTANT_Long ∨ file.u1 s.pos = CONSTANT_Double) := by
  refine ensures_bind (read1_spec file s) fun type s₁ ⟨htype, hm₁, hp₁⟩ => ?_
  rw [← htype]
  have hdone : ∀ {s' : State} {wide : Bool} {n : Nat}, Moves s s' → s'.pos = s.pos + n → constantSize file s.pos = n →
      (wide = true ↔ type = CONSTANT_Long ∨ type = CONSTANT_Double) →
      Ensures .endless (pure wide : Load Bool) s' fun wide s' => Moves s s' ∧
        s'.pos = s.pos + constantSize file s.pos ∧ (wide = true ↔ type = CONSTANT_Long ∨ type = CONSTANT_Double) :=
    fun hm hp hsize hwide => ensures_pure ⟨hm, by rw [hsize, hp], hwide⟩
  have hindex : ∀ {s₂ : State}, Moves s₁ s₂ → Ensures .endless (read_index file maxCPindex) s₂ fun _ s' =>
      Moves s s' ∧ s'.pos = s₂.pos + 2 :=
    fun hm => (read_index_spec file maxCPindex _).mono fun _ _ h => ⟨(hm₁.trans hm).trans h.1, h.2⟩
  refine ensures_ite (fun h => ?_) fun h => ?_
  · refine ensures_bind (read4_spec file s₁) fun _ s₂ ⟨_, hm₂, hp₂⟩ => ?_
    refine ensures_bind (read4_spec file s₂) fun _ s₃ ⟨_, hm₃, hp₃⟩ => ?_
    refine hdone ((hm₁.trans hm₂).trans hm₃) (by omega : _ = s.pos + 9) ?_ (by simp [h])
    simp only [constantSize, ← htype, if_pos h]
  refine ensures_ite (fun h₁ => ?_) fun h₁ => ?_
  · refine ensures_bind (read4_spec file s₁) fun _ s₂ ⟨_, hm₂, hp₂⟩ => ?_
    refine hdone (hm₁.trans hm₂) (by omega : _ = s.pos + 5) ?_ (by simp [h])
    simp only [constantSize, ← htype, if_neg h, if_pos h₁]
  refine ensures_ite (fun h₂ => ?_) fun h₂ => ?_
  · refine ensures_bind (hindex (.refl s₁)) fun _ s₂ ⟨hm₂, hp₂⟩ => ?_
    refine ensures_bind (read_index_spec file maxCPindex s₂) fun _ s₃ ⟨hm₃, hp₃⟩ => ?_
    have hp₃' : s₃.pos = s₂.pos + 2 := hp₃
    refine hdone (hm₂.trans hm₃) (by omega : _ = s.pos + 5) ?_ (by simp [h])
    simp only [constantSize, ← htype, if_neg h, if_neg h₁, if_pos h₂]
  refine ensures_ite (fun h₃ => ?_) fun h₃ => ?_
  · refine ensures_bind (hindex (.refl s₁)) fun _ s₂ ⟨hm₂, hp₂⟩ => ?_
    refine hdone hm₂ (by omega : _ = s.pos + 3) ?_ (by simp [h])
    simp only [constantSize, ← htype, if_neg h, if_neg h₁, if_neg h₂, if_pos h₃]
  refine ensures_ite (fun _ => ensures_fail (by simp)) fun _ => ensures_ite (fun h₄ => ?_) fun h₄ => ?_
  · refine ensures_bind (LoadUtf8_spec file s₁) fun _ s₂ ⟨hm₂, hp₂⟩ => ?_
    rw [hp₁] at hp₂
    refine hdone (hm₁.trans hm₂) (by omega : _ = s.pos + (3 + file.u2 (s.pos + 1))) ?_ (by simp [h])
    simp only [constantSize, ← htype, if_neg h, if_neg h₁, if_neg h₂, if_neg h₃, if_pos h₄]
  refine ensures_ite (fun h₅ => ?_) fun h₅ => ensures_ite (fun _ => ?_) fun _ => ensures_fail (by simp)
  · refine ensures_bind (read1_spec file s₁) fun _ s₂ ⟨_, hm₂, hp₂⟩ => ?_
    refine ensures_bind (read2_spec file s₂) fun _ s₃ ⟨_, hm₃, hp₃⟩ => ?_
    refine hdone ((hm₁.trans hm₂).trans hm₃) (by omega : _ = s.pos + 4) ?_ (by simp [h])
    simp only [constantSize, ← htype, if_neg h, if_neg h₁, if_neg h₂, if_neg h₃, if_neg h₄, if_pos h₅]
  · refine ensures_bind (read2_spec file s₁) fun _ s₂ ⟨_, hm₂, hp₂⟩ => ?_
    refine ensures_bind (hindex hm₂) fun _ s₃ ⟨hm₃, hp₃⟩ => ?_
    refine hdone hm₃ (by omega : _ = s.pos + 5) ?_ (by simp [h])
    simp only [constantSize, ← htype, if_neg h, if_neg h₁, if_neg h₂, if_neg h₃, if_neg h₄, if_neg h₅]

theorem load_constants_spec (maxCPindex n : Nat) (s : State) :
    Ensures .endless (load_constants file maxCPindex n) s fun _ s' =>
      Moves s s' ∧ s'.pos = constantsEnd file n s.pos := by
  induction n using Nat.strong_induction_on generalizing s with
  | h n ih =>
      match n with
      | 0 => exact ensures_pure ⟨.refl s, rfl⟩
      | 1 =>
          refine ensures_bind (load_constant_spec file maxCPindex s) fun wide s₁ ⟨hm, hp, _⟩ => ?_
          exact ensures_ite (fun _ => ensures_fail (by simp)) fun _ => ensures_pure ⟨hm, hp⟩
      | n + 2 =>
          rw [load_constants, constantsEnd]
          refine ensures_bind (load_constant_spec file maxCPindex s) fun wide s₁ ⟨hm, hp, hwide⟩ => ?_
          rw [← hp]
          refine ensures_ite (fun h => ?_) fun h => ?_
          · rw [if_pos (hwide.mp h)]
            exact (ih n (by omega) s₁).mono fun _ _ ⟨hm', hp'⟩ => ⟨hm.trans hm', hp'⟩
          · rw [if_neg fun hno => h (hwide.mpr hno)]
            exact (ih (n + 1) (by omega) s₁).mono fun _ _ ⟨hm', hp'⟩ => ⟨hm.trans hm', hp'⟩

theorem load_constants_pool_spec (s : State) :
    Ensures .endless (load_constants_pool file env maxCPindex) s fun _ s' =>
      Moves s s' ∧ s'.pos = constantsEnd file maxCPindex s.pos :=
  ensures_bind (load_constants_spec file maxCPindex maxCPindex s) fun _ _ h =>
    ensures_ite (fun _ => ensures_pure h) fun _ => ensures_fail (by simp)

theorem load_interfaces_spec (s : State) : Ensures .endless (load_interfaces file) s fun FieldCnt s' =>
    FieldCnt = file.u2 (s.pos + 2 + 2 * file.u2 s.pos) ∧ Moves s s' ∧ s'.pos = s.pos + 2 + 2 * file.u2 s.pos + 2 := by
  refine ensures_bind (read2_spec file s) fun n s₁ ⟨hn, hm₁, hp₁⟩ => ?_
  subst hn
  generalize hcount : file.u2 s.pos = n
  -- the position is ahead of the counter by `2 * n`, then behind it by 2
  refine ensures_bind (Q := fun FieldCnt s₄ => FieldCnt = file.u2 (s.pos + 2 + 2 * n) ∧ s₄.pos = s.pos + 2 ∧
    s₄.pos + s₄.FileSize + 2 = s.pos + s.FileSize ∧ s₄.log = s.log ∧ s₄.loc.fatal = s.loc.fatal ∧
      s₄.curClass.JDKsubver = s.curClass.JDKsubver) ?_ fun FieldCnt s₄ ⟨hcnt, hp₄, htotal, hl, hf, hsub⟩ => ?_
  · refine ensures_get_bind (ensures_ite (fun _ => ensures_fail (by simp)) fun _ => ensures_modify_bind ?_)
    refine ensures_bind (read2_spec file _) fun FieldCnt s₃ ⟨hcnt, hm₃, hp₃⟩ => ensures_modify_bind (ensures_pure ?_)
    have hp₃' : s₃.pos = s₁.pos + n * 2 + 2 := hp₃
    have htotal : s₃.pos + s₃.FileSize = s₁.pos + n * 2 + s₁.FileSize := hm₃.total
    have htotal₁ := hm₁.total
    have hcnt' : FieldCnt = file.u2 (s₁.pos + n * 2) := hcnt
    refine ⟨?_, ?_, ?_, hm₃.log.trans hm₁.log, hm₃.fatal.trans hm₁.fatal, hm₃.sub.trans hm₁.sub⟩
    · rw [hcnt', hp₁, Nat.mul_comm]
    · change s₃.pos - (2 + n * 2) = s.pos + 2
      omega
    · change s₃.pos - (2 + n * 2) + s₃.FileSize + 2 = s.pos + s.FileSize
      omega
  · have hrow : Spends (do let _ ← read2 file : Load Unit) 2 fun _ => 0 :=
      (spends_read2 file (Nat.le_refl 2)).bind fun _ => spends_pure rfl
    refine ensures_bind (spends_rounds hrow s₄) fun _ s₅ ⟨hm₅, hp₅⟩ => ensures_modify_bind (ensures_pure ⟨hcnt, ?_, ?_⟩)
    · have hp₅' : s₅.pos = s₄.pos + n * 2 := hp₅
      have htotal₅ := hm₅.total
      refine ⟨?_, ?_, hm₅.log.trans hl, hm₅.fatal.trans hf, hm₅.sub.trans hsub⟩
      · change s₅.pos + 2 + s₅.FileSize = s.pos + s.FileSize
        omega
      · change s.pos ≤ s₅.pos + 2
        omega
    · have hp₅' : s₅.pos = s₄.pos + n * 2 := hp₅
      change s₅.pos + 2 = s.pos + 2 + 2 * n + 2
      omega

theorem load_header_spec (h : s.pos = 0) : Ensures .endless (load_header file) s fun _ s' =>
    s'.pos = 8 ∧ s'.pos + s'.FileSize = s.pos + s.FileSize ∧ s'.log = s.log ∧ s'.old = isOld file := by
  refine ensures_bind (read4_spec file s) fun _ s₁ ⟨_, hm₁, hp₁⟩ =>
    ensures_ite (fun _ => ensures_fail (by simp)) fun _ => ?_
  refine ensures_bind (read2_spec file s₁) fun MinVers s₂ ⟨hmin, hm₂, hp₂⟩ => ?_
  refine ensures_bind (read2_spec file s₂) fun MajVers s₃ ⟨hmaj, hm₃, hp₃⟩ => ?_
  refine ensures_ite (fun _ => ensures_fail (by simp)) fun hver => ensures_modify ?_
  have hm := (hm₁.trans hm₂).trans hm₃
  refine ⟨?_, hm.total, hm.log, ?_⟩
  · change s₃.pos = 8
    omega
  rw [show s₁.pos = 4 from by omega] at hmin
  rw [show s₂.pos = 6 from by omega] at hmaj
  rw [isOld, ← hmin, ← hmaj]
  change decide ((if MajVers = 45 then (if MinVers ≥ 3 then 1 else 0) else MajVers - 44) = 0) = _
  by_cases hmaj45 : MajVers = 45
  · by_cases hmin3 : MinVers ≥ 3
    · simp [hmaj45, hmin3]
    · simp [hmaj45, hmin3]
      omega
  · simp [hmaj45]
    omega

theorem load_start_spec {x : Nat → Load Unit}
    (h : ∀ s, s.pos = fieldsAt file + 2 → s.pos + s.FileSize = file.length % 0x100000000 → s.log = [] →
      s.old = isOld file → Ensures .endless (x (file.u2 (fieldsAt file))) s Q) :
    Ensures .endless (do
      load_header file
      let maxCPindex ← read2 file
      if maxCPindex ≤ 2 then loader_failure "Empty constant pool"
      else
        load_constants_pool file env (maxCPindex - 1)
        let _ ← read2 file
        let _ ← read2 file
        let _ ← read2 file
        let FieldCnt ← load_interfaces file
        x FieldCnt) (State.start file env) Q := by
  refine ensures_bind (load_header_spec file rfl) fun _ s₁ ⟨hp₁, htotal, hl, hold⟩ => ?_
  refine ensures_bind (read2_spec file s₁) fun n s₂ ⟨hn, hm₂, hp₂⟩ =>
    ensures_ite (fun _ => ensures_fail (by simp)) fun _ => ?_
  refine ensures_bind (load_constants_pool_spec file env (n - 1) s₂) fun _ s₃ ⟨hm₃, hp₃⟩ => ?_
  refine ensures_bind (read2_spec file s₃) fun _ s₄ ⟨_, hm₄, hp₄⟩ => ?_
  refine ensures_bind (read2_spec file s₄) fun _ s₅ ⟨_, hm₅, hp₅⟩ => ?_
  refine ensures_bind (read2_spec file s₅) fun _ s₆ ⟨_, hm₆, hp₆⟩ => ?_
  refine ensures_bind (load_interfaces_spec file s₆) fun FieldCnt s₇ ⟨hcnt, hm₇, hp₇⟩ => ?_
  have hm : Moves s₁ s₇ := ((((hm₂.trans hm₃).trans hm₄).trans hm₅).trans hm₆).trans hm₇
  rw [hp₁] at hn hp₂
  subst hn
  rw [hp₂] at hp₃
  have hpool : s₃.pos = poolEnd file := hp₃
  have hp₆' : s₆.pos = poolEnd file + 6 := by omega
  rw [hp₆'] at hcnt hp₇
  obtain rfl : FieldCnt = file.u2 (fieldsAt file) := hcnt
  refine h s₇ ?_ ?_ (hm.log.trans hl) ((old_eq hm.sub).trans hold)
  · rw [hp₇, fieldsAt]
  · have htotal' : s₁.pos + s₁.FileSize = 0 + file.length % 0x100000000 := htotal
    rw [hm.total, htotal', Nat.zero_add]

theorem loader_spec : Ensures .endless (loader file env) (State.start file env) fun _ s =>
    file.u2 (fieldsAt file) < 0xffff ∧ (∀ e ∈ s.log, e.Balanced (file.length % 0x100000000)) ∧
      .finish s.pos s.FileSize ∈ s.log ∧
      (Consistent file env → (Synced s.log ↔ Legal file env) ∧ (Synced s.log → s.pos = classEnd file)) := by
  refine load_start_spec file env fun s₀ hp₀ htotal hl₀ hold₀ => ?_
  refine ensures_bind (load_fields_spec file env hp₀) fun _ s₁ ⟨hlt, hst₁, hj₁⟩ => ?_
  refine ensures_bind (read2_spec file s₁) fun n s₂ ⟨hn, hm₂, hp₂⟩ => ?_
  subst hn
  refine ensures_bind (load_methods_spec file env hp₂) fun _ s₃ ⟨hst₃, hj₃⟩ => ?_
  have hold₂ : s₂.old = isOld file := (old_eq hm₂.sub).trans ((old_eq hst₁.sub).trans hold₀)
  have hold₃ : s₃.old = isOld file := (old_eq hst₃.sub).trans hold₂
  have hclass : Ensures .endless (load_attributes file env .class_file) s₃ fun _ s₄ => Steady s₃ s₄ ∧
      (ConsistentTable file env (isOld file) .class_file s₃.pos → Judged s₃ s₄ True (s₄.pos = tableEnd file s₃.pos)) := by
    refine ((keeps_load_attributes file env .class_file s₃).and ?_).mono fun _ s₄ h => h
    by_cases hc : ConsistentTable file env s₃.old .class_file s₃.pos
    · refine (load_attributes_judged file env hc).mono fun _ s₄ h _ => h.mono ?_ id
      exact ⟨fun _ => trivial, fun _ _ _ => legal_class_file⟩
    · rw [hold₃] at hc
      exact (keeps_load_attributes file env .class_file s₃).mono fun _ _ _ h => absurd h hc
  refine ensures_bind hclass fun _ s₄ ⟨hst₄, hj₄⟩ => ensures_get_bind (ensures_modify ?_)
  have hst : Steady s₀ s₄ := ((hst₁.trans hm₂.steady).trans hst₃).trans hst₄
  have hfinal : s₄.pos + s₄.FileSize = file.length % 0x100000000 := by rw [hst.total, htotal]
  obtain ⟨L, hL, hbal⟩ := hst.log
  rw [hl₀, List.nil_append] at hL
  refine ⟨hlt, fun e he => ?_, List.mem_append_right _ (List.mem_singleton_self _), fun hc => ?_⟩
  · rcases List.mem_append.mp he with he | he
    · rw [hL] at he
      rw [← htotal]
      exact hbal e he
    · obtain rfl := List.mem_singleton.mp he
      exact hfinal
  · rw [hold₀] at hj₁
    rw [hold₂] at hj₃
    have hrest : s₁.pos = methodsAt file → Judged s₂ s₄
        (LegalMembers file env (isOld file) .method (methodsAt file) ∧ True) (s₄.pos = classEnd file) := by
      intro hmethods
      rw [hmethods] at hj₃
      refine (hj₃ hc.methods).seq hst₄ fun hattributes => ?_
      change s₃.pos = classAttributesAt file at hattributes
      rw [hattributes] at hj₄
      exact hj₄ hc.attributes
    have hjudged := ((hj₁ hc.fields).seq hm₂.steady fun hp => hm₂.judged hp).seq (hst₃.trans hst₄) hrest
    obtain ⟨L', hL', hsync, hgoal⟩ := hjudged
    rw [hl₀, List.nil_append] at hL'
    have hall : Synced (s₄.log ++ [Event.finish s₄.pos s₄.FileSize]) ↔ Synced L' := by
      rw [hL', synced_append]
      simp [Synced, Event.InSync]
    refine ⟨hall.trans (hsync.trans ⟨fun h => ⟨h.1.1, h.2.1⟩, fun h => ⟨⟨h.fields, trivial⟩, h.methods, trivial⟩⟩), ?_⟩
    exact fun h => hgoal (hall.mp h)

/-- After an attribute the position is at its end, a table has as many entries as it declares, and
`FileSize` is the number of bytes that have not been read. -/
def Event.Framed (file : File) (e : Event) : Prop := e.InSync ∧ e.Balanced file.length

/-- Everything was in step, up to the end of the file's last structure. -/
def Framed (file : File) (s : State) : Prop := (∀ e ∈ s.log, e.Framed file) ∧ s.pos = classEnd file

/-- A consistent file that is loaded is framed if and only if it is shorter than 4 GB, its constant
values exist, and its methods without instructions have no exceptions. -/
theorem framed_iff {s : State} (hc : Consistent file env) (h : loader file env (State.start file env) = .ok ((), s)) :
    Framed file s ↔ file.length < 0x100000000 ∧ Legal file env := by
  obtain ⟨-, hbal, hfinish, hjudged⟩ := (loader_spec file env).post () s h
  obtain ⟨hsync, hend⟩ := hjudged hc
  constructor
  · rintro ⟨hframed, -⟩
    have hlen : s.pos + s.FileSize = file.length % 0x100000000 := hbal _ hfinish
    have hlen' : s.pos + s.FileSize = file.length := (hframed _ hfinish).2
    exact ⟨by omega, hsync.mp fun e he => (hframed e he).1⟩
  · rintro ⟨hlen, hlegal⟩
    rw [Nat.mod_eq_of_lt hlen] at hbal
    have hsynced := hsync.mpr hlegal
    exact ⟨fun e he => ⟨hsynced e he, hbal e he⟩, hend hsynced⟩

end Loader

section Example

/-- A class with two strings in its constant pool and a field whose constant value has this index. -/
def exampleFile (index : UInt8) : File :=
  [0xca, 0xfe, 0xba, 0xbe, 0, 0, 0, 50, 0, 3, 1, 0, 1, 65, 1, 0, 1, 66, 0, 0, 0, 1, 0, 0, 0, 0,
    0, 1, 0, 0, 0, 1, 0, 2, 0, 1, 0, 1, 0, 0, 0, 2, 0, index, 0, 0, 0, 0, 0, 0]

def exampleEnv : Env where
  pool i := if i = 1 then some ⟨CONSTANT_Utf8, HAS_FLDNAME, 1, 0⟩ else none
  fmtName _ := some "ConstantValue"
  pool_consistent := true
  MLD_FORCE := false
  MLD_EXTATR := false
  IDM_REQUNK := true
  ask_sde := false
  ask_unknown := false
  path_error _ := none
  write_error _ := none

def exampleLoad (index : UInt8) : Except Abort (Unit × State) :=
  loader (exampleFile index) exampleEnv (State.start (exampleFile index) exampleEnv)

theorem example_log : (exampleLoad 1).map (fun r => r.2.log) = .ok
    [.attribute 36 2 44 6, .table .attributes 1 1, .table .fields 1 1, .table .methods 0 0, .table .attributes 0 0,
      .finish 48 2] := rfl

theorem example_log_illegal : (exampleLoad 9).map (fun r => r.2.log) = .ok
    [.attribute 36 2 46 4, .table .attributes 1 1, .table .fields 1 1, .table .methods 0 0, .table .attributes 0 0,
      .finish 50 0] := rfl

theorem exists_of_log {index : UInt8} {L : List Event} (h : (exampleLoad index).map (fun r => r.2.log) = .ok L) :
    ∃ s, exampleLoad index = .ok ((), s) ∧ s.log = L := by
  cases hl : exampleLoad index with
  | error e =>
      rw [hl] at h
      exact absurd h (by simp [Except.map])
  | ok r =>
      rw [hl] at h
      exact ⟨r.2, rfl, Except.ok.inj h⟩

theorem framed_iff_example : ∃ s, exampleLoad 1 = .ok ((), s) ∧ Framed (exampleFile 1) s := by
  obtain ⟨s, hs, -⟩ := exists_of_log example_log
  have hc : Consistent (exampleFile 1) exampleEnv := ⟨by decide +kernel, by decide +kernel, by decide +kernel⟩
  exact ⟨s, hs, (framed_iff _ _ hc hs).mpr ⟨by decide, by decide +kernel, by decide +kernel⟩⟩

theorem not_framed : ¬∀ (file : File) (env : Env) (s : State), Consistent file env →
    loader file env (State.start file env) = .ok ((), s) → Framed file s := by
  intro h
  obtain ⟨s, hs, hlog⟩ := exists_of_log example_log_illegal
  have hc : Consistent (exampleFile 9) exampleEnv := ⟨by decide +kernel, by decide +kernel, by decide +kernel⟩
  have hevent := (h _ _ s hc hs).1 (.attribute 36 2 46 4) (by rw [hlog]; simp)
  exact absurd hevent.1 (by decide : ¬(46 : Nat) = 36 + 6 + 2)

end Example

end IdaSdk.ClassFile
