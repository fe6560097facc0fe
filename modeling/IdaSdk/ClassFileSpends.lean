import IdaSdk.ClassFileAttributes

/-!
How far the position moves. Most routines of the loader are given a number of bytes and say what is
left of it; they keep their word whatever the bytes are.
-/

namespace IdaSdk.ClassFile

open Program

/-- The position moves on, `FileSize` with it, and what is observed stays as it is. -/
structure Moves (s s' : State) : Prop where
  total : s'.pos + s'.FileSize = s.pos + s.FileSize
  pos : s.pos ≤ s'.pos
  log : s'.log = s.log
  fatal : s'.loc.fatal = s.loc.fatal
  sub : s'.curClass.JDKsubver = s.curClass.JDKsubver

theorem Moves.refl (s : State) : Moves s s := ⟨rfl, Nat.le_refl _, rfl, rfl, rfl⟩

theorem Moves.trans {s s' s'' : State} (h : Moves s s') (h' : Moves s' s'') : Moves s s'' :=
  ⟨h'.total.trans h.total, Nat.le_trans h.pos h'.pos, h'.log.trans h.log, h'.fatal.trans h.fatal,
    h'.sub.trans h.sub⟩

/-- Of `size` bytes the program reads all but those that are left according to its result. -/
def Spends {α : Type} (x : Load α) (size : Nat) (rest : α → Nat) : Prop :=
  ∀ s, Ensures .endless x s fun a s' => Moves s s' ∧ s'.pos + rest a = s.pos + size

section Rules

variable {α β : Type} {x y : Load α} {f : α → Load β} {size : Nat} {rest : α → Nat} {rest' : β → Nat}

theorem Spends.bind_le (hx : Spends x size rest) (hf : ∀ a, rest a ≤ size → Spends (f a) (rest a) rest') :
    Spends (x >>= f) size rest' := by
  intro s
  refine ensures_bind (hx s) fun a s' ⟨hm, hp⟩ => ?_
  have hle : rest a ≤ size := by
    have := hm.pos
    omega
  exact (hf a hle s').mono fun b s'' hs'' => ⟨hm.trans hs''.1, by omega⟩

theorem Spends.bind (hx : Spends x size rest) (hf : ∀ a, Spends (f a) (rest a) rest') :
    Spends (x >>= f) size rest' := hx.bind_le fun a _ => hf a

theorem spends_pure {a : α} (h : rest a = size) : Spends (pure a) size rest :=
  fun s => ensures_pure ⟨.refl s, by rw [h]⟩

theorem spends_fail {e : Abort} (h : e ≠ .endless) : Spends (fail e : Load α) size rest :=
  fun _ => ensures_fail h

theorem spends_failure (msg : String) : Spends (loader_failure msg : Load α) size rest :=
  spends_fail (by simp)

theorem spends_ite {c : Prop} [Decidable c] (hx : c → Spends x size rest) (hy : ¬c → Spends y size rest) :
    Spends (if c then x else y) size rest :=
  fun s => ensures_ite (fun h => hx h s) fun h => hy h s

theorem spends_get {g : State → Load β} (h : ∀ s, Spends (g s) size rest') : Spends (get >>= g) size rest' :=
  fun s => ensures_get_bind (h s s)

theorem spends_rounds {body : Load Unit} {n m i : Nat} (hbody : Spends body m fun _ => 0) :
    Spends (rounds (fun _ => body) n i) (n * m) fun _ => 0 := by
  induction n generalizing i with
  | zero => exact spends_pure (Nat.zero_mul m).symm
  | succ n ih =>
      have hlast : Spends body ((n + 1) * m) fun _ => n * m := fun s =>
        (hbody s).mono fun _ s' hs' => ⟨hs'.1, by
          have h : s'.pos = s.pos + m := hs'.2
          rw [Nat.succ_mul]
          change s'.pos + n * m = _
          omega⟩
      exact hlast.bind fun _ => ih

end Rules

section Reading

variable (file : File) {size : Nat}

theorem readData_spec (n : Nat) (s : State) : Ensures .endless (readData file n) s fun p s' =>
    p = s.pos ∧ Moves s s' ∧ s'.pos = s.pos + n := by
  refine ensures_get_bind (ensures_ite (fun _ => ensures_fail (by simp)) fun hsize => ?_)
  refine ensures_ite (fun _ => ensures_fail (by simp)) fun _ => ensures_modify_bind (ensures_pure ?_)
  refine ⟨rfl, ⟨?_, Nat.le_add_right _ _, rfl, rfl, rfl⟩, rfl⟩
  change s.pos + n + (s.FileSize - n) = s.pos + s.FileSize
  omega

variable (s : State)

theorem read1_spec : Ensures .endless (read1 file) s fun a s' =>
    a = file.u1 s.pos ∧ Moves s s' ∧ s'.pos = s.pos + 1 :=
  ensures_bind (readData_spec file 1 s) fun _ _ h => ensures_pure ⟨by rw [h.1], h.2⟩

theorem read2_spec : Ensures .endless (read2 file) s fun a s' =>
    a = file.u2 s.pos ∧ Moves s s' ∧ s'.pos = s.pos + 2 :=
  ensures_bind (readData_spec file 2 s) fun _ _ h => ensures_pure ⟨by rw [h.1], h.2⟩

theorem read4_spec : Ensures .endless (read4 file) s fun a s' =>
    a = file.u4 s.pos ∧ Moves s s' ∧ s'.pos = s.pos + 4 :=
  ensures_bind (readData_spec file 4 s) fun _ _ h => ensures_pure ⟨by rw [h.1], h.2⟩

theorem spends_readData {n : Nat} (h : n ≤ size) : Spends (readData file n) size fun _ => size - n :=
  fun s => (readData_spec file n s).mono fun _ _ hs => ⟨hs.2.1, by dsimp only; omega⟩

theorem spends_read1 (h : 1 ≤ size) : Spends (read1 file) size fun _ => size - 1 :=
  fun s => (read1_spec file s).mono fun _ _ hs => ⟨hs.2.1, by dsimp only; omega⟩

theorem spends_read2 (h : 2 ≤ size) : Spends (read2 file) size fun _ => size - 2 :=
  fun s => (read2_spec file s).mono fun _ _ hs => ⟨hs.2.1, by dsimp only; omega⟩

theorem spends_skipData : Spends (skipData size) size fun _ => 0 := by
  intro s
  refine ensures_get_bind (ensures_ite (fun _ => ensures_fail (by simp)) fun h => ensures_modify ?_)
  refine ⟨⟨?_, Nat.le_add_right _ _, rfl, rfl, rfl⟩, rfl⟩
  change s.pos + size + (s.FileSize - size) = s.pos + s.FileSize
  omega

theorem spends_skipAttr : Spends (skipAttr size) size fun _ => 0 := by
  rw [skipAttr]
  exact spends_ite (fun h => spends_pure h.symm) fun _ => spends_skipData

theorem utf8_char_spec : Ensures .endless (utf8_char file (size + 1)) s fun r s' =>
    Moves s s' ∧ s'.pos ≤ s.pos + (size + 1) ∧
      ∀ left, r = .ok left → left ≤ size ∧ s'.pos + left = s.pos + (size + 1) := by
  have herr : ∀ {msg : String} {s' : State}, Moves s s' → s'.pos ≤ s.pos + (size + 1) →
      Ensures .endless (pure (.error msg) : Load (Except String Nat)) s' fun r s'' =>
        Moves s s'' ∧ s''.pos ≤ s.pos + (size + 1) ∧
          ∀ left, r = .ok left → left ≤ size ∧ s''.pos + left = s.pos + (size + 1) :=
    fun hm hp => ensures_pure ⟨hm, hp, fun _ h => absurd h (by simp)⟩
  rw [utf8_char]
  refine ensures_bind (read1_spec file s) fun c s₁ ⟨_, hm₁, hp₁⟩ => ?_
  refine ensures_ite (fun _ => herr hm₁ (by omega)) fun _ => ?_
  refine ensures_ite (fun _ => ensures_pure ⟨hm₁, by omega, fun left h => ?_⟩) fun _ => ?_
  · obtain rfl := Except.ok.inj h
    omega
  refine ensures_ite (fun _ => herr hm₁ (by omega)) fun h₁ => ?_
  refine ensures_bind (read1_spec file s₁) fun c2 s₂ ⟨_, hm₂, hp₂⟩ => ?_
  refine ensures_ite (fun _ => herr (hm₁.trans hm₂) (by omega)) fun _ => ?_
  refine ensures_ite (fun _ => ?_) fun _ => ?_
  · refine ensures_ite (fun _ => herr (hm₁.trans hm₂) (by omega)) fun _ => ?_
    refine ensures_pure ⟨hm₁.trans hm₂, by omega, fun left h => ?_⟩
    obtain rfl := Except.ok.inj h
    omega
  refine ensures_ite (fun _ => herr (hm₁.trans hm₂) (by omega)) fun h₂ => ?_
  refine ensures_bind (read1_spec file s₂) fun c3 s₃ ⟨_, hm₃, hp₃⟩ => ?_
  have hm := (hm₁.trans hm₂).trans hm₃
  refine ensures_ite (fun _ => herr hm (by omega)) fun _ => ?_
  refine ensures_ite (fun _ => herr hm (by omega)) fun _ => ensures_pure ⟨hm, by omega, fun left h => ?_⟩
  obtain rfl := Except.ok.inj h
  omega

theorem utf8_chars_spec {fuel size : Nat} (h : size ≤ fuel) (s : State) :
    Ensures .endless (utf8_chars file fuel size) s fun r s' =>
      Moves s s' ∧ s'.pos ≤ s.pos + size ∧ (r = .ok () → s'.pos = s.pos + size) := by
  induction fuel generalizing size s with
  | zero =>
      obtain rfl := Nat.le_zero.mp h
      exact ensures_pure ⟨.refl s, Nat.le_refl _, fun _ => rfl⟩
  | succ fuel ih =>
      cases size with
      | zero => exact ensures_pure ⟨.refl s, Nat.le_refl _, fun _ => rfl⟩
      | succ size =>
          rw [utf8_chars]
          refine ensures_bind (utf8_char_spec file s) fun r s' ⟨hm, hp, hok⟩ => ?_
          cases r with
          | error msg => exact ensures_pure ⟨hm, hp, fun h => absurd h (by simp)⟩
          | ok left =>
              obtain ⟨hle, hleft⟩ := hok left rfl
              refine (ih (by omega) s').mono fun r' s'' ⟨hm', hp', hok'⟩ => ⟨hm.trans hm', by omega, fun h => ?_⟩
              have := hok' h
              omega

theorem spends_sm_chkargs (cnt dopsize : Nat) : Spends (sm_chkargs file cnt dopsize) dopsize Prod.snd := by
  induction cnt generalizing dopsize with
  | zero => exact spends_pure rfl
  | succ cnt ih =>
      rw [sm_chkargs]
      refine spends_ite (fun _ => spends_pure rfl) fun h => ?_
      refine (spends_read1 file (by omega)).bind fun tag => ?_
      refine spends_ite (fun _ => spends_pure rfl) fun _ => spends_ite (fun _ => ?_) fun _ => ih _
      refine spends_ite (fun _ => spends_pure rfl) fun h' => ?_
      refine (spends_read2 file (by omega)).bind fun var => spends_get fun s => ?_
      rw [show dopsize - 1 - 2 = dopsize - 3 from by omega]
      exact spends_ite (fun _ => spends_pure rfl) fun _ => ih _

theorem spends_sm_list (dopsize : Nat) : Spends (sm_list file dopsize) dopsize fun r => r.2.2 := by
  rw [sm_list]
  refine spends_ite (fun _ => spends_pure rfl) fun h => (spends_read2 file (by omega)).bind fun cnt => ?_
  exact (spends_sm_chkargs file cnt _).bind fun _ => spends_pure rfl

theorem spends_sm_frame (rectype fcnt dopsize : Nat) :
    Spends (sm_frame file rectype fcnt dopsize) dopsize fun r => r.2.2 := by
  rw [sm_frame]
  refine spends_ite (fun _ => ?_) fun _ => spends_ite (fun _ => ?_) fun _ => spends_ite (fun _ => ?_) fun _ => ?_
  · refine (spends_sm_list file dopsize).bind fun r => spends_ite (fun _ => ?_) fun _ => spends_pure rfl
    exact (spends_sm_list file _).bind fun _ => spends_pure rfl
  · exact (spends_sm_chkargs file _ dopsize).bind fun _ => spends_pure rfl
  · refine spends_ite (fun _ => spends_pure rfl) fun _ => spends_ite (fun _ => ?_) fun _ => spends_pure rfl
    exact (spends_sm_chkargs file _ dopsize).bind fun _ => spends_pure rfl
  · refine spends_ite (fun _ => ?_) fun _ => spends_pure rfl
    exact (spends_sm_chkargs file _ dopsize).bind fun _ => spends_pure rfl

theorem spends_sm_rectype (dopsize : Nat) : Spends (sm_rectype file dopsize) dopsize fun r => r.2.2 := by
  refine spends_get fun s => spends_ite (fun _ => ?_) fun _ => spends_pure rfl
  refine spends_ite (fun _ => spends_pure rfl) fun h => ?_
  exact (spends_read1 file (by omega)).bind fun _ => spends_pure rfl

theorem spends_sm_offset (rectype prevoff dopsize : Nat) :
    Spends (sm_offset file rectype prevoff dopsize) dopsize fun r => r.2.2 := by
  refine spends_get fun s => spends_ite (fun _ => ?_) fun _ => ?_
  · refine spends_ite (fun _ => spends_pure rfl) fun _ => ?_
    exact spends_ite (fun _ => spends_pure rfl) fun _ => spends_pure rfl
  · refine spends_ite (fun _ => spends_pure rfl) fun h => ?_
    exact (spends_read2 file (by omega)).bind fun _ => spends_pure rfl

theorem spends_sm_frames (declcnt prevoff fcnt : Nat) (seen : List Nat) (dopsize : Nat) :
    Spends (sm_frames file declcnt prevoff fcnt seen dopsize) dopsize Prod.snd := by
  induction declcnt generalizing prevoff fcnt seen dopsize with
  | zero => exact spends_pure rfl
  | succ declcnt ih =>
      rw [sm_frames]
      refine (spends_sm_rectype file dopsize).bind fun r => spends_ite (fun _ => spends_pure rfl) fun _ => ?_
      refine (spends_sm_offset file _ _ _).bind fun r' => spends_get fun s => ?_
      refine spends_ite (fun _ => spends_pure rfl) fun _ => spends_ite (fun _ => spends_pure rfl) fun _ => ?_
      refine (spends_sm_frame file _ _ _).bind fun r'' => ?_
      exact spends_ite (fun _ => spends_pure rfl) fun _ => ih _ _ _ _

/-! ### Annotations -/

section Elements

variable (env : Env) {annot_elm : Nat → Load (Bool × Nat × Nat)} {limit : Nat}

variable {psize : Nat}

theorem spends_annotation_pairs (helm : ∀ n, n < limit → Spends (annot_elm n) n fun r => r.2.1)
    (pairs : Nat) (h : psize ≤ limit) :
    Spends (annotation_pairs file env annot_elm pairs psize) psize Prod.snd := by
  induction pairs generalizing psize with
  | zero => exact spends_pure rfl
  | succ pairs ih =>
      rw [annotation_pairs]
      refine spends_ite (fun _ => spends_pure rfl) fun hsize => (spends_read2 file (by omega)).bind fun id => ?_
      refine spends_ite (fun _ => spends_pure rfl) fun _ => ?_
      refine (helm (psize - 2) (by omega)).bind_le fun r hr => ?_
      exact spends_ite (fun _ => spends_pure rfl) fun _ => ih (Nat.le_trans hr (by omega))

theorem spends_annotation_with (helm : ∀ n, n < limit → Spends (annot_elm n) n fun r => r.2.1) (h : psize ≤ limit) : Spends (annotation_with file env annot_elm psize) psize Prod.snd := by
  rw [annotation_with]
  refine spends_ite (fun _ => spends_pure rfl) fun hsize => (spends_read2 file (by omega)).bind fun pairs => ?_
  exact spends_annotation_pairs file env helm pairs (by omega)

theorem spends_annot_array (helm : ∀ n, n ≤ limit → Spends (annot_elm n) n fun r => r.2.1) (val : Nat)
    (first : Option Nat) (h : psize ≤ limit) :
    Spends (annot_array annot_elm val first psize) psize Prod.snd := by
  induction val generalizing first psize with
  | zero => exact spends_pure rfl
  | succ val ih =>
      rw [annot_array]
      refine (helm psize h).bind_le fun r hr => spends_ite (fun _ => spends_pure rfl) fun _ => ?_
      cases first with
      | none => exact ih _ (Nat.le_trans hr h)
      | some tag' => exact spends_ite (fun _ => spends_pure rfl) fun _ => ih _ (Nat.le_trans hr h)

end Elements

variable (env : Env)

theorem spends_annot_elm (fuel : Nat) {psize : Nat} (h : psize < fuel) (is_array : Bool) :
    Spends (annot_elm file env fuel psize is_array) psize fun r => r.2.1 := by
  induction fuel generalizing psize is_array with
  | zero => exact absurd h (Nat.not_lt_zero _)
  | succ fuel ih =>
      rw [annot_elm]
      refine spends_ite (fun _ => spends_pure rfl) fun hsize => (spends_read1 file (by omega)).bind fun tag => ?_
      refine (spends_read2 file (by omega)).bind fun val => ?_
      rw [show psize - 1 - 2 = psize - 3 from by omega]
      refine spends_ite (fun _ => ?_) fun _ => spends_ite (fun _ => ?_) fun _ => spends_ite (fun _ => ?_) fun _ => ?_
      · refine spends_ite (fun _ => ?_) fun _ => spends_pure rfl
        refine (spends_annotation_with file env (fun n hn => ih hn false) (by omega)).bind fun _ => spends_pure rfl
      · refine spends_ite (fun hval => ?_) fun _ => spends_pure rfl
        have helm : ∀ n, n ≤ fuel - 1 → Spends (annot_elm file env fuel n true) n fun r => r.2.1 :=
          fun n hn => ih (by omega) true
        exact (spends_annot_array helm val none (by omega)).bind fun _ => spends_pure rfl
      · refine spends_ite (fun _ => spends_pure rfl) fun hsize' => ?_
        rw [Bool.or_eq_true, not_or, decide_eq_true_eq] at hsize'
        exact (spends_read2 file (by omega)).bind fun _ => spends_pure (by dsimp only; omega)
      · refine spends_ite (fun _ => spends_pure rfl) fun _ => ?_
        cases annot_const tag with
        | none => exact spends_pure rfl
        | some op => exact spends_pure rfl

theorem annotation_spends (psize : Nat) : Spends ( annotation file env psize) psize Prod.snd :=
  spends_annotation_with file env (fun _ hn => spends_annot_elm file env psize hn false) (Nat.le_refl _)

theorem spends_annotations (cnt attribute_length : Nat) :
    Spends (annotations file env cnt attribute_length) attribute_length Prod.snd := by
  induction cnt generalizing attribute_length with
  | zero => exact spends_pure rfl
  | succ cnt ih =>
      rw [annotations]
      refine spends_ite (fun _ => spends_pure rfl) fun hsize => (spends_read2 file (by omega)).bind fun id => ?_
      refine spends_ite (fun _ => spends_pure rfl) fun _ => (annotation_spends file env _).bind fun r => ?_
      exact spends_ite (fun _ => spends_pure rfl) fun _ => ih _

theorem spends_annot_params (params : Bool) (r : Nat) (any : Bool) (attribute_length : Nat) :
    Spends (annot_params file env params r any attribute_length) attribute_length fun r => r.2.2 := by
  induction r generalizing any attribute_length with
  | zero => exact spends_pure rfl
  | succ r ih =>
      rw [annot_params]
      refine spends_ite (fun _ => spends_pure rfl) fun hsize => (spends_read2 file (by omega)).bind fun cnt => ?_
      refine spends_ite (fun _ => spends_ite (fun _ => spends_pure rfl) fun _ => ih _ _) fun _ => ?_
      refine (spends_annotations file env _ _).bind fun x => ?_
      exact spends_ite (fun _ => spends_pure rfl) fun _ => ih _ _

theorem spends_annot_contents (eflg : Nat) {attribute_length : Nat} (h : attribute_length ≠ 0) :
    Spends (annot_contents file env eflg attribute_length) attribute_length Prod.snd := by
  rw [annot_contents]
  refine spends_ite (fun _ => ?_) fun _ => spends_ite (fun _ => ?_) fun _ => ?_
  · exact (spends_annot_elm file env _ (Nat.lt_succ_self _) false).bind fun _ => spends_pure rfl
  · refine (spends_read1 file (by omega)).bind fun r => spends_ite (fun _ => spends_pure rfl) fun _ => ?_
    exact (spends_annot_params file env _ _ _ _).bind fun _ => spends_pure rfl
  · exact (spends_annot_params file env _ _ _ _).bind fun _ => spends_pure rfl

end Reading

end IdaSdk.ClassFile
