import IdaSdk.ClassFileContents
import IdaSdk.ClassFileLayout

/-!
What holds of every load, whatever the file: `FileSize` keeps pace with the position, the tables have
as many entries as they declare, and no loop goes on for ever.
-/

namespace IdaSdk.ClassFile

open Program

/-- `total` is where the file ends according to `FileSize`. -/
def Event.Balanced (total : Nat) : Event → Prop
  | .attribute _ _ pos FileSize => pos + FileSize = total
  | .table _ declared read => read = declared
  | .finish pos FileSize => pos + FileSize = total

/-- The position moves on, `FileSize` with it, and balanced events are observed. -/
structure Steady (s s' : State) : Prop where
  total : s'.pos + s'.FileSize = s.pos + s.FileSize
  pos : s.pos ≤ s'.pos
  sub : s'.curClass.JDKsubver = s.curClass.JDKsubver
  log : ∃ L, s'.log = s.log ++ L ∧ ∀ e ∈ L, e.Balanced (s.pos + s.FileSize)

theorem Moves.steady {s s' : State} (h : Moves s s') : Steady s s' :=
  ⟨h.total, h.pos, h.sub, [], by rw [h.log, List.append_nil], fun _ he => absurd he (by simp)⟩

theorem Steady.refl (s : State) : Steady s s := (Moves.refl s).steady

theorem Steady.trans {s s' s'' : State} (h : Steady s s') (h' : Steady s' s'') : Steady s s'' := by
  obtain ⟨L, hL, hbal⟩ := h.log
  obtain ⟨L', hL', hbal'⟩ := h'.log
  refine ⟨h'.total.trans h.total, Nat.le_trans h.pos h'.pos, h'.sub.trans h.sub, L ++ L', ?_, fun e he => ?_⟩
  · rw [hL', hL, List.append_assoc]
  · rcases List.mem_append.mp he with he | he
    · exact hbal e he
    · rw [← h.total]
      exact hbal' e he

abbrev Keeps {α : Type} (x : Load α) : Prop := Respects .endless Steady x

section Rules

variable {α β : Type} {x y : Load α} {f : α → Load β} {size : Nat} {rest : α → Nat}

theorem Spends.keeps (h : Spends x size rest) : Keeps x := fun s => (h s).mono fun _ _ hs => hs.1.steady

theorem Leaves.keeps {x : Load Next} (h : Leaves x size) : Keeps x := fun s => (h s).mono fun _ _ hs => hs.1.steady

theorem keeps_bind (hx : Keeps x) (hf : ∀ a, Keeps (f a)) : Keeps (x >>= f) := hx.bind Steady.trans hf

theorem keeps_pure (a : α) : Keeps (pure a : Load α) := respects_pure Steady.refl a

theorem keeps_fail {e : Abort} (h : e ≠ .endless) : Keeps (fail e : Load α) := respects_fail h

theorem keeps_ite {c : Prop} [Decidable c] (hx : c → Keeps x) (hy : ¬c → Keeps y) : Keeps (if c then x else y) :=
  respects_ite hx hy

theorem keeps_get {g : State → Load β} (h : ∀ s, Keeps (g s)) : Keeps (get >>= g) := respects_get_bind h

theorem keeps_modify {g : State → State} (h : ∀ s, Steady s (g s)) : Keeps (modify g) := respects_modify h

theorem keeps_table (kind : table_t) (declared : Nat) : Keeps (record (.table kind declared declared)) :=
  keeps_modify fun _ => ⟨rfl, Nat.le_refl _, rfl, [.table kind declared declared], rfl, by
    simp [Event.Balanced]⟩

variable {s : State}

theorem steady_of_eq {s' : State} (hpos : s'.pos = s.pos) (hsize : s'.FileSize = s.FileSize)
    (hlog : s'.log = s.log) (hsub : s'.curClass.JDKsubver = s.curClass.JDKsubver) : Steady s s' :=
  ⟨by rw [hpos, hsize], Nat.le_of_eq hpos.symm, hsub, [], by rw [hlog, List.append_nil],
    fun _ he => absurd he (by simp)⟩

variable {I : Nat → State → Prop}

theorem ensures_count {body : Load Unit} {declared first : Nat} {cond : Nat → Bool}
    (hcond : ∀ j, first ≤ j → (cond j = true ↔ j < first + declared))
    (hbody : ∀ j s, j < declared → I j s → Ensures .endless body s fun _ s' => I (j + 1) s') (hs : I 0 s) :
    Ensures .endless (loop .endless cond (fun _ => body) declared first) s fun j s' =>
      j = first + declared ∧ I declared s' := by
  refine (ensures_loop (I := fun j s' => first ≤ j ∧ j ≤ first + declared ∧ I (j - first) s')
    (fun j _ => first + declared - j) (fun j s' hj hI => ?_) (fun j s' hj hI => ?_)
    ⟨Nat.le_refl _, Nat.le_add_right _ _, by rwa [Nat.sub_self]⟩ (by omega)).mono ?_
  · obtain ⟨hle, _, hI⟩ := hI
    have hlt := (hcond j hle).mp hj
    refine (hbody (j - first) s' (by omega) hI).mono fun _ s'' hs'' => ⟨⟨by omega, by omega, ?_⟩, by omega⟩
    rwa [show j + 1 - first = j - first + 1 from by omega]
  · have hlt := (hcond j hI.1).mp hj
    omega
  · rintro j s' ⟨hj, hle, hle', hI⟩
    have hnot : ¬j < first + declared := fun h => absurd ((hcond j hle).mpr h) (by simp [hj])
    obtain rfl : j = first + declared := by omega
    rw [Nat.add_sub_cancel_left] at hI
    exact ⟨rfl, hI⟩

theorem ensures_count16 {body : Load Unit} {declared : Nat}
    (hkeeps : Keeps body) (hreads : ∀ s, Ensures .endless body s fun _ s' => s.pos < s'.pos)
    (hbody : ∀ j s, j < declared → I j s → Ensures .endless body s fun _ s' => I (j + 1) s') (hs : I 0 s) :
    Ensures .endless (loop .endless (fun j => j % 0x10000 ≤ declared) (fun _ => body) (s.FileSize + 1) 1) s fun j s' =>
      j = declared + 1 ∧ declared < 0xffff ∧ I declared s' := by
  refine (ensures_loop (I := fun j s' => 1 ≤ j ∧ (j ≤ declared + 1 → I (j - 1) s') ∧ (declared < 0xffff → j ≤ declared + 1))
    (fun _ s' => s'.FileSize + 1) (fun j s' hj hI => ?_) (fun _ _ _ _ => Nat.succ_pos _)
    ⟨Nat.le_refl _, fun _ => hs, fun _ => by omega⟩ (Nat.le_refl _)).mono ?_
  · obtain ⟨hle, hI, hmax⟩ := hI
    have hj' : j % 0x10000 ≤ declared := by simpa using hj
    by_cases hlt : j ≤ declared
    · refine ((hkeeps s').and ((hreads s').and (hbody (j - 1) s' (by omega) (hI (by omega))))).mono ?_
      rintro _ s'' ⟨hst, hr, hI'⟩
      refine ⟨⟨by omega, fun _ => ?_, fun _ => by omega⟩, ?_⟩
      · rwa [show j + 1 - 1 = j - 1 + 1 from by omega]
      · have := hst.total
        omega
    · refine ((hkeeps s').and (hreads s')).mono ?_
      rintro _ s'' ⟨hst, hr⟩
      refine ⟨⟨by omega, fun h => absurd h (by omega), fun h => ?_⟩, ?_⟩
      · have := hmax h
        omega
      · have := hst.total
        omega
  · rintro j s' ⟨hj, hle, hI, hmax⟩
    have hj' : ¬j % 0x10000 ≤ declared := by simpa using hj
    have hlt : declared < 0xffff := by omega
    obtain rfl : j = declared + 1 := by
      have := hmax hlt
      omega
    exact ⟨rfl, hlt, hI (Nat.le_refl _)⟩

end Rules

section Attributes

variable (file : File) (env : Env) {size : Nat}

theorem keeps_read1 : Keeps (read1 file) := fun s => (read1_spec file s).mono fun _ _ h => h.2.1.steady

theorem keeps_read2 : Keeps (read2 file) := fun s => (read2_spec file s).mono fun _ _ h => h.2.1.steady

theorem keeps_read4 : Keeps (read4 file) := fun s => (read4_spec file s).mono fun _ _ h => h.2.1.steady

/-! ### Attributes -/

theorem keeps_ConstantValue : Keeps (ConstantValue file env size) := by
  refine keeps_ite (fun _ => keeps_pure _) fun _ => keeps_bind (keeps_read2 file) fun _ => ?_
  exact keeps_ite (fun _ => keeps_pure _) fun _ => keeps_pure _

theorem keeps_bootstrap_arguments (last n : Nat) : Keeps (bootstrap_arguments file last n) := by
  induction n with
  | zero => exact keeps_pure _
  | succ n ih =>
      rw [bootstrap_arguments]
      exact keeps_get fun s => keeps_ite (fun _ => keeps_pure _) fun _ => keeps_bind (keeps_read2 file) fun _ => ih

theorem keeps_bootstrap_methods (last n : Nat) : Keeps (bootstrap_methods file last n) := by
  induction n with
  | zero => exact keeps_pure _
  | succ n ih =>
      rw [bootstrap_methods]
      refine keeps_get fun s => keeps_ite (fun _ => keeps_pure _) fun _ => keeps_bind (keeps_read2 file) fun _ => ?_
      refine keeps_get fun s' => keeps_ite (fun _ => keeps_pure _) fun _ => keeps_bind (keeps_read2 file) fun k => ?_
      refine keeps_bind (keeps_bootstrap_arguments file last k) fun ok => ?_
      exact keeps_ite (fun _ => ih) fun _ => keeps_pure _

theorem keeps_BootstrapMethods : Keeps (BootstrapMethods file size) := by
  refine keeps_get fun s => keeps_ite (fun _ => keeps_fail (by simp)) fun _ => ?_
  refine keeps_bind (keeps_modify fun s => steady_of_eq rfl rfl rfl rfl) fun _ => ?_
  refine keeps_ite (fun _ => keeps_pure _) fun _ => keeps_bind (keeps_read2 file) fun n => keeps_get fun s => ?_
  refine keeps_bind (keeps_bootstrap_methods file _ n) fun ok => ?_
  exact keeps_ite (fun _ => keeps_pure _) fun _ => keeps_pure _

theorem spends_exception : Spends (do
    let _ ← read2 file
    let _ ← read2 file
    let _ ← read2 file
    let _ ← read2 file : Load Unit) 8 fun _ => 0 := by
  refine (spends_read2 file (by omega)).bind fun _ => (spends_read2 file (by omega)).bind fun _ => ?_
  exact (spends_read2 file (by omega)).bind fun _ => (spends_read2 file (by omega)).bind fun _ => spends_pure rfl

theorem exception_table_spec (n : Nat) (s : State) : Ensures .endless (exception_table file n) s fun _ s' =>
    Steady s s' ∧ s'.pos = s.pos + n * 8 ∧ s'.log = s.log ++ [.table .exceptions n n] ∧
      s'.loc.fatal = s.loc.fatal := by
  refine ensures_get_bind (ensures_bind (ensures_count16 (I := fun j s' => Moves s s' ∧ s'.pos = s.pos + j * 8)
    (spends_exception file).keeps (fun s => (spends_exception file s).mono fun _ s' ⟨_, hp⟩ => ?_)
    (fun j s' _ ⟨hm, hp⟩ => (spends_exception file s').mono fun _ s'' ⟨hm', hp'⟩ => ⟨hm.trans hm', ?_⟩)
    ⟨.refl s, by omega⟩) fun r s' ⟨hr, _, hm, hp⟩ => ?_)
  · change s'.pos = s.pos + 8 at hp
    omega
  · change s''.pos = s'.pos + 8 at hp'
    omega
  subst hr
  have hrecord := (keeps_table .exceptions n s').post () { s' with log := s'.log ++ [Event.table .exceptions n n] } rfl
  refine ensures_modify ⟨hm.steady.trans hrecord, hp, ?_, hm.fatal⟩
  change s'.log ++ [Event.table .exceptions n n] = _
  rw [hm.log]

theorem keeps_exception_table (n : Nat) : Keeps (exception_table file n) :=
  fun s => (exception_table_spec file n s).mono fun _ _ h => h.1

theorem spends_load_code (CodeSize : Nat) : Spends (load_code CodeSize) CodeSize fun _ => 0 := by
  intro s
  refine ensures_get_bind (ensures_ite (fun _ => ensures_fail (by simp)) fun h => ensures_modify ?_)
  refine ⟨⟨?_, Nat.le_add_right _ _, rfl, rfl, rfl⟩, rfl⟩
  change s.pos + CodeSize + (s.FileSize - CodeSize) = s.pos + s.FileSize
  omega

variable {nested : Load Unit}

theorem keeps_nested_attributes (hn : Keeps nested) : Keeps (nested_attributes nested size) := by
  refine keeps_bind (keeps_modify fun s => steady_of_eq rfl rfl rfl rfl) fun _ => keeps_bind hn fun _ => ?_
  exact keeps_bind (keeps_modify fun s => steady_of_eq rfl rfl rfl rfl) fun _ => keeps_pure _

theorem keeps_code_header : Keeps (code_header file) := by
  refine keeps_get fun s => keeps_ite (fun _ => ?_) fun _ => ?_
  · exact keeps_bind (keeps_read2 file) fun _ => keeps_bind (keeps_read2 file) fun _ => keeps_read4 file
  · exact keeps_bind (keeps_read1 file) fun _ => keeps_bind (keeps_read1 file) fun _ => keeps_read2 file

theorem keeps_Code (hn : Keeps nested) : Keeps (Code file nested size) := by
  refine keeps_get fun s => keeps_ite (fun _ => keeps_pure _) fun _ => keeps_ite (fun _ => keeps_pure _) fun _ => ?_
  refine keeps_bind (keeps_code_header file) fun CodeSize => ?_
  refine keeps_bind (keeps_modify fun s => steady_of_eq rfl rfl rfl rfl) fun _ => ?_
  refine keeps_ite (fun _ => keeps_pure _) fun _ => keeps_bind (spends_load_code CodeSize).keeps fun _ => ?_
  refine keeps_bind (keeps_read2 file) fun n => keeps_ite (fun _ => keeps_nested_attributes hn) fun _ => ?_
  refine keeps_ite (fun _ => keeps_pure _) fun _ => keeps_ite (fun _ => keeps_pure _) fun _ => ?_
  exact keeps_bind (keeps_exception_table file n) fun _ => keeps_nested_attributes hn

theorem keeps_contents {kind : attr_t} (hn : kind = .Code → Keeps nested)
    (apk : attr_parent_kind_t) : Keeps (attribute_contents file env nested apk size kind) := by
  by_cases h : kind.Delicate
  · rcases h with rfl | rfl | rfl
    · exact keeps_ConstantValue file env
    · exact keeps_Code file (hn rfl)
    · exact keeps_BootstrapMethods file
  · exact (leaves_contents file env h nested apk).keeps

theorem spends_CopyAttrToFile : Spends (CopyAttrToFile file env size) size fun _ => 0 := by
  refine spends_get fun s => spends_ite (fun _ => spends_failure _) fun _ => ?_
  cases env.path_error s.pos with
  | some msg => exact spends_failure msg
  | none =>
      refine (spends_readData file (Nat.le_refl size)).bind fun p => ?_
      cases env.write_error p with
      | some msg => exact spends_failure msg
      | none => exact spends_pure (Nat.sub_self size).symm

theorem spends_unless_fatal (msg : String) : Spends (unless_fatal msg size) size fun _ => 0 :=
  spends_get fun _ => spends_ite (fun _ => spends_failure msg) fun _ => spends_skipAttr

theorem finish_spec (next : Next) (s : State) : Ensures .endless (next.finish file env) s fun _ s' =>
    Steady s s' ∧ s'.pos = s.pos + next.rest ∧ s'.log = s.log ∧
      (next.counts = false → s'.loc.fatal = s.loc.fatal) := by
  have hof : ∀ {x : Load Unit} {n : Nat} {s : State}, Spends x n (fun _ => 0) → Ensures .endless x s fun _ s' =>
      Steady s s' ∧ s'.pos = s.pos + n ∧ s'.log = s.log ∧ s'.loc.fatal = s.loc.fatal :=
    fun h => (h _).mono fun _ s' ⟨hm, hp⟩ => ⟨hm.steady, hp, hm.log, hm.fatal⟩
  have hcount : ∀ {x : Load Unit} {n : Nat}, Spends x n (fun _ => 0) →
      Ensures .endless (count_fatal >>= fun _ => x) s fun _ s' => Steady s s' ∧ s'.pos = s.pos + n ∧ s'.log = s.log :=
    fun h => ensures_modify_bind ((hof h).mono fun _ s' ⟨hs, hp, hl, _⟩ =>
      ⟨⟨hs.total, hs.pos, hs.sub, hs.log⟩, hp, hl⟩)
  cases next with
  | done => exact ensures_pure ⟨.refl s, rfl, rfl, fun _ => rfl⟩
  | skipAttr n => exact (hof spends_skipAttr).mono fun _ _ ⟨hs, hp, hl, hf⟩ => ⟨hs, hp, hl, fun _ => hf⟩
  | declerr n =>
      exact (hcount spends_skipAttr).mono fun _ _ ⟨hs, hp, hl⟩ =>
        ⟨hs, hp, hl, fun h => absurd h (by simp [Next.counts])⟩
  | declerr_w n => exact (hof spends_skipAttr).mono fun _ _ ⟨hs, hp, hl, hf⟩ => ⟨hs, hp, hl, fun _ => hf⟩
  | duplerr n =>
      exact (hcount (spends_unless_fatal _)).mono fun _ _ ⟨hs, hp, hl⟩ =>
        ⟨hs, hp, hl, fun h => absurd h (by simp [Next.counts])⟩
  | duplerr_w n => exact (hof (spends_unless_fatal _)).mono fun _ _ ⟨hs, hp, hl, hf⟩ => ⟨hs, hp, hl, fun _ => hf⟩
  | incompatible msg n =>
      exact (hof (spends_unless_fatal msg)).mono fun _ _ ⟨hs, hp, hl, hf⟩ => ⟨hs, hp, hl, fun _ => hf⟩
  | attr2file n => exact (hof (spends_CopyAttrToFile file env)).mono fun _ _ ⟨hs, hp, hl, hf⟩ => ⟨hs, hp, hl, fun _ => hf⟩

theorem spends_check_savesize (size n : Nat) : Spends (check_savesize n) size fun _ => size := by
  refine spends_get fun s => spends_ite (fun _ => spends_pure rfl) fun _ =>
    spends_ite (fun _ => spends_failure _) fun _ => ?_
  exact fun s => ensures_modify ⟨⟨rfl, Nat.le_refl _, rfl, rfl, rfl⟩, rfl⟩

variable {apk : attr_parent_kind_t}

theorem keeps_load_attribute (hn : apk ≠ .code → Keeps nested) :
    Keeps (load_attribute file env nested apk) := by
  intro s₀
  refine ensures_get_bind ?_
  have hrest : Keeps (do
      check_savesize 6
      let attribute_name_index ← read2 file
      let attribute_length ← read4 file
      check_savesize attribute_length
      let next ← attribute_contents file env nested apk attribute_length
        (env.attribute_type_from_str attribute_name_index apk)
      next.finish file env
      let s' ← get
      record (.attribute s₀.pos attribute_length s'.pos s'.FileSize)) := by
    refine keeps_bind (spends_check_savesize 0 6).keeps fun _ => keeps_bind (keeps_read2 file) fun i => ?_
    refine keeps_bind (keeps_read4 file) fun n => keeps_bind (spends_check_savesize 0 n).keeps fun _ => ?_
    refine keeps_bind (keeps_contents file env (fun h => hn ?_) apk) fun next => ?_
    · rw [apk_of_Code h]
      exact nofun
    refine keeps_bind (fun s => (finish_spec file env next s).mono fun _ _ h => h.1) fun _ s => ?_
    refine ensures_get_bind (ensures_modify ⟨rfl, Nat.le_refl _, rfl, _, rfl, fun e he => ?_⟩)
    obtain rfl := List.mem_singleton.mp he
    rfl
  exact hrest s₀

theorem keeps_load_attributes_with (hn : apk ≠ .code → Keeps nested) :
    Keeps (load_attributes_with file env nested apk) := by
  refine keeps_get fun s => keeps_bind (keeps_modify fun s => steady_of_eq rfl rfl rfl rfl) fun _ => ?_
  refine keeps_bind (keeps_read2 file) fun j s' => ?_
  refine ensures_bind (ensures_count (I := fun _ s'' => Steady s' s'')
    (fun i _ => by simp) (fun i s'' _ hs'' => (keeps_load_attribute file env hn s'').mono fun _ _ h => hs''.trans h)
    (.refl s')) fun i s'' ⟨hi, hs''⟩ => ?_
  rw [Nat.zero_add] at hi
  subst hi
  refine ensures_bind (keeps_table .attributes i s'') fun _ s₃ hs₃ => ensures_modify ?_
  exact (hs''.trans hs₃).trans (steady_of_eq rfl rfl rfl rfl)

theorem keeps_load_attributes (apk : attr_parent_kind_t) : Keeps (load_attributes file env apk) :=
  keeps_load_attributes_with file env fun _ => keeps_load_attributes_with file env fun h => absurd rfl h

end Attributes

end IdaSdk.ClassFile
