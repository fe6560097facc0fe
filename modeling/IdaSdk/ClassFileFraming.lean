import IdaSdk.ClassFileSteady

/-!
Whether the loader keeps in step with the layout of the file. As long as it does, it meets every
structure where that lies; an attribute after which it does not is observed.
-/

namespace IdaSdk.ClassFile

open Program

/-- After an attribute the position is at its end. -/
def Event.InSync : Event → Prop
  | .attribute start length pos _ => pos = start + 6 + length
  | _ => True

def Synced (L : List Event) : Prop := ∀ e ∈ L, e.InSync

/-- Between the two states all attributes were in step if and only if `ok`, and then `goal` holds. -/
def Judged (s s' : State) (ok goal : Prop) : Prop :=
  ∃ L, s'.log = s.log ++ L ∧ (Synced L ↔ ok) ∧ (Synced L → goal)

theorem synced_append {L L' : List Event} : Synced (L ++ L') ↔ Synced L ∧ Synced L' := List.forall_mem_append

section Judgements

variable {s s' s'' : State} {ok ok' goal goal' : Prop}

theorem judged_of_log (h : s'.log = s.log) (hg : goal) : Judged s s' True goal :=
  ⟨[], by rw [h, List.append_nil], by simp [Synced], fun _ => hg⟩

theorem Moves.judged (h : Moves s s') (hg : goal) : Judged s s' True goal := judged_of_log h.log hg

theorem Judged.mono (h : Judged s s' ok goal) (hok : ok ↔ ok') (hg : goal → goal') : Judged s s' ok' goal' := by
  obtain ⟨L, hL, hsync, hgoal⟩ := h
  exact ⟨L, hL, hsync.trans hok, fun hs => hg (hgoal hs)⟩

theorem Judged.seq (h : Judged s s' ok goal) (hst : Steady s' s'') (h' : goal → Judged s' s'' ok' goal') :
    Judged s s'' (ok ∧ ok') goal' := by
  obtain ⟨L, hL, hsync, hgoal⟩ := h
  by_cases hs : Synced L
  · obtain ⟨L', hL', hsync', hgoal'⟩ := h' (hgoal hs)
    refine ⟨L ++ L', by rw [hL', hL, List.append_assoc], ?_, fun h => hgoal' (synced_append.mp h).2⟩
    rw [synced_append, hsync, hsync']
  · obtain ⟨L', hL', -⟩ := hst.log
    have hno : ¬Synced (L ++ L') := fun h => hs (synced_append.mp h).1
    refine ⟨L ++ L', by rw [hL', hL, List.append_assoc], ?_, fun h => absurd h hno⟩
    exact ⟨fun h => absurd h hno, fun h => absurd (hsync.mpr h.1) hs⟩

theorem judged_table (kind : table_t) (declared read : Nat) (hg : goal) :
    Judged s { s with log := s.log ++ [.table kind declared read] } True goal :=
  ⟨[.table kind declared read], rfl, by simp [Synced, Event.InSync], fun _ => hg⟩

theorem judged_rounds (legal : Nat → Prop) {j : Nat} (h : Judged s s' (∀ k, k < j → legal k) goal)
    (hst : Steady s' s'') (hround : goal → Judged s' s'' (legal j) goal') :
    Judged s s'' (∀ k, k < j + 1 → legal k) goal' := by
  refine (h.seq hst hround).mono ⟨fun hall k hk => ?_, fun hall => ?_⟩ id
  · rcases Nat.lt_succ_iff_lt_or_eq.mp hk with hlt | rfl
    · exact hall.1 k hlt
    · exact hall.2
  · exact ⟨fun k hk => hall k (Nat.lt_succ_of_lt hk), hall j (Nat.lt_succ_self j)⟩

end Judgements

section Attributes

variable (file : File) (env : Env)

def State.old (s : State) : Bool := s.curClass.JDKsubver = 0

variable {s : State}

theorem old_eq {s' : State} (h : s'.curClass.JDKsubver = s.curClass.JDKsubver) : s'.old = s.old := by
  rw [State.old, State.old, h]

/-- What the contents of an attribute of this size leave: an attribute that was looked at before, or
the rest of this one if and only if `ok`. Below a method no error is counted then. -/
def Settled (apk : attr_parent_kind_t) (size : Nat) (s : State) (ok : Prop) (next : Next) (s' : State) : Prop :=
  (∃ n, next = .duplerr n ∧ s'.loc.fatal = s.loc.fatal ∧ apk = .method) ∨
    ∃ L, s'.log = s.log ++ L ∧ (Synced L ∧ s'.pos + next.rest = s.pos + size ↔ ok) ∧
      (Synced L ∧ s'.pos + next.rest = s.pos + size →
        apk = .method → next.counts = false ∧ s'.loc.fatal = s.loc.fatal)

variable {size : Nat} {ok : Prop}

theorem Settled.congr {apk : attr_parent_kind_t} {s' : State} {ok' : Prop} {next : Next}
    (h : Settled apk size s ok next s') (hok : ok ↔ ok') : Settled apk size s ok' next s' := by
  rcases h with h | ⟨L, hL, hsync, hf⟩
  · exact .inl h
  · exact .inr ⟨L, hL, hsync.trans hok, hf⟩

theorem Leaves.settled {x : Load Next} (h : Leaves x size) (apk : attr_parent_kind_t) (hok : ok)
    (s : State) : Ensures .endless x s fun next s' => Settled apk size s ok next s' := by
  refine (h s).mono fun next s' ⟨hm, hp, hc⟩ => .inr ⟨[], by rw [hm.log, List.append_nil], ?_, fun _ _ => ⟨hc, hm.fatal⟩⟩
  simp [Synced, hp, hok]

theorem ConstantValue_settled (size : Nat) (s : State) : Ensures .endless (ConstantValue file env size) s fun next s' =>
    Settled .field size s (size = 2 → env.LoadOpis (file.u2 s.pos) 0 = true) next s' := by
  refine ensures_ite (fun hsize => ensures_pure (.inr ⟨[], (List.append_nil _).symm, ?_, fun _ h => absurd h (by simp)⟩))
    fun hsize => ensures_bind (read2_spec file s) fun i s' ⟨hi, hm, hp⟩ => ?_
  · simp [Synced, Next.rest, hsize]
  obtain rfl : size = 2 := Decidable.not_not.mp hsize
  subst hi
  have hlog : s'.log = s.log ++ [] := by rw [hm.log, List.append_nil]
  refine ensures_ite (fun hl => ensures_pure (.inr ⟨[], hlog, ?_, fun _ h => absurd h (by simp)⟩)) fun hl =>
    ensures_pure (.inr ⟨[], hlog, ?_, fun _ h => absurd h (by simp)⟩)
  · simp [Synced, Next.rest, hl, hp]
  · simp [Synced, Next.rest, hl, hp]

theorem bootstrap_arguments_spec {last n : Nat} (h : s.pos + 2 * n ≤ last) :
    Ensures .endless (bootstrap_arguments file last n) s fun ok s' =>
      ok = true ∧ Moves s s' ∧ s'.pos = s.pos + 2 * n := by
  induction n generalizing s with
  | zero => exact ensures_pure ⟨rfl, .refl s, rfl⟩
  | succ n ih =>
      rw [bootstrap_arguments]
      refine ensures_get_bind (ensures_ite (fun hlast => absurd hlast (by omega)) fun _ => ?_)
      refine ensures_bind (read2_spec file s) fun _ s' hread => ?_
      obtain ⟨_, hm, hp⟩ := hread
      refine (ih (by omega)).mono fun ok s'' hrest => ?_
      obtain ⟨hok, hm', hp'⟩ := hrest
      exact ⟨hok, hm.trans hm', by omega⟩

theorem bootstrap_methods_spec {last n : Nat} (h : (bootstrapEnd file)^[n] s.pos = last) :
    Ensures .endless (bootstrap_methods file last n) s fun ok s' => ok = true ∧ Moves s s' ∧ s'.pos = last := by
  induction n generalizing s with
  | zero => exact ensures_pure ⟨rfl, .refl s, h⟩
  | succ n ih =>
      rw [Function.iterate_succ_apply] at h
      have hle : bootstrapEnd file s.pos ≤ last := h ▸ le_bootstrapEnd n _
      rw [bootstrapEnd] at hle
      rw [bootstrap_methods]
      refine ensures_get_bind (ensures_ite (fun hlast => absurd hlast (by omega)) fun _ => ?_)
      refine ensures_bind (read2_spec file s) fun _ s₁ hread => ?_
      obtain ⟨_, hm₁, hp₁⟩ := hread
      refine ensures_get_bind (ensures_ite (fun hlast => absurd hlast (by omega)) fun _ => ?_)
      refine ensures_bind (read2_spec file s₁) fun k s₂ hread => ?_
      obtain ⟨rfl, hm₂, hp₂⟩ := hread
      rw [hp₁]
      refine ensures_bind (bootstrap_arguments_spec file (by omega)) fun ok s₃ harguments => ?_
      obtain ⟨hok, hm₃, hp₃⟩ := harguments
      refine ensures_ite (fun _ => ?_) fun hno => absurd hok hno
      have hp : s₃.pos = bootstrapEnd file s.pos := by
        rw [bootstrapEnd]
        omega
      refine (ih (by rw [hp, h])).mono fun ok s₄ hrest => ?_
      obtain ⟨hok, hm₄, hp₄⟩ := hrest
      exact ⟨hok, ((hm₁.trans hm₂).trans hm₃).trans hm₄, hp₄⟩

theorem BootstrapMethods_settled (hok : ok)
    (h : (bootstrapEnd file)^[file.u2 s.pos] (s.pos + 2) = s.pos + size) :
    Ensures .endless (BootstrapMethods file size) s fun next s' => Settled .class_file size s ok next s' := by
  have hle : s.pos + 2 ≤ s.pos + size := h ▸ le_bootstrapEnd _ _
  refine ensures_get_bind (ensures_ite (fun _ => ensures_fail (by simp)) fun _ => ensures_modify_bind ?_)
  refine ensures_ite (fun hsize => absurd hsize (by omega)) fun _ => ?_
  refine ensures_bind (read2_spec file _) fun n s₁ ⟨hn, hm₁, hp₁⟩ => ensures_get_bind ?_
  change s₁.pos = s.pos + 2 at hp₁
  change n = file.u2 s.pos at hn
  subst hn
  have hlast : s₁.pos + (size - 2) = s.pos + size := by omega
  rw [hlast]
  refine ensures_bind (bootstrap_methods_spec file (by rw [hp₁, h])) fun ok s₂ ⟨hok', hm₂, hp₂⟩ => ?_
  refine ensures_ite (fun _ => ensures_pure (.inr ⟨[], ?_, ?_, fun _ h => absurd h (by simp)⟩)) fun hno => absurd hok' hno
  · rw [hm₂.log, hm₁.log, List.append_nil]
  · simp [Synced, Next.rest, hp₂, hok]

theorem code_header_spec {p : Nat} (hp : s.pos = p + 6) :
    Ensures .endless (code_header file) s fun CodeSize s' =>
      CodeSize = codeLength file s.old p ∧ Moves s s' ∧ s'.pos = p + if s.old then 10 else 14 := by
  rw [codeLength]
  refine ensures_get_bind (ensures_ite (fun hsub => ?_) fun hsub => ?_)
  · have hold : s.old = false := decide_eq_false hsub
    refine ensures_bind (read2_spec file s) fun _ s₁ ⟨_, hm₁, hp₁⟩ => ?_
    refine ensures_bind (read2_spec file s₁) fun _ s₂ ⟨_, hm₂, hp₂⟩ =>
      (read4_spec file s₂).mono fun n s₃ ⟨hn, hm₃, hp₃⟩ => ?_
    rw [hold, if_neg (by simp), if_neg (by simp)]
    exact ⟨by rw [hn, hp₂, hp₁, hp], (hm₁.trans hm₂).trans hm₃, by omega⟩
  · have hold : s.old = true := decide_eq_true (Decidable.not_not.mp hsub)
    refine ensures_bind (read1_spec file s) fun _ s₁ ⟨_, hm₁, hp₁⟩ => ?_
    refine ensures_bind (read1_spec file s₁) fun _ s₂ ⟨_, hm₂, hp₂⟩ =>
      (read2_spec file s₂).mono fun n s₃ ⟨hn, hm₃, hp₃⟩ => ?_
    rw [hold, if_pos rfl, if_pos rfl]
    exact ⟨by rw [hn, hp₂, hp₁, hp], (hm₁.trans hm₂).trans hm₃, by omega⟩

variable {nested : Load Unit}

theorem nested_attributes_spec
    (hn : ∀ s, Ensures .endless nested s fun _ s' =>
      Judged s s' True (s'.pos = tableEnd file s.pos) ∧ s'.loc.fatal = s.loc.fatal) :
    Ensures .endless (nested_attributes nested size) s fun next s' =>
      next = .done ∧ s'.loc.fatal = s.loc.fatal ∧ Judged s s' True (s'.pos = tableEnd file s.pos) := by
  refine ensures_modify_bind (ensures_bind (hn _) fun _ s' ⟨hj, hf⟩ => ensures_modify_bind (ensures_pure ⟨rfl, hf, ?_⟩))
  exact hj

/-- Code is in step unless it has exceptions but no instructions. -/
theorem Code_settled {p : Nat} (hp : s.pos = p + 6) (hc : CodeAt file s.old p)
    (hn : ∀ s, Ensures .endless nested s fun _ s' =>
      Judged s s' True (s'.pos = tableEnd file s.pos) ∧ s'.loc.fatal = s.loc.fatal) :
    Ensures .endless (Code file nested (file.u4 (p + 2))) s fun next s' => Settled .method (file.u4 (p + 2)) s
      (codeLength file s.old p = 0 → file.u2 (exceptionsAt file s.old p) = 0) next s' := by
  have hend : tableEnd file (nestedAt file s.old p) = p + 6 + file.u4 (p + 2) := hc
  have hle : nestedAt file s.old p + 2 ≤ p + 6 + file.u4 (p + 2) := hend ▸ le_tableEnd
  have hexc : exceptionsAt file s.old p = p + (if s.old then 10 else 14) + codeLength file s.old p := rfl
  have hheader : (if s.curClass.JDKsubver ≠ 0 then 12 else 8) + 2 = if s.old then 10 else 14 := by
    rw [State.old]
    by_cases hsub : s.curClass.JDKsubver = 0
    · simp [hsub]
    · simp [hsub]
  rw [nestedAt] at hle hend
  generalize hsize : file.u4 (p + 2) = size at hle hend ⊢
  rw [Code]
  refine ensures_get_bind (ensures_ite (fun _ => ensures_pure (.inl ⟨_, rfl, rfl, rfl⟩)) fun _ => ?_)
  generalize (if s.curClass.JDKsubver ≠ 0 then 12 else 8) = header at hheader ⊢
  refine ensures_ite (fun h => absurd h (by omega)) fun _ => ?_
  refine ensures_bind (code_header_spec file hp) fun CodeSize s₁ ⟨hcs, hm₁, hp₁⟩ => ensures_modify_bind ?_
  subst hcs
  generalize hlen : codeLength file s.old p = CodeSize at hexc ⊢
  refine ensures_ite (fun h => absurd h (by omega)) fun _ => ?_
  refine ensures_bind (spends_load_code CodeSize _) fun _ s₂ ⟨hm₂, hp₂⟩ => ?_
  have hm : Moves s s₂ := hm₁.trans ⟨hm₂.total, hm₂.pos, hm₂.log, hm₂.fatal, hm₂.sub⟩
  have hpos : s₂.pos = exceptionsAt file s.old p := by
    change s₂.pos = s₁.pos + CodeSize at hp₂
    rw [hp₂, hp₁, hexc]
  refine ensures_bind (read2_spec file s₂) fun n s₃ ⟨hcount, hm₃, hp₃⟩ => ?_
  rw [hpos] at hcount hp₃
  rw [← hcount] at hle hend ⊢
  have hfinal : ∀ {s₄ s₅ : State} {next : Next}, s₄.log = s.log ∨ s₄.log = s.log ++ [Event.table .exceptions n n] →
      s₄.loc.fatal = s.loc.fatal → s₄.pos = exceptionsAt file s.old p + 2 + 8 * n → (CodeSize = 0 → n = 0) →
      (next = .done ∧ s₅.loc.fatal = s₄.loc.fatal ∧ Judged s₄ s₅ True (s₅.pos = tableEnd file s₄.pos)) →
      Settled .method size s (CodeSize = 0 → n = 0) next s₅ := by
    rintro s₄ s₅ next hlog hf hp₄ hok ⟨rfl, hf', L, hL, hsync, hgoal⟩
    have hall : ∃ L', s₅.log = s.log ++ L' ∧ Synced L' := by
      rcases hlog with hlog | hlog
      · exact ⟨L, by rw [hL, hlog], hsync.mpr trivial⟩
      · refine ⟨.table .exceptions n n :: L, by rw [hL, hlog, List.append_assoc]; rfl, ?_⟩
        exact List.forall_mem_cons.mpr ⟨trivial, hsync.mpr trivial⟩
    obtain ⟨L', hL', hsync'⟩ := hall
    have hp₅ := hgoal (hsync.mpr trivial)
    rw [hp₄, hend] at hp₅
    refine .inr ⟨L', hL', ⟨fun _ => hok, fun _ => ⟨hsync', ?_⟩⟩, fun _ _ => ⟨rfl, hf'.trans hf⟩⟩
    rw [hp₅, hp]
    exact Nat.add_zero _
  have hm₃' : Moves s s₃ := hm.trans hm₃
  refine ensures_ite (fun hzero => ?_) fun hzero => ensures_ite (fun hcode => ensures_pure ?_) fun hcode => ?_
  · refine (nested_attributes_spec file hn).mono fun next s₅ h => hfinal (.inl hm₃'.log) hm₃'.fatal ?_ (fun _ => hzero) h
    rw [hp₃, hzero]
  · refine .inr ⟨[], by rw [hm₃'.log, List.append_nil], ?_, fun h => ?_⟩
    · constructor
      · rintro ⟨_, h⟩
        change s₃.pos + (size - header - CodeSize) = _ at h
        omega
      · exact fun h => absurd (h hcode) hzero
    · have hcontra : s₃.pos + (size - header - CodeSize) = s.pos + size := h.2
      omega
  · refine ensures_ite (fun h => absurd h (by omega)) fun _ => ?_
    refine ensures_bind (exception_table_spec file n s₃) fun _ s₄ ⟨_, hp₄, hlog, hf⟩ => ?_
    refine (nested_attributes_spec file hn).mono fun next s₅ h => hfinal (.inr ?_) (hf.trans hm₃'.fatal) ?_
      (fun h => absurd h hcode) h
    · rw [hlog, hm₃'.log]
    · rw [hp₄, hp₃]
      omega

/-! ### Attributes -/

section Levels

variable {apk : attr_parent_kind_t}

variable {s : State}

theorem contents_settled {p : Nat} (hp : s.pos = p + 6) (hc : ConsistentAttr file env s.old apk p)
    (hn : apk ≠ .code → ∀ s, Ensures .endless nested s fun _ s' =>
      Judged s s' True (s'.pos = tableEnd file s.pos) ∧ s'.loc.fatal = s.loc.fatal) :
    Ensures .endless (attribute_contents file env nested apk (file.u4 (p + 2)) (kindAt file env apk p)) s
      fun next s' => Settled apk (file.u4 (p + 2)) s (LegalAttr file env s.old apk p) next s' := by
  rw [LegalAttr]
  by_cases hcv : kindAt file env apk p = .ConstantValue
  · obtain rfl := apk_of_ConstantValue hcv
    rw [hcv]
    refine (ConstantValue_settled file env _ s).mono fun next s' h => h.congr ?_
    rw [hp]
    simp
  by_cases hcode : kindAt file env apk p = .Code
  · obtain rfl := apk_of_Code hcode
    have hat := hc.1 hcode
    rw [hcode]
    refine (Code_settled file hp hat (hn (by simp))).mono fun next s' h => h.congr ?_
    simp
  by_cases hboot : kindAt file env apk p = .BootstrapMethods
  · obtain rfl := apk_of_BootstrapMethods hboot
    have hat : (bootstrapEnd file)^[file.u2 (p + 6)] (p + 8) = p + 6 + file.u4 (p + 2) := hc.2 hboot
    rw [hboot]
    exact BootstrapMethods_settled file (by simp) (by rw [hp, ← hat])
  · have hdelicate : ¬(kindAt file env apk p).Delicate := by
      rintro (h | h | h)
      · exact hcv h
      · exact hcode h
      · exact hboot h
    exact (leaves_contents file env hdelicate nested apk).settled apk
      ⟨fun h => absurd h hcv, fun h => absurd h hcode⟩ s

theorem finish_duplerr (n : Nat) (h : s.loc.fatal ≤ 1) :
    Ensures .endless ((Next.duplerr n).finish file env) s fun _ _ => False := by
  refine ensures_modify_bind (ensures_get_bind (ensures_ite (fun _ => ensures_fail (by simp)) fun hno => absurd ?_ hno))
  change (s.loc.fatal + 1) % 0x100 ≠ 0
  omega

theorem load_attribute_judged (hc : ConsistentAttr file env s.old apk s.pos)
    (hfatal : apk = .method → s.loc.fatal ≤ 1)
    (hn : apk ≠ .code → ∀ s, Ensures .endless nested s fun _ s' =>
      Judged s s' True (s'.pos = tableEnd file s.pos) ∧ s'.loc.fatal = s.loc.fatal) :
    Ensures .endless (load_attribute file env nested apk) s fun _ s' =>
      Judged s s' (LegalAttr file env s.old apk s.pos)
        (s'.pos = attrEnd file s.pos ∧ (apk = .method → s'.loc.fatal ≤ 1)) := by
  refine ensures_get_bind (ensures_bind (spends_check_savesize 0 6 s) fun _ s₁ ⟨hm₁, hp₁⟩ => ?_)
  refine ensures_bind (read2_spec file s₁) fun i s₂ ⟨hi, hm₂, hp₂⟩ => ?_
  refine ensures_bind (read4_spec file s₂) fun n s₃ ⟨hlen, hm₃, hp₃⟩ => ?_
  refine ensures_bind (spends_check_savesize 0 n s₃) fun _ s₄ ⟨hm₄, hp₄⟩ => ?_
  have hm : Moves s s₄ := ((hm₁.trans hm₂).trans hm₃).trans hm₄
  have hp₁' : s₁.pos = s.pos := hp₁
  have hp₄' : s₄.pos = s₃.pos := hp₄
  rw [hp₁'] at hi hp₂
  rw [hp₂] at hlen hp₃
  subst hi hlen
  have hp : s₄.pos = s.pos + 6 := by omega
  have hold : s₄.old = s.old := old_eq hm.sub
  refine ensures_bind (contents_settled file env hp (by rw [hold]; exact hc) hn) fun next s₅ hset => ?_
  rcases hset with ⟨m, rfl, hf, hapk⟩ | ⟨L, hL, hsync, hcount⟩
  · have hle : s₅.loc.fatal ≤ 1 := by rw [hf, hm.fatal]; exact hfatal hapk
    exact ensures_bind (finish_duplerr file env m hle) fun _ _ h => h.elim
  refine ensures_bind (finish_spec file env next s₅) fun _ s₆ ⟨_, hp₆, hl₆, hf₆⟩ => ensures_get_bind (ensures_modify ?_)
  rw [hold] at hsync
  have hend : s₆.pos = s.pos + 6 + file.u4 (s.pos + 2) ↔ s₅.pos + next.rest = s₄.pos + file.u4 (s.pos + 2) := by
    rw [hp₆, hp]
  have hall : Synced (L ++ [Event.attribute s.pos (file.u4 (s.pos + 2)) s₆.pos s₆.FileSize]) ↔
      Synced L ∧ s₅.pos + next.rest = s₄.pos + file.u4 (s.pos + 2) := by
    rw [synced_append, ← hend]
    simp [Synced, Event.InSync]
  refine ⟨L ++ [Event.attribute s.pos (file.u4 (s.pos + 2)) s₆.pos s₆.FileSize], ?_, hall.trans hsync, fun h => ?_⟩
  · change s₆.log ++ _ = _
    rw [hl₆, hL, hm.log, List.append_assoc]
  refine ⟨hend.mpr (hall.mp h).2, fun hapk => ?_⟩
  obtain ⟨hc', hf'⟩ := hcount (hall.mp h) hapk
  change s₆.loc.fatal ≤ 1
  rw [hf₆ hc', hf', hm.fatal]
  exact hfatal hapk

theorem load_attributes_with_judged (hc : ConsistentTable file env s.old apk s.pos)
    (hkeeps : apk ≠ .code → Keeps nested)
    (hn : apk ≠ .code → ∀ s, Ensures .endless nested s fun _ s' =>
      Judged s s' True (s'.pos = tableEnd file s.pos) ∧ s'.loc.fatal = s.loc.fatal) :
    Ensures .endless (load_attributes_with file env nested apk) s fun _ s' =>
      Judged s s' (LegalTable file env s.old apk s.pos) (s'.pos = tableEnd file s.pos) ∧ s'.loc.fatal = s.loc.fatal := by
  refine ensures_get_bind (ensures_modify_bind (ensures_bind (read2_spec file _) fun j s₁ ⟨hj, hm, hp⟩ => ?_))
  change j = file.u2 s.pos at hj
  change s₁.pos = s.pos + 2 at hp
  have hfatal : s₁.loc.fatal ≤ 1 := by
    rw [hm.fatal]
    change (if env.MLD_FORCE then 0 else 1) ≤ 1
    split
    · exact Nat.zero_le 1
    · exact Nat.le_refl 1
  have hold : s₁.old = s.old := old_eq hm.sub
  subst hj
  have hjudged : ∀ i s₂, i < file.u2 s.pos →
      (Steady s₁ s₂ ∧ Judged s₁ s₂ (∀ k, k < i → LegalAttr file env s.old apk (attrAt file s.pos k))
        (s₂.pos = attrAt file s.pos i ∧ (apk = .method → s₂.loc.fatal ≤ 1))) →
      Ensures .endless (load_attribute file env nested apk) s₂ fun _ s₃ =>
        Steady s₁ s₃ ∧ Judged s₁ s₃ (∀ k, k < i + 1 → LegalAttr file env s.old apk (attrAt file s.pos k))
          (s₃.pos = attrAt file s.pos (i + 1) ∧ (apk = .method → s₃.loc.fatal ≤ 1)) := by
    rintro i s₂ hi ⟨hst, hjd⟩
    have hold₂ : s₂.old = s.old := (old_eq hst.sub).trans hold
    have hkeep := keeps_load_attribute file env hkeeps s₂
    by_cases hg : s₂.pos = attrAt file s.pos i ∧ (apk = .method → s₂.loc.fatal ≤ 1)
    · have hcs : ConsistentAttr file env s₂.old apk s₂.pos := by
        rw [hold₂, hg.1]
        exact hc i hi
      refine (hkeep.and (load_attribute_judged file env hcs hg.2 hn)).mono fun _ s₃ ⟨hst', hj'⟩ => ⟨hst.trans hst', ?_⟩
      rw [hold₂, hg.1] at hj'
      refine judged_rounds (fun k => LegalAttr file env s.old apk (attrAt file s.pos k)) hjd hst' fun _ => ?_
      exact hj'.mono Iff.rfl fun h => ⟨by rw [h.1, attrAt_succ], h.2⟩
    · refine hkeep.mono fun _ s₃ hst' => ⟨hst.trans hst', ?_⟩
      exact judged_rounds (fun k => LegalAttr file env s.old apk (attrAt file s.pos k)) hjd hst' fun h => absurd h hg
  refine ensures_bind (ensures_count (fun i _ => by simp) hjudged ⟨.refl s₁, ?_⟩) fun i s₂ ⟨hi, hst, hjd⟩ => ?_
  · exact (judged_of_log rfl ⟨hp, fun _ => hfatal⟩).mono (by simp) id
  refine ensures_modify_bind (ensures_modify ⟨?_, rfl⟩)
  have hlog : Judged s s₁ True True := judged_of_log hm.log trivial
  have hst₂ : Steady s₂ { s₂ with log := s₂.log ++ [Event.table .attributes (file.u2 s.pos) i] } := by
    rw [hi, Nat.zero_add]
    exact (keeps_table .attributes _ s₂).post () _ rfl
  have hall := (hlog.seq hst fun _ => hjd).seq hst₂ fun hg => judged_table .attributes (file.u2 s.pos) i hg.1
  refine hall.mono ?_ id
  rw [true_and, and_true]
  rfl

end Levels

end Attributes

end IdaSdk.ClassFile
