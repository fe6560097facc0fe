import IdaSdk.ClassFileSpends

/-!
What an attribute leaves to be skipped. For most kinds it is the part of the attribute that has not
been read.
-/

namespace IdaSdk.ClassFile

open Program

/-- The part of the attribute that is skipped. -/
def Next.rest : Next → Nat
  | .done => 0
  | .skipAttr n => n
  | .declerr n => n
  | .declerr_w n => n
  | .duplerr n => n
  | .duplerr_w n => n
  | .incompatible _ n => n
  | .attr2file n => n

def Next.counts : Next → Bool
  | .declerr _ => true
  | .duplerr _ => true
  | _ => false

/-- What has been read and what is skipped make up the attribute. -/
def Leaves (x : Load Next) (size : Nat) : Prop :=
  ∀ s, Ensures .endless x s fun next s' => Moves s s' ∧ s'.pos + next.rest = s.pos + size ∧ next.counts = false

section Rules

variable {α : Type} {x : Load α} {f : α → Load Next} {y z : Load Next} {size : Nat} {rest : α → Nat}

theorem Spends.leaves (hx : Spends x size rest) (hf : ∀ a, Leaves (f a) (rest a)) : Leaves (x >>= f) size := by
  intro s
  refine ensures_bind (hx s) fun a s' ⟨hm, hp⟩ => (hf a s').mono fun b s'' ⟨hm', hp', hc⟩ => ?_
  exact ⟨hm.trans hm', by omega, hc⟩

theorem leaves_pure {next : Next} (h : next.rest = size) (hc : next.counts = false) : Leaves (pure next) size :=
  fun s => ensures_pure ⟨.refl s, by rw [h], hc⟩

theorem leaves_ite {c : Prop} [Decidable c] (hy : c → Leaves y size) (hz : ¬c → Leaves z size) :
    Leaves (if c then y else z) size :=
  fun s => ensures_ite (fun h => hy h s) fun h => hz h s

theorem leaves_get {g : State → Load Next} (h : ∀ s, Leaves (g s) size) : Leaves (get >>= g) size :=
  fun s => ensures_get_bind (h s s)

theorem leaves_modify {g : State → State} {h : Unit → Load Next} (hg : ∀ s, Moves s (g s) ∧ (g s).pos = s.pos)
    (hh : Leaves (h ()) size) : Leaves (modify g >>= h) size := by
  intro s
  refine ensures_modify_bind ((hh (g s)).mono fun a s' ⟨hm, hp, hc⟩ => ?_)
  rw [(hg s).2] at hp
  exact ⟨(hg s).1.trans hm, hp, hc⟩

end Rules

section Contents

variable (file : File) (env : Env) {size : Nat}

theorem moves_of_eq {s s' : State} (hpos : s'.pos = s.pos) (hsize : s'.FileSize = s.FileSize) (hlog : s'.log = s.log)
    (hfatal : s'.loc.fatal = s.loc.fatal) (hsub : s'.curClass.JDKsubver = s.curClass.JDKsubver) :
    Moves s s' ∧ s'.pos = s.pos :=
  ⟨⟨by rw [hpos, hsize], Nat.le_of_eq hpos.symm, hlog, hfatal, hsub⟩, hpos⟩

theorem leaves_SourceDebugExtension : Leaves (SourceDebugExtension file env size) size := by
  intro s
  refine ensures_get_bind (ensures_ite (fun _ => ensures_pure ⟨.refl s, rfl, rfl⟩) fun _ => ensures_modify_bind ?_)
  refine ensures_ite (fun h => ensures_pure ⟨⟨rfl, Nat.le_refl _, rfl, rfl, rfl⟩, by rw [h]; rfl, rfl⟩) fun _ => ?_
  have hask : ∀ s', Moves s s' → s'.pos = s.pos →
      Ensures .endless (if env.ask_sde then pure (.attr2file size) else pure (.skipAttr size) : Load Next) s'
        fun next s'' => Moves s s'' ∧ s''.pos + next.rest = s.pos + size ∧ next.counts = false :=
    fun s' hm hp => ensures_ite (fun _ => ensures_pure ⟨hm, by rw [hp]; rfl, rfl⟩) fun _ =>
      ensures_pure ⟨hm, by rw [hp]; rfl, rfl⟩
  refine ensures_bind (Q := fun ok s' => Moves s s' ∧ s'.pos = s.pos + if ok then size else 0)
    (ensures_ite (fun _ => ?_) fun _ => ensures_pure ⟨⟨rfl, Nat.le_refl _, rfl, rfl, rfl⟩, rfl⟩) ?_
  · refine ensures_bind (ensures_bind (utf8_chars_spec file (Nat.le_refl size) _) fun r s' ⟨hm, _, hok⟩ => ?_)
      (Q := fun ok s' => Moves s s' ∧ (ok = true → s'.pos = s.pos + size)) fun ok s' ⟨hm, hok⟩ => ?_
    · have hm' : Moves s s' := ⟨hm.total, hm.pos, hm.log, hm.fatal, hm.sub⟩
      cases r with
      | error _ => exact ensures_pure ⟨hm', fun h => absurd h (by simp)⟩
      | ok _ => exact ensures_pure ⟨hm', fun _ => hok rfl⟩
    · refine ensures_ite (fun h => ensures_pure ⟨hm, hok h⟩) fun _ => ensures_modify_bind (ensures_pure ?_)
      exact ⟨⟨rfl, Nat.le_refl _, hm.log, hm.fatal, hm.sub⟩, rfl⟩
  · rintro ok s' ⟨hm, hp⟩
    refine ensures_ite (fun h => ensures_pure ⟨hm, ?_, rfl⟩) fun h => hask s' hm ?_
    · rw [hp, if_pos h]
      rfl
    · rw [hp, if_neg h]
      rfl

theorem leaves_UNKNOWN : Leaves (UNKNOWN env size) size := by
  refine leaves_get fun s => leaves_ite (fun _ => leaves_pure rfl rfl) fun _ => ?_
  refine leaves_ite (fun _ => ?_) fun _ => leaves_pure rfl rfl
  refine leaves_modify (fun s => moves_of_eq rfl rfl rfl rfl rfl) ?_
  refine leaves_ite (fun _ => ?_) fun _ => leaves_pure rfl rfl
  exact leaves_modify (fun s => moves_of_eq rfl rfl rfl rfl rfl) (leaves_pure rfl rfl)

theorem leaves_Exceptions : Leaves (Exceptions file size) size := by
  refine leaves_get fun s => leaves_ite (fun _ => leaves_pure rfl rfl) fun _ => ?_
  refine leaves_ite (fun _ => leaves_pure rfl rfl) fun hsize => (spends_read2 file (by omega)).leaves fun n => ?_
  refine leaves_ite (fun _ => leaves_pure rfl rfl) fun hn => ?_
  refine leaves_modify (fun s => moves_of_eq rfl rfl rfl rfl rfl) ?_
  have hrow : Spends (do let _ ← read2 file : Load Unit) 2 fun _ => 0 :=
    (spends_read2 file (Nat.le_refl 2)).bind fun _ => spends_pure rfl
  have hrounds := spends_rounds (n := n) (i := 0) hrow
  rw [show n * 2 = size - 2 from by omega] at hrounds
  exact hrounds.leaves fun _ => leaves_pure rfl rfl

theorem leaves_fixed_table {width : Nat} {row : Load Unit} (hrow : Spends row width fun _ => 0) :
    Leaves (fixed_table file width row size) size := by
  refine leaves_ite (fun _ => leaves_pure rfl rfl) fun hsize => (spends_read2 file (by omega)).leaves fun n => ?_
  refine leaves_ite (fun _ => leaves_pure rfl rfl) fun hn => ?_
  have hrounds := spends_rounds (n := n) (i := 0) hrow
  have htotal : n * width = size - 2 := by
    rw [← Decidable.not_not.mp hn]
    exact Nat.div_mul_cancel (Nat.dvd_of_mod_eq_zero (by omega))
  rw [htotal] at hrounds
  exact hrounds.leaves fun _ => leaves_pure rfl rfl

theorem leaves_LineNumberTable : Leaves (LineNumberTable file size) size := by
  refine leaves_get fun s => leaves_ite (fun _ => leaves_pure rfl rfl) fun _ => ?_
  refine leaves_modify (fun s => moves_of_eq rfl rfl rfl rfl rfl) (leaves_fixed_table file ?_)
  refine (spends_read2 file (by omega)).bind fun _ => (spends_read2 file (by omega)).bind fun _ => spends_pure rfl

theorem spends_local_variable : Spends (local_variable file) 10 fun _ => 0 := by
  refine (spends_read2 file (by omega)).bind fun _ => (spends_read2 file (by omega)).bind fun _ => ?_
  refine (spends_read2 file (by omega)).bind fun _ => (spends_read2 file (by omega)).bind fun _ => ?_
  exact (spends_read2 file (by omega)).bind fun _ => spends_pure rfl

theorem leaves_local_variables (eflg : Nat) : Leaves (local_variables file eflg size) size := by
  refine leaves_get fun s => leaves_ite (fun _ => leaves_pure rfl rfl) fun _ => ?_
  exact leaves_modify (fun s => moves_of_eq rfl rfl rfl rfl rfl) (leaves_fixed_table file (spends_local_variable file))

theorem leaves_LocalVariableTypeTable : Leaves (LocalVariableTypeTable file size) size :=
  leaves_get fun _ => leaves_ite (fun _ => leaves_pure rfl rfl) fun _ => leaves_local_variables file 2

theorem leaves_one_index : Leaves (one_index file size) size := by
  refine leaves_ite (fun _ => leaves_pure rfl rfl) fun hsize => ?_
  exact (spends_read2 file (by omega)).leaves fun _ => leaves_pure (by dsimp only [Next.rest]; omega) rfl

theorem leaves_InnerClasses : Leaves (InnerClasses file size) size := by
  refine leaves_fixed_table file ?_
  refine (spends_read2 file (by omega)).bind fun _ => (spends_read2 file (by omega)).bind fun _ => ?_
  exact (spends_read2 file (by omega)).bind fun _ => (spends_read2 file (by omega)).bind fun _ => spends_pure rfl

theorem leaves_EnclosingMethod : Leaves (EnclosingMethod file env size) size := by
  refine leaves_get fun s => leaves_ite (fun _ => leaves_pure rfl rfl) fun _ => ?_
  refine leaves_ite (fun _ => leaves_pure rfl rfl) fun hsize => (spends_read2 file (by omega)).leaves fun i => ?_
  refine leaves_modify (fun s => moves_of_eq rfl rfl rfl rfl rfl) ?_
  exact (spends_read2 file (by omega)).leaves fun _ => leaves_pure (by dsimp only [Next.rest]; omega) rfl

theorem leaves_flag_attribute (apk : attr_parent_kind_t) : Leaves (flag_attribute apk size) size :=
  leaves_ite (fun _ => leaves_pure rfl rfl) fun h =>
    leaves_pure (Decidable.not_not.mp (not_or.mp h).1).symm rfl

theorem leaves_StackMap (table : Bool) : Leaves (StackMap file table size) size := by
  refine leaves_get fun s => leaves_ite (fun _ => leaves_pure rfl rfl) fun _ => ?_
  refine leaves_ite (fun _ => leaves_pure rfl rfl) fun _ => leaves_ite (fun _ => leaves_pure rfl rfl) fun hsize => ?_
  refine (spends_read2 file (by omega)).leaves fun number_of_entries => ?_
  refine leaves_modify (fun s => moves_of_eq rfl rfl rfl rfl rfl) (leaves_ite (fun _ => leaves_pure rfl rfl) fun _ => ?_)
  refine (spends_sm_frames file _ _ _ _ _).leaves fun r => ?_
  refine leaves_ite (fun _ => leaves_pure rfl rfl) fun _ => ?_
  exact leaves_ite (fun _ => leaves_pure rfl rfl) fun _ => leaves_pure rfl rfl

theorem leaves_do_annot (n eflg : Nat) (apk : attr_parent_kind_t) : Leaves (do_annot file env n eflg apk size) size := by
  have hset : ∀ s, Moves s (set_annNode n s apk) ∧ (set_annNode n s apk).pos = s.pos := by
    intro s
    cases apk with
    | class_file => exact moves_of_eq rfl rfl rfl rfl rfl
    | field => exact moves_of_eq rfl rfl rfl rfl rfl
    | method => exact moves_of_eq rfl rfl rfl rfl rfl
    | code => exact moves_of_eq rfl rfl rfl rfl rfl
  refine leaves_get fun s => leaves_ite (fun _ => leaves_pure rfl rfl) fun _ => ?_
  refine leaves_ite (fun _ => leaves_pure rfl rfl) fun _ => leaves_modify hset ?_
  refine leaves_ite (fun _ => leaves_pure rfl rfl) fun hsize => ?_
  refine (spends_annot_contents file env eflg hsize).leaves fun r => ?_
  exact leaves_ite (fun _ => leaves_pure rfl rfl) fun _ => leaves_pure rfl rfl

/-- The kinds that do not keep their word for every content. -/
def attr_t.Delicate (kind : attr_t) : Prop := kind = .ConstantValue ∨ kind = .Code ∨ kind = .BootstrapMethods

theorem leaves_contents {kind : attr_t} (h : ¬kind.Delicate) (nested : Load Unit) (apk : attr_parent_kind_t) :
    Leaves (attribute_contents file env nested apk size kind) size := by
  cases kind with
  | LineNumberTable => exact leaves_LineNumberTable file
  | LocalVariableTable => exact leaves_local_variables file 1
  | LocalVariableTypeTable => exact leaves_LocalVariableTypeTable file
  | StackMap => exact leaves_StackMap file false
  | StackMapTable => exact leaves_StackMap file true
  | ConstantValue => exact absurd (.inl rfl) h
  | Code => exact absurd (.inr (.inl rfl)) h
  | Exceptions => exact leaves_Exceptions file
  | RuntimeVisibleParameterAnnotations => exact leaves_do_annot file env 3 2 apk
  | RuntimeInvisibleParameterAnnotations => exact leaves_do_annot file env 4 3 apk
  | AnnotationDefault => exact leaves_do_annot file env 2 4 apk
  | SourceFile => exact leaves_one_index file
  | InnerClasses => exact leaves_InnerClasses file
  | EnclosingMethod => exact leaves_EnclosingMethod file env
  | SourceDebugExtension => exact leaves_SourceDebugExtension file env
  | BootstrapMethods => exact absurd (.inr (.inr rfl)) h
  | Signature => exact leaves_ite (fun _ => leaves_pure rfl rfl) fun _ => leaves_one_index file
  | Synthetic => exact leaves_flag_attribute apk
  | Deprecated => exact leaves_flag_attribute apk
  | RuntimeVisibleAnnotations => exact leaves_do_annot file env 0 0 apk
  | RuntimeInvisibleAnnotations => exact leaves_do_annot file env 1 1 apk
  | UNKNOWN => exact leaves_UNKNOWN env
  | TRUNCATED => exact leaves_pure rfl rfl
  | NONAME => exact leaves_pure rfl rfl

end Contents

end IdaSdk.ClassFile
