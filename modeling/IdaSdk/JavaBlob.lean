import IdaSdk.ClassFileContents
import IdaSdk.JavaBlobFrames
import Mathlib.Data.List.Chain

/-!
What is stored of stack maps and annotations. The blob has the length of what has been read, and the records of a stack
map are those of its frames; but the number of locals is wrong behind a frame of type 247.
-/

namespace IdaSdk.JavaBlob
open Program ClassFile

/-- The program ends, and nothing is written behind the end of the buffer. -/
def Safe {α : Type} (x : Store α) (s : State) : Prop := x s ≠ .error .overrun ∧ x s ≠ .error (.abort .endless)

section
variable (file : File)

/-- The records of so many frames from `p` on are those that the class file has, and the blob has the given length. -/
structure Faithful (SMF_mode : Bool) (start_ea CodeSize p declcnt len : Nat) (sm : smNode_t) : Prop where
  length : sm.blob.length = len
  count : sm.records.length = declcnt
  spans : ∀ r ∈ sm.records, r.2.noff < r.2.eoff ∧ r.2.eoff ≤ sm.blob.length
  first : ∀ r ∈ sm.records.head?, r.2.noff = 2
  consecutive : sm.records.IsChain fun r r' => r.2.eoff = r'.2.noff
  inside : ∀ r ∈ sm.records, start_ea ≤ r.1 ∧ r.1 < start_ea + CodeSize
  increasing : SMF_mode = true → sm.records.Pairwise fun r r' => r.1 < r'.1
  locals : ∀ i r, sm.records[i]? = some r → (r.2.fcnt : Int) = locals_before file SMF_mode p 0 i

/-- No frame but the last one has the type 247 (same_locals_1_stack_item_frame_extended). -/
def OnlyLastExtended (SMF_mode : Bool) (p declcnt : Nat) : Prop :=
  ∀ i, i + 1 < declcnt → frame_type file SMF_mode (frame_start file SMF_mode p i) ≠ SMT_SAME_FRM_S1

end

section
variable {file : File} {env : Env} {this : Ref} {s s' : State} {mode : Bool}
  {start_ea CodeSize p noff base fcnt last size : Nat} {records : List (Nat × sm_info_t)} {buf : buffer_t}

theorem Records.le (h : Records file mode start_ea CodeSize p noff base fcnt records last) : noff ≤ last := by
  induction h with
  | nil => exact Nat.le_refl _
  | cons _ _ hlt _ _ ih => exact (Nat.le_of_lt hlt).trans ih

theorem Records.spans (h : Records file mode start_ea CodeSize p noff base fcnt records last) :
    ∀ r ∈ records, r.2.noff < r.2.eoff ∧ r.2.eoff ≤ last := by
  induction h with
  | nil => exact fun r hr => absurd hr List.not_mem_nil
  | cons _ _ hlt _ hrest ih =>
      intro r hr
      obtain rfl | hr := List.mem_cons.1 hr
      · exact ⟨hlt, hrest.le⟩
      · exact ih r hr

theorem Records.inside (h : Records file mode start_ea CodeSize p noff base fcnt records last) :
    ∀ r ∈ records, start_ea ≤ r.1 ∧ r.1 < start_ea + CodeSize := by
  induction h with
  | nil => exact fun r hr => absurd hr List.not_mem_nil
  | cons hoff _ _ _ _ ih =>
      intro r hr
      obtain rfl | hr := List.mem_cons.1 hr
      · exact ⟨Nat.le_add_right _ _, Nat.add_lt_add_left hoff _⟩
      · exact ih r hr

theorem Records.head (h : Records file mode start_ea CodeSize p noff base fcnt records last) :
    ∀ r ∈ records.head?, r.2.noff = noff := by
  cases h with
  | nil => exact fun r hr => nomatch hr
  | cons _ _ _ _ _ =>
      intro r hr
      obtain rfl := Option.some.inj hr
      rfl

theorem Records.consecutive (h : Records file mode start_ea CodeSize p noff base fcnt records last) :
    records.IsChain fun r r' => r.2.eoff = r'.2.noff := by
  induction h with
  | nil => exact List.isChain_nil
  | cons _ _ _ _ hrest ih => exact List.isChain_cons.2 ⟨fun r hr => (hrest.head r hr).symm, ih⟩

theorem Records.base_le (h : Records file mode start_ea CodeSize p noff base fcnt records last) (hmode : mode = true) :
    ∀ r ∈ records, start_ea + base ≤ r.1 := by
  induction h with
  | nil => exact fun r hr => absurd hr List.not_mem_nil
  | cons _ hbase _ _ _ ih =>
      intro r hr
      obtain rfl | hr := List.mem_cons.1 hr
      · exact Nat.add_le_add_left (hbase hmode) _
      · have hle := ih r hr
        have hbase' := hbase hmode
        omega

theorem Records.increasing (h : Records file mode start_ea CodeSize p noff base fcnt records last)
    (hmode : mode = true) :
    records.Pairwise fun r r' => r.1 < r'.1 := by
  induction h with
  | nil => exact List.Pairwise.nil
  | cons _ _ _ _ hrest ih => exact List.pairwise_cons.2 ⟨fun r hr => hrest.base_le hmode r hr, ih⟩

theorem Records.locals (h : Records file mode start_ea CodeSize p noff base fcnt records last) :
    (∀ i r, records[i]? = some r → (r.2.fcnt : Int) = locals_before file mode p fcnt i) ↔
      OnlyLastExtended file mode p records.length := by
  induction h with
  | nil => exact iff_of_true (fun i r hr => nomatch hr) fun i hi => absurd hi (Nat.not_lt_zero _)
  | @cons p noff eoff base off fcnt nxcnt last records hoff hbase hlt hnxcnt hrest ih =>
      cases records with
      | nil =>
          refine iff_of_true (fun i r hr => ?_) fun i hi => absurd hi (by simp)
          cases i with
          | zero =>
              obtain rfl := Option.some.inj hr
              rfl
          | succ i => cases hr
      | cons next records =>
          have hnext : next.2.fcnt = nxcnt := by
            cases hrest with
            | cons => rfl
          by_cases htype : frame_type file mode p = SMT_SAME_FRM_S1
          · -- the next record counts four locals less
            rw [if_pos htype] at hnxcnt
            refine iff_of_false (fun hlocals => ?_) fun honly => honly 0 (by simp) htype
            have hone := hlocals 1 next rfl
            have hbefore : locals_before file mode p fcnt 1 = frame_locals file mode p fcnt := rfl
            rw [hnext, hnxcnt, hbefore] at hone
            omega
          · rw [if_neg htype, Int.sub_zero] at hnxcnt
            rw [hnxcnt] at ih
            constructor
            · intro hlocals i hi
              cases i with
              | zero => exact htype
              | succ i => exact ih.1 (fun i r hr => hlocals (i + 1) r hr) i (Nat.lt_of_succ_lt_succ hi)
            · intro honly i r hr
              cases i with
              | zero =>
                  obtain rfl := Option.some.inj hr
                  rfl
              | succ i => exact ih.2 (fun i hi => honly (i + 1) (Nat.succ_lt_succ hi)) i r hr

theorem Records.faithful_iff (h : Records file mode start_ea CodeSize p 2 base 0 records last) {blob : List UInt8}
    (hblob : blob.length = last) :
    Faithful file mode start_ea CodeSize p records.length last ⟨records, blob⟩ ↔
      OnlyLastExtended file mode p records.length := by
  constructor
  · exact fun hfaithful => h.locals.1 hfaithful.locals
  · intro honly
    refine ⟨hblob, rfl, fun r hr => ?_, h.head, h.consecutive, h.inside, h.increasing, h.locals.2 honly⟩
    rw [hblob]
    exact h.spans r hr

/-! ### Attributes -/

theorem Safe.of_follows {α β : Type} {x : Store α} {y : Load β} {Q : α → β → State → Prop} {P : β → State → Prop}
    (h : Follows .abort x y s Q) (hy : Ensures .endless y s P) : Safe x s := by
  constructor
  · intro hx
    obtain ⟨e, -, he⟩ := h.error hx
    cases he
  · intro hx
    obtain ⟨e, hye, he⟩ := h.error hx
    exact hy.avoids (hye.trans (congrArg _ (Stop.abort.inj he).symm))

theorem sm_load_follows (start_ea declcnt : Nat) (hsize : 2 ≤ size) (hdeclcnt : declcnt < 0x10000) :
    Follows .abort (sm_load file env start_ea this declcnt size) (ClassFile.sm_load file declcnt size) s fun a b s' =>
      b.1 = a.1 ∧ b.2 = a.2.1 ∧ (0 < a.1 → ∃ last, last + s.pos = s'.pos + 2 ∧ a.2.2.blob.length = last ∧
        a.2.2.records.length = declcnt ∧
        Records file s.curClass.SMF_mode start_ea s.curSeg.CodeSize s.pos 2 0 0 a.2.2.records last) := by
  rw [sm_load, ClassFile.sm_load]
  refine follows_write2 (by rw [Room]; exact Nat.le_trans (Nat.le_of_eq (Nat.zero_add 2)) hsize) fun buf hbuf hlen => ?_
  have hlen₂ : buf.bytes.length = 2 := hlen
  have hroom : Room (size - 2) buf := by
    rw [Room, hlen₂, hbuf]
    dsimp only
    omega
  refine (sm_frames_follows start_ea declcnt 0xffffffff 0 [] {} hroom
    (fun off => iff_of_false List.not_mem_nil List.not_mem_nil) hdeclcnt fun _ => ⟨rfl, Nat.zero_le _⟩).mono fun a b s' hk => ⟨hk.1, hk.2.1, fun ha => ?_⟩
  obtain ⟨buf', records, hcopied, hrecords, hblob, hcount, hframes⟩ := hk.2.2 ha
  have hall : a.2.2.records = records := hrecords
  have hpos := hcopied.pos
  have hle := hcopied.le
  have hlength := hcopied.length
  rw [hlen₂] at hframes
  refine ⟨buf'.bytes.length, by omega, by rw [hblob], by rw [hall, hcount], hall ▸ hframes⟩

theorem StackMap_follows (start_ea : Nat) (table : Bool) :
    Follows .abort (StackMap file env start_ea this table size) (ClassFile.StackMap file table size) s fun a b s' =>
      b = a.1 ∧ ∀ sm, a.2 = some sm →
        (Faithful file s.curClass.SMF_mode start_ea s.curSeg.CodeSize (s.pos + 2) (file.u2 s.pos) (s'.pos - s.pos) sm ↔
          OnlyLastExtended file s.curClass.SMF_mode (s.pos + 2) (file.u2 s.pos)) := by
  have hnone {next : Next} {s' : State} : next = (next, (none : Option smNode_t)).1 ∧
      ∀ sm, (next, (none : Option smNode_t)).2 = some sm →
        (Faithful file s.curClass.SMF_mode start_ea s.curSeg.CodeSize (s.pos + 2) (file.u2 s.pos) (s'.pos - s.pos) sm ↔
          OnlyLastExtended file s.curClass.SMF_mode (s.pos + 2) (file.u2 s.pos)) := ⟨rfl, fun sm h => nomatch h⟩
  rw [StackMap, ClassFile.StackMap]
  refine follows_get_bind (follows_ite (fun _ => follows_pure hnone) fun _ => ?_)
  refine follows_ite (fun _ => follows_pure hnone) fun _ => follows_ite (fun _ => follows_pure hnone) fun hsize => ?_
  refine follows_read2 (follows_modify_bind (follows_ite (fun _ => follows_pure hnone) fun _ => ?_))
  refine follows_bind (sm_load_follows start_ea _ (Nat.le_of_not_lt hsize) (u2_lt _)) ?_
  rintro ⟨_, _, sm⟩ ⟨r, rest⟩ s' ⟨rfl, rfl, hloaded⟩
  refine follows_ite (fun _ => follows_pure hnone) fun hr => follows_ite (fun _ => follows_pure hnone) fun hr' => ?_
  refine follows_pure ⟨rfl, fun sm' hsm => ?_⟩
  obtain rfl := Option.some.inj hsm
  obtain ⟨last, hlast, hblob, hcount, hframes⟩ := hloaded (by dsimp only at hr hr' ⊢; omega)
  have hpos : (advance s 2).pos = s.pos + 2 := rfl
  have hlen : s'.pos - s.pos = last := by
    dsimp only at hlast
    omega
  rw [hlen, ← hcount]
  exact hframes.faithful_iff hblob

theorem set_annNode_pos (n : Nat) (s : State) (apk : attr_parent_kind_t) : (set_annNode n s apk).pos = s.pos := by
  cases apk with
  | class_file => rfl
  | field => rfl
  | method => rfl
  | code => rfl

theorem do_annot_follows (n eflg : Nat) (apk : attr_parent_kind_t) :
    Follows .abort (do_annot file env n eflg apk size) (ClassFile.do_annot file env n eflg apk size) s fun a b s' =>
      b = a.1 ∧ ∀ blob, a.2 = some blob → blob.length = s'.pos - s.pos := by
  have hnone {next : Next} {s' : State} : next = (next, (none : Option (List UInt8))).1 ∧
      ∀ blob, (next, (none : Option (List UInt8))).2 = some blob → blob.length = s'.pos - s.pos :=
    ⟨rfl, fun blob h => nomatch h⟩
  rw [do_annot, ClassFile.do_annot]
  refine follows_get_bind (follows_ite (fun _ => follows_pure hnone) fun _ => ?_)
  refine follows_ite (fun _ => follows_pure hnone) fun _ => follows_modify_bind ?_
  refine follows_ite (fun _ => follows_pure hnone) fun hsize => ?_
  have hroom : Room size { size := size } := Nat.le_of_eq (Nat.zero_add size)
  refine follows_bind (annot_contents_follows eflg hsize hroom) ?_
  rintro ⟨_, _, p⟩ ⟨ok, rest⟩ s' ⟨rfl, rfl, hkeeps⟩
  refine follows_ite (fun hok => follows_pure ⟨rfl, fun blob hblob => ?_⟩) fun _ => follows_pure hnone
  obtain rfl := Option.some.inj hblob
  have hcopied := hkeeps hok
  have hpos := hcopied.pos
  have hle := hcopied.le
  have hlength := hcopied.length
  rw [set_annNode_pos] at hpos
  dsimp only [List.length_nil] at hpos hle hlength ⊢
  omega

/-- Stack maps and annotations are read to their end within the buffer. The blob of annotations has the length of what
has been read. The records of a stack map are faithful if and only if no frame but the last one is of type 247. -/
theorem stored_iff (file : File) (env : Env) (this : Ref) (start_ea attribute_length : Nat) (s : State) :
    (∀ n eflg apk, Safe (do_annot file env n eflg apk attribute_length) s ∧
      ∀ next blob s', do_annot file env n eflg apk attribute_length s = .ok ((next, some blob), s') →
        blob.length = s'.pos - s.pos) ∧
    ∀ table, Safe (StackMap file env start_ea this table attribute_length) s ∧
      ∀ next sm s', StackMap file env start_ea this table attribute_length s = .ok ((next, some sm), s') →
        (Faithful file s.curClass.SMF_mode start_ea s.curSeg.CodeSize (s.pos + 2) (file.u2 s.pos) (s'.pos - s.pos) sm ↔
          OnlyLastExtended file s.curClass.SMF_mode (s.pos + 2) (file.u2 s.pos)) := by
  refine ⟨fun n eflg apk => ⟨?_, fun next blob s' hrun => ?_⟩, fun table => ⟨?_, fun next sm s' hrun => ?_⟩⟩
  · exact .of_follows (do_annot_follows n eflg apk) (leaves_do_annot file env n eflg apk s)
  · obtain ⟨b, -, -, hblob⟩ := (do_annot_follows n eflg apk).post hrun
    exact hblob blob rfl
  · exact .of_follows (StackMap_follows start_ea table) (leaves_StackMap file table s)
  · obtain ⟨b, -, -, hsm⟩ := (StackMap_follows start_ea table).post hrun
    exact hsm sm rfl

end

/-- Three frames: four integers as locals, the same with one integer on the stack (type 247), and the same again. -/
def extendedFrames : File :=
  [0, 3, 255, 0, 0, 0, 4, 1, 1, 1, 1, 0, 0, 247, 0, 1, 1, 0]

/-- A class file without constants. -/
def noConstants : Env where
  pool _ := none
  fmtName _ := none
  pool_consistent := true
  MLD_FORCE := false
  MLD_EXTATR := false
  IDM_REQUNK := false
  ask_sde := false
  ask_unknown := false
  path_error _ := none
  write_error _ := none

/-- A method of ten bytes, in front of its stack map. -/
def tenBytes : State :=
  { pos := 0, FileSize := 18, extattr := false, requnk := false, curClass := { JDKsubver := 6, SMF_mode := true },
    curSeg := { CodeSize := 10 } }

set_option maxRecDepth 8000 in
/-- The last one of the frames is recorded without the locals. -/
theorem not_stored : ∃ next sm s',
    StackMap extendedFrames noConstants 0 ⟨0, 0⟩ true 18 tenBytes = .ok ((next, some sm), s') ∧
      ¬Faithful extendedFrames true 0 10 2 3 (s'.pos - 0) sm := by
  refine ⟨_, _, _, rfl, fun hfaithful => ?_⟩
  have hlocals := hfaithful.locals 2 (3, ⟨17, 18, 0⟩) rfl
  exact absurd hlocals (by decide)

end IdaSdk.JavaBlob
