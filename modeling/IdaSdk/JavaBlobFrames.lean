import IdaSdk.JavaBlobAnnotations

/-!
The records of stack maps. The frames lie one after another in the file, and each of them changes the number of locals.
-/

namespace IdaSdk.JavaBlob
open Program ClassFile

section
variable (file : File)

def items_end : Nat → Nat → Nat
  | 0, p => p
  | cnt + 1, p => items_end cnt (p + if file.u1 p ≥ ITEM_Object then 3 else 1)

def list_end (p : Nat) : Nat := items_end file (file.u2 p) (p + 2)

variable (SMF_mode : Bool)

def frame_type (p : Nat) : Nat := if SMF_mode then file.u1 p else SMT_FULL_FRAME

def frame_body (p : Nat) : Nat := if SMF_mode then p + 1 else p

def frame_end (p : Nat) : Nat :=
  if frame_type file SMF_mode p = SMT_FULL_FRAME then list_end file (list_end file (frame_body SMF_mode p + 2))
  else if frame_type file SMF_mode p > SMT_SAME_FRM_S0 then
    items_end file (frame_type file SMF_mode p - SMT_SAME_FRM_S0) (frame_body SMF_mode p + 2)
  else if frame_type file SMF_mode p > SMT_SAME_FRM_S1 then frame_body SMF_mode p + 2
  else if frame_type file SMF_mode p = SMT_SAME_FRM_S1 then items_end file 1 (frame_body SMF_mode p + 2)
  else if frame_type file SMF_mode p ≥ SMT_SAME_FRM_S1_min then items_end file 1 (frame_body SMF_mode p)
  else frame_body SMF_mode p

/-- The number of locals in a frame: those of a full frame are counted, others are appended to the previous ones or
chopped off from them. -/
def frame_locals (p : Nat) (fcnt : Int) : Int :=
  if frame_type file SMF_mode p = SMT_FULL_FRAME then file.u2 (frame_body SMF_mode p + 2)
  else if frame_type file SMF_mode p > SMT_SAME_FRM_S0 then fcnt + (frame_type file SMF_mode p - SMT_SAME_FRM_S0)
  else if frame_type file SMF_mode p > SMT_SAME_FRM_S1 then fcnt - (SMT_SAME_FRM_S0 - frame_type file SMF_mode p)
  else fcnt

def frame_start : Nat → Nat → Nat
  | p, 0 => p
  | p, i + 1 => frame_start (frame_end file SMF_mode p) i

def locals_before : Nat → Int → Nat → Int
  | _, fcnt, 0 => fcnt
  | p, fcnt, i + 1 => locals_before (frame_end file SMF_mode p) (frame_locals file SMF_mode p fcnt) i

/-- The records of frames from `p` on, which the blob has from `noff` on. -/
inductive Records (start_ea CodeSize : Nat) : Nat → Nat → Nat → Nat → List (Nat × sm_info_t) → Nat → Prop
  | nil {p noff base fcnt : Nat} : Records start_ea CodeSize p noff base fcnt [] noff
  | cons {p noff eoff base off fcnt nxcnt last : Nat} {records : List (Nat × sm_info_t)} : off < CodeSize →
      (SMF_mode = true → base ≤ off) → noff < eoff →
      (nxcnt : Int) = frame_locals file SMF_mode p fcnt -
        (if frame_type file SMF_mode p = SMT_SAME_FRM_S1 then 4 else 0) →
      Records start_ea CodeSize (frame_end file SMF_mode p) eoff (off + 1) nxcnt records last →
      Records start_ea CodeSize p noff base fcnt ((start_ea + off, ⟨noff, eoff, fcnt⟩) :: records) last

end

section
variable {file : File} {env : Env} {this : Ref} {s s' : State} {size fcnt base prevoff rectype : Nat}
  {buf buf' : buffer_t}

theorem u1_lt (p : Nat) : file.u1 p < 0x100 := UInt8.toNat_lt _

theorem u2_lt (p : Nat) : file.u2 p < 0x10000 := by
  have h := @u1_lt file p
  have h' := @u1_lt file (p + 1)
  rw [File.u2]
  omega

variable {rest : Nat}

theorem Copied.pos (h : Copied s size buf rest buf' s') : s'.pos = s.pos + (size - rest) := by
  rw [h.state]
  rfl

/-- The results agree. If they are fine, what has been read has been written, and something holds of the value. -/
def KeepsThat (P : Nat → State → Prop) (s : State) (size : Nat) (buf : buffer_t) (a : Bool × Nat × Nat × buffer_t)
    (b : Bool × Nat × Nat) (s' : State) : Prop :=
  b.1 = a.1 ∧ b.2.1 = a.2.1 ∧ b.2.2 = a.2.2.1 ∧ (a.1 = true → Copied s size buf a.2.2.1 a.2.2.2 s' ∧ P a.2.1 s')

theorem keepsThat_bad {P : Nat → State → Prop} {v : Nat} :
    KeepsThat P s size buf (false, v, rest, buf') (false, v, rest) s' :=
  ⟨rfl, rfl, rfl, fun h => nomatch h⟩

theorem length_replace {v : Nat} (h : 0 < buf.bytes.length) : (buf.replace v).bytes.length = buf.bytes.length := by
  rw [buffer_t.replace, List.length_append, List.length_dropLast, List.length_singleton]
  omega

theorem sm_object_keeps (var : Nat) (h : 0 < buf.bytes.length) :
    (sm_object env this var buf).2.size = buf.size ∧
      (sm_object env this var buf).2.bytes.length = buf.bytes.length := by
  rw [sm_object]
  split_ifs
  · exact ⟨rfl, length_replace h⟩
  · cases env.LoadNamedClass var with
    | some name => exact ⟨rfl, rfl⟩
    | none => exact ⟨rfl, length_replace h⟩

theorem sm_chkargs_follows (cnt : Nat) (hroom : Room size buf) :
    Follows .abort (sm_chkargs file env this cnt size buf) (ClassFile.sm_chkargs file cnt size) s fun a b s' =>
      Keeps s size buf a b s' ∧ (a.1 = true → s'.pos = items_end file cnt s.pos) := by
  induction cnt generalizing size buf s with
  | zero => exact follows_pure ⟨⟨rfl, rfl, fun _ => .refl⟩, fun _ => rfl⟩
  | succ cnt ih =>
      rw [sm_chkargs, ClassFile.sm_chkargs]
      have hbad {rest : Nat} {buf' : buffer_t} {s' : State} : Keeps s size buf (false, rest, buf') (false, rest) s' ∧
          (false = true → s'.pos = items_end file (cnt + 1) s.pos) := ⟨keeps_bad, fun h => by cases h⟩
      refine follows_ite (fun _ => follows_pure hbad) fun hsize => follows_read1 ?_
      refine follows_ite (fun _ => follows_pure hbad) fun _ => ?_
      refine follows_write1 (hroom.mono (by omega)) fun buf₁ hsize₁ hlen₁ => ?_
      have hcopied := @copied_of_length s size buf buf₁ 1 hsize₁ hlen₁ (by omega)
      refine follows_ite (fun hobject => ?_) fun hobject => ?_
      · refine follows_ite (fun _ => follows_pure hbad) fun hsize' => follows_read2 (follows_get_bind ?_)
        refine follows_ite (fun _ => follows_pure hbad) fun _ => ?_
        generalize hobj : (if file.u1 s.pos = ITEM_Object then sm_object env this (file.u2 (advance s 1).pos) buf₁
          else (file.u2 (advance s 1).pos, buf₁)) = object
        have hkept : object.2.size = buf₁.size ∧ object.2.bytes.length = buf₁.bytes.length := by
          rw [← hobj]
          split_ifs
          · exact sm_object_keeps _ (by omega)
          · exact ⟨rfl, rfl⟩
        have hroom' : Room 2 object.2 := by
          rw [Room, hkept.1, hkept.2]
          exact (hcopied.room hroom).mono (by omega)
        refine follows_write2 hroom' fun buf₂ hsize₂ hlen₂ => ?_
        have hcopied₂ : Copied s size buf (size - 3) buf₂ (advance (advance s 1) 2) := by
          rw [advance_add]
          exact copied_of_length (by rw [hsize₂, hkept.1, hsize₁]) (by omega) (by omega)
        refine (ih (hcopied₂.room hroom)).mono fun a b s' hk =>
          ⟨⟨hk.1.1, hk.1.2.1, fun ha => hcopied₂.trans (hk.1.2.2 ha)⟩, fun ha => (hk.2 ha).trans ?_⟩
        rw [items_end, if_pos hobject]
        rfl
      · refine (ih (hcopied.room hroom)).mono fun a b s' hk =>
          ⟨⟨hk.1.1, hk.1.2.1, fun ha => hcopied.trans (hk.1.2.2 ha)⟩, fun ha => (hk.2 ha).trans ?_⟩
        rw [items_end, if_neg hobject]
        rfl

theorem sm_list_follows (hroom : Room size buf) :
    Follows .abort (sm_list file env this size buf) (ClassFile.sm_list file size) s
      (KeepsThat (fun v s' => v = file.u2 s.pos ∧ s'.pos = list_end file s.pos) s size buf) := by
  rw [sm_list, ClassFile.sm_list]
  refine follows_ite (fun _ => follows_pure keepsThat_bad) fun hsize => follows_read2 ?_
  refine follows_write2 (hroom.mono (by omega)) fun buf₁ hsize₁ hlen₁ => ?_
  have hcopied := @copied_of_length s size buf buf₁ 2 hsize₁ hlen₁ (by omega)
  refine follows_bind (sm_chkargs_follows _ (hcopied.room hroom)) ?_
  rintro ⟨_, _, buf₂⟩ ⟨ok, rest⟩ s₂ ⟨⟨rfl, rfl, hkeeps⟩, hpos⟩
  exact follows_pure ⟨rfl, rfl, rfl, fun hok => ⟨hcopied.trans (hkeeps hok), rfl, hpos hok⟩⟩

/-! ### Frames -/

theorem sm_rectype_follows (hroom : Room size buf) :
    Follows .abort (sm_rectype file size buf) (ClassFile.sm_rectype file size) s
      (KeepsThat (fun v s' => v = frame_type file s.curClass.SMF_mode s.pos ∧
        s'.pos = frame_body s.curClass.SMF_mode s.pos) s size buf) := by
  rw [sm_rectype, ClassFile.sm_rectype]
  refine follows_get_bind (follows_ite (fun hmode => ?_) fun hmode => ?_)
  · refine follows_ite (fun _ => follows_pure keepsThat_bad) fun hsize => follows_read1 ?_
    refine follows_write1 (hroom.mono (by omega)) fun buf₁ hsize₁ hlen₁ => follows_pure ⟨rfl, rfl, rfl, fun _ => ?_⟩
    refine ⟨copied_of_length hsize₁ hlen₁ (by omega), ?_, ?_⟩
    · rw [frame_type, if_pos hmode]
    · rw [frame_body, if_pos hmode]
      rfl
  · refine follows_pure ⟨rfl, rfl, rfl, fun _ => ⟨.refl, ?_, ?_⟩⟩
    · rw [frame_type, if_neg hmode]
    · rw [frame_body, if_neg hmode]

theorem sm_offset_follows (rectype prevoff : Nat) (hroom : Room size buf) :
    Follows .abort (sm_offset file rectype prevoff size buf) (ClassFile.sm_offset file rectype prevoff size) s
      (KeepsThat (fun off s' => (rectype < SMT_SAME_FRM_S1 → rectype ≤ SMT_SAME_FRM_S1_max) ∧
        s'.pos = (if rectype < SMT_SAME_FRM_S1 then s.pos else s.pos + 2) ∧
        ∃ delta, delta < 0x10000 ∧ off = (delta + if s.curClass.SMF_mode then prevoff + 1 else 0) % 0x100000000)
        s size buf) := by
  rw [sm_offset, ClassFile.sm_offset]
  refine follows_get_bind (follows_ite (fun htype => ?_) fun htype => ?_)
  · refine follows_ite (fun _ => follows_pure keepsThat_bad) fun hmax => ?_
    have hle : rectype ≤ SMT_SAME_FRM_S1_max := Nat.le_of_not_lt hmax
    have hlt : rectype < 0x10000 := Nat.lt_of_le_of_lt hle (by decide)
    refine follows_ite (fun _ => follows_pure ⟨rfl, rfl, rfl, fun _ => ⟨.refl, fun _ => hle, ?_, ?_⟩⟩)
      fun _ => follows_pure ⟨rfl, rfl, rfl, fun _ => ⟨.refl, fun _ => hle, ?_, ?_⟩⟩
    · rw [if_pos htype]
    · exact ⟨rectype - SMT_SAME_FRM_S1_min, Nat.lt_of_le_of_lt (Nat.sub_le _ _) hlt, rfl⟩
    · rw [if_pos htype]
    · exact ⟨rectype, hlt, rfl⟩
  · refine follows_ite (fun _ => follows_pure keepsThat_bad) fun hsize => follows_read2 ?_
    refine follows_write2 (hroom.mono (by omega)) fun buf₁ hsize₁ hlen₁ => follows_pure ⟨rfl, rfl, rfl, fun _ => ?_⟩
    refine ⟨copied_of_length hsize₁ hlen₁ (by omega), fun h => absurd h htype, ?_, file.u2 s.pos, u2_lt _, rfl⟩
    rw [if_neg htype]
    rfl

/-- The part behind the offset. A frame of type 247 takes four locals off, although it has those of the previous one. -/
theorem sm_frame_follows (rectype fcnt : Nat) (hroom : Room size buf) :
    Follows .abort (sm_frame file env this rectype fcnt size buf) (ClassFile.sm_frame file rectype fcnt size) s
      (KeepsThat (fun nxcnt s' =>
        s'.pos = (if rectype = SMT_FULL_FRAME then list_end file (list_end file s.pos)
          else if rectype > SMT_SAME_FRM_S0 then items_end file (rectype - SMT_SAME_FRM_S0) s.pos
          else if rectype > SMT_SAME_FRM_S1 then s.pos
          else if rectype = SMT_SAME_FRM_S1 then items_end file 1 s.pos
          else if rectype ≥ SMT_SAME_FRM_S1_min then items_end file 1 s.pos
          else s.pos) ∧
        (nxcnt : Int) = (if rectype = SMT_FULL_FRAME then (file.u2 s.pos : Int)
          else if rectype > SMT_SAME_FRM_S0 then fcnt + (rectype - SMT_SAME_FRM_S0)
          else if rectype > SMT_SAME_FRM_S1 then fcnt - (SMT_SAME_FRM_S0 - rectype)
          else fcnt) - (if rectype = SMT_SAME_FRM_S1 then 4 else 0)) s size buf) := by
  rw [sm_frame, ClassFile.sm_frame]
  have hfull : SMT_FULL_FRAME ≠ SMT_SAME_FRM_S1 := by decide
  refine follows_ite (fun htype => ?_) fun htype => follows_ite (fun htype' => ?_) fun htype' =>
    follows_ite (fun htype'' => ?_) fun htype'' => ?_
  · subst htype
    refine follows_bind (sm_list_follows hroom) ?_
    rintro ⟨_, _, _, buf₁⟩ ⟨ok, nxcnt, rest⟩ s₁ ⟨rfl, rfl, rfl, hkeeps⟩
    refine follows_ite (fun hok => ?_) fun _ => follows_pure keepsThat_bad
    obtain ⟨hcopied, hnxcnt, hpos⟩ := hkeeps hok
    refine follows_bind (sm_list_follows (hcopied.room hroom)) ?_
    rintro ⟨_, _, _, buf₂⟩ ⟨ok', cnt, rest'⟩ s₂ ⟨rfl, rfl, rfl, hkeeps'⟩
    refine follows_pure ⟨rfl, rfl, rfl, fun hok' => ?_⟩
    obtain ⟨hcopied', -, hpos'⟩ := hkeeps' hok'
    refine ⟨hcopied.trans hcopied', ?_, ?_⟩
    · rw [if_pos rfl, hpos', hpos]
    · rw [if_pos rfl, if_neg hfull, Int.sub_zero]
      exact congrArg Nat.cast hnxcnt
  · have hS1 : rectype ≠ SMT_SAME_FRM_S1 := by
      rintro rfl
      rw [SMT_SAME_FRM_S1, SMT_SAME_FRM_S0] at htype'
      omega
    refine follows_bind (sm_chkargs_follows _ hroom) ?_
    rintro ⟨_, _, buf₁⟩ ⟨ok, rest⟩ s₁ ⟨⟨rfl, rfl, hkeeps⟩, hpos⟩
    refine follows_pure ⟨rfl, rfl, rfl, fun hok => ⟨hkeeps hok, ?_, ?_⟩⟩
    · rw [if_neg htype, if_pos htype', hpos hok]
    · rw [if_neg htype, if_pos htype', if_neg hS1, Int.sub_zero]
      dsimp only
      rw [Int.natCast_add, Int.natCast_sub (Nat.le_of_lt htype')]
  · have hge : SMT_SAME_FRM_S1 ≤ rectype := htype''
    refine follows_ite (fun _ => follows_pure keepsThat_bad) fun hfcnt => follows_ite (fun hfour => ?_) fun hfour => ?_
    · have hS1 : rectype = SMT_SAME_FRM_S1 := by
        rw [SMT_SAME_FRM_S0] at hfour
        rw [SMT_SAME_FRM_S1]
        omega
      subst hS1
      refine follows_bind (sm_chkargs_follows _ hroom) ?_
      rintro ⟨_, _, buf₁⟩ ⟨ok, rest⟩ s₁ ⟨⟨rfl, rfl, hkeeps⟩, hpos⟩
      refine follows_pure ⟨rfl, rfl, rfl, fun hok => ⟨hkeeps hok, ?_, ?_⟩⟩
      · rw [if_neg htype, if_neg htype', if_neg (Nat.lt_irrefl _), if_pos rfl, hpos hok]
      · rw [if_neg htype, if_neg htype', if_neg (Nat.lt_irrefl _), if_pos rfl]
        dsimp only
        rw [hfour] at hfcnt
        omega
    · have hgt : rectype > SMT_SAME_FRM_S1 := by
        refine Nat.lt_of_le_of_ne hge fun h => hfour ?_
        rw [← h]
        rfl
      refine follows_pure ⟨rfl, rfl, rfl, fun _ => ⟨.refl, ?_, ?_⟩⟩
      · rw [if_neg htype, if_neg htype', if_pos hgt]
      · rw [if_neg htype, if_neg htype', if_pos hgt, if_neg (Nat.ne_of_gt hgt)]
        dsimp only
        omega
  · have hlt : rectype < SMT_SAME_FRM_S1 := Nat.lt_of_not_le htype''
    refine follows_ite (fun hmin => ?_) fun hmin => ?_
    · refine follows_bind (sm_chkargs_follows _ hroom) ?_
      rintro ⟨_, _, buf₁⟩ ⟨ok, rest⟩ s₁ ⟨⟨rfl, rfl, hkeeps⟩, hpos⟩
      refine follows_pure ⟨rfl, rfl, rfl, fun hok => ⟨hkeeps hok, ?_, ?_⟩⟩
      · rw [if_neg htype, if_neg htype', if_neg (Nat.lt_asymm hlt), if_neg (Nat.ne_of_lt hlt), if_pos hmin, hpos hok]
      · rw [if_neg htype, if_neg htype', if_neg (Nat.lt_asymm hlt), if_neg (Nat.ne_of_lt hlt), Int.sub_zero]
    · refine follows_pure ⟨rfl, rfl, rfl, fun _ => ⟨.refl, ?_, ?_⟩⟩
      · rw [if_neg htype, if_neg htype', if_neg (Nat.lt_asymm hlt), if_neg (Nat.ne_of_lt hlt), if_neg hmin]
      · rw [if_neg htype, if_neg htype', if_neg (Nat.lt_asymm hlt), if_neg (Nat.ne_of_lt hlt), Int.sub_zero]

/-! ### All frames -/

theorem frame_end_of (mode : Bool) (p q : Nat)
    (hq : q = if frame_type file mode p < SMT_SAME_FRM_S1 then frame_body mode p else frame_body mode p + 2) :
    (if frame_type file mode p = SMT_FULL_FRAME then list_end file (list_end file q)
      else if frame_type file mode p > SMT_SAME_FRM_S0 then items_end file (frame_type file mode p - SMT_SAME_FRM_S0) q
      else if frame_type file mode p > SMT_SAME_FRM_S1 then q
      else if frame_type file mode p = SMT_SAME_FRM_S1 then items_end file 1 q
      else if frame_type file mode p ≥ SMT_SAME_FRM_S1_min then items_end file 1 q
      else q) = frame_end file mode p := by
  rw [frame_end]
  by_cases hlt : frame_type file mode p < SMT_SAME_FRM_S1
  · have hS0 : SMT_SAME_FRM_S1 ≤ SMT_SAME_FRM_S0 := by decide
    have hfull : SMT_SAME_FRM_S1 ≤ SMT_FULL_FRAME := by decide
    rw [hq, if_pos hlt]
    have h₁ : frame_type file mode p ≠ SMT_FULL_FRAME := Nat.ne_of_lt (Nat.lt_of_lt_of_le hlt hfull)
    have h₂ : ¬frame_type file mode p > SMT_SAME_FRM_S0 := Nat.lt_asymm (Nat.lt_of_lt_of_le hlt hS0)
    rw [if_neg h₁, if_neg h₂, if_neg (Nat.lt_asymm hlt), if_neg (Nat.ne_of_lt hlt), if_neg h₁, if_neg h₂,
      if_neg (Nat.lt_asymm hlt), if_neg (Nat.ne_of_lt hlt)]
  · have hmin : SMT_SAME_FRM_S1_min ≤ SMT_SAME_FRM_S1 := by decide
    rw [hq, if_neg hlt]
    split_ifs with h₁ h₂ h₃ h₄ h₅
    all_goals first
      | rfl
      | exact absurd (Nat.lt_of_le_of_ne (Nat.le_of_not_lt h₃) h₄) hlt

theorem Copied.curClass (h : Copied s size buf rest buf' s') : s'.curClass = s.curClass := by
  rw [h.state]
  rfl

theorem Copied.curSeg (h : Copied s size buf rest buf' s') : s'.curSeg = s.curSeg := by
  rw [h.state]
  rfl

theorem frame_progress (mode : Bool) (p : Nat) {q : Nat}
    (hq : q = if frame_type file mode p < SMT_SAME_FRM_S1 then frame_body mode p else frame_body mode p + 2) :
    p < q := by
  rw [hq, frame_type, frame_body]
  cases mode with
  | true =>
      rw [if_pos rfl, if_pos rfl]
      split_ifs
      · exact Nat.lt_succ_self p
      · omega
  | false =>
      have hge : ¬SMT_FULL_FRAME < SMT_SAME_FRM_S1 := by decide
      rw [if_neg Bool.false_ne_true, if_neg Bool.false_ne_true, if_neg hge]
      exact Nat.lt_add_of_pos_right Nat.two_pos

variable (file) in
/-- The results agree. If the frames are fine, their records have been added, and the blob is what has been written. -/
def KeepsRecords (start_ea declcnt base fcnt : Nat) (temp : smNode_t) (s : State) (size : Nat) (buf : buffer_t)
    (a : Int × Nat × smNode_t) (b : Int × Nat) (s' : State) : Prop :=
  b.1 = a.1 ∧ b.2 = a.2.1 ∧ (0 < a.1 → ∃ buf' records, Copied s size buf a.2.1 buf' s' ∧
    a.2.2.records = temp.records ++ records ∧ a.2.2.blob = buf'.bytes ∧ records.length = declcnt ∧
    Records file s.curClass.SMF_mode start_ea s.curSeg.CodeSize s.pos buf.bytes.length base fcnt records
      buf'.bytes.length)

theorem keepsRecords_bad {start_ea declcnt : Nat} {temp temp' : smNode_t} {r : Int} (hr : r ≤ 0) :
    KeepsRecords file start_ea declcnt base fcnt temp s size buf (r, rest, temp') (r, rest) s' :=
  ⟨rfl, rfl, fun h => absurd h (Int.not_lt.2 hr)⟩

theorem base_le {declcnt delta off : Nat} (hdeclcnt : declcnt + 1 < 0x10000) (hdelta : delta < 0x10000)
    (hbase : (prevoff + 1) % 0x100000000 = base ∧ base ≤ 0x10000 * (0xffff - (declcnt + 1)))
    (hoff : off = (delta + (prevoff + 1)) % 0x100000000) :
    base ≤ off ∧ (off + 1) % 0x100000000 = off + 1 ∧ off + 1 ≤ 0x10000 * (0xffff - declcnt) := by
  omega

/-- The records of the frames, of which there are less than 65536. -/
theorem sm_frames_follows (start_ea declcnt prevoff fcnt : Nat) (seen : List Nat) (temp : smNode_t)
    (hroom : Room size buf)
    (hseen : ∀ off, start_ea + off ∈ temp.records.map Prod.fst ↔ off ∈ seen) (hdeclcnt : declcnt < 0x10000)
    (hbase : s.curClass.SMF_mode = true → (prevoff + 1) % 0x100000000 = base ∧ base ≤ 0x10000 * (0xffff - declcnt)) :
    Follows .abort (sm_frames file env start_ea this declcnt prevoff fcnt temp size buf)
      (ClassFile.sm_frames file declcnt prevoff fcnt seen size) s
      (KeepsRecords file start_ea declcnt base fcnt temp s size buf) := by
  induction declcnt generalizing prevoff fcnt seen temp size buf s base with
  | zero => exact follows_pure ⟨rfl, rfl, fun _ => ⟨buf, [], .refl, (List.append_nil _).symm, rfl, rfl, .nil⟩⟩
  | succ declcnt ih =>
      rw [sm_frames, ClassFile.sm_frames]
      dsimp only
      refine follows_bind (sm_rectype_follows hroom) ?_
      rintro ⟨_, _, _, buf₁⟩ ⟨ok, rectype, rest⟩ s₁ ⟨rfl, rfl, rfl, hkeeps⟩
      refine follows_ite (fun _ => follows_pure (keepsRecords_bad (Int.le_refl 0))) fun hok => ?_
      obtain ⟨hcopied, hrectype, hpos⟩ := hkeeps (by simpa using hok)
      refine follows_bind (sm_offset_follows _ _ (hcopied.room hroom)) ?_
      rintro ⟨_, _, _, buf₂⟩ ⟨ok', off, rest'⟩ s₂ ⟨rfl, rfl, rfl, hkeeps'⟩
      refine follows_get_bind (follows_ite (fun _ => follows_pure (keepsRecords_bad (Int.le_refl 0))) fun hok' => ?_)
      rw [Bool.or_eq_true, not_or, decide_eq_true_eq] at hok'
      obtain ⟨hcopied', -, hpos', delta, hdelta, hoff⟩ := hkeeps' (by simpa using hok'.1)
      by_cases hmem : off ∈ seen
      · rw [if_pos hmem, if_pos ((hseen off).2 hmem)]
        exact follows_pure (keepsRecords_bad (by decide))
      have hcopied₂ := hcopied.trans hcopied'
      rw [if_neg hmem, if_neg fun h => hmem ((hseen off).1 h)]
      refine follows_bind (sm_frame_follows _ _ (hcopied₂.room hroom)) ?_
      rintro ⟨_, _, _, buf₃⟩ ⟨ok'', nxcnt, rest''⟩ s₃ ⟨rfl, rfl, rfl, hkeeps''⟩
      refine follows_ite (fun _ => follows_pure (keepsRecords_bad (Int.le_refl 0))) fun hok'' => ?_
      obtain ⟨hcopied'', hpos'', hnxcnt⟩ := hkeeps'' (by simpa using hok'')
      have hcopied₃ := hcopied₂.trans hcopied''
      dsimp only at hcopied hcopied' hcopied'' hcopied₃ hrectype hpos' hpos'' hoff hnxcnt
      rw [hpos, hrectype] at hpos'
      rw [hrectype] at hpos'' hnxcnt
      have hnext : s.curClass.SMF_mode = true →
          base ≤ off ∧ (off + 1) % 0x100000000 = off + 1 ∧ off + 1 ≤ 0x10000 * (0xffff - declcnt) := fun hmode =>
        base_le hdeclcnt hdelta (hbase hmode) (by rw [hoff, hcopied.curClass, if_pos hmode])
      refine (ih off nxcnt (off :: seen) _ (hcopied₃.room hroom) (fun o => ?_) (by omega) fun hmode =>
        (hnext (hcopied₃.curClass ▸ hmode)).2).mono fun a b s' hrest => ⟨hrest.1, hrest.2.1, fun ha => ?_⟩
      · rw [smNode_t.supset, List.map_append, List.mem_append, hseen, List.mem_cons, or_comm]
        refine or_congr_left (List.mem_singleton.trans ?_)
        exact Nat.add_left_cancel_iff
      obtain ⟨buf', records, hcopied₄, hrecords, hblob, hlen, hframes⟩ := hrest.2.2 ha
      rw [hcopied₃.curClass, hcopied₃.curSeg, hpos'', frame_end_of _ _ _ hpos'] at hframes
      refine ⟨buf', (start_ea + off, ⟨buf.bytes.length, buf₃.bytes.length, fcnt⟩) :: records,
        hcopied₃.trans hcopied₄, ?_, hblob, by rw [List.length_cons, hlen], ?_⟩
      · rw [hrecords, smNode_t.supset, List.append_assoc]
        rfl
      refine .cons ?_ (fun hmode => (hnext hmode).1) ?_ ?_ hframes
      · rw [← hcopied₂.curSeg]
        exact Nat.lt_of_not_le hok'.2
      · have hlt : s.pos < s₂.pos := frame_progress _ _ hpos'
        have hle := hcopied''.pos
        have hpos₃ := hcopied₃.pos
        have hlen₃ := hcopied₃.length
        have hle₃ := hcopied₃.le
        omega
      · rw [hnxcnt, frame_locals]
        by_cases hfull : frame_type file s.curClass.SMF_mode s.pos = SMT_FULL_FRAME
        · have hge : ¬frame_type file s.curClass.SMF_mode s.pos < SMT_SAME_FRM_S1 := by
            rw [hfull]
            decide
          rw [if_pos hfull, if_pos hfull, hpos', if_neg hge]
        · rw [if_neg hfull, if_neg hfull]

end

end IdaSdk.JavaBlob
