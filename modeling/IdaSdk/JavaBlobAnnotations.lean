import IdaSdk.ClassFileSpends
import IdaSdk.JavaBlobModel

/-!
The blob of annotations. Whatever has been read has been written to the buffer, so that as much room is left in it as
there is of the attribute.
-/

namespace IdaSdk.JavaBlob
open Program ClassFile

variable (s : State)

def advance (n : Nat) : State := { s with pos := s.pos + n, FileSize := s.FileSize - n }

/-- Of `size` bytes all but `rest` have been read, and as many have been written. -/
structure Copied (s : State) (size : Nat) (buf : buffer_t) (rest : Nat) (buf' : buffer_t) (s' : State) : Prop where
  cap : buf'.size = buf.size
  le : rest ≤ size
  state : s' = advance s (size - rest)
  length : buf'.bytes.length + rest = buf.bytes.length + size

def Room (size : Nat) (buf : buffer_t) : Prop := buf.bytes.length + size ≤ buf.size

/-- The results agree, and what has been read has been written if it is fine. -/
def Keeps (size : Nat) (buf : buffer_t) (a : Bool × Nat × buffer_t) (b : Bool × Nat) (s' : State) : Prop :=
  b.1 = a.1 ∧ b.2 = a.2.1 ∧ (a.1 = true → Copied s size buf a.2.1 a.2.2 s')

def KeepsTag (size : Nat) (buf : buffer_t) (a : Bool × Nat × Nat × buffer_t) (b : Bool × Nat × Nat)
    (s' : State) : Prop :=
  b.1 = a.1 ∧ b.2.1 = a.2.1 ∧ b.2.2 = a.2.2.1 ∧ (a.1 = true → Copied s size buf a.2.1 a.2.2.2 s')

/-- The same for the parameters, which may have annotations. -/
def KeepsAny (size : Nat) (buf : buffer_t) (a : Bool × Bool × Nat × buffer_t) (b : Bool × Bool × Nat)
    (s' : State) : Prop :=
  b.1 = a.1 ∧ b.2.1 = a.2.1 ∧ b.2.2 = a.2.2.1 ∧ (a.1 = true → Copied s size buf a.2.2.1 a.2.2.2 s')

section
variable {file : File} {env : Env} {s s' s'' : State} {size rest rest' v : Nat} {buf buf' buf'' : buffer_t}

theorem advance_zero : advance s 0 = s := rfl

theorem advance_add (n m : Nat) : advance (advance s n) m = advance s (n + m) := by
  rw [advance, advance, advance]
  dsimp only
  rw [Nat.add_assoc, Nat.sub_sub]

theorem Copied.refl : Copied s size buf size buf s where
  cap := rfl
  le := Nat.le_refl _
  state := by rw [Nat.sub_self, advance_zero]
  length := rfl

theorem Copied.trans (h : Copied s size buf rest buf' s') (h' : Copied s' rest buf' rest' buf'' s'') :
    Copied s size buf rest' buf'' s'' where
  cap := h'.cap.trans h.cap
  le := Nat.le_trans h'.le h.le
  state := by
    have hle := h.le
    have hle' := h'.le
    rw [h'.state, h.state, advance_add]
    congr 1
    omega
  length := h'.length.trans h.length

theorem Copied.room (h : Copied s size buf rest buf' s') (hroom : Room size buf) : Room rest buf' := by
  rw [Room, h.length, h.cap]
  exact hroom

theorem read1_advance (s : State) :
    Ensures .endless (read1 file) s fun a s' => a = file.u1 s.pos ∧ s' = advance s 1 := by
  refine ensures_bind (Q := fun p s' => p = s.pos ∧ s' = advance s 1) ?_ fun p s' h => ensures_pure ⟨by rw [h.1], h.2⟩
  refine ensures_get_bind (ensures_ite (fun _ => ensures_fail (by simp)) fun _ => ?_)
  exact ensures_ite (fun _ => ensures_fail (by simp)) fun _ => ensures_modify_bind (ensures_pure ⟨rfl, rfl⟩)

theorem read2_advance (s : State) :
    Ensures .endless (read2 file) s fun a s' => a = file.u2 s.pos ∧ s' = advance s 2 := by
  refine ensures_bind (Q := fun p s' => p = s.pos ∧ s' = advance s 2) ?_ fun p s' h => ensures_pure ⟨by rw [h.1], h.2⟩
  refine ensures_get_bind (ensures_ite (fun _ => ensures_fail (by simp)) fun _ => ?_)
  exact ensures_ite (fun _ => ensures_fail (by simp)) fun _ => ensures_modify_bind (ensures_pure ⟨rfl, rfl⟩)

section
variable {α β : Type} {f : Nat → Store α} {g : Nat → Load β} {h : buffer_t → Store α} {y : Load β}
  {Q : α → β → State → Prop}

theorem follows_read1 (hf : Follows .abort (f (file.u1 s.pos)) (g (file.u1 s.pos)) (advance s 1) Q) :
    Follows .abort (reading (read1 file) >>= f) (read1 file >>= g) s Q := by
  refine follows_bind (Q := fun a b s' => a = file.u1 s.pos ∧ b = a ∧ s' = advance s 1) ?_ fun a b s' hq => ?_
  · exact follows_lift (read1_advance s) fun b s' hb => ⟨hb.1, rfl, hb.2⟩
  · obtain ⟨rfl, rfl, rfl⟩ := hq
    exact hf

theorem follows_read2 (hf : Follows .abort (f (file.u2 s.pos)) (g (file.u2 s.pos)) (advance s 2) Q) :
    Follows .abort (reading (read2 file) >>= f) (read2 file >>= g) s Q := by
  refine follows_bind (Q := fun a b s' => a = file.u2 s.pos ∧ b = a ∧ s' = advance s 2) ?_ fun a b s' hq => ?_
  · exact follows_lift (read2_advance s) fun b s' hb => ⟨hb.1, rfl, hb.2⟩
  · obtain ⟨rfl, rfl, rfl⟩ := hq
    exact hf

theorem write1_run (hroom : Room 1 buf) :
    write1 buf v s = .ok ({ buf with bytes := buf.bytes ++ [v.toUInt8] }, s) := by
  have hlt : buf.bytes.length < buf.size := hroom
  rw [write1, if_pos hlt]
  rfl

theorem follows_write1 (hroom : Room 1 buf)
    (hh : ∀ buf', buf'.size = buf.size → buf'.bytes.length = buf.bytes.length + 1 → Follows .abort (h buf') y s Q) :
    Follows .abort (write1 buf v >>= h) y s Q :=
  follows_own (write1_run hroom) (hh _ rfl List.length_append)

theorem follows_write2 (hroom : Room 2 buf)
    (hh : ∀ buf', buf'.size = buf.size → buf'.bytes.length = buf.bytes.length + 2 → Follows .abort (h buf') y s Q) :
    Follows .abort (write2 buf v >>= h) y s Q := by
  rw [Room] at hroom
  refine follows_own (c := { buf with bytes := buf.bytes ++ [(v % 0x100).toUInt8] ++ [(v / 0x100).toUInt8] }) ?_ ?_
  · have hfirst : Room 1 buf := by
      rw [Room]
      omega
    have hsecond : Room 1 { buf with bytes := buf.bytes ++ [(v % 0x100).toUInt8] } := by
      rw [Room, List.length_append, List.length_singleton]
      exact hroom
    rw [write2, bind_run, write1_run hfirst]
    exact write1_run hsecond
  · refine hh _ rfl ?_
    rw [List.length_append, List.length_append]
    rfl

end

theorem copied_of_length {n : Nat} (hsize : buf'.size = buf.size) (hlen : buf'.bytes.length = buf.bytes.length + n)
    (hle : n ≤ size) : Copied s size buf (size - n) buf' (advance s n) where
  cap := hsize
  le := Nat.sub_le _ _
  state := by rw [Nat.sub_sub_self hle]
  length := by omega

theorem Room.mono {n : Nat} (h : Room size buf) (hle : n ≤ size) : Room n buf :=
  Nat.le_trans (Nat.add_le_add_left hle _) h

/-! ### Elements -/

theorem keeps_bad : Keeps s size buf (false, rest, buf') (false, rest) s' := ⟨rfl, rfl, fun h => nomatch h⟩

theorem keepsTag_bad {tag : Nat} : KeepsTag s size buf (false, rest, tag, buf') (false, rest, tag) s' :=
  ⟨rfl, rfl, rfl, fun h => nomatch h⟩

theorem keepsAny_bad {any : Bool} : KeepsAny s size buf (false, any, rest, buf') (false, any, rest) s' :=
  ⟨rfl, rfl, rfl, fun h => nomatch h⟩

section
variable {elm : Nat → buffer_t → Store (Bool × Nat × Nat × buffer_t)} {elm' : Nat → Load (Bool × Nat × Nat)}

variable (limit : Nat)

theorem annotation_pairs_follows (helm : ∀ n buf s, n < limit → Room n buf →
      Follows .abort (elm n buf) (elm' n) s (KeepsTag s n buf)) (pairs : Nat) (hle : size ≤ limit)
      (hroom : Room size buf) :
    Follows .abort (annotation_pairs file env elm pairs size buf)
      (ClassFile.annotation_pairs file env elm' pairs size) s
      (Keeps s size buf) := by
  induction pairs generalizing size buf s with
  | zero => exact follows_pure ⟨rfl, rfl, fun _ => .refl⟩
  | succ pairs ih =>
      rw [annotation_pairs, ClassFile.annotation_pairs]
      refine follows_ite (fun _ => follows_pure keeps_bad) fun hsize => follows_read2 ?_
      refine follows_ite (fun _ => follows_pure keeps_bad) fun _ => ?_
      refine follows_write2 (hroom.mono (by omega)) fun buf₁ hsize₁ hlen₁ => ?_
      have hcopied := @copied_of_length s size buf buf₁ 2 hsize₁ hlen₁ (by omega)
      refine follows_bind (helm (size - 2) buf₁ _ (by omega) (hcopied.room hroom)) ?_
      rintro ⟨_, _, _, buf₂⟩ ⟨ok, rest, tag⟩ s₂ ⟨rfl, rfl, rfl, hkeeps⟩
      refine follows_ite (fun _ => follows_pure keeps_bad) fun hok => ?_
      have hcopied₂ := hcopied.trans (hkeeps (by simpa using hok))
      refine (ih (Nat.le_trans hcopied₂.le hle) (hcopied₂.room hroom)).mono fun a b s' hk =>
        ⟨hk.1, hk.2.1, fun ha => ?_⟩
      exact hcopied₂.trans (hk.2.2 ha)

theorem annotation_with_follows (helm : ∀ n buf s, n < limit → Room n buf →
      Follows .abort (elm n buf) (elm' n) s (KeepsTag s n buf)) (hle : size ≤ limit) (hroom : Room size buf) :
    Follows .abort (annotation_with file env elm size buf) (ClassFile.annotation_with file env elm' size) s
      (Keeps s size buf) := by
  rw [annotation_with, ClassFile.annotation_with]
  refine follows_ite (fun _ => follows_pure keeps_bad) fun hsize => follows_read2 ?_
  refine follows_write2 (hroom.mono (by omega)) fun buf₁ hsize₁ hlen₁ => ?_
  have hcopied := @copied_of_length s size buf buf₁ 2 hsize₁ hlen₁ (by omega)
  refine (annotation_pairs_follows limit helm _ (by omega) (hcopied.room hroom)).mono fun a b s' hk =>
    ⟨hk.1, hk.2.1, fun ha => ?_⟩
  exact hcopied.trans (hk.2.2 ha)

theorem annot_array_follows (helm : ∀ n buf s, n ≤ limit → Room n buf →
      Follows .abort (elm n buf) (elm' n) s (KeepsTag s n buf)) (val : Nat) (first : Option Nat) (hle : size ≤ limit)
    (hroom : Room size buf) :
    Follows .abort (annot_array elm val first size buf)
      (ClassFile.annot_array elm' val first size) s (Keeps s size buf) := by
  induction val generalizing first size buf s with
  | zero => exact follows_pure ⟨rfl, rfl, fun _ => .refl⟩
  | succ val ih =>
      rw [annot_array, ClassFile.annot_array]
      refine follows_bind (helm size buf s hle hroom) ?_
      rintro ⟨_, _, _, buf₁⟩ ⟨ok, rest, tag⟩ s₁ ⟨rfl, rfl, rfl, hkeeps⟩
      refine follows_ite (fun _ => follows_pure keeps_bad) fun hok => ?_
      have hcopied := hkeeps (by simpa using hok)
      have hrest (first : Option Nat) :
          Follows .abort (annot_array elm val first rest buf₁) (ClassFile.annot_array elm' val first rest) s₁
            (Keeps s size buf) :=
        (ih first (Nat.le_trans hcopied.le hle) (hcopied.room hroom)).mono fun a b s' hk =>
          ⟨hk.1, hk.2.1, fun ha => hcopied.trans (hk.2.2 ha)⟩
      cases first with
      | none => exact hrest (some tag)
      | some tag' => exact follows_ite (fun _ => follows_pure keeps_bad) fun _ => hrest (some 0xff)

end

theorem annot_elm_follows (fuel : Nat) (is_array : Bool) (hroom : Room size buf) :
    Follows .abort (annot_elm file env fuel size is_array buf) (ClassFile.annot_elm file env fuel size is_array) s
      (KeepsTag s size buf) := by
  induction fuel generalizing size is_array buf s with
  | zero => exact follows_fail Abort.endless
  | succ fuel ih =>
      rw [annot_elm, ClassFile.annot_elm]
      refine follows_ite (fun _ => follows_pure keepsTag_bad) fun hsize => follows_read1 (follows_read2 ?_)
      refine follows_write1 (hroom.mono (by omega)) fun buf₁ hsize₁ hlen₁ => ?_
      rw [Room] at hroom
      refine follows_write2 (by rw [Room]; omega) fun buf₂ hsize₂ hlen₂ => ?_
      have hcopied : Copied s size buf (size - 3) buf₂ (advance (advance s 1) 2) := by
        rw [advance_add]
        exact copied_of_length (hsize₂.trans hsize₁) (by omega) (by omega)
      have hroom₂ := hcopied.room hroom
      generalize advance (advance s 1) 2 = s₂ at hcopied ⊢
      refine follows_ite (fun _ => ?_) fun _ => follows_ite (fun _ => ?_) fun _ => follows_ite (fun _ => ?_) fun _ =>
        follows_ite (fun _ => ?_) fun _ => ?_
      · refine follows_ite (fun _ => ?_) fun _ => follows_pure keepsTag_bad
        refine follows_bind (annotation_with_follows size (fun n buf s _ hr => ih false hr) (by omega) hroom₂) ?_
        rintro ⟨_, _, buf₃⟩ ⟨ok, rest⟩ s₃ ⟨rfl, rfl, hkeeps⟩
        exact follows_pure ⟨rfl, rfl, rfl, fun hok => hcopied.trans (hkeeps hok)⟩
      · refine follows_ite (fun _ => ?_) fun _ => follows_pure keepsTag_bad
        refine follows_bind (annot_array_follows size (fun n buf s _ hr => ih true hr) _ _ (by omega) hroom₂) ?_
        rintro ⟨_, _, buf₃⟩ ⟨ok, rest⟩ s₃ ⟨rfl, rfl, hkeeps⟩
        exact follows_pure ⟨rfl, rfl, rfl, fun hok => hcopied.trans (hkeeps hok)⟩
      · refine follows_ite (fun _ => follows_pure keepsTag_bad) fun hsize' => follows_read2 ?_
        rw [Bool.or_eq_true, not_or, decide_eq_true_eq] at hsize'
        refine follows_write2 (hroom₂.mono (by omega)) fun buf₃ hsize₃ hlen₃ => ?_
        have hcopied₃ := @copied_of_length s₂ (size - 3) buf₂ buf₃ 2 hsize₃ hlen₃ (by omega)
        rw [Nat.sub_sub] at hcopied₃
        exact follows_pure ⟨rfl, rfl, rfl, fun _ => hcopied.trans hcopied₃⟩
      · exact follows_pure ⟨rfl, rfl, rfl, fun _ => hcopied⟩
      · cases annot_const (file.u1 s.pos) with
        | none => exact follows_pure keepsTag_bad
        | some op => exact follows_pure ⟨rfl, rfl, rfl, fun _ => hcopied⟩

theorem annotation_follows (hroom : Room size buf) :
    Follows .abort ( annotation file env size buf) (ClassFile.annotation file env size) s (Keeps s size buf) :=
  annotation_with_follows size (fun _ _ _ _ hr => annot_elm_follows _ _ hr) (Nat.le_refl size) hroom

theorem annotations_follows (cnt : Nat) (hroom : Room size buf) :
    Follows .abort (annotations file env cnt size buf)
      (ClassFile.annotations file env cnt size) s (Keeps s size buf) := by
  induction cnt generalizing size buf s with
  | zero => exact follows_pure ⟨rfl, rfl, fun _ => .refl⟩
  | succ cnt ih =>
      rw [annotations, ClassFile.annotations]
      refine follows_ite (fun _ => follows_pure keeps_bad) fun hsize => follows_read2 ?_
      refine follows_ite (fun _ => follows_pure keeps_bad) fun _ => ?_
      refine follows_write2 (hroom.mono (by omega)) fun buf₁ hsize₁ hlen₁ => ?_
      have hcopied := @copied_of_length s size buf buf₁ 2 hsize₁ hlen₁ (by omega)
      refine follows_bind (annotation_follows (hcopied.room hroom)) ?_
      rintro ⟨_, _, buf₂⟩ ⟨ok, rest⟩ s₂ ⟨rfl, rfl, hkeeps⟩
      refine follows_ite (fun _ => follows_pure keeps_bad) fun hok => ?_
      have hcopied₂ := hcopied.trans (hkeeps (by simpa using hok))
      exact (ih (hcopied₂.room hroom)).mono fun a b s' hk => ⟨hk.1, hk.2.1, fun ha => hcopied₂.trans (hk.2.2 ha)⟩

theorem annot_params_follows (params : Bool) (r : Nat) (any : Bool) (hroom : Room size buf) :
    Follows .abort (annot_params file env params r any size buf) (ClassFile.annot_params file env params r any size) s
      (KeepsAny s size buf) := by
  induction r generalizing any size buf s with
  | zero => exact follows_pure ⟨rfl, rfl, rfl, fun _ => .refl⟩
  | succ r ih =>
      rw [annot_params, ClassFile.annot_params]
      refine follows_ite (fun _ => follows_pure keepsAny_bad) fun hsize => follows_read2 ?_
      refine follows_write2 (hroom.mono (by omega)) fun buf₁ hsize₁ hlen₁ => ?_
      have hcopied := @copied_of_length s size buf buf₁ 2 hsize₁ hlen₁ (by omega)
      refine follows_ite (fun _ => follows_ite (fun _ => follows_pure keepsAny_bad) fun _ => ?_) fun _ => ?_
      · exact (ih any (hcopied.room hroom)).mono fun a b s' hk =>
          ⟨hk.1, hk.2.1, hk.2.2.1, fun ha => hcopied.trans (hk.2.2.2 ha)⟩
      refine follows_bind (annotations_follows _ (hcopied.room hroom)) ?_
      rintro ⟨_, _, buf₂⟩ ⟨ok, rest⟩ s₂ ⟨rfl, rfl, hkeeps⟩
      refine follows_ite (fun _ => follows_pure keepsAny_bad) fun hok => ?_
      have hcopied₂ := hcopied.trans (hkeeps (by simpa using hok))
      exact (ih true (hcopied₂.room hroom)).mono fun a b s' hk =>
        ⟨hk.1, hk.2.1, hk.2.2.1, fun ha => hcopied₂.trans (hk.2.2.2 ha)⟩

theorem annot_contents_follows (eflg : Nat) (hpos : size ≠ 0) (hroom : Room size buf) :
    Follows .abort (annot_contents file env eflg size buf) (ClassFile.annot_contents file env eflg size) s
      (Keeps s size buf) := by
  rw [annot_contents, ClassFile.annot_contents]
  refine follows_ite (fun _ => ?_) fun _ => follows_ite (fun _ => ?_) fun _ => ?_
  · refine follows_bind (annot_elm_follows _ _ hroom) ?_
    rintro ⟨_, _, _, buf₁⟩ ⟨ok, rest, tag⟩ s₁ ⟨rfl, rfl, rfl, hkeeps⟩
    exact follows_pure ⟨rfl, rfl, hkeeps⟩
  · refine follows_read1 (follows_write1 (hroom.mono (by omega)) fun buf₁ hsize₁ hlen₁ => ?_)
    have hcopied := @copied_of_length s size buf buf₁ 1 hsize₁ hlen₁ (by omega)
    refine follows_ite (fun _ => follows_pure keeps_bad) fun _ => ?_
    refine follows_bind (annot_params_follows _ _ _ (hcopied.room hroom)) ?_
    rintro ⟨_, _, _, buf₂⟩ ⟨ok, any, rest⟩ s₂ ⟨rfl, rfl, rfl, hkeeps⟩
    refine follows_pure ⟨rfl, rfl, fun hok => hcopied.trans (hkeeps ?_)⟩
    exact (Bool.and_eq_true_iff.1 hok).1
  · refine follows_bind (annot_params_follows _ _ _ hroom) ?_
    rintro ⟨_, _, _, buf₁⟩ ⟨ok, any, rest⟩ s₁ ⟨rfl, rfl, rfl, hkeeps⟩
    exact follows_pure ⟨rfl, rfl, hkeeps⟩

end

end IdaSdk.JavaBlob
