import IdaSdk.ElfEhFrameModel

/-!
The layout of call frame instructions, and what the reader makes of bytes with or without that layout.
-/

namespace IdaSdk.Elf
open Codes Outcomes Words

/-- How much an operand takes: a number, so many bytes, a block with its length in front, or as much of a block as there
is. -/
inductive Operand where
  | number (is_signed : Bool)
  | bytes (n : Nat)
  | block (nbits : Nat)
  | clipped (nbits : Nat)

/-- What is behind the operands, unless a number cannot be read or the operands go beyond the data. -/
inductive Taken where
  | rest (ptr : List UInt8)
  | refused
  | strays

def Taken.andThen : Taken → (List UInt8 → Taken) → Taken
  | .rest ptr, f => f ptr
  | .refused, _ => .refused
  | .strays, _ => .strays

section
variable (u : (nbits : Nat) → Bool → List UInt8 → Unpacked (BitVec nbits))

def Operand.take (ptr : List UInt8) : Operand → Taken
  | number is_signed => if (u 32 is_signed ptr).ok then .rest (u 32 is_signed ptr).rest else .refused
  | bytes n => if ptr.length < n then .strays else .rest (ptr.drop n)
  | block nbits =>
    if (u nbits false ptr).ok then
      if (u nbits false ptr).rest.length < (u nbits false ptr).value.toNat then .strays
      else .rest ((u nbits false ptr).rest.drop (u nbits false ptr).value.toNat)
    else .refused
  | clipped nbits =>
    if (u nbits false ptr).ok then .rest ((u nbits false ptr).rest.drop (u nbits false ptr).value.toNat) else .refused

def takeAll : List Operand → List UInt8 → Taken
  | [], ptr => .rest ptr
  | o :: os, ptr => (o.take u ptr).andThen (takeAll os)

/-- The operands of an instruction behind its first byte. In common records there is no location to advance. -/
def layout (located : Bool) (insn : UInt8) : Option (List Operand) :=
  if insn &&& 0xc0 = DW_CFA_advance_loc then if located then some [] else none
  else if insn &&& 0xc0 = DW_CFA_offset then some [.number false]
  else if insn &&& 0xc0 = DW_CFA_restore then some []
  else if insn ∈ [DW_CFA_nop, DW_CFA_remember_state, DW_CFA_restore_state, DW_CFA_lo_user] then some []
  else if insn ∈ [DW_CFA_offset_extended, DW_CFA_register, DW_CFA_def_cfa, DW_CFA_val_offset] then
    some [.number false, .number false]
  else if insn ∈ [DW_CFA_restore_extended, DW_CFA_undefined, DW_CFA_same_value, DW_CFA_def_cfa_register,
      DW_CFA_def_cfa_offset, DW_CFA_GNU_args_size] then some [.number false]
  else if insn = DW_CFA_def_cfa_expression then some [.block 64]
  else if insn = DW_CFA_advance_loc4 then some [.bytes 4]
  else if insn = DW_CFA_advance_loc2 then some [.bytes 2]
  else if insn = DW_CFA_advance_loc1 then some [.bytes 1]
  else none

/-- The instructions that only make sense with a location. -/
def needsLocation (insn : UInt8) : Bool := insn ∈ [DW_CFA_advance_loc4, DW_CFA_advance_loc2, DW_CFA_advance_loc1]

def takeInsn (located : Bool) : List UInt8 → Taken
  | [] => .refused
  | insn :: ptr =>
    match layout located insn with
    | none => .refused
    | some os => if needsLocation insn && !located then .strays else takeAll u os ptr

/-- A sequence of instructions. -/
inductive Whole (located : Bool) : List UInt8 → Prop
  | nil : Whole located []
  | insn {bytes rest} : takeInsn u located bytes = .rest rest → Whole located rest → Whole located bytes

/-- After some instructions there is one that does not fit. -/
inductive Strays (located : Bool) : List UInt8 → Prop
  | here {bytes} : takeInsn u located bytes = .strays → Strays located bytes
  | insn {bytes rest} : takeInsn u located bytes = .rest rest → Strays located rest → Strays located bytes

end

/-- The reader goes outside the record, or stops for an internal error. -/
def Bad {α : Type} (r : Outcome Halt α) : Prop := r = .undefined ∨ r = .threw .interr

theorem Bad.andThen {α β : Type} {r : Outcome Halt α} (h : Bad r) (f : α → Outcome Halt β) : Bad (r.andThen f) := by
  obtain rfl | rfl := h
  · exact Or.inl rfl
  · exact Or.inr rfl

section
variable {u : (nbits : Nat) → Bool → List UInt8 → Unpacked (BitVec nbits)}

/-! ### One instruction -/

/-- The reader does what the layout says, and has the property `P` with the bytes that are left. -/
def Follows {α : Type} (t : Taken) (r : Outcome Halt α) (P : List UInt8 → Outcome Halt α → Prop) : Prop :=
  match t with
  | .rest ptr => P ptr r
  | .refused => r = .threw .corrupted
  | .strays => Bad r

section
variable {α : Type} {P : List UInt8 → Outcome Halt α → Prop} {ptr : List UInt8} {g : List UInt8 → Taken}

theorem follows_number {is_signed : Bool} {f : BitVec 32 × List UInt8 → Outcome Halt α}
    (h : ∀ v rest, Follows (g rest) (f (v, rest)) P) :
    Follows ((Operand.take u ptr (.number is_signed)).andThen g) ((unpack_xleb128 u 32 is_signed ptr).andThen f) P := by
  rw [Operand.take, unpack_xleb128]
  by_cases hok : (u 32 is_signed ptr).ok = true
  · rw [if_pos hok, if_pos hok]
    exact h _ _
  · rw [if_neg hok, if_neg hok]
    rfl

theorem follows_block {nbits : Nat} {f : BitVec nbits × List UInt8 → Outcome Halt α}
    (h : ∀ v rest, ¬rest.length < v.toNat → Follows (g (rest.drop v.toNat)) (f (v, rest)) P)
    (hbad : ∀ v rest, rest.length < v.toNat → Bad (f (v, rest))) :
    Follows ((Operand.take u ptr (.block nbits)).andThen g) ((unpack_uleb128 u nbits ptr).andThen f) P := by
  rw [Operand.take, unpack_uleb128, unpack_xleb128]
  by_cases hok : (u nbits false ptr).ok = true
  · rw [if_pos hok, if_pos hok]
    by_cases hlen : (u nbits false ptr).rest.length < (u nbits false ptr).value.toNat
    · rw [if_pos hlen]
      exact hbad _ _ hlen
    · rw [if_neg hlen]
      exact h _ _ hlen
  · rw [if_neg hok, if_neg hok]
    rfl

end

/-- An instruction is read, with the bytes behind it and the same kind of location. -/
def Left (located : Bool) (ptr : List UInt8) (r : Outcome Halt ReadCfi) : Prop :=
  ∃ cfi location, r = .done (cfi, location, ptr) ∧ location.isSome = located

variable {location : Option (BitVec 32)} {insn : UInt8}

theorem follows_bytes {n : Nat} {is_msb : Bool} {ptr : List UInt8} :
    Follows (if !location.isSome then .strays else takeAll u [.bytes n] ptr)
      (advanceBytes n is_msb location insn ptr) (Left location.isSome) := by
  rw [advanceBytes]
  cases location with
  | none =>
      by_cases hlen : ptr.length < n
      · rw [if_pos hlen]
        exact Or.inl rfl
      · rw [if_neg hlen]
        exact Or.inr rfl
  | some loc =>
      rw [takeAll, Operand.take]
      by_cases hlen : ptr.length < n
      · rw [if_pos hlen, if_pos hlen]
        exact Or.inl rfl
      · rw [if_neg hlen, if_neg hlen]
        exact ⟨_, _, rfl, rfl⟩

theorem needsLocation_upper (h : insn &&& 0xc0 ≠ 0) : needsLocation insn = false := by
  by_contra hneeds
  have hmem : insn ∈ [DW_CFA_advance_loc4, DW_CFA_advance_loc2, DW_CFA_advance_loc1] :=
    of_decide_eq_true (eq_true_of_ne_false hneeds)
  exact h ((by decide +kernel : ∀ i ∈ [DW_CFA_advance_loc4, DW_CFA_advance_loc2, DW_CFA_advance_loc1], i &&& 0xc0 = 0) insn hmem)

theorem readExtended_follows {is_msb : Bool} {ptr : List UInt8}
    (h1 : ¬insn &&& 0xc0 = DW_CFA_advance_loc) (h2 : ¬insn &&& 0xc0 = DW_CFA_offset)
    (h3 : ¬insn &&& 0xc0 = DW_CFA_restore) :
    Follows (takeInsn u location.isSome (insn :: ptr)) (readExtended u is_msb location insn ptr)
      (Left location.isSome) := by
  rw [takeInsn, layout, if_neg h1, if_neg h2, if_neg h3, readExtended]
  by_cases h4 : insn ∈ [DW_CFA_nop, DW_CFA_remember_state, DW_CFA_restore_state, DW_CFA_lo_user]
  · have hneeds := (by decide +kernel : ∀ i ∈ [DW_CFA_nop, DW_CFA_remember_state, DW_CFA_restore_state, DW_CFA_lo_user],
      needsLocation i = false) insn h4
    rw [if_pos h4, if_pos h4, hneeds]
    exact ⟨_, _, rfl, rfl⟩
  rw [if_neg h4, if_neg h4]
  by_cases h5 : insn ∈ [DW_CFA_offset_extended, DW_CFA_register, DW_CFA_def_cfa, DW_CFA_val_offset]
  · have hneeds := (by decide +kernel : ∀ i ∈ [DW_CFA_offset_extended, DW_CFA_register, DW_CFA_def_cfa, DW_CFA_val_offset],
      needsLocation i = false) insn h5
    rw [if_pos h5, if_pos h5, hneeds]
    exact follows_number fun v rest => follows_number fun v' rest' => ⟨_, _, rfl, rfl⟩
  rw [if_neg h5, if_neg h5]
  by_cases h6 : insn ∈ [DW_CFA_restore_extended, DW_CFA_undefined, DW_CFA_same_value, DW_CFA_def_cfa_register,
      DW_CFA_def_cfa_offset, DW_CFA_GNU_args_size]
  · have hneeds := (by decide +kernel : ∀ i ∈ [DW_CFA_restore_extended, DW_CFA_undefined, DW_CFA_same_value,
      DW_CFA_def_cfa_register, DW_CFA_def_cfa_offset, DW_CFA_GNU_args_size], needsLocation i = false) insn h6
    rw [if_pos h6, if_pos h6, hneeds]
    exact follows_number fun v rest => ⟨_, _, rfl, rfl⟩
  rw [if_neg h6, if_neg h6]
  by_cases h7 : insn = DW_CFA_def_cfa_expression
  · subst h7
    apply follows_block
    · intro v rest hlen
      rw [if_neg hlen]
      exact ⟨_, _, rfl, rfl⟩
    · intro v rest hlen
      rw [if_pos hlen]
      exact Or.inl rfl
  rw [if_neg h7, if_neg h7]
  by_cases h8 : insn = DW_CFA_advance_loc4
  · subst h8
    exact follows_bytes
  rw [if_neg h8, if_neg h8]
  by_cases h9 : insn = DW_CFA_advance_loc2
  · subst h9
    exact follows_bytes
  rw [if_neg h9, if_neg h9]
  by_cases h10 : insn = DW_CFA_advance_loc1
  · subst h10
    exact follows_bytes
  · rw [if_neg h10, if_neg h10]
    rfl

theorem read_cfi_follows (cief : cie_frame_t) (is_msb : Bool) (location : Option (BitVec 32)) (bytes : List UInt8) :
    Follows (takeInsn u location.isSome bytes) (read_cfi u cief is_msb location bytes) (Left location.isSome) := by
  cases bytes with
  | nil => rfl
  | cons insn ptr =>
      rw [read_cfi]
      by_cases h1 : insn &&& 0xc0 = DW_CFA_advance_loc
      · have hneeds : needsLocation insn = false := needsLocation_upper (by rw [h1]; decide)
        rw [if_pos h1]
        cases location with
        | none =>
            rw [takeInsn, layout, if_pos h1]
            rfl
        | some loc =>
            rw [takeInsn, layout, if_pos h1, hneeds]
            exact ⟨_, _, rfl, rfl⟩
      rw [if_neg h1]
      by_cases h2 : insn &&& 0xc0 = DW_CFA_offset
      · have hneeds : needsLocation insn = false := needsLocation_upper (by rw [h2]; decide)
        rw [takeInsn, layout, if_neg h1, if_pos h2, if_pos h2, hneeds]
        exact follows_number fun v rest => ⟨_, _, rfl, rfl⟩
      rw [if_neg h2]
      by_cases h3 : insn &&& 0xc0 = DW_CFA_restore
      · have hneeds : needsLocation insn = false := needsLocation_upper (by rw [h3]; decide)
        rw [takeInsn, layout, if_neg h1, if_neg h2, if_pos h3, if_pos h3, hneeds]
        exact ⟨_, _, rfl, rfl⟩
      · rw [if_neg h3]
        exact readExtended_follows h1 h2 h3

/-! ### Sequences of instructions -/

section
variable {located : Bool} {ptr rest : List UInt8}

theorem strays_nil : ¬Strays u located [] := by
  intro h
  cases h with
  | here h => cases h
  | insn h _ => cases h

theorem strays_rest (h : takeInsn u located ptr = .rest rest) : Strays u located ptr ↔ Strays u located rest := by
  refine ⟨fun hs => ?_, Strays.insn h⟩
  cases hs with
  | here hs => cases h.symm.trans hs
  | insn hs hrest => exact Taken.rest.inj (h.symm.trans hs) ▸ hrest

theorem whole_rest (h : takeInsn u located ptr = .rest rest) : Whole u located ptr ↔ Whole u located rest := by
  refine ⟨fun hw => ?_, Whole.insn h⟩
  cases hw with
  | nil => cases h
  | insn hw hrest => exact Taken.rest.inj (h.symm.trans hw) ▸ hrest

theorem refused_not (h : takeInsn u located ptr = .refused) (hne : ptr ≠ []) :
    ¬Whole u located ptr ∧ ¬Strays u located ptr := by
  constructor
  · intro hw
    cases hw with
    | nil => exact hne rfl
    | insn hw _ => cases h.symm.trans hw
  · intro hs
    cases hs with
    | here hs => cases h.symm.trans hs
    | insn hs _ => cases h.symm.trans hs

variable (hu : ∀ nbits is_signed, Consumes (u nbits is_signed))
include hu

theorem take_length {o : Operand} (h : o.take u ptr = .rest rest) : rest.length ≤ ptr.length := by
  cases o with
  | number is_signed =>
      rw [Operand.take] at h
      split_ifs at h with hok
      obtain rfl := Taken.rest.inj h
      exact (hu _ _ _ hok).le
  | bytes n =>
      rw [Operand.take] at h
      split_ifs at h
      obtain rfl := Taken.rest.inj h
      exact List.length_drop.trans_le (Nat.sub_le ..)
  | block nbits =>
      rw [Operand.take] at h
      split_ifs at h with hok
      obtain rfl := Taken.rest.inj h
      exact (List.length_drop.trans_le (Nat.sub_le ..)).trans (hu _ _ _ hok).le
  | clipped nbits =>
      rw [Operand.take] at h
      split_ifs at h with hok
      obtain rfl := Taken.rest.inj h
      exact (List.length_drop.trans_le (Nat.sub_le ..)).trans (hu _ _ _ hok).le

theorem takeAll_length {os : List Operand} (h : takeAll u os ptr = .rest rest) : rest.length ≤ ptr.length := by
  induction os generalizing ptr with
  | nil => exact (congrArg List.length (Taken.rest.inj h)).ge
  | cons o os ih =>
      rw [takeAll] at h
      cases ho : o.take u ptr with
      | rest ptr' =>
          rw [ho] at h
          exact (ih h).trans (take_length hu ho)
      | refused => exact nomatch ho ▸ h
      | strays => exact nomatch ho ▸ h

theorem takeInsn_length (h : takeInsn u located ptr = .rest rest) : rest.length < ptr.length := by
  cases ptr with
  | nil => cases h
  | cons insn ptr =>
      rw [takeInsn] at h
      cases hlayout : layout located insn with
      | none => exact nomatch hlayout ▸ h
      | some os =>
          simp only [hlayout] at h
          split_ifs at h
          exact Nat.lt_succ_of_le (takeAll_length hu h)

theorem read_cfis_cases (cief : cie_frame_t) (is_msb : Bool) {n : Nat} (cfis : List cfi_t)
    {location : Option (BitVec 32)} (hlocated : location.isSome = located) (hn : ptr.length < n) :
    (Whole u located ptr ∧ ¬Strays u located ptr ∧ ∃ read, read_cfis u cief is_msb n cfis location ptr = .done read) ∨
      (Strays u located ptr ∧ Bad (read_cfis u cief is_msb n cfis location ptr)) ∨
      (¬Whole u located ptr ∧ ¬Strays u located ptr ∧
        read_cfis u cief is_msb n cfis location ptr = .threw .corrupted) := by
  induction n generalizing cfis location ptr with
  | zero => exact absurd hn (Nat.not_lt_zero _)
  | succ n ih =>
      rw [read_cfis]
      by_cases hnil : ptr = []
      · subst hnil
        rw [if_pos rfl]
        exact Or.inl ⟨.nil, strays_nil, _, rfl⟩
      have hread := read_cfi_follows (u := u) cief is_msb location ptr
      rw [if_neg hnil]
      rw [hlocated] at hread
      cases htake : takeInsn u located ptr with
      | rest rest =>
          rw [htake] at hread
          obtain ⟨cfi, loc, hdone, hloc⟩ := hread
          have hlt := takeInsn_length hu htake
          rw [hdone, whole_rest htake, strays_rest htake]
          exact ih (cfis ++ [cfi]) hloc (by omega)
      | refused =>
          rw [htake] at hread
          have hnot := refused_not htake hnil
          refine Or.inr (Or.inr ⟨hnot.1, hnot.2, ?_⟩)
          rw [show read_cfi u cief is_msb location ptr = .threw .corrupted from hread]
          rfl
      | strays =>
          rw [htake] at hread
          exact Or.inr (Or.inl ⟨.here htake, Bad.andThen hread _⟩)

end

end

end IdaSdk.Elf
