import IdaSdk.Argloc

/-!
The locations of the arguments of a V850 or RH850 function: the registers `r6` to `r9` and the stack. For a call with a
variable number of arguments the allocator runs over the fixed arguments without changing their locations.
-/

namespace IdaSdk.NecArgs
open Argloc

/-! ### The allocator -/

inductive nec850_abi_t where
  | ABI_RH850 | ABI_OLDGCC | ABI_LAST
deriving DecidableEq

/-- The ABI bits of `nec850_t`. -/
structure nec850_t where
  abi : nec850_abi_t
  abi_align8 : Bool

/-- What is read of a type. No scalar has more than a few bytes, and an alignment is a power of two. -/
structure tinfo_t where
  is_scalar : Bool
  is_udt : Bool
  is_floating : Bool
  size : Nat
  align : Nat
  scalar_size : is_scalar = true → size = BADSIZE ∨ size < 2 ^ 31
  align_power : 4 < align → ∃ k ≤ 30, align = 2 ^ k

inductive how_to_pass_t where
  | BAD | IN_GPR | ON_STACK | SCATTERED | BY_REF
deriving DecidableEq

structure arg_allocator_t where
  num_gprs : Nat
  stkoff : Int

def sval (x : Int) : Except Failure Int := if -2 ^ 63 ≤ x ∧ x < 2 ^ 63 then .ok x else .error .overflow

def align_up (val : Int) (elsize : Nat) : Except Failure Int := do
  let val ← sval (val + (elsize - 1))
  return val / elsize * elsize

variable (aloc : Option argloc_t)

/-- A location is written through the pointer, unless this is null. -/
def write (loc : argloc_t) : Option argloc_t := aloc.map fun _ => loc

/-- The size and the alignment that an argument is passed with. -/
def passed (type : tinfo_t) (is_vararg : Bool) : Nat × Nat :=
  if is_vararg = true ∧ type.size = 4 ∧ type.is_floating = true then (8, 8) else (type.size, type.align)

namespace arg_allocator_t
variable (aa : arg_allocator_t)

def has_free_gprs (req_nregs : Nat) : Bool := decide (aa.num_gprs + req_nregs ≤ 4)

def get_regno (req_nregs : Nat) : Except Failure (Nat × arg_allocator_t) :=
  if aa.num_gprs + req_nregs ≤ 4 then .ok (6 + aa.num_gprs, { aa with num_gprs := aa.num_gprs + req_nregs })
  else .error (.interr 10518)

variable (aloc : Option argloc_t)

def alloc_slot : Except Failure (Option argloc_t × arg_allocator_t) := do
  let (regno, aa) ← aa.get_regno 1
  return (write aloc (.reg1 regno), aa)

def alloc_double_slot : Except Failure (Option argloc_t × arg_allocator_t) := do
  let (regno, aa) ← aa.get_regno 2
  return (write aloc (.reg2 regno (regno + 1)), aa)

def alloc_stk (size : Int) : Except Failure (Option argloc_t × arg_allocator_t) := do
  let stkoff ← align_up (aa.stkoff + size) 4
  return (write aloc (.stkoff aa.stkoff), { aa with stkoff })

/-- The loop of `alloc_scattered`: the parts, the allocator and what is left of the argument. -/
def alloc_chunks (aa : arg_allocator_t) (chunk_off size : Nat) :
    Except Failure (List argpart_t × arg_allocator_t × Nat × Nat) :=
  if aa.has_free_gprs 1 = true ∧ size > 0 then do
    let (regno, aa) ← aa.get_regno 1
    let (parts, rest) ← alloc_chunks aa (chunk_off + min size 4) (size - min size 4)
    return (⟨chunk_off % 2 ^ 16, min size 4, .reg1 regno⟩ :: parts, rest)
  else .ok ([], aa, chunk_off, size)
termination_by size
decreasing_by omega

/-- `alloc_scattered`. The offset and the size of a part have 16 bits. -/
def alloc_scattered (size : Nat) : Except Failure (Option argloc_t × arg_allocator_t) :=
  if aa.has_free_gprs 1 = false then .error (.interr 10519)
  else do
    let (scloc, aa, chunk_off, size) ← aa.alloc_chunks 0 size
    if size > 0 then
      let stkoff := aa.stkoff
      let (_, aa) ← aa.alloc_stk none (to_int size)
      return (write aloc (.scattered (scloc ++ [⟨chunk_off % 2 ^ 16, size % 2 ^ 16, .stkoff stkoff⟩])), aa)
    else return (write aloc (.scattered scloc), aa)

variable (pm : nec850_t)

def find_how_to_pass_arg (type : tinfo_t) (size : Int) : how_to_pass_t :=
  if type.is_scalar then
    if size ≤ 4 then if aa.has_free_gprs 1 then .IN_GPR else .ON_STACK
    else if size ≤ 8 then
      if aa.has_free_gprs 2 then .IN_GPR else if aa.has_free_gprs 1 then .SCATTERED else .ON_STACK
    else .BAD
  else if type.is_udt then
    if pm.abi = .ABI_OLDGCC ∧ size > 8 then .BAD
    else if aa.has_free_gprs 1 then .SCATTERED else .ON_STACK
  else .BAD

def align_gprs (type : tinfo_t) (align : Nat) : arg_allocator_t :=
  if align > 4 ∧ aa.has_free_gprs 1 = true ∧ (pm.abi = .ABI_OLDGCC ∨ pm.abi_align8 = true ∧ type.is_scalar = true) then
    { aa with num_gprs := (aa.num_gprs + 1) / 2 * 2 }
  else aa

/-- The switch of `calc_argloc`. -/
def pass_arg (argloc : Option argloc_t) (type : tinfo_t) (size align : Nat) :
    how_to_pass_t → Except Failure (Option (Option argloc_t × arg_allocator_t))
  | .IN_GPR => if size ≤ 4 then some <$> aa.alloc_slot argloc else some <$> aa.alloc_double_slot argloc
  | .ON_STACK => do
    let stkoff ← if align > 4 ∧ pm.abi_align8 = true ∧ type.is_scalar = true then align_up aa.stkoff align
      else .ok aa.stkoff
    some <$> { aa with stkoff }.alloc_stk argloc (to_int size)
  | .SCATTERED => some <$> aa.alloc_scattered argloc size
  | .BAD => .ok none
  | .BY_REF => .error (.interr 10520)

/-- `calc_argloc`; there is no result if it fails. -/
def calc_argloc (argloc : Option argloc_t) (type : tinfo_t) (is_vararg : Bool) :
    Except Failure (Option (Option argloc_t × arg_allocator_t)) :=
  if type.size = BADSIZE then .ok none
  else
    let (size, align) := passed type is_vararg
    let aa := aa.align_gprs pm type align
    aa.pass_arg pm argloc type size align (aa.find_how_to_pass_arg pm type (to_int size))

end arg_allocator_t

/-- What is read of the type of the result; `by_value` is `should_pass_struct_by_value`. -/
structure rettype_t where
  is_void : Bool
  is_scalar : Bool
  is_udt : Bool
  by_value : Bool
  size : Nat

/-- `calc_nec850_retloc` with the old location; there is no result if it fails. -/
def calc_nec850_retloc (pm : nec850_t) (retloc : argloc_t) (rettype : rettype_t) : Option argloc_t :=
  if rettype.is_void then some retloc
  else if rettype.size = BADSIZE then none
  else if rettype.is_scalar then
    if rettype.size > 8 then none else if rettype.size ≤ 4 then some (.reg1 10) else some (.reg2 10 11)
  else if rettype.is_udt then
    if pm.abi = .ABI_RH850 then some .badloc
    else if rettype.size > 8 ∨ rettype.by_value = false then some (.reg1 10)
    else if rettype.size ≤ 4 then some (.reg1 10) else some (.reg2 10 11)
  else none

structure funcarg_t where
  argloc : argloc_t
  type : tinfo_t

structure func_type_data_t where
  retloc : argloc_t
  rettype : rettype_t
  args : List funcarg_t

/-- The loop over the arguments: their locations and the allocator. -/
def alloc_loop (pm : nec850_t) (nfixed : Nat) (aa : arg_allocator_t) (i : Nat) :
    List funcarg_t → Except Failure (Option (List argloc_t × arg_allocator_t))
  | [] => .ok (some ([], aa))
  | fa :: args => do
    let is_vararg := decide (nfixed > 0 ∧ i ≥ nfixed)
    let argloc := if nfixed = 0 ∨ is_vararg = true then some fa.argloc else none
    match ← aa.calc_argloc pm argloc fa.type is_vararg with
    | none => return none
    | some (written, aa) =>
      let rest ← alloc_loop pm nfixed aa (i + 1) args
      return rest.map fun (arglocs, aa) => (written.getD fa.argloc :: arglocs, aa)

/-- What `calc_nec850_arglocs` sets; `stkargs` is the signed offset that it is set from. -/
structure allocated_t where
  retloc : argloc_t
  arglocs : List argloc_t
  stkargs : Int

def calc_nec850_arglocs (pm : nec850_t) (fti : func_type_data_t) (nfixed : Nat) :
    Except Failure (Option allocated_t) :=
  match calc_nec850_retloc pm fti.retloc fti.rettype with
  | none => .ok none
  | some retloc => do
    let rest ← alloc_loop pm nfixed ⟨0, 0⟩ 0 fti.args
    return rest.map fun (arglocs, aa) => { retloc, arglocs, stkargs := aa.stkoff }

/-! ### One argument -/

variable {pm : nec850_t} {aa : arg_allocator_t} {type : tinfo_t} {is_vararg : Bool}

def InRange (x : Int) : Prop := -2 ^ 63 ≤ x ∧ x < 2 ^ 63

instance (x : Int) : Decidable (InRange x) := inferInstanceAs (Decidable (_ ∧ _))

def Passable (pm : nec850_t) (type : tinfo_t) (is_vararg : Bool) : Prop :=
  type.size ≠ BADSIZE ∧
    if type.is_scalar then to_int (passed type is_vararg).1 ≤ 8
    else type.is_udt = true ∧ ¬ (pm.abi = .ABI_OLDGCC ∧ to_int (passed type is_vararg).1 > 8)

instance : Decidable (Passable pm type is_vararg) := by
  unfold Passable
  infer_instance

/-- The allocator with the registers aligned for an argument. -/
def ready (pm : nec850_t) (aa : arg_allocator_t) (type : tinfo_t) (is_vararg : Bool) : arg_allocator_t :=
  aa.align_gprs pm type (passed type is_vararg).2

def how (pm : nec850_t) (aa : arg_allocator_t) (type : tinfo_t) (is_vararg : Bool) : how_to_pass_t :=
  (ready pm aa type is_vararg).find_how_to_pass_arg pm type (to_int (passed type is_vararg).1)

def AlignsStack (pm : nec850_t) (type : tinfo_t) (is_vararg : Bool) : Prop :=
  (passed type is_vararg).2 > 4 ∧ pm.abi_align8 = true ∧ type.is_scalar = true

instance : Decidable (AlignsStack pm type is_vararg) := inferInstanceAs (Decidable (_ ∧ _ ∧ _))

def stack_offset (pm : nec850_t) (aa : arg_allocator_t) (type : tinfo_t) (is_vararg : Bool) : Int :=
  if AlignsStack pm type is_vararg then
    (aa.stkoff + ((passed type is_vararg).2 - 1)) / (passed type is_vararg).2 * (passed type is_vararg).2
  else aa.stkoff

def chunks (gprs off size : Nat) : Nat → List argpart_t
  | 0 => []
  | n + 1 => ⟨off, min size 4, .reg1 (6 + gprs)⟩ :: chunks (gprs + 1) (off + min size 4) (size - min size 4) n

/-- The number of registers for a scattered argument. -/
def chunk_count (gprs size : Nat) : Nat := min (4 - gprs) ((size + 3) / 4)

/-- The location of an argument. -/
def location (pm : nec850_t) (aa : arg_allocator_t) (type : tinfo_t) (is_vararg : Bool) : argloc_t :=
  let size := (passed type is_vararg).1
  let gprs := (ready pm aa type is_vararg).num_gprs
  match how pm aa type is_vararg with
  | .IN_GPR => if size ≤ 4 then .reg1 (6 + gprs) else .reg2 (6 + gprs) (6 + gprs + 1)
  | .ON_STACK => .stkoff (stack_offset pm aa type is_vararg)
  | _ => .scattered (chunks gprs 0 size (chunk_count gprs size) ++
    if (4 - gprs) * 4 < size then [⟨(4 - gprs) * 4, (size - (4 - gprs) * 4) % 2 ^ 16, .stkoff aa.stkoff⟩] else [])

def behind (off : Int) (size : Nat) : Int := (off + to_int size + 3) / 4 * 4

/-- The allocator after an argument. -/
def next (pm : nec850_t) (aa : arg_allocator_t) (type : tinfo_t) (is_vararg : Bool) : arg_allocator_t :=
  let size := (passed type is_vararg).1
  let gprs := (ready pm aa type is_vararg).num_gprs
  match how pm aa type is_vararg with
  | .IN_GPR => ⟨if size ≤ 4 then gprs + 1 else gprs + 2, aa.stkoff⟩
  | .ON_STACK => ⟨gprs, behind (stack_offset pm aa type is_vararg) size⟩
  | _ => ⟨gprs + chunk_count gprs size,
    if (4 - gprs) * 4 < size then behind aa.stkoff (size - (4 - gprs) * 4) else aa.stkoff⟩

/-- The stack offset does not overflow. -/
def OffsetFits (pm : nec850_t) (aa : arg_allocator_t) (type : tinfo_t) (is_vararg : Bool) : Prop :=
  let size := (passed type is_vararg).1
  let gprs := (ready pm aa type is_vararg).num_gprs
  match how pm aa type is_vararg with
  | .IN_GPR => True
  | .ON_STACK => (AlignsStack pm type is_vararg → InRange (aa.stkoff + ((passed type is_vararg).2 - 1))) ∧
    InRange (stack_offset pm aa type is_vararg + to_int size + 3)
  | _ => (4 - gprs) * 4 < size → InRange (aa.stkoff + to_int (size - (4 - gprs) * 4) + 3)

theorem sval_ok {x : Int} (h : InRange x) : sval x = .ok x := if_pos h

theorem sval_overflow {x : Int} (h : ¬ InRange x) : sval x = .error .overflow := if_neg h

theorem alloc_chunks_eq (aa : arg_allocator_t) (off size : Nat) (hoff : off + (4 - aa.num_gprs) * 4 ≤ 16) :
    aa.alloc_chunks off size = .ok (chunks aa.num_gprs off size (chunk_count aa.num_gprs size),
      ⟨aa.num_gprs + chunk_count aa.num_gprs size, aa.stkoff⟩, off + min size ((4 - aa.num_gprs) * 4),
      size - (4 - aa.num_gprs) * 4) := by
  obtain ⟨n, hn⟩ : ∃ n, n = 4 - aa.num_gprs := ⟨_, rfl⟩
  induction n generalizing aa off size with
  | zero =>
      have hcount : chunk_count aa.num_gprs size = 0 := by
        unfold chunk_count
        omega
      rw [arg_allocator_t.alloc_chunks, if_neg (by simp [arg_allocator_t.has_free_gprs]; omega), hcount, ← hn,
        Nat.zero_mul, Nat.min_zero, Nat.sub_zero]
      rfl
  | succ n ih =>
      rw [arg_allocator_t.alloc_chunks]
      by_cases hsize : size > 0
      · have hcount : chunk_count aa.num_gprs size = chunk_count (aa.num_gprs + 1) (size - min size 4) + 1 := by
          unfold chunk_count
          omega
        have hrest := ih ⟨aa.num_gprs + 1, aa.stkoff⟩ (off + min size 4) (size - min size 4)
          (by dsimp only; omega) (by dsimp only; omega)
        dsimp only at hrest
        rw [if_pos ⟨by simp [arg_allocator_t.has_free_gprs]; omega, hsize⟩, arg_allocator_t.get_regno,
          if_pos (by omega), ok_bind]
        dsimp only
        rw [hrest, ok_bind, hcount, chunks, Nat.mod_eq_of_lt (by omega)]
        dsimp only
        congr 3
        · congr 1
          omega
        · congr 1 <;> omega
      · have hcount : chunk_count aa.num_gprs size = 0 := by
          unfold chunk_count
          omega
        have hzero : size = 0 := by omega
        rw [if_neg fun h => hsize h.2, hcount, hzero, Nat.zero_min, Nat.zero_sub]
        rfl

theorem to_int_of_lt {x : Nat} (h : x < 2 ^ 31) : to_int x = x := by
  unfold to_int
  split <;> omega

theorem to_int_le (x : Nat) : to_int x ≤ x := by
  unfold to_int
  split <;> omega

theorem scalar_lt (hscalar : type.is_scalar = true) (hsize : type.size ≠ BADSIZE) :
    (passed type is_vararg).1 < 2 ^ 31 := by
  unfold passed
  split
  · exact (by decide : 8 < 2 ^ 31)
  · exact (type.scalar_size hscalar).resolve_left hsize

/-- What the choice says about the size and the free registers. -/
inductive Choice (size gprs : Nat) : how_to_pass_t → Prop
  | slot : size ≤ 4 → gprs + 1 ≤ 4 → Choice size gprs .IN_GPR
  | double_slot : 4 < size → size ≤ 8 → gprs + 2 ≤ 4 → Choice size gprs .IN_GPR
  | scattered : gprs + 1 ≤ 4 → Choice size gprs .SCATTERED
  | stack : 4 < gprs + 1 → Choice size gprs .ON_STACK

theorem how_choice (aa : arg_allocator_t) (h : Passable pm type is_vararg) :
    Choice (passed type is_vararg).1 (ready pm aa type is_vararg).num_gprs (how pm aa type is_vararg) := by
  obtain ⟨hsize, hkind⟩ := h
  unfold how arg_allocator_t.find_how_to_pass_arg
  generalize (ready pm aa type is_vararg) = aa'
  unfold arg_allocator_t.has_free_gprs
  by_cases hscalar : type.is_scalar = true
  · rw [if_pos hscalar] at hkind ⊢
    rw [to_int_of_lt (scalar_lt hscalar hsize)] at hkind ⊢
    by_cases hsmall : (((passed type is_vararg).1 : Nat) : Int) ≤ 4
    · rw [if_pos hsmall]
      by_cases hfree : aa'.num_gprs + 1 ≤ 4
      · rw [if_pos (decide_eq_true hfree)]
        exact .slot (by omega) hfree
      · rw [if_neg (by simpa using hfree)]
        exact .stack (by omega)
    · rw [if_neg hsmall, if_pos hkind]
      by_cases hpair : aa'.num_gprs + 2 ≤ 4
      · rw [if_pos (decide_eq_true hpair)]
        exact .double_slot (by omega) (by omega) hpair
      rw [if_neg (by simpa using hpair)]
      by_cases hfree : aa'.num_gprs + 1 ≤ 4
      · rw [if_pos (decide_eq_true hfree)]
        exact .scattered hfree
      · rw [if_neg (by simpa using hfree)]
        exact .stack (by omega)
  · rw [if_neg hscalar] at hkind ⊢
    rw [if_pos hkind.1, if_neg hkind.2]
    by_cases hfree : aa'.num_gprs + 1 ≤ 4
    · rw [if_pos (decide_eq_true hfree)]
      exact .scattered hfree
    · rw [if_neg (by simpa using hfree)]
      exact .stack (by omega)

theorem how_bad (hsize : type.size ≠ BADSIZE) (h : ¬ Passable pm type is_vararg) : how pm aa type is_vararg = .BAD := by
  unfold how arg_allocator_t.find_how_to_pass_arg
  by_cases hscalar : type.is_scalar = true
  · have hbig : ¬ to_int (passed type is_vararg).1 ≤ 8 := fun hle => h ⟨hsize, by rw [if_pos hscalar]; exact hle⟩
    rw [if_pos hscalar, if_neg (by omega), if_neg hbig]
  rw [if_neg hscalar]
  by_cases hudt : type.is_udt = true
  · rw [if_pos hudt, if_pos]
    by_contra hkind
    exact h ⟨hsize, by rw [if_neg hscalar]; exact ⟨hudt, hkind⟩⟩
  · rw [if_neg hudt]

theorem ready_le (pm : nec850_t) (type : tinfo_t) (is_vararg : Bool) (hg : aa.num_gprs ≤ 4) :
    (ready pm aa type is_vararg).num_gprs ≤ 4 ∧
    aa.num_gprs ≤ (ready pm aa type is_vararg).num_gprs ∧ (ready pm aa type is_vararg).stkoff = aa.stkoff := by
  unfold ready arg_allocator_t.align_gprs
  split
  · exact ⟨by dsimp only; omega, by dsimp only; omega, rfl⟩
  · exact ⟨hg, Nat.le_refl _, rfl⟩

theorem alloc_stk_eq (size : Int) : aa.alloc_stk aloc size =
    if InRange (aa.stkoff + size + 3) then
      .ok (write aloc (.stkoff aa.stkoff), { aa with stkoff := (aa.stkoff + size + 3) / 4 * 4 })
    else .error .overflow := by
  rw [arg_allocator_t.alloc_stk, align_up]
  by_cases hrange : InRange (aa.stkoff + size + 3)
  · rw [if_pos hrange, sval_ok (by exact hrange)]
    rfl
  · rw [if_neg hrange, sval_overflow (by exact hrange)]
    rfl

theorem alloc_scattered_eq (size : Nat) (hg : aa.num_gprs + 1 ≤ 4) :
    aa.alloc_scattered aloc size =
      if (4 - aa.num_gprs) * 4 < size → InRange (aa.stkoff + to_int (size - (4 - aa.num_gprs) * 4) + 3) then
        .ok (write aloc (.scattered (chunks aa.num_gprs 0 size (chunk_count aa.num_gprs size) ++
            if (4 - aa.num_gprs) * 4 < size then
              [⟨(4 - aa.num_gprs) * 4, (size - (4 - aa.num_gprs) * 4) % 2 ^ 16, .stkoff aa.stkoff⟩] else [])),
          ⟨aa.num_gprs + chunk_count aa.num_gprs size,
            if (4 - aa.num_gprs) * 4 < size then behind aa.stkoff (size - (4 - aa.num_gprs) * 4) else aa.stkoff⟩)
      else .error .overflow := by
  rw [arg_allocator_t.alloc_scattered, if_neg (by simpa [arg_allocator_t.has_free_gprs] using hg),
    alloc_chunks_eq aa 0 size (by omega), ok_bind]
  dsimp only
  by_cases hrest : (4 - aa.num_gprs) * 4 < size
  · have hoff : (0 + min size ((4 - aa.num_gprs) * 4)) % 2 ^ 16 = (4 - aa.num_gprs) * 4 := by omega
    rw [if_pos (by omega), alloc_stk_eq, hoff]
    dsimp only
    by_cases hrange : InRange (aa.stkoff + to_int (size - (4 - aa.num_gprs) * 4) + 3)
    · rw [if_pos hrange, if_pos fun _ => hrange, if_pos hrest, if_pos hrest]
      rfl
    · rw [if_neg hrange, if_neg fun h => hrange (h hrest)]
      rfl
  · rw [if_neg (by omega), if_pos fun h => absurd h hrest, if_neg hrest, if_neg hrest, List.append_nil]
    rfl

/-- What `calc_argloc` does: no assertion fails. -/
theorem calc_argloc_spec (pm : nec850_t) (type : tinfo_t) (is_vararg : Bool) (argloc : Option argloc_t)
    (hg : aa.num_gprs ≤ 4) :
    (¬ Passable pm type is_vararg → aa.calc_argloc pm argloc type is_vararg = .ok none) ∧
    (Passable pm type is_vararg →
      (OffsetFits pm aa type is_vararg → aa.calc_argloc pm argloc type is_vararg =
        .ok (some (write argloc (location pm aa type is_vararg), next pm aa type is_vararg))) ∧
      (¬ OffsetFits pm aa type is_vararg → aa.calc_argloc pm argloc type is_vararg = .error .overflow)) := by
  obtain ⟨-, -, hstk⟩ := ready_le pm type is_vararg hg
  by_cases hsize : type.size = BADSIZE
  · rw [arg_allocator_t.calc_argloc, if_pos hsize]
    exact ⟨fun _ => rfl, fun h => absurd hsize h.1⟩
  have hcalc : aa.calc_argloc pm argloc type is_vararg = (ready pm aa type is_vararg).pass_arg pm argloc type
      (passed type is_vararg).1 (passed type is_vararg).2 (how pm aa type is_vararg) := if_neg hsize
  rw [hcalc]
  refine ⟨fun hbad => ?_, fun hpass => ?_⟩
  · rw [how_bad hsize hbad]
    rfl
  have hchoice := how_choice aa hpass
  rw [OffsetFits, location, next, stack_offset]
  rw [← hstk]
  generalize how pm aa type is_vararg = kind at *
  generalize ready pm aa type is_vararg = aa' at *
  cases hchoice with
  | slot hsmall hfree =>
      refine ⟨fun _ => ?_, fun h => absurd trivial h⟩
      dsimp only
      rw [arg_allocator_t.pass_arg, if_pos hsmall, if_pos hsmall, if_pos hsmall, arg_allocator_t.alloc_slot,
        arg_allocator_t.get_regno, if_pos hfree]
      rfl
  | double_slot hbig hsmall hfree =>
      refine ⟨fun _ => ?_, fun h => absurd trivial h⟩
      dsimp only
      rw [arg_allocator_t.pass_arg, if_neg (by omega), if_neg (by omega), if_neg (by omega),
        arg_allocator_t.alloc_double_slot, arg_allocator_t.get_regno, if_pos hfree]
      rfl
  | scattered hfree =>
      dsimp only
      rw [arg_allocator_t.pass_arg, alloc_scattered_eq argloc _ hfree]
      refine ⟨fun h => ?_, fun h => ?_⟩
      · rw [if_pos h]
        rfl
      · rw [if_neg h]
        rfl
  | stack hfull =>
      dsimp only
      rw [arg_allocator_t.pass_arg]
      by_cases halign : AlignsStack pm type is_vararg
      · rw [if_pos halign, if_pos (by exact halign), align_up]
        by_cases hval : InRange (aa'.stkoff + ((passed type is_vararg).2 - 1))
        · rw [sval_ok hval, ok_bind]
          change (_ → some <$> arg_allocator_t.alloc_stk _ _ _ = _) ∧
            (_ → some <$> arg_allocator_t.alloc_stk _ _ _ = _)
          rw [alloc_stk_eq]
          dsimp only
          refine ⟨fun h => ?_, fun h => ?_⟩
          · rw [if_pos h.2]
            rfl
          · rw [if_neg fun hrange => h ⟨fun _ => hval, hrange⟩]
            rfl
        · rw [sval_overflow hval]
          exact ⟨fun h => absurd (h.1 halign) hval, fun _ => rfl⟩
      · rw [if_neg halign, if_neg (by exact halign), ok_bind]
        dsimp only
        rw [alloc_stk_eq]
        dsimp only
        refine ⟨fun h => ?_, fun h => ?_⟩
        · rw [if_pos h.2]
          rfl
        · rw [if_neg fun hrange => h ⟨fun hal => absurd hal halign, hrange⟩]
          rfl

/-- The types with the flag that `calc_argloc` gets, from the argument number `i` on. -/
def flagged (nfixed i : Nat) (args : List funcarg_t) : List (tinfo_t × Bool) :=
  args.mapIdx fun k fa => (fa.type, decide (nfixed > 0 ∧ i + k ≥ nfixed))

def sizes (args : List (tinfo_t × Bool)) : List Nat := args.map fun t => (passed t.1 t.2).1

/-- The stack parts begin at offsets that are divisible by 4. -/
def StackAligned (args : List (Nat × argloc_t)) : Prop :=
  ∀ a ∈ args, ∀ s ∈ spans (a.2.parts a.1), s.1 % 4 = 0

/-- The locations are right, with registers among `r6` to `r9`. -/
def Right (nfixed : Nat) (args : List funcarg_t) (arglocs : List argloc_t) (stkargs : Int) : Prop :=
  arglocs.length = args.length ∧ Sound 6 10 stkargs ((sizes (flagged nfixed 0 args)).zip arglocs) ∧
    StackAligned ((sizes (flagged nfixed 0 args)).zip arglocs)

/-- No assertion fails, and locations that are found are right. With fixed arguments, these keep their locations, and
the others are right together with those that the fixed arguments get without the others. -/
def Meets (pm : nec850_t) (fti : func_type_data_t) (nfixed : Nat) : Prop :=
  ∃ result, calc_nec850_arglocs pm fti nfixed = .ok result ∧ ∀ allocated, result = some allocated →
    if nfixed = 0 then Right 0 fti.args allocated.arglocs allocated.stkargs
    else
      allocated.arglocs.take nfixed = (fti.args.map funcarg_t.argloc).take nfixed ∧
      ∃ fixed, calc_nec850_arglocs pm { fti with args := fti.args.take nfixed } 0 = .ok (some fixed) ∧
        Right nfixed fti.args (fixed.arglocs ++ allocated.arglocs.drop nfixed) allocated.stkargs

/-- A part for the stack has a size that 16 bits can hold, and an argument on the stack one that an `int` can hold. -/
structure Suits (pm : nec850_t) (aa : arg_allocator_t) (type : tinfo_t) (is_vararg : Bool) : Prop where
  scattered : how pm aa type is_vararg = .SCATTERED →
    (passed type is_vararg).1 - (4 - (ready pm aa type is_vararg).num_gprs) * 4 < 2 ^ 16
  stack : how pm aa type is_vararg = .ON_STACK → (passed type is_vararg).1 < 2 ^ 31

/-- The stack offset does not overflow up to the first argument that cannot be passed. -/
def OffsetsFit (pm : nec850_t) (aa : arg_allocator_t) : List (tinfo_t × Bool) → Prop
  | [] => True
  | (type, is_vararg) :: args => Passable pm type is_vararg →
    OffsetFits pm aa type is_vararg ∧ OffsetsFit pm (next pm aa type is_vararg) args

/-- Each argument suits the allocator before it. -/
def AllSuit (pm : nec850_t) (aa : arg_allocator_t) : List (tinfo_t × Bool) → Prop
  | [] => True
  | (type, is_vararg) :: args => Suits pm aa type is_vararg ∧ AllSuit pm (next pm aa type is_vararg) args

/-! ### One location -/

theorem registers_chunks {gprs off size n x : Nat} (h : x ∈ registers (chunks gprs off size n)) :
    6 + gprs ≤ x ∧ x < 6 + (gprs + n) := by
  induction n generalizing gprs off size with
  | zero => cases h
  | succ n ih =>
      rcases List.mem_cons.mp (h : x ∈ (6 + gprs) :: registers (chunks (gprs + 1) _ _ n)) with rfl | h
      · omega
      · have hrest := ih h
        omega

variable (gprs off size n : Nat)

theorem spans_chunks : spans (chunks gprs off size n) = [] := by
  induction n generalizing gprs off size with
  | zero => rfl
  | succ n ih => exact ih (gprs + 1) _ _

theorem tiles_chunks {parts : List argpart_t} {total : Nat}
    (h : Tiles (off + min size (n * 4)) parts total) : Tiles off (chunks gprs off size n ++ parts) total := by
  induction n generalizing gprs off size with
  | zero =>
      rw [Nat.zero_mul, Nat.min_zero, Nat.add_zero] at h
      exact h
  | succ n ih =>
      rw [chunks, List.cons_append]
      refine .cons rfl (ih (gprs + 1) (off + min size 4) (size - min size 4) ?_)
      have hsum : off + min size 4 + min (size - min size 4) (n * 4) = off + min size ((n + 1) * 4) := by omega
      rw [hsum]
      exact h

theorem width_chunks : ∀ p ∈ chunks gprs off size n, p.size ≤ 4 := by
  induction n generalizing gprs off size with
  | zero => exact fun p hp => absurd hp List.not_mem_nil
  | succ n ih =>
      intro p hp
      rcases List.mem_cons.mp hp with rfl | hp
      · exact Nat.min_le_right _ 4
      · exact ih _ _ _ p hp

theorem tiles_scattered (gprs size : Nat) (off : Int) :
    Tiles 0 (chunks gprs 0 size (chunk_count gprs size) ++
      if (4 - gprs) * 4 < size then [⟨(4 - gprs) * 4, (size - (4 - gprs) * 4) % 2 ^ 16, .stkoff off⟩] else [])
      (min size ((4 - gprs) * 4) + (size - (4 - gprs) * 4) % 2 ^ 16) := by
  have hcount : min size (chunk_count gprs size * 4) = min size ((4 - gprs) * 4) := by
    unfold chunk_count
    omega
  apply tiles_chunks
  rw [hcount, Nat.zero_add]
  by_cases hrest : (4 - gprs) * 4 < size
  · rw [if_pos hrest]
    exact .cons (by dsimp only; omega) (.nil _)
  · rw [if_neg hrest, Nat.sub_eq_zero_of_le (Nat.le_of_not_lt hrest)]
    exact .nil _

theorem stack_offset_spec (pm : nec850_t) (type : tinfo_t) (is_vararg : Bool) (hstk : aa.stkoff % 4 = 0) :
    stack_offset pm aa type is_vararg % 4 = 0 ∧ aa.stkoff ≤ stack_offset pm aa type is_vararg ∧
      stack_offset pm aa type is_vararg < aa.stkoff + 2 ^ 30 := by
  unfold stack_offset
  by_cases halign : AlignsStack pm type is_vararg
  · have hpower : ∃ k ≤ 30, (passed type is_vararg).2 = 2 ^ k := by
      have h4 := halign.1
      unfold passed at h4 ⊢
      split at h4
      · rename_i h
        rw [if_pos h]
        exact ⟨3, by decide, rfl⟩
      · rename_i h
        rw [if_neg h]
        exact type.align_power h4
    obtain ⟨k, hk, heq⟩ := hpower
    have h4 := halign.1
    rw [if_pos halign]
    generalize (passed type is_vararg).2 = a at *
    have hle : a ≤ 2 ^ 30 := heq ▸ Nat.pow_le_pow_right (by decide) hk
    have hdvd : 4 ∣ a := by
      have h2 : 2 ≤ k := by
        by_contra hlt
        have hsmall : k = 0 ∨ k = 1 := by omega
        rcases hsmall with rfl | rfl <;> omega
      rw [heq, show (4 : Nat) = 2 ^ 2 from rfl]
      exact Nat.pow_dvd_pow 2 h2
    obtain ⟨c, rfl⟩ := hdvd
    have hpos : (0 : Int) < ((4 * c : Nat) : Int) := by omega
    have hdiv := Int.emod_add_mul_ediv (aa.stkoff + (((4 * c : Nat) : Int) - 1)) ((4 * c : Nat) : Int)
    have hmod := Int.emod_nonneg (aa.stkoff + (((4 * c : Nat) : Int) - 1)) (Int.ne_of_gt hpos)
    have hlt := Int.emod_lt_of_pos (aa.stkoff + (((4 * c : Nat) : Int) - 1)) hpos
    rw [Int.mul_comm] at hdiv
    refine ⟨?_, by omega, by omega⟩
    rw [Int.natCast_mul, ← Int.mul_assoc, Int.mul_comm _ ((4 : Nat) : Int), Int.mul_assoc]
    exact Int.mul_emod_right _ _
  · rw [if_neg halign]
    exact ⟨hstk, Int.le_refl _, by omega⟩

/-- The invariant of the allocator. -/
structure Inv (aa : arg_allocator_t) : Prop where
  gprs : aa.num_gprs ≤ 4
  stkoff : aa.stkoff % 4 = 0

theorem Inv.next (h : Inv aa) (hpass : Passable pm type is_vararg) : Inv (next pm aa type is_vararg) := by
  obtain ⟨hle, -, -⟩ := ready_le pm type is_vararg h.gprs
  have hchoice := how_choice aa hpass
  rw [NecArgs.next]
  have hstk := h.stkoff
  generalize how pm aa type is_vararg = kind at *
  generalize ready pm aa type is_vararg = aa' at *
  cases hchoice with
  | slot hsmall hfree => exact ⟨by dsimp only; rw [if_pos hsmall]; omega, hstk⟩
  | double_slot hbig hsmall hfree => exact ⟨by dsimp only; rw [if_neg (by omega)]; omega, hstk⟩
  | scattered hfree =>
      refine ⟨?_, ?_⟩
      · dsimp only [chunk_count]
        omega
      · dsimp only [behind]
        split <;> omega
  | stack hfull =>
      refine ⟨hle, ?_⟩
      dsimp only [behind]
      omega

/-- The location of an argument that suits the allocator lies between this allocator and the next one. -/
theorem location_between (h : Inv aa) (hpass : Passable pm type is_vararg) (hsuit : Suits pm aa type is_vararg) :
    Between ((passed type is_vararg).1, location pm aa type is_vararg) (6 + aa.num_gprs) aa.stkoff
      (6 + (next pm aa type is_vararg).num_gprs) (next pm aa type is_vararg).stkoff ∧
    ∀ s ∈ spans ((location pm aa type is_vararg).parts (passed type is_vararg).1), s.1 % 4 = 0 := by
  obtain ⟨-, hge, -⟩ := ready_le pm type is_vararg h.gprs
  obtain ⟨hoff4, hoff, -⟩ := stack_offset_spec pm type is_vararg h.stkoff
  have hchoice := how_choice aa hpass
  obtain ⟨hscattered, hstack⟩ := hsuit
  rw [next, location]
  have hstk := h.stkoff
  generalize how pm aa type is_vararg = kind at *
  generalize ready pm aa type is_vararg = aa' at *
  generalize (passed type is_vararg).1 = size at *
  generalize stack_offset pm aa type is_vararg = off at *
  cases hchoice with
  | slot hsmall hfree =>
      dsimp only
      rw [if_pos hsmall, if_pos hsmall]
      refine ⟨⟨covers_reg1 hsmall _, ?_, fun s hs => absurd hs List.not_mem_nil, by omega, Int.le_refl _⟩,
        fun s hs => absurd hs List.not_mem_nil⟩
      intro x hx
      cases List.mem_singleton.mp hx
      omega
  | double_slot hbig hsmall hfree =>
      dsimp only
      rw [if_neg (by omega), if_neg (by omega)]
      refine ⟨⟨covers_reg2 hsmall _ _, ?_, fun s hs => absurd hs List.not_mem_nil, by omega, Int.le_refl _⟩,
        fun s hs => absurd hs List.not_mem_nil⟩
      intro x hx
      have hx : x ∈ [6 + aa'.num_gprs, 6 + aa'.num_gprs + 1] := hx
      simp only [List.mem_cons, List.not_mem_nil, or_false] at hx
      omega
  | scattered hfree =>
      have hrest := hscattered rfl
      dsimp only
      have hspans : ∀ s ∈ spans (chunks aa'.num_gprs 0 size (chunk_count aa'.num_gprs size) ++
          if (4 - aa'.num_gprs) * 4 < size then
            [⟨(4 - aa'.num_gprs) * 4, (size - (4 - aa'.num_gprs) * 4) % 2 ^ 16, .stkoff aa.stkoff⟩] else []),
          (4 - aa'.num_gprs) * 4 < size ∧ s = (aa.stkoff, (size - (4 - aa'.num_gprs) * 4) % 2 ^ 16) := by
        intro s hs
        rw [spans_append, spans_chunks, List.nil_append] at hs
        split at hs
        · case isTrue hlt => exact ⟨hlt, List.mem_singleton.mp hs⟩
        · cases hs
      refine ⟨⟨?_, ?_, ?_, ?_, ?_⟩, ?_⟩
      · refine (tiles_scattered aa'.num_gprs size aa.stkoff).covers (by omega) ?_
        intro p hp x hx
        rcases List.mem_append.mp hp with hp | hp
        · exact width_chunks _ _ _ _ p hp
        · split at hp
          · cases List.mem_singleton.mp hp
            cases hx
          · cases hp
      · intro x hx
        have hx : x ∈ registers (chunks aa'.num_gprs 0 size (chunk_count aa'.num_gprs size) ++ _) := hx
        rw [registers_append] at hx
        rcases List.mem_append.mp hx with hx | hx
        · have hx := registers_chunks hx
          omega
        · split at hx <;> cases hx
      · intro s hs
        obtain ⟨hlt, rfl⟩ := hspans s hs
        rw [if_pos hlt, behind, to_int_of_lt (by omega)]
        dsimp only
        omega
      · omega
      · split
        · rw [behind, to_int_of_lt (by omega)]
          omega
        · exact Int.le_refl _
      · intro s hs
        obtain ⟨-, rfl⟩ := hspans s hs
        exact hstk
  | stack hfull =>
      have hint := to_int_of_lt (hstack rfl)
      dsimp only [behind]
      rw [hint]
      refine ⟨⟨covers_stkoff size _, fun x hx => absurd hx List.not_mem_nil, ?_, by omega, by omega⟩, ?_⟩
      · intro s hs
        cases List.mem_singleton.mp hs
        dsimp only
        omega
      · intro s hs
        cases List.mem_singleton.mp hs
        exact hoff4

/-! ### The loop -/

theorem flagged_cons (nfixed i : Nat) (fa : funcarg_t) (args : List funcarg_t) :
    flagged nfixed i (fa :: args) = (fa.type, decide (nfixed > 0 ∧ i ≥ nfixed)) :: flagged nfixed (i + 1) args := by
  rw [flagged, List.mapIdx_cons]
  refine congrArg _ (List.mapIdx_eq_mapIdx_iff.mpr fun k hk => ?_)
  rw [Nat.add_right_comm, Nat.add_assoc]

def placements (pm : nec850_t) (aa : arg_allocator_t) : List (tinfo_t × Bool) → List argloc_t
  | [] => []
  | (type, is_vararg) :: args => location pm aa type is_vararg :: placements pm (next pm aa type is_vararg) args

def final (pm : nec850_t) (aa : arg_allocator_t) : List (tinfo_t × Bool) → arg_allocator_t
  | [] => aa
  | (type, is_vararg) :: args => final pm (next pm aa type is_vararg) args

/-- The locations that are written where the pointers are not null. -/
def written (nfixed i : Nat) : List funcarg_t → List argloc_t → List argloc_t
  | fa :: args, loc :: locs =>
    (if nfixed = 0 ∨ decide (nfixed > 0 ∧ i ≥ nfixed) = true then loc else fa.argloc) ::
      written nfixed (i + 1) args locs
  | _, _ => []

theorem alloc_loop_spec (pm : nec850_t) (aa : arg_allocator_t) (h : Inv aa) (nfixed i : Nat) (args : List funcarg_t) :
    (¬ OffsetsFit pm aa (flagged nfixed i args) → alloc_loop pm nfixed aa i args = .error .overflow) ∧
    (OffsetsFit pm aa (flagged nfixed i args) →
      (¬ (∀ t ∈ flagged nfixed i args, Passable pm t.1 t.2) → alloc_loop pm nfixed aa i args = .ok none) ∧
      ((∀ t ∈ flagged nfixed i args, Passable pm t.1 t.2) → alloc_loop pm nfixed aa i args =
        .ok (some (written nfixed i args (placements pm aa (flagged nfixed i args)),
          final pm aa (flagged nfixed i args))))) := by
  induction args generalizing aa i with
  | nil =>
      refine ⟨fun hno => absurd trivial hno, fun _ => ⟨fun hno => ?_, fun _ => rfl⟩⟩
      exact absurd (fun t ht => nomatch ht) hno
  | cons fa args ih =>
      rw [flagged_cons, alloc_loop]
      dsimp only
      obtain ⟨argloc, hargloc⟩ : ∃ argloc, argloc =
        if nfixed = 0 ∨ decide (nfixed > 0 ∧ i ≥ nfixed) = true then some fa.argloc else none := ⟨_, rfl⟩
      rw [← hargloc]
      generalize hflag : decide (nfixed > 0 ∧ i ≥ nfixed) = is_vararg at *
      obtain ⟨hbad, hgood⟩ := calc_argloc_spec pm fa.type is_vararg argloc h.gprs
      rw [OffsetsFit]
      by_cases hpass : Passable pm fa.type is_vararg
      · obtain ⟨hfits, hover⟩ := hgood hpass
        by_cases hoff : OffsetFits pm aa fa.type is_vararg
        · obtain ⟨ihover, ihfits⟩ := ih _ (h.next hpass) (i + 1)
          rw [hfits hoff, ok_bind]
          dsimp only
          by_cases hrest : OffsetsFit pm (next pm aa fa.type is_vararg) (flagged nfixed (i + 1) args)
          · obtain ⟨ihnone, ihsome⟩ := ihfits hrest
            refine ⟨fun hno => absurd (fun _ => ⟨hoff, hrest⟩) hno, fun _ => ⟨fun hno => ?_, fun hall => ?_⟩⟩
            · rw [ihnone fun hall => hno (List.forall_mem_cons.mpr ⟨hpass, hall⟩)]
              rfl
            have hloc : (write argloc (location pm aa fa.type is_vararg)).getD fa.argloc =
                if nfixed = 0 ∨ is_vararg = true then location pm aa fa.type is_vararg else fa.argloc := by
              rw [hargloc]
              split <;> rfl
            rw [ihsome (List.forall_mem_cons.mp hall).2, ok_bind, hloc, placements, written, hflag]
            rfl
          · rw [ihover hrest]
            exact ⟨fun _ => rfl, fun hall => absurd (hall hpass).2 hrest⟩
        · rw [hover hoff, error_bind]
          exact ⟨fun _ => rfl, fun hall => absurd (hall hpass).1 hoff⟩
      · rw [hbad hpass, ok_bind]
        refine ⟨fun hno => absurd (fun hp => absurd hp hpass) hno, fun _ => ⟨fun _ => rfl, fun hall => ?_⟩⟩
        exact absurd (hall _ List.mem_cons_self) hpass

theorem written_all (i : Nat) (args : List funcarg_t) (locs : List argloc_t) (hlen : locs.length = args.length) :
    written 0 i args locs = locs := by
  induction args generalizing i locs with
  | nil => exact (List.eq_nil_of_length_eq_zero hlen).symm
  | cons fa args ih =>
      cases locs with
      | nil => cases hlen
      | cons loc locs =>
          rw [written, if_pos (Or.inl rfl), ih (i + 1) locs (Nat.succ.inj hlen)]

theorem written_fixed {nfixed : Nat} (hpos : 0 < nfixed) (i : Nat) (args : List funcarg_t) (locs : List argloc_t)
    (hlen : locs.length = args.length) :
    written nfixed i args locs = (args.map funcarg_t.argloc).take (nfixed - i) ++ locs.drop (nfixed - i) := by
  induction args generalizing i locs with
  | nil =>
      rw [List.eq_nil_of_length_eq_zero hlen]
      simp [written]
  | cons fa args ih =>
      cases locs with
      | nil => cases hlen
      | cons loc locs =>
          rw [written, ih (i + 1) locs (Nat.succ.inj hlen), List.map_cons]
          by_cases hfixed : i ≥ nfixed
          · have hzero : nfixed - i = 0 := by omega
            have hzero' : nfixed - (i + 1) = 0 := by omega
            rw [if_pos (Or.inr (decide_eq_true ⟨hpos, hfixed⟩)), hzero, hzero']
            rfl
          · obtain ⟨k, hk⟩ : ∃ k, nfixed - i = k + 1 := ⟨nfixed - i - 1, by omega⟩
            have hk' : nfixed - (i + 1) = k := by omega
            rw [if_neg, hk, hk', List.take_succ_cons, List.drop_succ_cons]
            · rfl
            · rintro (h | h)
              · omega
              · exact hfixed (of_decide_eq_true h).2

theorem placements_length (aa : arg_allocator_t) (args : List (tinfo_t × Bool)) :
    (placements pm aa args).length = args.length := by
  induction args generalizing aa with
  | nil => rfl
  | cons t args ih => exact congrArg Nat.succ (ih _)

theorem placements_take (aa : arg_allocator_t) (args : List (tinfo_t × Bool)) (n : Nat) :
    placements pm aa (args.take n) = (placements pm aa args).take n := by
  induction args generalizing aa n with
  | nil => rw [List.take_nil, placements, List.take_nil]
  | cons t args ih =>
      cases n with
      | zero => rfl
      | succ n => exact congrArg _ (ih _ n)

theorem offsetsFit_take (aa : arg_allocator_t) (args : List (tinfo_t × Bool)) (n : Nat) (h : OffsetsFit pm aa args) :
    OffsetsFit pm aa (args.take n) := by
  induction args generalizing aa n with
  | nil =>
      rw [List.take_nil]
      trivial
  | cons t args ih =>
      cases n with
      | zero => trivial
      | succ n => exact fun hpass => ⟨(h hpass).1, ih _ n (h hpass).2⟩

theorem flagged_take (nfixed : Nat) (args : List funcarg_t) :
    flagged 0 0 (args.take nfixed) = (flagged nfixed 0 args).take nfixed := by
  refine List.ext_getElem ?_ fun k hk hk' => ?_
  · rw [flagged, flagged, List.length_mapIdx, List.length_take, List.length_take, List.length_mapIdx]
  simp only [flagged, List.getElem_mapIdx, List.getElem_take, Nat.zero_add]
  have hlt : k < nfixed := by
    rw [List.length_take] at hk'
    omega
  rw [decide_eq_false (by omega), decide_eq_false (by omega)]

/-! ### The converse -/

theorem final_lt {b n : Int} (h : Inv aa) (hfull : aa.num_gprs = 4) (args : List (tinfo_t × Bool))
    (hpass : ∀ t ∈ args, Passable pm t.1 t.2) (hb : b % 4 = 0) (hn : 2 ^ 30 ≤ n) (hlow : aa.stkoff + 2 ^ 30 ≤ b + n)
    (hclear : ∀ a ∈ (sizes args).zip (placements pm aa args), ∀ s ∈ spans (a.2.parts a.1),
      b + n ≤ s.1 ∨ s.1 + s.2 ≤ b) : (final pm aa args).stkoff < b + n := by
  induction args generalizing aa with
  | nil =>
      rw [final]
      omega
  | cons t args ih =>
      obtain ⟨type, is_vararg⟩ := t
      obtain ⟨hp, hpass⟩ := List.forall_mem_cons.mp hpass
      have hp : Passable pm type is_vararg := hp
      obtain ⟨hle, hge, -⟩ := ready_le pm type is_vararg h.gprs
      obtain ⟨-, -, hoff⟩ := stack_offset_spec pm type is_vararg h.stkoff
      have hstack : how pm aa type is_vararg = .ON_STACK := by
        have hchoice := how_choice aa hp
        generalize how pm aa type is_vararg = kind at *
        cases hchoice with
        | slot hsmall hfree => omega
        | double_slot hbig hsmall hfree => omega
        | scattered hfree => omega
        | stack hfree => rfl
      have hlocation : location pm aa type is_vararg = .stkoff (stack_offset pm aa type is_vararg) := by
        rw [location, hstack]
      have hnext : next pm aa type is_vararg = ⟨(ready pm aa type is_vararg).num_gprs,
          behind (stack_offset pm aa type is_vararg) (passed type is_vararg).1⟩ := by
        rw [next, hstack]
      obtain ⟨hhead, htail⟩ := List.forall_mem_cons.mp hclear
      have hspan := hhead (stack_offset pm aa type is_vararg, (passed type is_vararg).1) (by
        dsimp only
        rw [hlocation]
        exact List.mem_cons_self)
      dsimp only at hspan
      have hint := to_int_le (passed type is_vararg).1
      refine ih (h.next hp) ?_ hpass ?_ htail
      · rw [hnext]
        dsimp only
        omega
      · rw [hnext]
        dsimp only [behind]
        omega

theorem suits_of_sound (h : Inv aa) (args : List (tinfo_t × Bool)) (hpass : ∀ t ∈ args, Passable pm t.1 t.2)
    (hsound : Sound 6 10 (final pm aa args).stkoff ((sizes args).zip (placements pm aa args))) :
    AllSuit pm aa args := by
  induction args generalizing aa with
  | nil => trivial
  | cons t args ih =>
      obtain ⟨type, is_vararg⟩ := t
      obtain ⟨hp, hpass⟩ := List.forall_mem_cons.mp hpass
      have hp : Passable pm type is_vararg := hp
      have hlist : (sizes ((type, is_vararg) :: args)).zip (placements pm aa ((type, is_vararg) :: args)) =
          ((passed type is_vararg).1, location pm aa type is_vararg) ::
            (sizes args).zip (placements pm (next pm aa type is_vararg) args) := rfl
      rw [hlist] at hsound
      have htail : Sound 6 10 (final pm (next pm aa type is_vararg) args).stkoff
          ((sizes args).zip (placements pm (next pm aa type is_vararg) args)) :=
        { covers := fun a ha => hsound.covers a (List.mem_cons_of_mem _ ha)
          allowed := fun a ha => hsound.allowed a (List.mem_cons_of_mem _ ha)
          apart := hsound.apart.of_cons
          clear := hsound.clear.of_cons
          inside := fun a ha => hsound.inside a (List.mem_cons_of_mem _ ha) }
      refine ⟨⟨fun hkind => ?_, fun hkind => ?_⟩, ih (h.next hp) hpass htail⟩
      · have hcovers := hsound.covers _ List.mem_cons_self
        rw [location, hkind] at hcovers
        have hle := le_of_tiles (tiles_scattered _ _ _) hcovers
        omega
      · by_contra hbig
        obtain ⟨hle, -, -⟩ := ready_le pm type is_vararg h.gprs
        obtain ⟨hoff4, -, -⟩ := stack_offset_spec pm type is_vararg h.stkoff
        have hfull : (ready pm aa type is_vararg).num_gprs = 4 := by
          have hchoice := how_choice aa hp
          rw [hkind] at hchoice
          cases hchoice
          omega
        have hmem : (stack_offset pm aa type is_vararg, (passed type is_vararg).1) ∈
            spans ((location pm aa type is_vararg).parts (passed type is_vararg).1) := by
          rw [location, hkind]
          exact List.mem_cons_self
        have hinside := hsound.inside _ List.mem_cons_self _ hmem
        have hlt := final_lt (b := stack_offset pm aa type is_vararg) (n := (passed type is_vararg).1)
          (h.next hp) (by rw [next, hkind]; exact hfull) args hpass hoff4 (by omega) (by
            rw [next, hkind]
            dsimp only [behind, to_int]
            split <;> omega)
          fun a ha s hs => (List.pairwise_cons.mp hsound.clear).1 a ha _ hmem s hs
        have hfinal : (final pm aa ((type, is_vararg) :: args)).stkoff =
            (final pm (next pm aa type is_vararg) args).stkoff := rfl
        rw [hfinal] at hinside
        dsimp only at hinside
        omega

theorem upwards_of_suits (h : Inv aa) (args : List (tinfo_t × Bool)) (hpass : ∀ t ∈ args, Passable pm t.1 t.2)
    (hsuit : AllSuit pm aa args) :
    Upwards (6 + aa.num_gprs) aa.stkoff ((sizes args).zip (placements pm aa args)) (6 + (final pm aa args).num_gprs)
      (final pm aa args).stkoff ∧ Inv (final pm aa args) ∧ StackAligned ((sizes args).zip (placements pm aa args)) := by
  induction args generalizing aa with
  | nil => exact ⟨.nil _ _, h, fun a ha => nomatch ha⟩
  | cons t args ih =>
      obtain ⟨type, is_vararg⟩ := t
      obtain ⟨hp, hpass⟩ := List.forall_mem_cons.mp hpass
      obtain ⟨hup, hinv, haligned⟩ := ih (h.next hp) hpass hsuit.2
      obtain ⟨hbetween, hspans⟩ := location_between h hp hsuit.1
      exact ⟨.cons hbetween hup, hinv, List.forall_mem_cons.mpr ⟨hspans, haligned⟩⟩

/-! ### The whole allocation -/

theorem right_iff (nfixed : Nat) (args : List funcarg_t)
    (hpass : ∀ t ∈ flagged nfixed 0 args, Passable pm t.1 t.2) :
    Right nfixed args (placements pm ⟨0, 0⟩ (flagged nfixed 0 args)) (final pm ⟨0, 0⟩ (flagged nfixed 0 args)).stkoff ↔
      AllSuit pm ⟨0, 0⟩ (flagged nfixed 0 args) := by
  have hinv : Inv ⟨0, 0⟩ := ⟨Nat.zero_le 4, rfl⟩
  constructor
  · rintro ⟨-, hsound, -⟩
    exact suits_of_sound hinv _ hpass hsound
  · intro hsuit
    obtain ⟨hup, hfinal, haligned⟩ := upwards_of_suits hinv _ hpass hsuit
    refine ⟨?_, hup.sound (Nat.le_refl 6) (Nat.add_le_add_left hfinal.gprs 6) (Int.le_refl 0), haligned⟩
    rw [placements_length, flagged, List.length_mapIdx]

variable {retloc : argloc_t}

variable (fti : func_type_data_t)

theorem calc_nec850_arglocs_eq (nfixed : Nat)
    (hret : calc_nec850_retloc pm fti.retloc fti.rettype = some retloc)
    (hfits : OffsetsFit pm ⟨0, 0⟩ (flagged nfixed 0 fti.args))
    (hpass : ∀ t ∈ flagged nfixed 0 fti.args, Passable pm t.1 t.2) :
    calc_nec850_arglocs pm fti nfixed = .ok (some ⟨retloc,
      written nfixed 0 fti.args (placements pm ⟨0, 0⟩ (flagged nfixed 0 fti.args)),
      (final pm ⟨0, 0⟩ (flagged nfixed 0 fti.args)).stkoff⟩) := by
  have hspec := alloc_loop_spec pm ⟨0, 0⟩ ⟨Nat.zero_le 4, rfl⟩ nfixed 0 fti.args
  rw [calc_nec850_arglocs, hret]
  dsimp only
  rw [(hspec.2 hfits).2 hpass]
  rfl

theorem written_split {nfixed : Nat} (hpos : 0 < nfixed) (args : List funcarg_t) (locs : List argloc_t)
    (hlen : locs.length = args.length) :
    (written nfixed 0 args locs).take nfixed = (args.map funcarg_t.argloc).take nfixed ∧
      (written nfixed 0 args locs).drop nfixed = locs.drop nfixed := by
  rw [written_fixed hpos 0 args locs hlen, Nat.sub_zero]
  by_cases hall : nfixed ≤ args.length
  · have htake : ((args.map funcarg_t.argloc).take nfixed).length = nfixed := by
      rw [List.length_take, List.length_map, Nat.min_eq_left hall]
    exact ⟨List.take_left' htake, List.drop_left' htake⟩
  · have hdrop : locs.drop nfixed = [] := List.drop_eq_nil_of_le (by omega)
    rw [hdrop, List.append_nil, List.take_take, Nat.min_self]
    exact ⟨rfl, List.drop_eq_nil_of_le (by rw [List.length_take]; omega)⟩

theorem fixed_run (nfixed : Nat)
    (hret : calc_nec850_retloc pm fti.retloc fti.rettype = some retloc)
    (hfits : OffsetsFit pm ⟨0, 0⟩ (flagged nfixed 0 fti.args))
    (hpass : ∀ t ∈ flagged nfixed 0 fti.args, Passable pm t.1 t.2) :
    ∃ stkargs, calc_nec850_arglocs pm { fti with args := fti.args.take nfixed } 0 =
      .ok (some ⟨retloc, (placements pm ⟨0, 0⟩ (flagged nfixed 0 fti.args)).take nfixed, stkargs⟩) := by
  have hflags := flagged_take nfixed fti.args
  have heq := calc_nec850_arglocs_eq { fti with args := fti.args.take nfixed } 0 hret
    (by dsimp only; rw [hflags]; exact offsetsFit_take _ _ _ hfits)
    (by dsimp only; rw [hflags]; exact fun t ht => hpass t (List.mem_of_mem_take ht))
  dsimp only at heq
  rw [hflags, placements_take, written_all] at heq
  · exact ⟨_, heq⟩
  · rw [List.length_take, List.length_take, placements_length, flagged, List.length_mapIdx]

theorem meets_iff_right (nfixed : Nat)
    (hret : calc_nec850_retloc pm fti.retloc fti.rettype = some retloc)
    (hfits : OffsetsFit pm ⟨0, 0⟩ (flagged nfixed 0 fti.args))
    (hpass : ∀ t ∈ flagged nfixed 0 fti.args, Passable pm t.1 t.2) :
    Meets pm fti nfixed ↔ Right nfixed fti.args (placements pm ⟨0, 0⟩ (flagged nfixed 0 fti.args))
      (final pm ⟨0, 0⟩ (flagged nfixed 0 fti.args)).stkoff := by
  have heq := calc_nec850_arglocs_eq fti nfixed hret hfits hpass
  have hlen : (placements pm ⟨0, 0⟩ (flagged nfixed 0 fti.args)).length = fti.args.length := by
    rw [placements_length, flagged, List.length_mapIdx]
  rw [Meets, heq]
  by_cases hzero : nfixed = 0
  · subst hzero
    rw [written_all 0 fti.args _ hlen]
    constructor
    · rintro ⟨result, hresult, hmeets⟩
      cases hresult
      exact hmeets _ rfl
    · intro hright
      exact ⟨_, rfl, fun allocated h => by cases h; exact hright⟩
  · obtain ⟨htake, hdrop⟩ := written_split (Nat.pos_of_ne_zero hzero) fti.args _ hlen
    obtain ⟨stkargs, hfixed⟩ := fixed_run fti nfixed hret hfits hpass
    constructor
    · rintro ⟨result, hresult, hmeets⟩
      cases hresult
      have hmeets := hmeets _ rfl
      rw [if_neg hzero, hfixed] at hmeets
      obtain ⟨-, fixed, hrun, hright⟩ := hmeets
      cases hrun
      rwa [hdrop, List.take_append_drop] at hright
    · intro hright
      refine ⟨_, rfl, fun allocated h => ?_⟩
      cases h
      rw [if_neg hzero]
      refine ⟨htake, _, hfixed, ?_⟩
      rw [hdrop, List.take_append_drop]
      exact hright

def large_type : tinfo_t := ⟨false, true, false, 65552, 4, nofun, fun h => absurd h (by decide)⟩

/-- A function that returns nothing and has one argument of this type. -/
def large_structure : func_type_data_t where
  retloc := .badloc
  rettype := ⟨true, false, false, false, 0⟩
  args := [⟨.badloc, large_type⟩]

end IdaSdk.NecArgs
