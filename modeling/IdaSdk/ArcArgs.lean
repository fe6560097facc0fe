import IdaSdk.Argloc

/-!
The locations of the arguments of an ARC function. Arguments of up to 16 bytes take registers as long as there are some,
the others go to the stack; an argument that needs more registers than are left is put in part on the stack.
-/

namespace IdaSdk.ArcArgs
open Argloc

/-! ### The code -/

/-- The registers for arguments, `R0` to `R7`. The code has a `-1` behind them, which `qnumber` counts. -/
def rv_arc : List Nat := [0, 1, 2, 3, 4, 5, 6, 7]

def argreg (r : Nat) : Nat := rv_arc.getD r 0xFFFF

/-- A value for an `sval_t`, which is not negative here. -/
def sval (x : Nat) : Except Failure Nat := if x < 2 ^ 63 then .ok x else .error .overflow

def align_up4 (size : Nat) : Nat := (size + 3) % 2 ^ 64 / 4 * 4

def reg_parts (r off size : Nat) : Nat → List argpart_t
  | 0 => []
  | nregs + 1 => ⟨off, min size 4, .reg1 (argreg r)⟩ :: reg_parts (r + 1) (off + 4) (size - 4) nregs

def add_argregs (r nregs : Nat) (size : Int) (force_scattered : Bool) : Except Failure argloc_t :=
  if ¬ size > ((nregs : Int) - 1) * 4 then .error (.interr 10306)
  else if ¬ r + nregs < 9 then .error (.interr 10307)
  else if force_scattered = true ∨ nregs ≥ 2 ∧ size ≠ 8 then .ok (.scattered (reg_parts r 0 size.toNat nregs))
  else if size = 8 then .ok (.reg2 (argreg r) (argreg (r + 1)))
  else .ok (.reg1 (argreg r))

/-- What is read of the type of the result. -/
structure rettype_t where
  is_void : Bool
  is_floating : Bool
  size : Nat

variable (rettype : rettype_t)

/-- `calc_arc_retloc`; there is no location if it fails. The number of registers is compared as a `size_t`. -/
def calc_arc_retloc : Except Failure (Option argloc_t) :=
  if rettype.is_void then .ok (some .badloc)
  else if to_int rettype.size + 3 ≥ 2 ^ 31 then .error .overflow
  else
    let nregs := (to_int rettype.size + 3).tdiv 4
    if nregs < 0 ∨ nregs ≥ 9 then .ok none
    else (add_argregs 0 nregs.toNat (to_int rettype.size) false).map some

/-- What is read of an argument: whether its type is empty, the size and the alignment of the type, and the stack offset
of the old location. -/
structure funcarg_t where
  empty : Bool
  size : Nat
  align : Nat
  stkoff : Nat

structure func_type_data_t where
  rettype : rettype_t
  args : List funcarg_t

/-- The size and the alignment for the argument number `i`. -/
def size_align (nfixed : Int) (i : Nat) (fa : funcarg_t) : Nat × Nat :=
  let (size, align) :=
    if fa.empty = true ∧ (i : Int) ≥ nfixed then (fa.stkoff, fa.stkoff % 2 ^ 32) else (fa.size, fa.align)
  if size = 8 ∧ align > 4 then (size, 4) else (size, align)

/-- One pass of the loop for an argument with a size. -/
def alloc_arg (r spoff size align : Nat) : Except Failure (argloc_t × Nat × Nat) :=
  let asize := align_up4 size
  if r < 8 ∧ asize ≤ 16 then
    let nregs := (asize + 3) / 4
    if nregs = 1 then .ok (.reg1 (argreg r), r + nregs, spoff)
    else if r + nregs ≤ 8 then do
      return (← add_argregs r nregs asize false, r + nregs, spoff)
    else do
      let nr := 8 - r
      let scloc := (← add_argregs r nr (nr * 4 : Nat) true).parts asize
      let stksize := asize - nr * 4
      let spoff ← sval (spoff + (stksize + 3) / 4 * 4)
      return (.scattered (scloc ++ [⟨nr * 4, stksize, .stkoff 0⟩]), r + nregs, spoff)
  else do
    let off ← if align > 4 then sval ((spoff + 7) / 8 * 8) else .ok spoff
    let spoff ← sval (off + asize)
    return (.stkoff off, r, spoff)

/-- The loop of `alloc_args`; there are no locations if an argument has no size. -/
def alloc_loop (r spoff : Nat) : List (Nat × Nat) → Except Failure (Option (List argloc_t × Nat))
  | [] => .ok (some ([], spoff))
  | (size, align) :: items =>
    if size = BADSIZE then .ok none
    else do
      let (argloc, r, spoff) ← alloc_arg r spoff size align
      let rest ← alloc_loop r spoff items
      return rest.map fun (locs, stkargs) => (argloc :: locs, stkargs)

def hidden_result : Bool :=
  rettype.size ≠ BADSIZE && rettype.size > 8 && !rettype.is_floating

/-- What `alloc_args` sets. -/
structure allocated_t where
  retloc : argloc_t
  arglocs : List argloc_t
  stkargs : Nat

variable (fti : func_type_data_t)

def alloc_args (nfixed : Int) : Except Failure (Option allocated_t) := do
  match ← calc_arc_retloc fti.rettype with
  | none => return none
  | some retloc =>
    let rest ← alloc_loop (if hidden_result fti.rettype then 1 else 0) 0 (fti.args.mapIdx (size_align nfixed))
    return rest.map fun (arglocs, stkargs) => { retloc, arglocs, stkargs }

/-! ### One argument -/

variable {r : Nat}

theorem argreg_eq (h : r < 8) : argreg r = r := by
  have hall : ∀ r < 8, argreg r = r := by decide
  exact hall r h

/-- The stack offset of an argument that is wholly on the stack. -/
def stack_offset (spoff align : Nat) : Nat := if align > 4 then (spoff + 7) / 8 * 8 else spoff

/-- The registers that are taken and the stack offset after an argument. -/
def next (r spoff size align : Nat) : Nat × Nat :=
  if r < 8 ∧ align_up4 size ≤ 16 then
    (r + align_up4 size / 4,
      if r + align_up4 size / 4 ≤ 8 then spoff else spoff + (align_up4 size - (8 - r) * 4))
  else (r, stack_offset spoff align + align_up4 size)

/-- The location of an argument. -/
def location (r spoff size align : Nat) : argloc_t :=
  if r < 8 ∧ align_up4 size ≤ 16 then
    if align_up4 size ≤ 4 then .reg1 r
    else if 8 < r + align_up4 size / 4 then
      .scattered (reg_parts r 0 ((8 - r) * 4) (8 - r) ++
        [⟨(8 - r) * 4, align_up4 size - (8 - r) * 4, .stkoff 0⟩])
    else if align_up4 size = 8 then .reg2 r (r + 1)
    else .scattered (reg_parts r 0 (align_up4 size) (align_up4 size / 4))
  else .stkoff (stack_offset spoff align)

theorem align_up4_mod (size : Nat) : align_up4 size % 4 = 0 := Nat.mul_mod_left _ 4

theorem add_argregs_eq {nregs : Nat} (hr : r + nregs ≤ 8) :
    add_argregs r nregs (nregs * 4 : Nat) false =
      if nregs ≥ 2 ∧ nregs ≠ 2 then .ok (.scattered (reg_parts r 0 (nregs * 4) nregs))
      else if nregs = 2 then .ok (.reg2 (argreg r) (argreg (r + 1)))
      else .ok (.reg1 (argreg r)) := by
  have h8 : (((nregs * 4 : Nat) : Int) = 8) ↔ nregs = 2 := by omega
  rw [add_argregs, if_neg (by omega), if_neg (by omega), Int.toNat_natCast]
  simp only [ne_eq, h8, Bool.false_eq_true, false_or]

theorem add_argregs_forced {nregs : Nat} (hr : r + nregs ≤ 8) :
    add_argregs r nregs (nregs * 4 : Nat) true = .ok (.scattered (reg_parts r 0 (nregs * 4) nregs)) := by
  rw [add_argregs, if_neg (by omega), if_neg (by omega), if_pos (Or.inl rfl), Int.toNat_natCast]

theorem sval_eq (x : Nat) : sval x = if x < 2 ^ 63 then .ok x else .error .overflow := rfl

theorem alloc_arg_eq (r spoff size align : Nat) (hspoff : spoff < 2 ^ 63) :
    alloc_arg r spoff size align =
      if (next r spoff size align).2 < 2 ^ 63 then
        .ok (location r spoff size align, (next r spoff size align).1, (next r spoff size align).2)
      else .error .overflow := by
  have hmod := align_up4_mod size
  unfold alloc_arg next location
  generalize align_up4 size = s at *
  obtain ⟨n, rfl⟩ : ∃ n, s = n * 4 := ⟨s / 4, by omega⟩
  have hnregs : (n * 4 + 3) / 4 = n := by omega
  have hwords : n * 4 / 4 = n := by omega
  by_cases hreg : r < 8 ∧ n * 4 ≤ 16
  · dsimp only
    rw [if_pos hreg, if_pos hreg, if_pos hreg, hnregs, hwords]
    by_cases hone : n = 1
    · have hfit : r + n ≤ 8 := by omega
      rw [if_pos hone, if_pos hfit, if_pos hspoff, if_pos (by omega), argreg_eq hreg.1]
    rw [if_neg hone]
    by_cases hfit : r + n ≤ 8
    · rw [if_pos hfit, if_pos hfit, if_pos hspoff, add_argregs_eq hfit]
      by_cases hzero : n = 0
      · rw [if_neg (by omega), if_neg (by omega), if_pos (by omega), argreg_eq hreg.1]
        rfl
      rw [if_neg (show ¬ n * 4 ≤ 4 by omega), if_neg (show ¬ 8 < r + n by omega)]
      by_cases htwo : n = 2
      · rw [if_neg (by omega), if_pos htwo, if_pos (by omega), argreg_eq hreg.1, argreg_eq (by omega)]
        rfl
      · rw [if_pos (by omega), if_neg (by omega)]
        rfl
    · have hstk : (n * 4 - (8 - r) * 4 + 3) / 4 * 4 = n * 4 - (8 - r) * 4 := by omega
      rw [if_neg hfit, if_neg hfit, add_argregs_forced (by omega), ok_bind, hstk, sval_eq,
        if_neg (show ¬ n * 4 ≤ 4 by omega), if_pos (Nat.lt_of_not_le hfit)]
      by_cases hlt : spoff + (n * 4 - (8 - r) * 4) < 2 ^ 63
      · rw [if_pos hlt, if_pos hlt]
        rfl
      · rw [if_neg hlt, if_neg hlt]
        rfl
  · dsimp only
    rw [if_neg hreg, if_neg hreg, if_neg hreg, stack_offset]
    by_cases halign : align > 4
    · rw [if_pos halign, if_pos halign, sval_eq]
      by_cases hoff : (spoff + 7) / 8 * 8 < 2 ^ 63
      · rw [if_pos hoff, ok_bind, sval_eq]
        by_cases hlt : (spoff + 7) / 8 * 8 + n * 4 < 2 ^ 63
        · rw [if_pos hlt, if_pos hlt]
          rfl
        · rw [if_neg hlt, if_neg hlt]
          rfl
      · rw [if_neg hoff, if_neg (by omega)]
        rfl
    · rw [if_neg halign, if_neg halign, ok_bind, sval_eq]
      by_cases hlt : spoff + n * 4 < 2 ^ 63
      · rw [if_pos hlt, if_pos hlt]
        rfl
      · rw [if_neg hlt, if_neg hlt]
        rfl

def first : Nat := if hidden_result fti.rettype then 1 else 0

def items (nfixed : Int) : List (Nat × Nat) := fti.args.mapIdx (size_align nfixed)

/-- No assertion fails, and locations that are found are right. -/
def Meets (nfixed : Int) : Prop :=
  ∃ result, alloc_args fti nfixed = .ok result ∧ ∀ allocated, result = some allocated →
    allocated.arglocs.length = fti.args.length ∧
    Sound (first fti) 8 allocated.stkargs (((items fti nfixed).map Prod.fst).zip allocated.arglocs)

/-- The size of the result, as an `int`, passes the first assertion, and adding 3 does not overflow. -/
def ResultFits : Prop :=
  rettype.is_void = true ∨ to_int rettype.size + 3 < 2 ^ 31 ∧ ¬ (-6 ≤ to_int rettype.size ∧ to_int rettype.size ≤ -4)

def ResultPlaced : Prop :=
  rettype.is_void = true ∨ -3 ≤ to_int rettype.size ∧ to_int rettype.size ≤ 32

/-- The stack offset stays in its type up to the first argument without a size. -/
def OffsetFits (r spoff : Nat) : List (Nat × Nat) → Prop
  | [] => True
  | (size, align) :: items =>
    size = BADSIZE ∨ (next r spoff size align).2 < 2 ^ 63 ∧
      OffsetFits (next r spoff size align).1 (next r spoff size align).2 items

/-- Rounding up the size does not wrap; an argument for the registers does not find the next register named in the
location of an empty argument, and if it needs more registers than there are, then nothing is on the stack yet. -/
def Suits (r spoff : Nat) (named : Bool) (size : Nat) : Prop :=
  size + 3 < 2 ^ 64 ∧ (r < 8 → size ≤ 16 → named = false ∧ (8 < r + (size + 3) / 4 → spoff = 0))

/-- Each argument suits the state before it. -/
def AllSuit (r spoff : Nat) (named : Bool) : List (Nat × Nat) → Prop
  | [] => True
  | (size, align) :: items =>
    Suits r spoff named size ∧
      AllSuit (next r spoff size align).1 (next r spoff size align).2
        (if r < 8 ∧ size ≤ 16 then decide (size = 0) else named) items

/-! ### One location -/

def cursor (r : Nat) (named : Bool) : Nat := min 8 (if named then r + 1 else r)

variable {size : Nat}

theorem mem_registers_reg_parts {off n x : Nat} (hr : r + n ≤ 8) (h : x ∈ registers (reg_parts r off size n)) :
    r ≤ x ∧ x < r + n := by
  induction n generalizing r off size with
  | zero => cases h
  | succ n ih =>
      have hcons : registers (reg_parts r off size (n + 1)) =
          argreg r :: registers (reg_parts (r + 1) (off + 4) (size - 4) n) := rfl
      rw [hcons, argreg_eq (by omega)] at h
      rcases List.mem_cons.mp h with rfl | h
      · omega
      · have hrest := ih (by omega) h
        omega

theorem spans_reg_parts (r off size n : Nat) : spans (reg_parts r off size n) = [] := by
  induction n generalizing r off size with
  | zero => rfl
  | succ n ih => exact ih (r + 1) (off + 4) (size - 4)

theorem tiles_reg_parts {parts : List argpart_t} {total : Nat} (r off n : Nat) (h : Tiles (off + n * 4) parts total) :
    Tiles off (reg_parts r off (n * 4) n ++ parts) total := by
  induction n generalizing r off with
  | zero =>
      rw [Nat.zero_mul, Nat.add_zero] at h
      exact h
  | succ n ih =>
      have hsize : (n + 1) * 4 - 4 = n * 4 := by omega
      rw [reg_parts, hsize, List.cons_append]
      refine .cons rfl ?_
      dsimp only
      rw [Nat.min_eq_right (by omega)]
      refine ih (r + 1) (off + 4) ?_
      rw [show off + 4 + n * 4 = off + (n + 1) * 4 by omega]
      exact h

theorem width_reg_parts (r off size n : Nat) : ∀ p ∈ reg_parts r off size n, p.size ≤ 4 := by
  induction n generalizing r off size with
  | zero => exact fun p hp => absurd hp List.not_mem_nil
  | succ n ih =>
      intro p hp
      rcases List.mem_cons.mp hp with rfl | hp
      · exact Nat.min_le_right _ 4
      · exact ih _ _ _ p hp

theorem align_up4_eq (h : size + 3 < 2 ^ 64) : align_up4 size = (size + 3) / 4 * 4 := by
  rw [align_up4, Nat.mod_eq_of_lt h]

theorem le_stack_offset (spoff align : Nat) : spoff ≤ stack_offset spoff align := by
  unfold stack_offset
  split <;> omega

variable {align : Nat}

/-- The location of an argument that suits the state lies between this state and the next one. -/
theorem location_between {spoff : Nat} {named : Bool} (hsuit : Suits r spoff named size) :
    Between (size, location r spoff size align) (cursor r named) spoff
      (cursor (next r spoff size align).1 (if r < 8 ∧ size ≤ 16 then decide (size = 0) else named))
      (next r spoff size align).2 := by
  obtain ⟨hfit, hreg⟩ := hsuit
  obtain ⟨n, hn⟩ : ∃ n, n = (size + 3) / 4 := ⟨_, rfl⟩
  have hround : align_up4 size = n * 4 := hn ▸ align_up4_eq hfit
  have hwords : n * 4 / 4 = n := Nat.mul_div_cancel n (by decide)
  rw [next, location, hround, hwords]
  by_cases hinreg : r < 8 ∧ size ≤ 16
  · obtain ⟨rfl, hsplit⟩ := hreg hinreg.1 hinreg.2
    have hinreg' : r < 8 ∧ n * 4 ≤ 16 := ⟨hinreg.1, by omega⟩
    rw [if_pos hinreg', if_pos hinreg', if_pos hinreg]
    dsimp only
    have hcursor : cursor r false = r := Nat.min_eq_right (Nat.le_of_lt hinreg.1)
    rw [hcursor]
    by_cases hone : n * 4 ≤ 4
    · have hnext : cursor (r + n) (decide (size = 0)) = r + 1 := by
        unfold cursor
        by_cases hzero : size = 0
        · rw [decide_eq_true hzero, if_pos rfl]
          omega
        · rw [decide_eq_false hzero, if_neg Bool.false_ne_true]
          omega
      rw [if_pos hone, if_pos (by omega), hnext]
      refine ⟨covers_reg1 (by omega) r, ?_, fun s hs => absurd hs List.not_mem_nil, Nat.le_succ r, Int.le_refl _⟩
      intro x hx
      cases List.mem_singleton.mp hx
      exact ⟨Nat.le_refl r, Nat.lt_succ_self r⟩
    · have hnext : cursor (r + n) (decide (size = 0)) = min 8 (r + n) := by
        rw [cursor, decide_eq_false (by omega), if_neg Bool.false_ne_true]
      rw [if_neg hone, hnext]
      by_cases hover : 8 < r + n
      · have hspoff : spoff = 0 := hsplit (hn ▸ hover)
        have htotal : 0 + (8 - r) * 4 + (n * 4 - (8 - r) * 4) = n * 4 := by omega
        rw [if_pos hover, if_neg (Nat.not_le.mpr hover), hspoff]
        refine ⟨?_, ?_, ?_, by omega, by omega⟩
        · refine Tiles.covers (tiles_reg_parts r 0 (8 - r) (.cons (by rw [Nat.zero_add]) (.nil _))) ?_ ?_
          · dsimp only
            omega
          intro p hp x hx
          rcases List.mem_append.mp hp with hp | hp
          · exact width_reg_parts _ _ _ _ p hp
          · cases List.mem_singleton.mp hp
            cases hx
        · intro x hx
          change x ∈ registers (reg_parts r 0 ((8 - r) * 4) (8 - r) ++ _) at hx
          rw [registers_append] at hx
          rcases List.mem_append.mp hx with hx | hx
          · have hx := mem_registers_reg_parts (by omega) hx
            omega
          · cases hx
        · intro s hs
          change s ∈ spans (reg_parts r 0 ((8 - r) * 4) (8 - r) ++ _) at hs
          rw [spans_append, spans_reg_parts, List.nil_append] at hs
          cases List.mem_singleton.mp hs
          dsimp only
          omega
      · rw [if_neg hover, if_pos (Nat.le_of_not_lt hover)]
        by_cases htwo : n * 4 = 8
        · rw [if_pos htwo]
          refine ⟨covers_reg2 (by omega) r (r + 1), ?_, fun s hs => absurd hs List.not_mem_nil, by omega, Int.le_refl _⟩
          intro x hx
          have hx : x ∈ [r, r + 1] := hx
          simp only [List.mem_cons, List.not_mem_nil, or_false] at hx
          omega
        · rw [if_neg htwo]
          refine ⟨?_, ?_, ?_, by omega, Int.le_refl _⟩
          · have htiles := tiles_reg_parts r 0 n (.nil _)
            rw [List.append_nil] at htiles
            exact htiles.covers (by omega) fun p hp x _ => width_reg_parts _ _ _ _ p hp
          · intro x hx
            have hx := mem_registers_reg_parts (by omega) hx
            omega
          · intro s hs
            change s ∈ spans (reg_parts r 0 (n * 4) n) at hs
            rw [spans_reg_parts] at hs
            cases hs
  · have hle := le_stack_offset spoff align
    have hinreg' : ¬ (r < 8 ∧ n * 4 ≤ 16) := by omega
    rw [if_neg hinreg', if_neg hinreg', if_neg hinreg]
    dsimp only
    refine ⟨covers_stkoff size _, fun x hx => absurd hx List.not_mem_nil, ?_, Nat.le_refl _, by omega⟩
    intro s hs
    cases List.mem_singleton.mp hs
    dsimp only
    omega

/-! ### The loop -/

variable {r spoff : Nat} {items' : List (Nat × Nat)} {named : Bool} {locs : List argloc_t} {stkargs : Nat}

theorem alloc_loop_ok (hspoff : spoff < 2 ^ 63) :
    (∃ result, alloc_loop r spoff items' = .ok result) ↔ OffsetFits r spoff items' := by
  induction items' generalizing r spoff with
  | nil => exact ⟨fun _ => trivial, fun _ => ⟨_, rfl⟩⟩
  | cons item items' ih =>
      obtain ⟨size, align⟩ := item
      rw [alloc_loop, OffsetFits]
      by_cases hbad : size = BADSIZE
      · rw [if_pos hbad]
        exact ⟨fun _ => Or.inl hbad, fun _ => ⟨_, rfl⟩⟩
      rw [if_neg hbad, alloc_arg_eq r spoff size align hspoff]
      by_cases hnext : (next r spoff size align).2 < 2 ^ 63
      · rw [if_pos hnext, ok_bind, ← ih hnext]
        cases hrest : alloc_loop (next r spoff size align).1 (next r spoff size align).2 items' with
        | error e =>
            dsimp only
            rw [hrest, error_bind]
            simp [hbad]
        | ok rest =>
            dsimp only
            rw [hrest, ok_bind]
            exact ⟨fun _ => Or.inr ⟨hnext, rest, rfl⟩, fun _ => ⟨_, rfl⟩⟩
      · rw [if_neg hnext, error_bind]
        exact ⟨fun ⟨_, h⟩ => (nomatch h), fun h => absurd (h.resolve_left hbad).1 hnext⟩

theorem alloc_loop_cons (hspoff : spoff < 2 ^ 63)
    (h : alloc_loop r spoff ((size, align) :: items') = .ok (some (locs, stkargs))) :
    (next r spoff size align).2 < 2 ^ 63 ∧ ∃ locs', locs = location r spoff size align :: locs' ∧
      alloc_loop (next r spoff size align).1 (next r spoff size align).2 items' = .ok (some (locs', stkargs)) := by
  rw [alloc_loop] at h
  split at h
  · cases h
  rw [alloc_arg_eq r spoff size align hspoff] at h
  split at h
  · case isTrue hnext =>
    rw [ok_bind] at h
    dsimp only at h
    cases hrest : alloc_loop (next r spoff size align).1 (next r spoff size align).2 items' with
    | error e =>
        rw [hrest] at h
        cases h
    | ok rest =>
        rw [hrest, ok_bind] at h
        cases rest with
        | none => cases h
        | some rest =>
            cases h
            exact ⟨hnext, rest.1, rfl, rfl⟩
  · cases h

theorem alloc_loop_sized {result : Option (List argloc_t × Nat)} (hspoff : spoff < 2 ^ 63)
    (h : alloc_loop r spoff items' = .ok result) : result.isSome ↔ ∀ item ∈ items', item.1 ≠ BADSIZE := by
  induction items' generalizing r spoff result with
  | nil =>
      cases h
      simp
  | cons item items' ih =>
      obtain ⟨size, align⟩ := item
      rw [alloc_loop] at h
      split at h
      · case isTrue hbad =>
        cases h
        simp [hbad]
      case isFalse hbad =>
      rw [alloc_arg_eq r spoff size align hspoff] at h
      split at h
      · case isTrue hnext =>
        rw [ok_bind] at h
        dsimp only at h
        cases hrest : alloc_loop (next r spoff size align).1 (next r spoff size align).2 items' with
        | error e =>
            rw [hrest] at h
            cases h
        | ok rest =>
            rw [hrest, ok_bind] at h
            cases h
            rw [List.forall_mem_cons, ← ih hnext hrest, Option.isSome_map]
            exact (and_iff_right hbad).symm
      · cases h

theorem alloc_loop_stkargs (hspoff : spoff < 2 ^ 63)
    (h : alloc_loop r spoff items' = .ok (some (locs, stkargs))) : stkargs < 2 ^ 63 := by
  induction items' generalizing r spoff locs with
  | nil =>
      cases h
      exact hspoff
  | cons item items' ih =>
      obtain ⟨hnext, locs', rfl, hrest⟩ := alloc_loop_cons hspoff h
      exact ih hnext hrest

theorem alloc_loop_upwards (hspoff : spoff < 2 ^ 63)
    (h : alloc_loop r spoff items' = .ok (some (locs, stkargs))) (hsuit : AllSuit r spoff named items') :
    locs.length = items'.length ∧
      ∃ r', r' ≤ 8 ∧ Upwards (cursor r named) spoff ((items'.map Prod.fst).zip locs) r' stkargs := by
  induction items' generalizing r spoff named locs with
  | nil =>
      cases h
      exact ⟨rfl, cursor r named, Nat.min_le_left _ _, .nil _ _⟩
  | cons item items' ih =>
      obtain ⟨size, align⟩ := item
      obtain ⟨hnext, locs', rfl, hrest⟩ := alloc_loop_cons hspoff h
      obtain ⟨hlen, r', hr', hup⟩ := ih hnext hrest hsuit.2
      refine ⟨congrArg Nat.succ hlen, r', hr', .cons (location_between hsuit.1) hup⟩

/-! ### The converse -/

theorem location_names (align : Nat) (hr : r < 8) (hsize : size ≤ 16) :
    r ∈ registers ((location r spoff size align).parts size) := by
  have hround : align_up4 size = (size + 3) / 4 * 4 := align_up4_eq (by omega)
  have hfirst : ∀ n s, 0 < n → r ∈ registers (reg_parts r 0 s n) := by
    intro n s hn
    obtain ⟨n, rfl⟩ := Nat.exists_eq_add_of_lt hn
    have hcons : registers (reg_parts r 0 s (0 + n + 1)) =
        argreg r :: registers (reg_parts (r + 1) 4 (s - 4) (0 + n)) := rfl
    rw [hcons, argreg_eq hr]
    exact List.mem_cons_self
  rw [location, if_pos ⟨hr, by omega⟩]
  by_cases hone : align_up4 size ≤ 4
  · rw [if_pos hone]
    exact List.mem_cons_self
  rw [if_neg hone]
  by_cases hover : 8 < r + align_up4 size / 4
  · rw [if_pos hover]
    change r ∈ registers (reg_parts r 0 ((8 - r) * 4) (8 - r) ++ _)
    rw [registers_append]
    exact List.mem_append_left _ (hfirst _ _ (by omega))
  · rw [if_neg hover]
    by_cases htwo : align_up4 size = 8
    · rw [if_pos htwo]
      exact List.mem_cons_self
    · rw [if_neg htwo]
      exact hfirst _ _ (by omega)

theorem location_split (spoff align : Nat) (hr : r < 8) (hsize : size ≤ 16)
    (hover : 8 < r + (size + 3) / 4) :
    ∃ l, 0 < l ∧ ((0 : Int), l) ∈ spans ((location r spoff size align).parts size) := by
  have hround : align_up4 size = (size + 3) / 4 * 4 := align_up4_eq (by omega)
  refine ⟨align_up4 size - (8 - r) * 4, by omega, ?_⟩
  rw [location, if_pos ⟨hr, by omega⟩, if_neg (by omega), if_pos (by omega)]
  change _ ∈ spans (reg_parts r 0 ((8 - r) * 4) (8 - r) ++ _)
  rw [spans_append]
  exact List.mem_append_right _ List.mem_cons_self

theorem location_stack (align : Nat) (h : ¬ (r < 8 ∧ align_up4 size ≤ 16)) :
    spans ((location r spoff size align).parts size) = [(((stack_offset spoff align : Nat) : Int), size)] := by
  rw [location, if_neg h]
  rfl

theorem size_le_of_covers (hreg : r < 8 ∧ align_up4 size ≤ 16)
    (hcovers : Covers ((location r spoff size align).parts size) size) : size ≤ 16 := by
  have hmod := align_up4_mod size
  unfold location at hcovers
  generalize align_up4 size = s at *
  obtain ⟨n, rfl⟩ : ∃ n, s = n * 4 := ⟨s / 4, by omega⟩
  have hwords : n * 4 / 4 = n := Nat.mul_div_cancel n (by decide)
  rw [if_pos hreg, hwords] at hcovers
  by_cases hone : n * 4 ≤ 4
  · rw [if_pos hone] at hcovers
    have hwidth := hcovers.width _ List.mem_cons_self r rfl
    dsimp only at hwidth
    omega
  · rw [if_neg hone] at hcovers
    by_cases hover : 8 < r + n
    · rw [if_pos hover] at hcovers
      have hle := le_of_tiles (tiles_reg_parts r 0 (8 - r) (.cons (by rw [Nat.zero_add]) (.nil _))) hcovers
      dsimp only at hle
      omega
    · rw [if_neg hover] at hcovers
      by_cases htwo : n * 4 = 8
      · rw [if_pos htwo] at hcovers
        have hlast : ⟨4, size - 4, .reg1 (r + 1)⟩ ∈ argloc_t.parts size (.reg2 r (r + 1)) :=
          List.mem_cons_of_mem _ List.mem_cons_self
        have hwidth := hcovers.width _ hlast (r + 1) rfl
        dsimp only at hwidth
        omega
      · rw [if_neg htwo] at hcovers
        have htiles := tiles_reg_parts r 0 n (.nil _)
        rw [List.append_nil] at htiles
        have hle := le_of_tiles htiles hcovers
        omega

theorem size_fits (hcovers : Covers ((location r spoff size align).parts size) size)
    (hinside : ∀ s ∈ spans ((location r spoff size align).parts size), s.1 + s.2 ≤ stkargs)
    (hstk : stkargs < 2 ^ 63) : size + 3 < 2 ^ 64 := by
  by_cases hreg : r < 8 ∧ align_up4 size ≤ 16
  · exact Nat.lt_of_le_of_lt (Nat.add_le_add_right (size_le_of_covers hreg hcovers) 3) (by decide)
  · have hspan := hinside _ (by rw [location_stack align hreg]; exact List.mem_cons_self)
    dsimp only at hspan
    omega

theorem suits_of_sound {first : Nat} (prev : List (Nat × argloc_t)) (hspoff : spoff < 2 ^ 63)
    (hstk : stkargs < 2 ^ 63) (h : alloc_loop r spoff items' = .ok (some (locs, stkargs)))
    (hsound : Sound first 8 stkargs (prev ++ (items'.map Prod.fst).zip locs))
    (hnamed : named = true → r < 8 → ∃ a ∈ prev, r ∈ registers (a.2.parts a.1))
    (hstack : 0 < spoff → r < 8 → ∃ a ∈ prev, ∃ l, 0 < l ∧ ((0 : Int), l) ∈ spans (a.2.parts a.1)) :
    AllSuit r spoff named items' := by
  induction items' generalizing r spoff named locs prev with
  | nil => trivial
  | cons item items' ih =>
      obtain ⟨size, align⟩ := item
      obtain ⟨hnext, locs', rfl, hrest⟩ := alloc_loop_cons hspoff h
      rw [List.map_cons, List.zip_cons_cons] at hsound
      have hmem : (size, location r spoff size align) ∈
          prev ++ (size, location r spoff size align) :: (items'.map Prod.fst).zip locs' :=
        List.mem_append_right _ List.mem_cons_self
      have hfit : size + 3 < 2 ^ 64 :=
        size_fits (hsound.covers _ hmem) (fun s hs => (hsound.inside _ hmem s hs).2) hstk
      have hround := align_up4_eq hfit
      have hapart := (List.pairwise_append.mp hsound.apart).2.2
      have hclear := (List.pairwise_append.mp hsound.clear).2.2
      refine ⟨⟨hfit, fun hr hsize => ⟨?_, fun hover => ?_⟩⟩, ?_⟩
      · cases named with
        | false => rfl
        | true =>
            obtain ⟨a, ha, hreg⟩ := hnamed rfl hr
            exact absurd (location_names align hr hsize) (hapart a ha _ List.mem_cons_self r hreg)
      · by_contra hne
        obtain ⟨a, ha, l, hl, hspan⟩ := hstack (Nat.pos_of_ne_zero hne) hr
        obtain ⟨l', hl', hspan'⟩ := location_split spoff align hr hsize hover
        have hclash : Clear (0, l) (0, l') := hclear a ha _ List.mem_cons_self _ hspan _ hspan'
        simp only [Clear] at hclash
        omega
      · refine ih (prev ++ [(size, location r spoff size align)]) hnext hrest ?_ ?_ ?_
        · rw [List.append_assoc]
          exact hsound
        · intro hname hr'
          by_cases hinreg : r < 8 ∧ size ≤ 16
          · rw [if_pos hinreg, decide_eq_true_eq] at hname
            have hr'' : (next r spoff size align).1 = r := by
              rw [next, if_pos ⟨hinreg.1, by omega⟩]
              dsimp only
              omega
            refine ⟨_, List.mem_append_right _ List.mem_cons_self, ?_⟩
            rw [hr'']
            exact location_names align hinreg.1 hinreg.2
          · have hr'' : (next r spoff size align).1 = r := by rw [next, if_neg (by omega)]
            rw [if_neg hinreg] at hname
            rw [hr''] at hr' ⊢
            obtain ⟨a, ha, hreg⟩ := hnamed hname hr'
            exact ⟨a, List.mem_append_left _ ha, hreg⟩
        · intro hpos hr'
          have hr : r < 8 := by
            refine Nat.lt_of_le_of_lt ?_ hr'
            rw [next]
            split <;> simp
          by_cases hold : 0 < spoff
          · obtain ⟨a, ha, hspan⟩ := hstack hold hr
            exact ⟨a, List.mem_append_left _ ha, hspan⟩
          obtain rfl : spoff = 0 := Nat.eq_zero_of_not_pos hold
          by_cases hinreg : size ≤ 16
          · rw [next, if_pos ⟨hr, by omega⟩] at hpos hr'
            dsimp only at hpos hr'
            rw [if_pos (by omega)] at hpos
            exact absurd hpos (Nat.lt_irrefl 0)
          · refine ⟨(size, location r 0 size align), List.mem_append_right _ List.mem_cons_self, size, by omega, ?_⟩
            have hoff : stack_offset 0 align = 0 := by
              unfold stack_offset
              split <;> rfl
            rw [location_stack align (by dsimp only; omega), hoff]
            exact List.mem_cons_self

/-! ### The whole allocation -/

theorem calc_arc_retloc_spec :
    ((∃ retloc, calc_arc_retloc rettype = .ok retloc) ↔ ResultFits rettype) ∧
      ∀ retloc, calc_arc_retloc rettype = .ok retloc → (retloc.isSome ↔ ResultPlaced rettype) := by
  unfold calc_arc_retloc ResultFits ResultPlaced
  generalize to_int rettype.size = s
  by_cases hvoid : rettype.is_void = true
  · rw [if_pos hvoid]
    exact ⟨⟨fun _ => Or.inl hvoid, fun _ => ⟨_, rfl⟩⟩, fun retloc h => by cases h; simp [hvoid]⟩
  rw [if_neg hvoid]
  by_cases hover : s + 3 ≥ 2 ^ 31
  · rw [if_pos hover]
    refine ⟨⟨fun ⟨_, h⟩ => (nomatch h), fun h => ?_⟩, fun _ h => (nomatch h)⟩
    rcases h with h | h
    · exact absurd h hvoid
    · omega
  · have hpos : 0 ≤ s + 3 → (s + 3).tdiv 4 = (s + 3) / 4 := Int.tdiv_eq_ediv_of_nonneg
    have hneg : s + 3 ≤ 0 → (s + 3).tdiv 4 = -(-(s + 3) / 4) := by
      intro hle
      rw [← Int.tdiv_eq_ediv_of_nonneg (by omega), Int.neg_tdiv, Int.neg_neg]
    rw [if_neg hover]
    dsimp only
    by_cases hfew : (s + 3).tdiv 4 < 0 ∨ (s + 3).tdiv 4 ≥ 9
    · have hrange : s < -6 ∨ 32 < s := by omega
      rw [if_pos hfew]
      refine ⟨⟨fun _ => Or.inr (by omega), fun _ => ⟨_, rfl⟩⟩, fun retloc h => ?_⟩
      cases h
      simp only [Option.isSome_none, Bool.false_eq_true, false_iff, not_or, hvoid, not_false_eq_true, true_and]
      omega
    · have hrange : -6 ≤ s ∧ s ≤ 32 := by omega
      rw [if_neg hfew, add_argregs]
      by_cases hlow : s ≤ -4
      · rw [if_pos (by omega)]
        refine ⟨⟨fun ⟨_, h⟩ => (nomatch h), fun h => ?_⟩, fun _ h => (nomatch h)⟩
        rcases h with h | h
        · exact absurd h hvoid
        · omega
      · have hplaced : -3 ≤ s ∧ s ≤ 32 := by omega
        rw [if_neg (by omega), if_neg (by omega)]
        refine ⟨⟨fun _ => Or.inr (by omega), fun _ => ?_⟩, fun retloc h => ?_⟩
        · split
          · exact ⟨_, rfl⟩
          · split <;> exact ⟨_, rfl⟩
        refine ⟨fun _ => Or.inr hplaced, fun _ => ?_⟩
        split at h
        · cases h
          rfl
        · split at h <;> cases h <;> rfl

/-- The allocation is right exactly if the result fits the registers for results, the stack offset does not overflow
and, where every argument has a size, each one suits the state before it. -/
theorem alloc_args_iff (fti : func_type_data_t) (nfixed : Int) :
    Meets fti nfixed ↔ ResultFits fti.rettype ∧ (ResultPlaced fti.rettype →
      OffsetFits (first fti) 0 (items fti nfixed) ∧ ((∀ item ∈ items fti nfixed, item.1 ≠ BADSIZE) →
        AllSuit (first fti) 0 false (items fti nfixed))) := by
  obtain ⟨hfits, hplaced⟩ := calc_arc_retloc_spec fti.rettype
  have hspoff : 0 < 2 ^ 63 := by decide
  have hfirst : first fti ≤ 8 := by
    unfold first
    split <;> decide
  have hlen : (items fti nfixed).length = fti.args.length := List.length_mapIdx
  have hcursor : cursor (first fti) false = first fti := Nat.min_eq_right hfirst
  rw [← hfits, Meets]
  constructor
  · rintro ⟨result, hresult, hmeets⟩
    rw [alloc_args] at hresult
    cases hret : calc_arc_retloc fti.rettype with
    | error e =>
        rw [hret] at hresult
        cases hresult
    | ok retloc =>
        refine ⟨⟨retloc, rfl⟩, fun hplace => ?_⟩
        obtain ⟨retloc, rfl⟩ := Option.isSome_iff_exists.mp ((hplaced retloc hret).mpr hplace)
        rw [hret, ok_bind] at hresult
        change alloc_loop (first fti) 0 (items fti nfixed) >>= _ = _ at hresult
        cases hrest : alloc_loop (first fti) 0 (items fti nfixed) with
        | error e =>
            rw [hrest] at hresult
            cases hresult
        | ok rest =>
            rw [hrest, ok_bind] at hresult
            refine ⟨(alloc_loop_ok hspoff).mp ⟨rest, hrest⟩, fun hsized => ?_⟩
            obtain ⟨⟨locs, stkargs⟩, rfl⟩ := Option.isSome_iff_exists.mp ((alloc_loop_sized hspoff hrest).mpr hsized)
            cases hresult
            obtain ⟨-, hsound⟩ := hmeets _ rfl
            exact suits_of_sound [] hspoff (alloc_loop_stkargs hspoff hrest) hrest hsound
              (fun h => (nomatch h)) fun h => absurd h (Nat.lt_irrefl 0)
  · rintro ⟨⟨retloc, hretloc⟩, hargs⟩
    rw [alloc_args, hretloc, ok_bind]
    cases retloc with
    | none => exact ⟨none, rfl, fun allocated h => nomatch h⟩
    | some retloc =>
        obtain ⟨hoffset, hsuit⟩ := hargs ((hplaced _ hretloc).mp rfl)
        obtain ⟨rest, hrest⟩ := (alloc_loop_ok hspoff).mpr hoffset
        change ∃ result, alloc_loop (first fti) 0 (items fti nfixed) >>= _ = .ok result ∧ _
        rw [hrest, ok_bind]
        refine ⟨_, rfl, fun allocated hsome => ?_⟩
        cases rest with
        | none => cases hsome
        | some rest =>
            obtain ⟨locs, stkargs⟩ := rest
            cases hsome
            have hsized := (alloc_loop_sized hspoff hrest).mp rfl
            obtain ⟨hlocs, r', hr', hup⟩ := alloc_loop_upwards hspoff hrest (hsuit hsized)
            exact ⟨hlocs.trans hlen, hup.sound (Nat.le_of_eq hcursor.symm) hr' (Int.le_refl 0)⟩

/-- A structure of 20 bytes, six integers and a structure of 12 bytes, for a function that returns nothing. -/
def split_late : func_type_data_t where
  rettype := ⟨true, false, 0⟩
  args := ⟨false, 20, 4, 0⟩ :: (List.replicate 6 ⟨false, 4, 4, 0⟩ ++ [⟨false, 12, 4, 0⟩])

/-- The last 4 bytes of the second structure are put at offset 0 of the stack, where the first structure begins. -/
theorem split_late_not_meets : ¬ Meets split_late 8 := by
  rintro ⟨result, hresult, hmeets⟩
  have heq : alloc_args split_late 8 = .ok (some
      { retloc := .badloc
        arglocs := [.stkoff 0, .reg1 0, .reg1 1, .reg1 2, .reg1 3, .reg1 4, .reg1 5,
          .scattered [⟨0, 4, .reg1 6⟩, ⟨4, 4, .reg1 7⟩, ⟨8, 4, .stkoff 0⟩]]
        stkargs := 24 }) := by rfl
  rw [heq] at hresult
  cases hresult
  have hclear := (List.pairwise_cons.mp (hmeets _ rfl).2.clear).1 (12, _)
    (List.mem_of_getElem? (i := 6) rfl) (0, 20) List.mem_cons_self (0, 4) List.mem_cons_self
  simp [Clear] at hclear

end IdaSdk.ArcArgs
