import Mathlib.Algebra.Group.Int.Defs
import Mathlib.Algebra.Group.Nat.Defs
import Mathlib.Data.Nat.Size
import Mathlib.Logic.Function.Iterate
import Mathlib.Tactic.Common

/-!
Finding the size of a file that can only be read. The first loop doubles a bound until a read fails, the second halves
the interval between the last read that worked and the first that failed. Sizes are computed modulo `2 ^ 64`; the
midpoint is kept in an `int`.
-/

namespace IdaSdk.ProbeFileSize

def uint64 (x : Int) : Nat := (x % 2 ^ 64).toNat

def qoff64 (x : Nat) : Int := if x % 2 ^ 64 < 2 ^ 63 then x % 2 ^ 64 else x % 2 ^ 64 - 2 ^ 64

def int32 (x : Nat) : Int := if x % 2 ^ 32 < 2 ^ 31 then x % 2 ^ 32 else x % 2 ^ 32 - 2 ^ 32

section
variable (dbg_read_file : Int → Int)

/-- The doubling loop; nothing when it does not end within the steps. -/
def grow : Nat → (low high step : Nat) → Option (Nat × Nat)
  | 0, _, _, _ => none
  | n + 1, low, high, step =>
    if dbg_read_file (qoff64 (uint64 (high - 1))) = 1 then
      grow n high (uint64 (high + step)) (if step < 0x7FFFFFFFFFFFFFFF then uint64 (step * 2) else step)
    else some (low, high)

/-- The halving loop. The offset before the least `int` overflows. -/
def halve : Nat → (low high : Nat) → Option Nat
  | 0, _, _ => none
  | n + 1, low, high =>
    if uint64 (low + 1) < high then
      let middle := int32 (uint64 (high + low) / 2)
      if middle = -2 ^ 31 then none
      else if dbg_read_file (middle - 1) = 1 then halve n (uint64 middle) high
      else halve n low (uint64 middle)
    else some low

def probe_file_size (n step : Nat) : Option Nat :=
  (grow dbg_read_file n 0 step step).bind fun ⟨low, high⟩ => halve dbg_read_file n low high

end

variable (size step : Nat)

/-- How often the doubling loop reads with success. -/
def doublings : Nat := Nat.size (size / step)

/-- The low end of the interval after `k` rounds of the doubling loop. -/
def lowAt (step : Nat) : Nat → Nat
  | 0 => 0
  | k + 1 => step * 2 ^ k

/-- The interval in which the doubling loop ends. -/
def lowEnd : Nat := lowAt step (doublings size step)

def highEnd : Nat := step * 2 ^ doublings size step

def mid (b x : Nat) : Nat := (x + b) / 2

/-- The interval is below `2 ^ 31`, or else the midpoints that approach its high end pass the size before they reach
`2 ^ 31`; the `int` knows the high end modulo `2 ^ 33`. -/
def InRange : Prop :=
  step ≤ 2 ^ 63 ∧ (highEnd size step ≤ 2 ^ 31 ∨
    ∃ n, size < (mid (highEnd size step % 2 ^ 33))^[n] (lowEnd size step) ∧
      (mid (highEnd size step % 2 ^ 33))^[n] (lowEnd size step) < 2 ^ 31)

variable {x : Nat}

theorem uint64_of_lt (h : x < 2 ^ 64) : uint64 x = x := by
  unfold uint64
  omega

theorem uint64_add {y : Nat} (h : x + y < 2 ^ 64) : uint64 (x + y) = x + y := by
  unfold uint64
  omega

theorem uint64_pred (hpos : 0 < x) (h : x ≤ 2 ^ 64) : uint64 (x - 1) = x - 1 := by
  unfold uint64
  omega

theorem qoff64_of_lt (h : x < 2 ^ 63) : qoff64 x = x := by
  unfold qoff64
  omega

theorem int32_of_lt {m : Nat} (hm : x % 2 ^ 32 = m) (h : m < 2 ^ 31) : int32 x = m := by
  unfold int32
  omega

theorem int32_of_le {m : Nat} (hm : x % 2 ^ 32 = m) (h : 2 ^ 31 ≤ m) : int32 x = m - 2 ^ 32 := by
  unfold int32
  omega

theorem int32_bounds (x : Nat) : -2 ^ 31 ≤ int32 x ∧ int32 x < 2 ^ 31 := by
  unfold int32
  omega

section
variable {dbg_read_file : Int → Int} {size : Nat}

/-! ### The halving loop -/

variable {high low n : Nat}

theorem halve_mono {k r : Nat} (h : halve dbg_read_file n low high = some r) :
    halve dbg_read_file (n + k) low high = some r := by
  induction n generalizing low high with
  | zero => cases h
  | succ n ih =>
      rw [Nat.succ_add]
      unfold halve at h ⊢
      dsimp only at h ⊢
      split
      · rw [if_pos ‹_›] at h
        split
        · rw [if_pos ‹_›] at h
          cases h
        rw [if_neg ‹_›] at h
        split
        · rw [if_pos ‹_›] at h
          exact ih h
        · rw [if_neg ‹_›] at h
          exact ih h
      · rwa [if_neg ‹_›] at h

variable (hread : ∀ off : Int, dbg_read_file off = 1 ↔ off < size)
include hread

theorem halve_succ {m : Nat} (hlt : low + 1 < high) (hsum : high + low < 2 ^ 64)
    (hm : (high + low) / 2 % 2 ^ 32 = m) (hm31 : m < 2 ^ 31) (n : Nat) :
    halve dbg_read_file (n + 1) low high =
      if m ≤ size then halve dbg_read_file n m high else halve dbg_read_file n low m := by
  have hsum' : uint64 (high + low) = high + low := uint64_add hsum
  have hlow : uint64 (low + 1) = low + 1 := uint64_add (y := 1) (by omega)
  rw [halve, hlow, if_pos hlt, hsum', int32_of_lt hm hm31]
  dsimp only
  rw [if_neg (by omega), uint64_of_lt (by omega)]
  by_cases h : m ≤ size
  · rw [if_pos h, if_pos ((hread _).mpr (by omega))]
  · rw [if_neg h, if_neg (mt (hread _).mp (by omega))]

theorem halve_largest (hsize : size < 2 ^ 62) (hpos : 0 < high) (hhigh : high ≤ 2 ^ 63)
    (hmid : 2 ^ 32 - 2 ≤ (high - 1) / 2 % 2 ^ 32) (n : Nat) :
    halve dbg_read_file n (2 ^ 64 - 1) high ≠ some size := by
  induction n with
  | zero => exact nofun
  | succ n ih =>
      have hsum : uint64 (high + (2 ^ 64 - 1 : Nat)) = high - 1 := by
        unfold uint64
        omega
      have hlow : uint64 ((2 ^ 64 - 1 : Nat) + 1) = 0 := rfl
      rw [halve, hlow, if_pos hpos, hsum, int32_of_le rfl (by omega)]
      dsimp only
      rw [if_neg (by omega), if_pos ((hread _).mpr (by omega))]
      by_cases hm : (high - 1) / 2 % 2 ^ 32 = 2 ^ 32 - 1
      · have hsame : uint64 (((high - 1) / 2 % 2 ^ 32 : Nat) - 2 ^ 32) = 2 ^ 64 - 1 := by
          rw [hm]
          rfl
        rw [hsame]
        exact ih
      · have hm' : (high - 1) / 2 % 2 ^ 32 = 2 ^ 32 - 2 := by omega
        have hsame : uint64 (((high - 1) / 2 % 2 ^ 32 : Nat) - 2 ^ 32) = 2 ^ 64 - 2 := by
          rw [hm']
          rfl
        rw [hsame]
        cases n with
        | zero => exact nofun
        | succ n =>
            have hend : uint64 ((2 ^ 64 - 2 : Nat) + 1) = 2 ^ 64 - 1 := rfl
            rw [halve, hend, if_neg (by omega)]
            intro h
            have := Option.some.inj h
            omega

theorem halve_negative {m : Nat} (hsize : size < 2 ^ 62) (hlt : low + 1 < high)
    (hsum : high + low < 2 ^ 64) (hhigh : high ≤ 2 ^ 63) (hm : (high + low) / 2 % 2 ^ 32 = m) (hm31 : 2 ^ 31 ≤ m)
    (hone : m = 2 ^ 32 - 1 → low = 0) (n : Nat) : halve dbg_read_file n low high ≠ some size := by
  have hsum' : uint64 (high + low) = high + low := uint64_add hsum
  have hlow : uint64 (low + 1) = low + 1 := uint64_add (y := 1) (by omega)
  cases n with
  | zero => exact nofun
  | succ n =>
      rw [halve, hlow, if_pos hlt, hsum', int32_of_le hm hm31]
      dsimp only
      split
      · exact nofun
      rw [if_pos ((hread _).mpr (by omega))]
      have hhuge : uint64 ((m : Int) - 2 ^ 32) = 2 ^ 64 - 2 ^ 32 + m := by
        unfold uint64
        omega
      rw [hhuge]
      by_cases hlast : m = 2 ^ 32 - 1
      · have hlow0 := hone hlast
        rw [hlast]
        exact halve_largest hread hsize (by omega) hhigh (by omega) n
      cases n with
      | zero => exact nofun
      | succ n =>
          have hend : uint64 (((2 ^ 64 - 2 ^ 32 + m : Nat) : Int) + 1) = 2 ^ 64 - 2 ^ 32 + m + 1 := by
            unfold uint64
            omega
          rw [halve, hend, if_neg (by omega)]
          intro h
          have := Option.some.inj h
          omega

theorem halve_below (hlow : low ≤ size) (hhigh : size < high) (h31 : high ≤ 2 ^ 31)
    (hn : high - low ≤ n) : halve dbg_read_file n low high = some size := by
  induction n generalizing low high with
  | zero => omega
  | succ n ih =>
      by_cases hlt : low + 1 < high
      · rw [halve_succ hread hlt (by omega) rfl (by omega)]
        split
        · exact ih ‹_› hhigh h31 (by omega)
        · exact ih hlow (by omega) (by omega) (by omega)
      · have hend : ¬ uint64 ((low : Int) + 1) < high := by
          unfold uint64
          omega
        rw [halve, if_neg hend]
        congr 1
        omega

omit hread in
theorem le_iterate_mid {b x : Nat} (h : x ≤ b) (n : Nat) : x ≤ (mid b)^[n] x := by
  induction n generalizing x with
  | zero => exact Nat.le_refl x
  | succ n ih =>
      rw [Function.iterate_succ_apply]
      have hmid : x ≤ mid b x ∧ mid b x ≤ b := by
        unfold mid
        omega
      exact Nat.le_trans hmid.1 (ih hmid.2)

theorem halve_wide (hlow : low ≤ size) (hsize : size < 2 ^ 31) (h31 : 2 ^ 31 < high)
    (hhigh : high ≤ 2 ^ 63) (hsum : low + high % 2 ^ 33 < 2 ^ 33) (hone : low + high % 2 ^ 33 < 2 ^ 33 - 2 ∨ low = 0) :
    (∃ n, halve dbg_read_file n low high = some size) ↔
      ∃ n, size < (mid (high % 2 ^ 33))^[n] low ∧ (mid (high % 2 ^ 33))^[n] low < 2 ^ 31 := by
  have hround : ∀ {x}, x ≤ size → x + high % 2 ^ 33 < 2 ^ 33 → (high + x) / 2 % 2 ^ 32 = mid (high % 2 ^ 33) x := by
    intro x hx hb
    unfold mid
    omega
  constructor
  · rintro ⟨n, hn⟩
    induction n generalizing low with
    | zero => cases hn
    | succ n ih =>
        have hm := hround hlow hsum
        by_cases hm31 : mid (high % 2 ^ 33) low < 2 ^ 31
        · rw [halve_succ hread (by omega) (by omega) hm hm31] at hn
          by_cases hle : mid (high % 2 ^ 33) low ≤ size
          · rw [if_pos hle] at hn
            have hb : high % 2 ^ 33 < 2 ^ 32 := by
              unfold mid at hm31
              omega
            obtain ⟨k, hk⟩ := ih hle (by omega) (.inl (by omega)) hn
            exact ⟨k + 1, hk⟩
          · exact ⟨1, Nat.lt_of_not_le hle, hm31⟩
        · refine absurd hn (halve_negative hread (by omega) (by omega) (by omega) hhigh hm (by omega) ?_ _)
          intro hlast
          unfold mid at hlast
          omega
  · rintro ⟨n, hn⟩
    induction n generalizing low with
    | zero => exact absurd hn.1 (Nat.not_lt.mpr hlow)
    | succ n ih =>
        have hm := hround hlow hsum
        rw [Function.iterate_succ_apply] at hn
        by_cases hle : mid (high % 2 ^ 33) low ≤ size
        · have hb : high % 2 ^ 33 < 2 ^ 32 := by
            unfold mid at hle
            omega
          obtain ⟨k, hk⟩ := ih hle (by omega) (.inl (by omega)) hn
          refine ⟨k + 1, ?_⟩
          rw [halve_succ hread (by omega) (by omega) hm (by omega), if_pos hle]
          exact hk
        · have hb : mid (high % 2 ^ 33) low ≤ high % 2 ^ 33 := by
            unfold mid at hle ⊢
            omega
          have hm31 : mid (high % 2 ^ 33) low < 2 ^ 31 := Nat.lt_of_le_of_lt (le_iterate_mid hb n) hn.2
          refine ⟨mid (high % 2 ^ 33) low - low + 1, ?_⟩
          rw [halve_succ hread (by omega) (by omega) hm hm31, if_neg hle]
          exact halve_below hread hlow (by omega) (by omega) (by omega)

theorem halve_large (hsize : 2 ^ 31 ≤ size) (hsize' : size < 2 ^ 62)
    (h : low ≠ size ∨ low + 1 < high) : halve dbg_read_file n low high ≠ some size := by
  induction n generalizing low with
  | zero => exact nofun
  | succ n ih =>
      have hbounds := int32_bounds (uint64 (high + low) / 2)
      unfold halve
      generalize int32 (uint64 (high + low) / 2) = middle at hbounds ⊢
      dsimp only
      split
      · split
        · exact nofun
        rw [if_pos ((hread _).mpr (by omega))]
        apply ih
        left
        unfold uint64
        omega
      · intro heq
        have hlow := Option.some.inj heq
        have hnext : uint64 (low + 1) = low + 1 := uint64_add (y := 1) (by omega)
        omega

variable {step : Nat}

omit hread in
theorem pow_le_size {k : Nat} (hpos : 0 < step) : k < doublings size step ↔ step * 2 ^ k ≤ size := by
  rw [doublings, Nat.lt_size, Nat.le_div_iff_mul_le hpos, Nat.mul_comm]

omit hread in
theorem lowEnd_le (hpos : 0 < step) : lowEnd size step ≤ size := by
  unfold lowEnd
  cases hk : doublings size step with
  | zero => exact Nat.zero_le size
  | succ k => exact (pow_le_size hpos).mp (by omega)

omit hread in
theorem lt_highEnd (hpos : 0 < step) : size < highEnd size step :=
  Nat.lt_of_not_le (mt (pow_le_size hpos).mpr (Nat.lt_irrefl _))

omit hread in
theorem interval_cases (size step : Nat) : (lowEnd size step = 0 ∧ highEnd size step = step) ∨
    highEnd size step = 2 * lowEnd size step := by
  unfold highEnd lowEnd
  cases doublings size step with
  | zero => exact .inl ⟨rfl, Nat.mul_one step⟩
  | succ k =>
      right
      rw [lowAt, Nat.pow_succ, ← Nat.mul_assoc, Nat.mul_comm]

theorem grow_from (hsize : size < 2 ^ 62) (hpos : 0 < step) (hstep : step ≤ 2 ^ 63) (n k : Nat)
    (hk : k ≤ doublings size step) : grow dbg_read_file n (lowAt step k) (step * 2 ^ k) (step * 2 ^ k) =
      if doublings size step - k < n then some (lowEnd size step, highEnd size step) else none := by
  induction n generalizing k with
  | zero => rfl
  | succ n ih =>
      have hone : 0 < step * 2 ^ k := Nat.mul_pos hpos (Nat.two_pow_pos k)
      by_cases hlt : k < doublings size step
      · have hle := (pow_le_size hpos).mp hlt
        have hdouble : step * 2 ^ k + step * 2 ^ k = step * 2 ^ (k + 1) := by
          rw [Nat.pow_succ, ← Nat.mul_assoc, Nat.mul_two]
        have hround := ih (k + 1) hlt
        rw [lowAt, ← hdouble] at hround
        generalize step * 2 ^ k = s at hone hle hround ⊢
        have hadd : uint64 (s + s) = s + s := uint64_add (by omega)
        have hmul : uint64 (s * 2) = s + s := by
          unfold uint64
          omega
        rw [grow, uint64_pred hone (by omega), qoff64_of_lt (by omega), if_pos ((hread _).mpr (by omega)),
          if_pos (by omega), hadd, hmul, hround]
        congr 1
        exact propext ⟨by omega, by omega⟩
      · obtain rfl : k = doublings size step := by omega
        have hlarge : size < highEnd size step := lt_highEnd hpos
        have hhigh : highEnd size step ≤ 2 ^ 63 := by
          have hlow : lowEnd size step ≤ size := lowEnd_le hpos
          rcases interval_cases size step with ⟨-, h⟩ | h <;> omega
        change size < step * 2 ^ doublings size step at hlarge
        change step * 2 ^ doublings size step ≤ 2 ^ 63 at hhigh
        rw [grow, uint64_pred hone (by omega), qoff64_of_lt (by omega), if_neg (mt (hread _).mp (by omega)),
          if_pos (by omega)]
        rfl

theorem grow_huge (hsize : size < 2 ^ 62) (hstep : 2 ^ 63 < step) (hstep' : step < 2 ^ 64)
    {low' high' : Nat} (hhigh : high = (low + step) % 2 ^ 64)
    (hlow : low = 0 ∨ low < 2 ^ 64 ∧ dbg_read_file (qoff64 (uint64 (low - 1))) = 1)
    (hgrow : grow dbg_read_file n low high step = some (low', high')) :
    2 ^ 63 < low' ∧ low' < 2 ^ 64 ∧ 0 < high' ∧ high' ≤ 2 ^ 63 ∧ (low' = 2 ^ 64 - 1 → high' = 2 ^ 63) := by
  induction n generalizing low high with
  | zero => cases hgrow
  | succ n ih =>
      rw [grow, if_neg (show ¬ step < 0x7FFFFFFFFFFFFFFF by omega)] at hgrow
      split at hgrow
      · refine ih ?_ (.inr ⟨by omega, ‹_›⟩) hgrow
        unfold uint64
        omega
      rename_i hfail
      obtain ⟨rfl, rfl⟩ := Prod.mk.inj (Option.some.inj hgrow)
      rw [hread] at hfail hlow
      unfold qoff64 uint64 at hfail hlow
      omega

theorem probe_of_huge (hsize : size < 2 ^ 62) (hstep : 2 ^ 63 < step) (hstep' : step < 2 ^ 64) :
    probe_file_size dbg_read_file n step ≠ some size := by
  intro h
  obtain ⟨⟨low, high⟩, hgrow, hhalve⟩ := Option.bind_eq_some_iff.mp h
  obtain ⟨hlow, hlow', hpos, hhigh, hlast⟩ := grow_huge hread hsize hstep hstep' (by omega) (.inl rfl) hgrow
  by_cases hlargest : low = 2 ^ 64 - 1
  · subst hlargest
    exact halve_largest hread hsize hpos hhigh (by rw [hlast rfl]; decide) n hhalve
  cases n with
  | zero => cases hhalve
  | succ n =>
      have hend : uint64 (low + 1) = low + 1 := uint64_add (y := 1) (by omega)
      change halve dbg_read_file (n + 1) low high = some size at hhalve
      rw [halve, hend, if_neg (by omega)] at hhalve
      have := Option.some.inj hhalve
      omega

theorem probe_iff_halve (hsize : size < 2 ^ 62) (hpos : 0 < step) (hstep : step ≤ 2 ^ 63) (r : Nat) :
    (∃ n, probe_file_size dbg_read_file n step = some r) ↔
      ∃ n, halve dbg_read_file n (lowEnd size step) (highEnd size step) = some r := by
  have hgrow := fun n => grow_from hread hsize hpos hstep n 0 (Nat.zero_le _)
  rw [Nat.pow_zero, Nat.mul_one, lowAt, Nat.sub_zero] at hgrow
  constructor
  · rintro ⟨n, hn⟩
    rw [probe_file_size, hgrow] at hn
    split at hn
    · exact ⟨n, hn⟩
    · cases hn
  · rintro ⟨n, hn⟩
    refine ⟨n + (doublings size step + 1), ?_⟩
    rw [probe_file_size, hgrow, if_pos (by omega)]
    exact halve_mono hn

theorem probe_of_large (hsize : 2 ^ 31 ≤ size) (hsize' : size < 2 ^ 62) (hpos : 0 < step)
    (hstep : step ≤ 2 ^ 63) : probe_file_size dbg_read_file n step ≠ some size := by
  intro h
  obtain ⟨n, hn⟩ := (probe_iff_halve hread hsize' hpos hstep size).mp ⟨n, h⟩
  refine halve_large hread hsize hsize' ?_ hn
  rcases interval_cases size step with ⟨hlow, -⟩ | hhigh
  · exact .inl (by omega)
  · have hlt : size < highEnd size step := lt_highEnd hpos
    by_cases heq : lowEnd size step = size
    · exact .inr (by omega)
    · exact .inl heq

/-- With a primitive that reads the byte at an offset exactly when the offset is below the size, the size of a file
below `2 ^ 62` bytes is found exactly when no midpoint before the one that passes the size reaches `2 ^ 31`. -/
theorem probe_file_size_iff {step : Nat} (hsize : size < 2 ^ 62) (hpos : 0 < step) (hstep : step < 2 ^ 64) :
    (∃ n, probe_file_size dbg_read_file n step = some size) ↔ InRange size step := by
  by_cases hhuge : step ≤ 2 ^ 63
  swap
  · exact iff_of_false (fun ⟨n, hn⟩ => probe_of_huge hread hsize (by omega) hstep hn) fun h => hhuge h.1
  rw [InRange, and_iff_right hhuge]
  have hlow : lowEnd size step ≤ size := lowEnd_le hpos
  have hhigh : size < highEnd size step := lt_highEnd hpos
  have hcases := interval_cases size step
  by_cases hlarge : 2 ^ 31 ≤ size
  · refine iff_of_false (fun ⟨n, hn⟩ => probe_of_large hread hlarge hsize hpos hhuge hn) ?_
    rintro (h | ⟨n, h, h'⟩) <;> omega
  rw [probe_iff_halve hread hsize hpos hhuge]
  by_cases h31 : highEnd size step ≤ 2 ^ 31
  · exact iff_of_true ⟨_, halve_below hread hlow hhigh h31 (Nat.le_refl _)⟩ (.inl h31)
  · rw [or_iff_right h31]
    exact halve_wide hread hlow (by omega) (by omega) (by omega) (by omega) (by omega)

end

/-- Reads of a byte from a file of a given size. -/
def readOf (size : Nat) (off : Int) : Int := if off < size then 1 else 0

theorem readOf_iff (size : Nat) (off : Int) : readOf size off = 1 ↔ off < size := by
  unfold readOf
  split <;> simp_all

theorem probe_file_size_iff_thousand :
    (∃ n, probe_file_size (readOf 1000) n 16 = some 1000) ↔ InRange 1000 16 :=
  probe_file_size_iff (readOf_iff 1000) (by decide) (by decide) (by decide)

/-- The size of a file of 2 GiB is not found in steps that begin with one byte. -/
theorem probe_two_gigabytes : ¬ ∃ n, probe_file_size (readOf (2 ^ 31)) n 1 = some (2 ^ 31) := fun ⟨_, h⟩ =>
  probe_of_large (readOf_iff (2 ^ 31)) (by decide) (by decide) (by decide) (by decide) h

end IdaSdk.ProbeFileSize
