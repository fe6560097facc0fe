import Mathlib.Algebra.Ring.Divisibility.Basic
import Mathlib.Data.Int.GCD
import Mathlib.Data.Int.ModEq
import Mathlib.Data.Nat.Prime.Basic
import Mathlib.Tactic.Ring

/-!
Arithmetic progressions modulo `M`. Since all steps count, a progression is a whole residue class modulo
the greatest common divisor of its stride and `M`; sums, products and exact quotients follow from that.
-/

namespace IdaSdk.Progression

/-- `w` is one of `v`, `v + s`, `v + 2 * s` and so on, modulo `M`. -/
def Mem (M v s w : ℤ) : Prop := ∃ k : ℕ, w ≡ v + k * s [ZMOD M]

variable {M v s w : ℤ}

theorem mem_iff (hM : 0 < M) : Mem M v s w ↔ (Int.gcd s M : ℤ) ∣ w - v := by
  constructor
  · rintro ⟨k, hk⟩
    have hg := (Int.gcd_dvd_right s M).trans hk.symm.dvd
    have hs := (Int.gcd_dvd_left s M).mul_left k
    have hsum := dvd_add hg hs
    rwa [show w - (v + k * s) + k * s = w - v by ring] at hsum
  · rintro ⟨c, hc⟩
    -- Bezout's coefficient of the stride, made a natural number
    have hbez := Int.gcd_eq_gcd_ab s M
    refine ⟨(Int.gcdA s M * c % M).toNat, ?_⟩
    rw [Int.toNat_of_nonneg (Int.emod_nonneg _ hM.ne')]
    have hk : Int.gcdA s M * c % M * s ≡ Int.gcdA s M * c * s [ZMOD M] := (Int.mod_modEq _ M).mul_right s
    have hw : w = v + Int.gcdA s M * c * s + M * (Int.gcdB s M * c) := by
      have hdiff : w = v + (s * Int.gcdA s M + M * Int.gcdB s M) * c := by
        rw [← hbez, ← hc]
        ring
      rw [hdiff]
      ring
    calc w ≡ v + Int.gcdA s M * c * s [ZMOD M] := by
          rw [hw]
          exact Int.modEq_iff_dvd.mpr ⟨-(Int.gcdB s M * c), by ring⟩
      _ ≡ v + Int.gcdA s M * c % M * s [ZMOD M] := hk.symm.add_left v

theorem Mem.mul (h : Mem M v s w) (c : ℤ) : Mem M (c * v) (c * s) (c * w) := by
  obtain ⟨k, hk⟩ := h
  refine ⟨k, ?_⟩
  have hmul := hk.mul_left c
  rwa [show c * (v + k * s) = c * v + k * (c * s) by ring] at hmul

theorem Mem.residue {N v' w' : ℤ} (hM : 0 < M) (h : Mem M v s w) (hN : (Int.gcd s M : ℤ) ∣ N)
    (hv : v' ≡ v [ZMOD N]) (hw : w' ≡ w [ZMOD N]) : Mem M v' s w' := by
  rw [mem_iff hM] at h ⊢
  have hdiff := dvd_add (Int.dvd_sub (hN.trans hw.symm.dvd) (hN.trans hv.symm.dvd)) h
  rwa [show w' - w - (v' - v) + (w - v) = w' - v' by ring] at hdiff

/-- An exact quotient of the stride, as long as the quotient of the modulus is a multiple of it, too. -/
theorem Mem.ediv {c : ℤ} (hM : 0 < M) (hc : 0 < c) (h : Mem M v (c * s) w)
    (hdvd : c * (Int.gcd s M : ℤ) ∣ M) : Mem M (v / c) s (w / c) := by
  obtain ⟨k, hk⟩ := h
  obtain ⟨q, hq⟩ := hdvd
  obtain ⟨m, hm⟩ := hk.symm.dvd
  have hw : w = v + c * (k * s + (Int.gcd s M : ℤ) * q * m) := by
    have hsum : w = v + k * (c * s) + M * m := by
      rw [← hm]
      ring
    have hMm : M * m = c * ((Int.gcd s M : ℤ) * q * m) := by
      calc M * m = c * (Int.gcd s M : ℤ) * q * m := by rw [← hq]
        _ = c * ((Int.gcd s M : ℤ) * q * m) := by ring
    rw [hsum, hMm]
    ring
  rw [mem_iff hM, hw, Int.add_mul_ediv_left _ _ hc.ne', add_sub_cancel_left]
  exact dvd_add ((Int.gcd_dvd_left s M).mul_left k) (Dvd.intro _ (mul_assoc _ q m).symm)

/-- Below `2 ^ n` the common divisor with a power of two is a power of two of at most `n`. -/
theorem gcd_two_pow_dvd {n m : ℕ} (hs : s ≠ 0) (hlt : s.natAbs ≤ 2 ^ n) :
    (Int.gcd s (2 ^ m : ℕ) : ℤ) ∣ 2 ^ n := by
  have hdvd : Int.gcd s (2 ^ m : ℕ) ∣ 2 ^ m := by
    have h := Int.gcd_dvd_right s ((2 ^ m : ℕ) : ℤ)
    exact_mod_cast h
  obtain ⟨j, -, hj⟩ := (Nat.dvd_prime_pow Nat.prime_two).mp hdvd
  have hle : 2 ^ j ≤ 2 ^ n := by
    rw [← hj]
    exact (Nat.le_of_dvd (Int.natAbs_pos.mpr hs) (Int.gcd_dvd_natAbs_left s _)).trans hlt
  rw [hj]
  exact_mod_cast Nat.pow_dvd_pow 2 ((Nat.pow_le_pow_iff_right (by decide)).mp hle)

end IdaSdk.Progression
