import IdaSdk.LibProgression
import IdaSdk.RegValueModel
import Mathlib.Tactic.NormNum
import Mathlib.Tactic.Positivity

/-!
The values of a loop: a start and all multiples of the stride, modulo `2 ^ 64`. Since the stride is an
`int8`, it divides no higher power of two than `2 ^ 7`, and neither a shift nor the extension of a byte or
more takes a value out of the progression.
-/

namespace IdaSdk.RegValue

variable {n : Nat}

variable (v : BitVec n)

theorem modEq_toNat : v.toInt ≡ (v.toNat : Int) [ZMOD (2 ^ n : Nat)] := by
  rw [BitVec.toInt_eq_toNat_bmod]
  exact Int.bmod_emod

theorem ofInt_eq_iff {a b : Int} : BitVec.ofInt n a = BitVec.ofInt n b ↔ a ≡ b [ZMOD (2 ^ n : Nat)] := by
  rw [← BitVec.toInt_inj, BitVec.toInt_ofInt, BitVec.toInt_ofInt]
  constructor
  · intro h
    have hmod := congrArg (· % ((2 ^ n : Nat) : Int)) h
    simp only [Int.bmod_emod] at hmod
    exact hmod
  · intro h
    rw [← Int.emod_bmod, h, Int.emod_bmod]

theorem eq_add_ofInt_iff {v w : BitVec n} {z : Int} :
    w = v + BitVec.ofInt n z ↔ w.toInt ≡ v.toInt + z [ZMOD (2 ^ n : Nat)] := by
  rw [← ofInt_eq_iff, BitVec.ofInt_toInt, BitVec.ofInt_add, BitVec.ofInt_toInt]

theorem toInt_shiftLeft_modEq (c : Nat) :
    (v <<< c).toInt ≡ 2 ^ c * v.toInt [ZMOD (2 ^ n : Nat)] := by
  have hmul := ((modEq_toNat v).mul_left (2 ^ c)).symm
  have hcast : ((v.toNat <<< c : Nat) : Int) = 2 ^ c * v.toNat := by
    rw [Nat.shiftLeft_eq, mul_comm]
    norm_cast
  rw [BitVec.toInt_shiftLeft, hcast]
  exact Int.ModEq.trans Int.bmod_emod hmul

theorem toInt_sshiftRight_eq (c : Nat) : (v.sshiftRight c).toInt = v.toInt / 2 ^ c := by
  rw [BitVec.toInt_sshiftRight, Int.shiftRight_eq_div_pow]
  norm_cast

theorem natAbs_stride_le (s : BitVec 8) : s.toInt.natAbs ≤ 2 ^ 7 := by
  have hlo := BitVec.le_toInt s
  have hhi := BitVec.toInt_lt (x := s)
  omega

variable {c : Nat} {s : BitVec 8}

theorem stride_shiftLeft (hc : c ≤ 7) (h : (s <<< c).sshiftRight c = s) :
    (s <<< c).toInt = 2 ^ c * s.toInt := by
  have hq : (s <<< c).toInt / 2 ^ c = s.toInt := by rw [← toInt_sshiftRight_eq, h]
  have hdvd : (2 : Int) ^ c ∣ (s <<< c).toInt := by
    have hmod := (toInt_shiftLeft_modEq s c).symm.dvd
    have hpow : (2 : Int) ^ c ∣ ((2 ^ 8 : Nat) : Int) := by
      exact_mod_cast Nat.pow_dvd_pow 2 (show c ≤ 8 by omega)
    have hsum := dvd_add (hpow.trans hmod) (Dvd.intro s.toInt rfl)
    rwa [sub_add_cancel] at hsum
  rw [← hq, mul_comm, Int.ediv_mul_cancel hdvd]

theorem stride_shiftRight (hc : c ≤ 7) (h : (s.sshiftRight c) <<< c = s) :
    s.toInt = 2 ^ c * (s.sshiftRight c).toInt := by
  have hmod := (toInt_shiftLeft_modEq (s.sshiftRight c) c).dvd
  rw [h, toInt_sshiftRight_eq] at hmod
  rw [toInt_sshiftRight_eq]
  have hpow : (2 : Int) ^ c ≤ 2 ^ 7 := by exact_mod_cast Nat.pow_le_pow_right (by decide) hc
  have hpos : (0 : Int) < 2 ^ c := by positivity
  have hsplit := Int.emod_add_mul_ediv s.toInt (2 ^ c)
  have hnonneg := Int.emod_nonneg s.toInt hpos.ne'
  have hlt := Int.emod_lt_of_pos s.toInt hpos
  -- the remainder is a multiple of 256 and less than 128
  have hrem : ((2 ^ 8 : Nat) : Int) ∣ s.toInt % 2 ^ c := by
    rw [← Int.dvd_neg]
    rwa [show 2 ^ c * (s.toInt / 2 ^ c) - s.toInt = -(s.toInt % 2 ^ c) by omega] at hmod
  have hzero := Int.eq_zero_of_dvd_of_nonneg_of_lt hnonneg (by norm_num; omega) hrem
  omega

/-- `w` is in the progression of stride `s` from `v`. -/
abbrev InLoop (v : BitVec 64) (s : Int) (w : BitVec 64) : Prop := Progression.Mem (2 ^ 64 : Nat) v.toInt s w.toInt

variable {v w : BitVec 64}

theorem inLoop_iff {s : Int} : InLoop v s w ↔ ∃ k : ℕ, w = v + BitVec.ofInt 64 (k * s) := by
  simp only [InLoop, Progression.Mem, eq_add_ofInt_iff]

theorem InLoop.add {s : Int} (h : InLoop v s w) (r : BitVec 64) : InLoop (v + r) s (w + r) := by
  obtain ⟨k, rfl⟩ := inLoop_iff.1 h
  exact inLoop_iff.2 ⟨k, by ac_rfl⟩

theorem InLoop.shiftLeft {s : Int} (h : InLoop v s w) (c : Nat) :
    InLoop (v <<< c) (2 ^ c * s) (w <<< c) := by
  refine (h.mul (2 ^ c)).residue (by positivity) (Int.gcd_dvd_right _ _) ?_ ?_
  · exact toInt_shiftLeft_modEq v c
  · exact toInt_shiftLeft_modEq w c

theorem gcd_stride_dvd (hs : s ≠ 0) : (Int.gcd s.toInt (2 ^ 64 : Nat) : Int) ∣ 2 ^ 7 := by
  refine Progression.gcd_two_pow_dvd (fun hzero => hs ?_) (natAbs_stride_le s)
  rw [← BitVec.toInt_inj]
  exact hzero.trans rfl

theorem ediv_mem {v w : Int} (hs : s ≠ 0) (hc : c ≤ 7)
    (h : Progression.Mem (2 ^ 64 : Nat) v (2 ^ c * s.toInt) w) :
    Progression.Mem (2 ^ 64 : Nat) (v / 2 ^ c) s.toInt (w / 2 ^ c) := by
  refine h.ediv (by positivity) (by positivity) ?_
  have hmul := mul_dvd_mul_left ((2 : Int) ^ c) (gcd_stride_dvd hs)
  refine hmul.trans ?_
  rw [← pow_add]
  exact_mod_cast Nat.pow_dvd_pow 2 (show c + 7 ≤ 64 by omega)

theorem InLoop.shiftRight (hs : s ≠ 0) (hc : c ≤ 7)
    (h : InLoop v (2 ^ c * s.toInt) w) : InLoop (v >>> c) s.toInt (w >>> c) := by
  have hpos : (0 : Int) < (2 ^ 64 : Nat) := by positivity
  have hnat := h.residue hpos (Int.gcd_dvd_right _ _) (modEq_toNat v).symm (modEq_toNat w).symm
  have hquot : ∀ u : BitVec 64, (u >>> c).toInt ≡ (u.toNat : Int) / 2 ^ c [ZMOD (2 ^ 64 : Nat)] := by
    intro u
    have hu := modEq_toNat (u >>> c)
    rw [BitVec.toNat_ushiftRight, Nat.shiftRight_eq_div_pow] at hu
    exact_mod_cast hu
  exact (ediv_mem hs hc hnat).residue hpos (Int.gcd_dvd_right _ _) (hquot v) (hquot w)

def ExtendsSign (extendSign : BitVec 64 → Int → Bool → BitVec 64) : Prop :=
  ∀ (v : BitVec 64) (nbytes : ℕ) (signExtend : Bool), 0 < nbytes →
    extendSign v nbytes signExtend =
      if signExtend then (v.setWidth (8 * nbytes)).signExtend 64 else (v.setWidth (8 * nbytes)).setWidth 64

variable {extendSign : BitVec 64 → Int → Bool → BitVec 64} {nbytes : ℕ}

theorem ExtendsSign.modEq (hext : ExtendsSign extendSign)
    (v : BitVec 64) (hn : 0 < nbytes) (signed : Bool) :
    (extendSign v nbytes signed).toInt ≡ v.toInt [ZMOD (2 ^ 8 : Nat)] := by
  have hlow : (extendSign v nbytes signed).setWidth 8 = v.setWidth 8 := by
    rw [hext v nbytes signed hn]
    ext i hi
    cases signed with
    | true =>
        simp only [if_true, BitVec.getElem_setWidth, BitVec.getLsbD_signExtend]
        simp [show i < 64 by omega, show i < 8 * nbytes by omega]
    | false => simp [show i < 64 by omega, show i < 8 * nbytes by omega]
  have hmod : ∀ u : BitVec 64, u.toInt ≡ ((u.setWidth 8).toNat : Int) [ZMOD (2 ^ 8 : Nat)] := by
    intro u
    have hu := (modEq_toNat u).of_dvd (show ((2 ^ 8 : Nat) : Int) ∣ (2 ^ 64 : Nat) by decide)
    rw [BitVec.toNat_setWidth, Int.natCast_mod]
    exact hu.trans (Int.mod_modEq _ _).symm
  rw [Int.ModEq, hmod, hlow]
  exact (hmod v).symm

theorem InLoop.extend_right (hext : ExtendsSign extendSign) (hs : s ≠ 0) (hn : 0 < nbytes) (signed : Bool)
    (h : InLoop v s.toInt w) : InLoop v s.toInt (extendSign w nbytes signed) :=
  h.residue (by positivity) ((gcd_stride_dvd hs).trans (by decide)) (Int.ModEq.refl _) (hext.modEq w hn signed)

theorem InLoop.extend (hext : ExtendsSign extendSign) (hs : s ≠ 0) (hn : 0 < nbytes) (signed : Bool)
    (h : InLoop v s.toInt w) : InLoop (extendSign v nbytes signed) s.toInt (extendSign w nbytes signed) :=
  (h.extend_right hext hs hn signed).residue (by positivity) ((gcd_stride_dvd hs).trans (by decide))
    (hext.modEq v hn signed) (Int.ModEq.refl _)

theorem InLoop.sshiftRight (hs : s ≠ 0) (hc : c ≤ 7)
    (h : InLoop v (2 ^ c * s.toInt) w) : InLoop (v.sshiftRight c) s.toInt (w.sshiftRight c) := by
  have hquot := ediv_mem hs hc h
  rwa [← toInt_sshiftRight_eq, ← toInt_sshiftRight_eq] at hquot

end IdaSdk.RegValue
