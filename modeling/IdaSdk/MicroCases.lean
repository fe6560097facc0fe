import Mathlib.Data.List.Nodup
import IdaSdk.MicroModel

/-!
Which switch operands and scattered operands the verifier accepts.
-/

namespace IdaSdk.Micro
open Verdict

/-! ### Switch operands -/

/-- Every list of values has a target and there is at least one; there is at most one default case and it is not alone;
no value and no target occurs twice, and the targets are blocks. -/
structure Mcases.WellFormed (cases : Mcases) (qty : Nat) : Prop where
  lengths : cases.targets.length = cases.values.length
  nonempty : cases.targets ≠ []
  one_default : cases.values.countP List.isEmpty ≤ 1
  not_default_alone : cases.values ≠ [[]]
  distinct_values : cases.values.flatten.Nodup
  distinct_targets : cases.targets.Nodup
  blocks : ∀ b ∈ cases.targets, 0 < b ∧ b < qty

theorem insertValues_eq_ok {seen vals seen' : List Int} :
    insertValues seen vals = .ok seen' ↔ (vals.Nodup ∧ vals.Disjoint seen) ∧ seen' = vals.reverse ++ seen := by
  induction vals generalizing seen with
  | nil => simp [insertValues, eq_comm]
  | cons val vals ih =>
      rw [insertValues]
      split
      · next h => simp [List.disjoint_cons_left, h]
      rename_i h
      rw [ih, List.nodup_cons, List.disjoint_cons_left, List.disjoint_cons_right, List.reverse_cons,
        List.append_assoc]
      simp only [List.singleton_append]
      tauto

/-- What the scan knows after some cases, and what it has found out about them. -/
def scanned (values : List (List Int)) (targets : List Int) : CaseScan :=
  ⟨values.any List.isEmpty, values.flatten.reverse, targets.reverse⟩

structure Scannable (qty : Nat) (values : List (List Int)) (targets : List Int) : Prop where
  one_default : values.countP List.isEmpty ≤ 1
  distinct_values : values.flatten.Nodup
  distinct_targets : targets.Nodup
  blocks : ∀ b ∈ targets, 0 < b ∧ b < qty

/-- What a case adds to the cases that were scanned. -/
structure NewCase (qty : Nat) (values : List (List Int)) (targets v : List Int) (b : Int) : Prop where
  one_default : ¬(v.isEmpty = true ∧ values.any List.isEmpty = true)
  distinct_values : v.Nodup ∧ v.Disjoint values.flatten
  block : 0 < b ∧ b < qty
  new_target : b ∉ targets

variable {values : List (List Int)} {qty : Nat}

theorem scannable_concat {targets v : List Int} {b : Int} :
    Scannable qty (values ++ [v]) (targets ++ [b]) ↔ Scannable qty values targets ∧ NewCase qty values targets v b := by
  have hdefault : (values ++ [v]).countP List.isEmpty ≤ 1 ↔
      values.countP List.isEmpty ≤ 1 ∧ ¬(v.isEmpty = true ∧ values.any List.isEmpty = true) := by
    have hany : values.any List.isEmpty = true ↔ 0 < values.countP List.isEmpty := by
      rw [List.countP_pos_iff, List.any_eq_true]
    rw [List.countP_append, List.countP_singleton, hany]
    by_cases hv : v.isEmpty = true
    · rw [if_pos hv]
      simp only [hv, true_and]
      omega
    · rw [if_neg hv, Nat.add_zero]
      exact ⟨fun h => ⟨h, fun h' => hv h'.1⟩, And.left⟩
  have hvalues : (values ++ [v]).flatten.Nodup ↔ values.flatten.Nodup ∧ v.Nodup ∧ v.Disjoint values.flatten := by
    rw [List.flatten_append, List.flatten_singleton, List.nodup_append', List.disjoint_comm]
  have htargets : (targets ++ [b]).Nodup ↔ targets.Nodup ∧ b ∉ targets := by
    rw [← List.concat_eq_append, List.nodup_concat, and_comm]
  constructor
  · rintro ⟨h1, h2, h3, h4⟩
    obtain ⟨h1, h1'⟩ := hdefault.mp h1
    obtain ⟨h2, h2'⟩ := hvalues.mp h2
    obtain ⟨h3, h3'⟩ := htargets.mp h3
    exact ⟨⟨h1, h2, h3, fun c hc => h4 c (List.mem_append_left _ hc)⟩, h1', h2', h4 b (by simp), h3'⟩
  · rintro ⟨⟨h1, h2, h3, h4⟩, h1', h2', h4', h3'⟩
    refine ⟨hdefault.mpr ⟨h1, h1'⟩, hvalues.mpr ⟨h2, h2'⟩, htargets.mpr ⟨h3, h3'⟩, fun c hc => ?_⟩
    rcases List.mem_append.mp hc with hc | hc
    · exact h4 c hc
    · rw [List.mem_singleton.mp hc]
      exact h4'

variable {cases : Mcases}

theorem verifyCase_eq_ok {k : Nat} {targets v : List Int} {b : Int}
    (hv : cases.values[k]? = some v) (hb : cases.targets[k]? = some b) {s : CaseScan} :
    cases.verifyCase qty (scanned values targets) k = .ok s ↔
      NewCase qty values targets v b ∧ s = scanned (values ++ [v]) (targets ++ [b]) := by
  have hdisjoint : v.Disjoint values.flatten.reverse ↔ v.Disjoint values.flatten := by simp [List.Disjoint]
  have hscanned : scanned (values ++ [v]) (targets ++ [b]) =
      ⟨values.any List.isEmpty || v.isEmpty, v.reverse ++ values.flatten.reverse, b :: targets.reverse⟩ := by
    simp [scanned]
  rw [hscanned]
  simp only [Mcases.verifyCase, bind_eq_ok, readAt_eq_ok, exists_unit, interrIf_eq_ok, insertValues_eq_ok,
    Int.natCast_nonneg, true_and, Int.toNat_natCast, hv, hb, Option.some.injEq, exists_eq_left', Except.ok.injEq]
  simp only [scanned, hdisjoint, Bool.and_eq_false_iff, Bool.or_eq_false_iff, decide_eq_false_iff_not,
    List.contains_eq_mem, List.mem_reverse]
  constructor
  · rintro ⟨hdefault, _, ⟨hvalues, rfl⟩, hblock, hnew, rfl⟩
    refine ⟨⟨?_, hvalues, by omega, hnew⟩, rfl⟩
    rintro ⟨hempty, hany⟩
    rcases hdefault with h | h
    · rw [hempty] at h
      cases h
    · rw [hany] at h
      cases h
  · rintro ⟨⟨hdefault, hvalues, hblock, hnew⟩, rfl⟩
    refine ⟨?_, _, ⟨hvalues, rfl⟩, by omega, hnew, rfl⟩
    cases hempty : v.isEmpty with
    | false => exact .inl rfl
    | true =>
        right
        cases hany : values.any List.isEmpty with
        | false => rfl
        | true => exact absurd ⟨hempty, hany⟩ hdefault

theorem scan_eq_ok (hlengths : cases.targets.length = cases.values.length) {k : Nat}
    (hk : k ≤ cases.targets.length) {s : CaseScan} :
    (List.range k).foldlM (cases.verifyCase qty) ⟨false, [], []⟩ = .ok s ↔
      Scannable qty (cases.values.take k) (cases.targets.take k) ∧
        s = scanned (cases.values.take k) (cases.targets.take k) := by
  induction k generalizing s with
  | zero =>
      have hnil : Scannable qty [] [] := ⟨by simp, by simp, by simp, by simp⟩
      rw [List.take_zero, List.take_zero, and_iff_right hnil]
      exact ⟨fun h => (Except.ok.inj h).symm, fun h => congrArg Except.ok h.symm⟩
  | succ k ih =>
      have hv := List.getElem?_eq_getElem (show k < cases.values.length by omega)
      have hb := List.getElem?_eq_getElem (show k < cases.targets.length by omega)
      generalize cases.values[k] = v at hv
      generalize cases.targets[k] = b at hb
      have htakev : cases.values.take (k + 1) = cases.values.take k ++ [v] := by rw [List.take_add_one, hv]; rfl
      have htakeb : cases.targets.take (k + 1) = cases.targets.take k ++ [b] := by rw [List.take_add_one, hb]; rfl
      have hlast : ∀ s', [k].foldlM (cases.verifyCase qty) s' = cases.verifyCase qty s' k := fun s' => by simp
      rw [List.range_succ, List.foldlM_append, bind_eq_ok, htakev, htakeb, scannable_concat]
      constructor
      · rintro ⟨s', hs', hs⟩
        obtain ⟨hscan, rfl⟩ := (ih (by omega)).mp hs'
        rw [hlast, verifyCase_eq_ok hv hb] at hs
        exact ⟨⟨hscan, hs.1⟩, hs.2⟩
      · rintro ⟨⟨hscan, hnew⟩, hs⟩
        refine ⟨_, (ih (by omega)).mpr ⟨hscan, rfl⟩, ?_⟩
        rw [hlast, verifyCase_eq_ok hv hb]
        exact ⟨hnew, hs⟩

theorem Mcases.verify_eq_ok : cases.verify qty = .ok () ↔ cases.WellFormed qty := by
  simp only [Mcases.verify, bind_eq_ok, exists_unit, interrIf_eq_ok, decide_eq_false_iff_not, ne_eq, not_not]
  constructor
  · rintro ⟨hlengths, hne, hsingle, s, hs, -⟩
    obtain ⟨hscan, -⟩ := (scan_eq_ok hlengths (Nat.le_refl _)).mp hs
    rw [List.take_length, hlengths, List.take_length] at hscan
    refine ⟨hlengths, mt List.length_eq_zero_iff.mpr hne, hscan.one_default, ?_, hscan.distinct_values,
      hscan.distinct_targets, hscan.blocks⟩
    intro halone
    rw [hlengths, halone] at hsingle
    simp [Mcases.verifySingle, halone, readAt, interrIf, bind, Except.bind] at hsingle
  · intro h
    refine ⟨h.lengths, mt List.length_eq_zero_iff.mp h.nonempty, ?_, _, (scan_eq_ok h.lengths (Nat.le_refl _)).mpr
      ⟨?_, rfl⟩, trivial⟩
    · unfold Mcases.verifySingle
      split
      · next hone =>
          obtain ⟨v, hv⟩ := List.length_eq_one_iff.mp (h.lengths ▸ hone)
          have hempty : v.isEmpty = false := by
            by_contra hempty
            rw [Bool.not_eq_false, List.isEmpty_iff] at hempty
            exact h.not_default_alone (by rw [hv, hempty])
          simp only [bind_eq_ok, readAt_eq_ok, interrIf_eq_ok]
          exact ⟨v, ⟨by decide, by rw [hv]; rfl⟩, hempty⟩
      · rfl
    · rw [List.take_length, h.lengths, List.take_length]
      exact ⟨h.one_default, h.distinct_values, h.distinct_targets, h.blocks⟩

def ALOC_STACK : Int := 1
def ALOC_DIST : Int := 2
def ALOC_REG1 : Int := 3

/-- `argpart_t`. -/
structure Argpart where
  type : Int
  off : UInt16
  size : UInt16

variable (p : Argpart)

def Argpart.is_stkoff : Bool := p.type = ALOC_STACK

def Argpart.is_reg1 : Bool := p.type = ALOC_REG1

/-- A location and the parts of a scattered one. -/
structure Vdloc where
  type : Int
  scattered : List Argpart

/-- The loop over the parts; `last` is the end of the part before. -/
def verifyParts (last : UInt16) : List Argpart → Verdict Unit
  | [] => .ok ()
  | p :: parts => do
    interrIf (p.off < last) 51136
    interrIf (p.off + p.size < p.off) 51137
    interrIf (!p.is_stkoff && !p.is_reg1) 51138
    verifyParts (p.off + p.size) parts

def Vdloc.verify (scif : Vdloc) : Verdict Unit := do
  interrIf (scif.type ≠ ALOC_DIST) 51135
  verifyParts 0 scif.scattered

/-- The end of a part, without the wrap of its type. -/
def Argpart.stop : Nat := p.off.toNat + p.size.toNat

def Argpart.Simple : Prop := (p.is_stkoff = true ∨ p.is_reg1 = true) ∧ p.stop < 2 ^ 16

theorem Argpart.stop_lt_iff {p : Argpart} : ¬ p.off + p.size < p.off ↔ p.stop < 2 ^ 16 := by
  have hoff := p.off.toNat_lt
  have hsize := p.size.toNat_lt
  rw [UInt16.lt_iff_toNat_lt, UInt16.toNat_add, Argpart.stop]
  omega

theorem Argpart.toNat_end {p : Argpart} (h : p.stop < 2 ^ 16) : (p.off + p.size).toNat = p.stop := by
  rw [UInt16.toNat_add, ← Argpart.stop, Nat.mod_eq_of_lt h]

theorem verifyParts_eq_ok {last : UInt16} {parts : List Argpart} : verifyParts last parts = .ok () ↔
    (∀ p ∈ parts, last.toNat ≤ p.off.toNat) ∧ (∀ p ∈ parts, p.Simple) ∧
      parts.Pairwise (fun p q => p.stop ≤ q.off.toNat) := by
  induction parts generalizing last with
  | nil => simp [verifyParts]
  | cons p parts ih =>
      have hsimple : (!p.is_stkoff && !p.is_reg1) = false ↔ p.is_stkoff = true ∨ p.is_reg1 = true := by
        cases p.is_stkoff <;> cases p.is_reg1 <;> simp
      simp only [verifyParts, bind_eq_ok, exists_unit, interrIf_eq_ok, decide_eq_false_iff_not, hsimple,
        Argpart.stop_lt_iff, ih, List.forall_mem_cons, List.pairwise_cons, Argpart.Simple]
      rw [UInt16.lt_iff_toNat_lt, Nat.not_lt]
      constructor
      · rintro ⟨hlast, hstop, hloc, hfirst, hrest, hpairs⟩
        rw [Argpart.toNat_end hstop] at hfirst
        refine ⟨⟨hlast, fun q hq => ?_⟩, ⟨⟨hloc, hstop⟩, hrest⟩, hfirst, hpairs⟩
        have hq := hfirst q hq
        unfold Argpart.stop at hq
        omega
      · rintro ⟨⟨hlast, -⟩, ⟨⟨hloc, hstop⟩, hrest⟩, hfirst, hpairs⟩
        rw [Argpart.toNat_end hstop]
        exact ⟨hlast, hstop, hloc, hfirst, hrest, hpairs⟩

/-- The verifier accepts exactly the well formed switch operands, and of the scattered operands exactly those whose
parts are simple locations that end below `2 ^ 16`, in order and apart from each other. -/
theorem verify_lists (cases : Mcases) (qty : Nat) (scif : Vdloc) :
    (cases.verify qty = .ok () ↔ cases.WellFormed qty) ∧
      (scif.verify = .ok () ↔ scif.type = ALOC_DIST ∧ (∀ p ∈ scif.scattered, p.Simple) ∧
        scif.scattered.Pairwise (fun p q => p.stop ≤ q.off.toNat)) := by
  refine ⟨Mcases.verify_eq_ok, ?_⟩
  simp only [Vdloc.verify, bind_eq_ok, exists_unit, interrIf_eq_ok, decide_eq_false_iff_not, ne_eq, not_not,
    verifyParts_eq_ok]
  have hfirst : ∀ p ∈ scif.scattered, (0 : UInt16).toNat ≤ p.off.toNat := fun p _ => Nat.zero_le _
  rw [and_iff_right hfirst]

example : (Mcases.mk [[1, 2], [], [3]] [1, 2, 4]).verify 5 = .ok () := rfl

example : (Mcases.mk [[1, 2], [2]] [1, 2]).verify 5 = .error (.interr 50751) := rfl

end IdaSdk.Micro
