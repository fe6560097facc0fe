import IdaSdk.BinSearchModel
import Mathlib.Tactic.Common

/-!
What a scan of one page does. A scan either reports a full match or adds exactly the partial matches of
the page to the list; loops over patterns and offsets combine.
-/

namespace IdaSdk.BinSearch

/-- Of one pattern, the partial match that comes first has more bytes matched. -/
def Before (pm pm' : PartMatch) : Prop := pm.ptnIdx = pm'.ptnIdx → pm'.ptnOff < pm.ptnOff

/-- Of each pattern, the matches of the first scan come before those of the second one. -/
structure InOrder (le : Nat → Nat → Prop) (Full : Nat → Nat → Prop) (Part : PartMatch → Prop)
    (Full' : Nat → Nat → Prop) (Part' : PartMatch → Prop) : Prop where
  full : ∀ {idx ea ea'}, Full idx ea → Full' idx ea' → le ea ea'
  part : ∀ {pm pm'}, Part pm → Part' pm' → Before pm pm'

/-- `f` reports the address of a full match that is the first one of its pattern; otherwise there is none, and
`f` appends exactly the partial matches, those of one pattern in order. -/
structure ScanSpec (le : Nat → Nat → Prop) (f : List PartMatch → Scan) (Full : Nat → Nat → Prop)
    (Part : PartMatch → Prop) : Prop where
  found : ∀ {pms ea}, f pms = .found ea → ∃ idx, Full idx ea ∧ ∀ ea', Full idx ea' → le ea ea'
  more : ∀ {pms pms'}, f pms = .more pms' →
    ∃ fresh, pms' = pms ++ fresh ∧ fresh.Pairwise Before ∧ (∀ pm, pm ∈ fresh ↔ Part pm) ∧ ∀ idx ea, ¬ Full idx ea

namespace ScanSpec

variable {ι : Type} {le : Nat → Nat → Prop} {Full Full' : Nat → Nat → Prop} {Part Part' : PartMatch → Prop}

variable {f : List PartMatch → Scan}

theorem congr (h : ScanSpec le f Full Part) (hfull : ∀ idx ea, Full idx ea ↔ Full' idx ea)
    (hpart : ∀ pm, Part pm ↔ Part' pm) : ScanSpec le f Full' Part' where
  found hf := by
    obtain ⟨idx, hea, hfirst⟩ := h.found hf
    exact ⟨idx, (hfull idx _).mp hea, fun ea' hea' => hfirst ea' ((hfull idx ea').mpr hea')⟩
  more hf := by
    obtain ⟨fresh, happ, hord, hmem, hnone⟩ := h.more hf
    exact ⟨fresh, happ, hord, fun pm => by rw [hmem, hpart], fun idx ea hea => hnone idx ea ((hfull idx ea).mpr hea)⟩

theorem of_empty (hf : ∀ pms, f pms = .more pms) (hfull : ∀ idx ea, ¬ Full idx ea)
    (hpart : ∀ pm, ¬ Part pm) : ScanSpec le f Full Part := by
  refine ⟨fun {pms ea} h => ?_, fun {pms pms'} h => ⟨[], ?_, List.Pairwise.nil, fun pm => ?_, hfull⟩⟩
  · rw [hf] at h
    cases h
  · rw [hf] at h
    cases h
    rw [List.append_nil]
  · simpa using hpart pm

theorem andThen {g : List PartMatch → Scan} (hf : ScanSpec le f Full Part) (hg : ScanSpec le g Full' Part')
    (hord : InOrder le Full Part Full' Part') :
    ScanSpec le (fun pms => (f pms).andThen g) (fun idx ea => Full idx ea ∨ Full' idx ea)
      (fun pm => Part pm ∨ Part' pm) := by
  refine ⟨fun {pms ea} h => ?_, fun {pms pms'} h => ?_⟩
  · cases hfp : f pms with
    | found ea' =>
        obtain rfl : ea' = ea := by simpa [hfp, Scan.andThen] using h
        obtain ⟨idx, hea, hfirst⟩ := hf.found hfp
        exact ⟨idx, .inl hea, fun ea₁ hea₁ => hea₁.elim (hfirst ea₁) (hord.full hea)⟩
    | more pms₁ =>
        obtain ⟨fresh, -, -, -, hnone⟩ := hf.more hfp
        obtain ⟨idx, hea, hfirst⟩ := hg.found (show g pms₁ = .found ea by simpa [hfp, Scan.andThen] using h)
        exact ⟨idx, .inr hea, fun ea₁ hea₁ => hea₁.elim (fun hno => absurd hno (hnone idx ea₁)) (hfirst ea₁)⟩
  · cases hfp : f pms with
    | found ea' => simp [hfp, Scan.andThen] at h
    | more pms₁ =>
        obtain ⟨fresh₁, rfl, hord₁, hmem₁, hnone₁⟩ := hf.more hfp
        obtain ⟨fresh, rfl, hord₂, hmem, hnone⟩ := hg.more (show g (pms ++ fresh₁) = .more pms' by
          simpa [hfp, Scan.andThen] using h)
        refine ⟨fresh₁ ++ fresh, by rw [List.append_assoc], ?_, fun pm => ?_, fun idx ea hea => ?_⟩
        · refine List.pairwise_append.mpr ⟨hord₁, hord₂, fun pm hpm pm' hpm' => ?_⟩
          exact hord.part ((hmem₁ pm).mp hpm) ((hmem pm').mp hpm')
        · rw [List.mem_append, hmem, hmem₁]
        · exact hea.elim (hnone₁ idx ea) (hnone idx ea)

theorem each {f : ι → List PartMatch → Scan} {Full : ι → Nat → Nat → Prop} {Part : ι → PartMatch → Prop}
    (items : List ι) (h : ∀ i ∈ items, ScanSpec le (f i) (Full i) (Part i))
    (hord : items.Pairwise fun i j => InOrder le (Full i) (Part i) (Full j) (Part j)) :
    ScanSpec le (scanEach f items) (fun idx ea => ∃ i ∈ items, Full i idx ea) (fun pm => ∃ i ∈ items, Part i pm) := by
  induction items with
  | nil =>
      apply of_empty (fun pms => rfl)
      · simp
      · simp
  | cons i items ih =>
      obtain ⟨hi, hrest⟩ := List.pairwise_cons.mp hord
      have hboth := (h i (by simp)).andThen (ih (fun j hj => h j (by simp [hj])) hrest) (by
        refine ⟨fun {idx ea ea'} hea hea' => ?_, fun {pm pm'} hpm hpm' => ?_⟩
        · obtain ⟨j, hj, hea'⟩ := hea'
          exact (hi j hj).full hea hea'
        · obtain ⟨j, hj, hpm'⟩ := hpm'
          exact (hi j hj).part hpm hpm')
      refine hboth.congr (fun idx ea => ?_) (fun pm => ?_)
      · simp only [List.mem_cons, or_and_right, exists_or, exists_eq_left]
      · simp only [List.mem_cons, or_and_right, exists_or, exists_eq_left]

end ScanSpec

variable {le : Nat → Nat → Prop}

theorem keepMatch_spec {isMatch : Bool} {idx ptnSz rest : Nat} {foundEa : Nat} {pm : PartMatch}
    (hrefl : le foundEa foundEa) :
    ScanSpec le (keepMatch isMatch ptnSz rest foundEa pm)
      (fun i ea => i = idx ∧ ea = foundEa ∧ ptnSz ≤ rest ∧ isMatch = true)
      (fun pm' => pm' = pm ∧ rest < ptnSz ∧ isMatch = true) := by
  cases isMatch with
  | false =>
      apply ScanSpec.of_empty (fun pms => by simp [keepMatch])
      · simp
      · simp
  | true =>
      by_cases hlen : ptnSz ≤ rest
      · refine ⟨fun hf => ?_, fun hf => by simp [keepMatch, hlen] at hf⟩
        simp only [keepMatch, if_true, if_pos hlen, Scan.found.injEq] at hf
        subst hf
        exact ⟨idx, ⟨rfl, rfl, hlen, rfl⟩, fun ea' hea' => by rw [hea'.2.1]; exact hrefl⟩
      · refine ⟨fun hf => by simp [keepMatch, hlen] at hf, fun {pms pms'} hf => ?_⟩
        simp only [keepMatch, if_true, if_neg hlen, Scan.more.injEq] at hf
        refine ⟨[pm], hf.symm, List.pairwise_singleton _ _, fun pm' => ?_, fun i ea hea => hlen hea.2.2.1⟩
        rw [List.mem_singleton]
        simp [Nat.lt_of_not_le hlen]

variable {pms : List PartMatch} {finalize : PartMatch → Finalized}

theorem finalizeAll_cons {pm : PartMatch} :
    finalizeAll finalize (pm :: pms) =
      match finalize pm with
      | .ok => .found pm.matchEa
      | .failed => finalizeAll finalize pms
      | .again pm =>
        match finalizeAll finalize pms with
        | .found ea => .found ea
        | .more pms => .more (pm :: pms) := rfl

theorem finalizeAll_found {ea : Nat}
    (h : finalizeAll finalize pms = .found ea) :
    ∃ pm ∈ pms, finalize pm = .ok ∧ pm.matchEa = ea ∧
      (pms.Pairwise Before → ∀ pm' ∈ pms, finalize pm' = .ok → pm.ptnIdx = pm'.ptnIdx → pm'.ptnOff ≤ pm.ptnOff) := by
  induction pms with
  | nil => cases h
  | cons pm pms ih =>
      rw [finalizeAll_cons] at h
      -- a match behind one that is not completed
      have behind : finalize pm ≠ .ok → finalizeAll finalize pms = .found ea →
          ∃ pm' ∈ pm :: pms, finalize pm' = .ok ∧ pm'.matchEa = ea ∧
            ((pm :: pms).Pairwise Before →
              ∀ pm₁ ∈ pm :: pms, finalize pm₁ = .ok → pm'.ptnIdx = pm₁.ptnIdx → pm₁.ptnOff ≤ pm'.ptnOff) := by
        intro hne hrest
        obtain ⟨pm', hmem, hok, hea, hfirst⟩ := ih hrest
        refine ⟨pm', by simp [hmem], hok, hea, fun hord pm₁ hpm₁ hok₁ => ?_⟩
        rcases List.mem_cons.mp hpm₁ with rfl | hpm₁
        · exact absurd hok₁ hne
        · exact hfirst (List.pairwise_cons.mp hord).2 pm₁ hpm₁ hok₁
      cases hpm : finalize pm with
      | ok =>
          refine ⟨pm, by simp, hpm, by simpa [hpm] using h, fun hord pm₁ hpm₁ _ hidx => ?_⟩
          rcases List.mem_cons.mp hpm₁ with rfl | hpm₁
          · exact le_rfl
          · exact ((List.pairwise_cons.mp hord).1 pm₁ hpm₁ hidx).le
      | failed => exact behind (by simp [hpm]) (by simpa [hpm] using h)
      | again pm₁ =>
          refine behind (by simp [hpm]) ?_
          cases hrest : finalizeAll finalize pms with
          | found ea' => simpa [hpm, hrest] using h
          | more pms' => simp [hpm, hrest] at h

variable {pms' : List PartMatch}

theorem finalizeAll_more
    (h : finalizeAll finalize pms = .more pms') :
    (∀ pm, pm ∈ pms' ↔ ∃ pm₀ ∈ pms, finalize pm₀ = .again pm) ∧ ∀ pm ∈ pms, finalize pm ≠ .ok := by
  induction pms generalizing pms' with
  | nil =>
      cases h
      simp
  | cons pm pms ih =>
      rw [finalizeAll_cons] at h
      cases hpm : finalize pm with
      | ok => simp [hpm] at h
      | failed =>
          obtain ⟨hmem, hok⟩ := ih (by simpa [hpm] using h)
          exact ⟨fun pm' => by simp [hmem, hpm], by simpa [hpm] using hok⟩
      | again pm₁ =>
          cases hrest : finalizeAll finalize pms with
          | found ea' => simp [hpm, hrest] at h
          | more pms₁ =>
              obtain ⟨hmem, hok⟩ := ih hrest
              obtain rfl : pm₁ :: pms₁ = pms' := by simpa [hpm, hrest] using h
              refine ⟨fun pm' => ?_, by simpa [hpm] using hok⟩
              rw [List.mem_cons, hmem]
              simp only [List.mem_cons, or_and_right, exists_or, exists_eq_left, hpm, Finalized.again.injEq]
              rw [eq_comm]

/-- A partial match that goes on has `n` more bytes matched. -/
def AdvancesBy (n : Nat) (finalize : PartMatch → Finalized) : Prop :=
  ∀ {pm pm'}, finalize pm = .again pm' → pm'.ptnIdx = pm.ptnIdx ∧ pm'.ptnOff = pm.ptnOff + n

theorem finalizeAll_pairwise {n : Nat} (hadv : AdvancesBy n finalize) (hord : pms.Pairwise Before) (h : finalizeAll finalize pms = .more pms') :
    pms'.Pairwise Before := by
  induction pms generalizing pms' with
  | nil =>
      cases h
      simp
  | cons pm pms ih =>
      rw [finalizeAll_cons] at h
      obtain ⟨hpms, hrestord⟩ := List.pairwise_cons.mp hord
      cases hpm : finalize pm with
      | ok => simp [hpm] at h
      | failed => exact ih hrestord (by simpa [hpm] using h)
      | again pm₁ =>
          cases hrest : finalizeAll finalize pms with
          | found ea' => simp [hpm, hrest] at h
          | more pms₁ =>
              obtain rfl : pm₁ :: pms₁ = pms' := by simpa [hpm, hrest] using h
              refine List.pairwise_cons.mpr ⟨fun pm' hpm' => ?_, ih hrestord hrest⟩
              obtain ⟨pm₀, hpm₀, hagain⟩ := ((finalizeAll_more hrest).1 pm').mp hpm'
              obtain ⟨hidx₁, hoff₁⟩ := hadv hpm
              obtain ⟨hidx, hoff⟩ := hadv hagain
              intro heq
              have hlt := hpms pm₀ hpm₀ (by rw [← hidx₁, ← hidx, heq])
              omega

variable {Full : Nat → Nat → Prop} {Part : PartMatch → Prop} {matchComplex matchSimple : List PartMatch → Scan}

theorem scanPage_found {ea : Nat}
    (hspec : ScanSpec le (fun pms => (matchSimple pms).andThen matchComplex) Full Part)
    (h : scanPage finalize matchSimple matchComplex pms = .found ea) :
    (∃ pm ∈ pms, finalize pm = .ok ∧ pm.matchEa = ea ∧
        (pms.Pairwise Before → ∀ pm' ∈ pms, finalize pm' = .ok → pm.ptnIdx = pm'.ptnIdx → pm'.ptnOff ≤ pm.ptnOff)) ∨
      (∀ pm ∈ pms, finalize pm ≠ .ok) ∧ ∃ idx, Full idx ea ∧ ∀ ea', Full idx ea' → le ea ea' := by
  cases hfin : finalizeAll finalize pms with
  | found ea' =>
      obtain rfl : ea' = ea := by simpa [scanPage, hfin, Scan.andThen] using h
      exact .inl (finalizeAll_found hfin)
  | more pms₁ =>
      rw [scanPage, hfin] at h
      exact .inr ⟨(finalizeAll_more hfin).2, hspec.found h⟩

theorem scanPage_more
    (hspec : ScanSpec le (fun pms => (matchSimple pms).andThen matchComplex) Full Part)
    (h : scanPage finalize matchSimple matchComplex pms = .more pms') :
    (∀ pm, pm ∈ pms' ↔ (∃ pm₀ ∈ pms, finalize pm₀ = .again pm) ∨ Part pm) ∧
      (∀ pm ∈ pms, finalize pm ≠ .ok) ∧ ∀ idx ea, ¬ Full idx ea := by
  cases hfin : finalizeAll finalize pms with
  | found ea => simp [scanPage, hfin, Scan.andThen] at h
  | more pms₁ =>
      rw [scanPage, hfin] at h
      obtain ⟨hkept, hok⟩ := finalizeAll_more hfin
      obtain ⟨fresh, rfl, -, hmem, hnone⟩ := hspec.more h
      refine ⟨fun pm => ?_, hok, hnone⟩
      rw [List.mem_append, hmem, hkept]

theorem scanPage_pairwise {n : Nat}
    (hspec : ScanSpec le (fun pms => (matchSimple pms).andThen matchComplex) Full Part)
    (hadv : AdvancesBy n finalize) (hpos : ∀ pm ∈ pms, 0 < pm.ptnOff) (hpart : ∀ pm, Part pm → pm.ptnOff ≤ n)
    (hord : pms.Pairwise Before) (h : scanPage finalize matchSimple matchComplex pms = .more pms') :
    pms'.Pairwise Before := by
  cases hfin : finalizeAll finalize pms with
  | found ea => simp [scanPage, hfin, Scan.andThen] at h
  | more pms₁ =>
      rw [scanPage, hfin] at h
      obtain ⟨fresh, rfl, hfresh, hmem, -⟩ := hspec.more h
      refine List.pairwise_append.mpr ⟨finalizeAll_pairwise hadv hord hfin, hfresh, fun pm hpm pm' hpm' _ => ?_⟩
      obtain ⟨pm₀, hpm₀, hagain⟩ := ((finalizeAll_more hfin).1 pm).mp hpm
      have hlong := (hadv hagain).2
      have hold := hpos pm₀ hpm₀
      have hshort := hpart pm' ((hmem pm').mp hpm')
      omega

section
variable [PageSize]

theorem pagesz_pos : 0 < PAGESZ := by
  obtain ⟨k, -, hk⟩ := PageSize.pow2
  rw [PAGESZ, hk]
  exact Nat.two_pow_pos k

theorem pagesz_lt_eaModulus : PAGESZ < eaModulus := by
  obtain ⟨k, hle, hk⟩ := PageSize.pow2
  rw [PAGESZ, hk]
  exact Nat.pow_lt_pow_right (by decide) (by omega)

variable (val : Nat)

theorem alignDown_le : alignDown val ≤ val := Nat.div_mul_le_self val PAGESZ

theorem dvd_alignDown : PAGESZ ∣ alignDown val := Nat.dvd_mul_left _ _

theorem lt_alignDown_add : val < alignDown val + PAGESZ := Nat.lt_div_mul_add pagesz_pos

theorem alignDown_add {x n : Nat} (hx : PAGESZ ∣ x) (hn : n < PAGESZ) : alignDown (x + n) = x := by
  obtain ⟨c, rfl⟩ := hx
  rw [alignDown, Nat.mul_add_div pagesz_pos, Nat.div_eq_of_lt hn, Nat.add_zero, Nat.mul_comm]

theorem add_pagesz_le {x y : Nat} (hx : PAGESZ ∣ x) (hy : PAGESZ ∣ y) (hlt : x < y) : x + PAGESZ ≤ y := by
  have hle := Nat.le_of_dvd (by omega) (Nat.dvd_sub hy hx)
  omega

end

/-! ### Matching against memory -/

section
variable {flags : SearchFlags} {ptns : List CompiledBinpat} {ptn : CompiledBinpat} {mem : Nat → UInt8}

/-- `n` bytes of the pattern from `ptnOff` match the memory at `ea`. -/
def MatchesAt (flags : SearchFlags) (ptn : CompiledBinpat) (mem : Nat → UInt8) (ea ptnOff n : Nat) : Prop :=
  ∀ i < n, byteMatches flags ptn (ptnOff + i) (mem (ea + i)) = true

variable {n off : Nat}

theorem MatchesAt.mono {ea k : Nat} (h : MatchesAt flags ptn mem ea off n) (hk : k ≤ n) :
    MatchesAt flags ptn mem ea off k := fun i hi => h i (by omega)

theorem matchesAt_add {ea off n k : Nat} :
    MatchesAt flags ptn mem ea off (n + k) ↔
      MatchesAt flags ptn mem ea off n ∧ MatchesAt flags ptn mem (ea + n) (off + n) k := by
  constructor
  · intro h
    refine ⟨h.mono (by omega), fun i hi => ?_⟩
    have hi' := h (n + i) (by omega)
    rwa [← Nat.add_assoc, ← Nat.add_assoc] at hi'
  · rintro ⟨h₁, h₂⟩ i hi
    by_cases hin : i < n
    · exact h₁ i hin
    · have hi' := h₂ (i - n) (by omega)
      rwa [Nat.add_assoc, Nat.add_assoc, Nat.add_sub_cancel' (by omega)] at hi'

theorem matchPattern_iff {pageEa pageOff off n : Nat} :
    matchPattern flags (fun o => mem (pageEa + o)) pageOff ptn off n = true ↔
      MatchesAt flags ptn mem (pageEa + pageOff) off n := by
  simp only [matchPattern, List.all_eq_true, List.mem_range, MatchesAt, Nat.add_assoc]

theorem byteMatches_simple (hcase : flags.caseSensitive = true) (hdef : ptn.allBytesDefined = true) (i : Nat)
    (c : UInt8) : byteMatches flags ptn i c = (c == ptn.bytes.getD i 0) := by
  simp [byteMatches, bytesMatchForBinSearch, hcase, hdef]

theorem memcmpEq_iff (hcase : flags.caseSensitive = true) (hdef : ptn.allBytesDefined = true)
    {pageEa pageOff off n : Nat} :
    memcmpEq (fun o => mem (pageEa + o)) pageOff ptn off n = true ↔
      MatchesAt flags ptn mem (pageEa + pageOff) off n := by
  simp only [memcmpEq, List.all_eq_true, List.mem_range, MatchesAt, byteMatches_simple hcase hdef, Nat.add_assoc]

variable {ch : UInt8} {page : Page}

theorem memchr_none (h : memchr page off ch n = none) :
    ∀ o, off ≤ o → o < off + n → page o ≠ ch := by
  intro o hle hlt
  rw [memchr, List.find?_eq_none] at h
  simpa using h o (List.mem_range'_1.mpr ⟨hle, hlt⟩)

theorem memchr_some {j : Nat} (h : memchr page off ch n = some j) :
    off ≤ j ∧ j < off + n ∧ ∀ o, off ≤ o → o < j → page o ≠ ch := by
  rw [memchr, List.find?_eq_some_iff_append] at h
  obtain ⟨-, as, bs, hsplit, hbefore⟩ := h
  have hj : j ∈ List.range' off n := by
    rw [hsplit]
    simp
  obtain ⟨hle, hlt⟩ := List.mem_range'_1.mp hj
  refine ⟨hle, hlt, fun o ho hoj => ?_⟩
  have hmem : o ∈ as := by
    have ho' : o ∈ List.range' off n := List.mem_range'_1.mpr ⟨ho, by omega⟩
    have hsorted : (as ++ j :: bs).Pairwise (· < ·) := by
      rw [← hsplit]
      exact List.pairwise_lt_range'
    rw [hsplit, List.mem_append, List.mem_cons] at ho'
    rcases ho' with ho' | rfl | ho'
    · exact ho'
    · omega
    · have hlt := (List.pairwise_cons.mp (List.pairwise_append.mp hsorted).2.1).1 o ho'
      omega
  simpa using hbefore o hmem

theorem memrchr_none (h : memrchr page off ch n = none) :
    ∀ o, off ≤ o → o < off + n → page o ≠ ch := by
  intro o hle hlt
  rw [memrchr, List.find?_eq_none] at h
  simpa using h o (List.mem_reverse.mpr (List.mem_range'_1.mpr ⟨hle, hlt⟩))

theorem memrchr_some {j : Nat} (h : memrchr page off ch n = some j) :
    off ≤ j ∧ j < off + n ∧ ∀ o, j < o → o < off + n → page o ≠ ch := by
  rw [memrchr, List.find?_eq_some_iff_append] at h
  obtain ⟨-, as, bs, hsplit, hbefore⟩ := h
  have hj : j ∈ List.range' off n := by
    rw [← List.mem_reverse, hsplit]
    simp
  obtain ⟨hle, hlt⟩ := List.mem_range'_1.mp hj
  refine ⟨hle, hlt, fun o ho hoj => ?_⟩
  have hmem : o ∈ as := by
    have ho' : o ∈ (List.range' off n).reverse := List.mem_reverse.mpr (List.mem_range'_1.mpr ⟨by omega, hoj⟩)
    have hsorted : (as ++ j :: bs).Pairwise (· > ·) := by
      rw [← hsplit]
      exact List.pairwise_reverse.mpr List.pairwise_lt_range'
    rw [hsplit, List.mem_append, List.mem_cons] at ho'
    rcases ho' with ho' | rfl | ho'
    · exact ho'
    · omega
    · have hlt := (List.pairwise_cons.mp (List.pairwise_append.mp hsorted).2.1).1 o ho'
      omega
  simpa using hbefore o hmem

/-- The patterns that are searched for: empty ones are ignored. -/
def Usable (ptns : List CompiledBinpat) (idx : Nat) : Prop :=
  idx < ptns.length ∧ 0 < (ptnAt ptns idx).bytes.length

variable {idx : Nat}

theorem mem_simplePtns :
    idx ∈ simplePtns flags ptns ↔
      Usable ptns idx ∧ flags.caseSensitive = true ∧ (ptnAt ptns idx).allBytesDefined = true := by
  simp [simplePtns, Usable, List.length_pos_iff, and_assoc]

theorem mem_complexPtns :
    idx ∈ complexPtns flags ptns ↔
      Usable ptns idx ∧ ¬ (flags.caseSensitive = true ∧ (ptnAt ptns idx).allBytesDefined = true) := by
  cases hcase : flags.caseSensitive <;> simp [complexPtns, Usable, List.length_pos_iff, and_assoc, hcase]

theorem nodup_simplePtns : (simplePtns flags ptns).Nodup := List.nodup_range.filter _

theorem nodup_complexPtns : (complexPtns flags ptns).Nodup := List.nodup_range.filter _

theorem mem_ptns_iff : idx ∈ simplePtns flags ptns ∨ idx ∈ complexPtns flags ptns ↔ Usable ptns idx := by
  rw [mem_simplePtns, mem_complexPtns, ← and_or_left]
  exact and_iff_left (em _)

theorem ne_of_mem_ptns {idx' : Nat} (h : idx ∈ simplePtns flags ptns) (h' : idx' ∈ complexPtns flags ptns) :
    idx ≠ idx' := by
  intro heq
  subst heq
  exact (mem_complexPtns.1 h').2 (mem_simplePtns.1 h).2

/-- Pattern `idx` occurs at `ea` inside `[a, b)`. -/
def OccursAt (flags : SearchFlags) (ptns : List CompiledBinpat) (mem : Nat → UInt8) (a b idx ea : Nat) : Prop :=
  Usable ptns idx ∧ a ≤ ea ∧ ea + (ptnAt ptns idx).bytes.length ≤ b ∧
    MatchesAt flags (ptnAt ptns idx) mem ea 0 (ptnAt ptns idx).bytes.length

/-- Some pattern occurs at `ea` inside `[a, b)`. -/
def OccursIn (flags : SearchFlags) (ptns : List CompiledBinpat) (mem : Nat → UInt8) (a b ea : Nat) : Prop :=
  ∃ idx, OccursAt flags ptns mem a b idx ea

end

end IdaSdk.BinSearch
