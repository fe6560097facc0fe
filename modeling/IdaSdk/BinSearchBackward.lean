import IdaSdk.BinSearchLowest

/-!
The backward matcher on one range. It goes from page to page downwards; between two pages the list of
partial matches holds exactly the pattern suffixes that begin at the page boundary, longest first.
-/

namespace IdaSdk.BinSearch.Backward

section
variable {flags : SearchFlags} {ptns : List CompiledBinpat} {mem : Nat → UInt8} {pageEa pageOff lastOff : Nat}

/-- The place where a pattern begins that ends at `y`, as an address of 64 bits. -/
def startOf (ptns : List CompiledBinpat) (idx y : Nat) : Nat :=
  (y + (eaModulus - (ptnAt ptns idx).bytes.length % eaModulus)) % eaModulus

variable {idx : Nat}

theorem startOf_add {y : Nat} (hlen : (ptnAt ptns idx).bytes.length ≤ y) (hy : y < eaModulus) :
    startOf ptns idx y + (ptnAt ptns idx).bytes.length = y := by
  unfold startOf
  rw [Nat.mod_eq_of_lt (show (ptnAt ptns idx).bytes.length < eaModulus by omega)]
  have hsum : y + (eaModulus - (ptnAt ptns idx).bytes.length) =
      y - (ptnAt ptns idx).bytes.length + eaModulus := by omega
  rw [hsum, Nat.add_mod_right, Nat.mod_eq_of_lt (by omega)]
  omega

/-- A full match of pattern `idx` that ends at page offset `e`. -/
def FullAt (flags : SearchFlags) (ptns : List CompiledBinpat) (mem : Nat → UInt8) (pageEa pageOff idx e : Nat)
    (ea : Nat) : Prop :=
  ea + (ptnAt ptns idx).bytes.length = pageEa + e ∧ (ptnAt ptns idx).bytes.length ≤ e - pageOff ∧
    MatchesAt flags (ptnAt ptns idx) mem ea 0 (ptnAt ptns idx).bytes.length

/-- A partial match of pattern `idx` that ends at page offset `e`. -/
def PartAt (flags : SearchFlags) (ptns : List CompiledBinpat) (mem : Nat → UInt8) (pageEa pageOff idx e : Nat)
    (pm : PartMatch) : Prop :=
  pm = ⟨startOf ptns idx (pageEa + e), idx, e - pageOff⟩ ∧ e - pageOff < (ptnAt ptns idx).bytes.length ∧
    MatchesAt flags (ptnAt ptns idx) mem (pageEa + pageOff) ((ptnAt ptns idx).bytes.length - (e - pageOff)) (e - pageOff)

variable {e : Nat}

theorem scanAt_spec {foundEa : Nat} {isMatch : Bool} (he : pageOff < e)
    (hfound : (ptnAt ptns idx).bytes.length ≤ e - pageOff → foundEa + (ptnAt ptns idx).bytes.length = pageEa + e)
    (hmatch : isMatch = true ↔ MatchesAt flags (ptnAt ptns idx) mem
      (pageEa + (e - min (e - pageOff) (ptnAt ptns idx).bytes.length))
      ((ptnAt ptns idx).bytes.length - min (e - pageOff) (ptnAt ptns idx).bytes.length)
      (min (e - pageOff) (ptnAt ptns idx).bytes.length)) :
    ScanSpec (· ≥ ·) (keepMatch isMatch (ptnAt ptns idx).bytes.length (e - pageOff) foundEa
        ⟨startOf ptns idx (pageEa + e), idx, min (e - pageOff) (ptnAt ptns idx).bytes.length⟩)
      (fun i ea => i = idx ∧ FullAt flags ptns mem pageEa pageOff idx e ea)
      (PartAt flags ptns mem pageEa pageOff idx e) := by
  refine (@keepMatch_spec (· ≥ ·) _ _ _ _ _ _ (Nat.le_refl foundEa)).congr
    (fun i ea => and_congr_right fun _ => ?_) (fun pm => ?_)
  · rw [FullAt, hmatch]
    constructor
    · rintro ⟨rfl, hlen, hm⟩
      have hea := hfound hlen
      rw [min_eq_right hlen, Nat.sub_self] at hm
      refine ⟨hea, hlen, ?_⟩
      rwa [show ea = pageEa + (e - (ptnAt ptns idx).bytes.length) by omega]
    · rintro ⟨hea, hlen, hm⟩
      have hea' := hfound hlen
      rw [min_eq_right hlen, Nat.sub_self]
      refine ⟨by omega, hlen, ?_⟩
      rwa [show pageEa + (e - (ptnAt ptns idx).bytes.length) = ea by omega]
  · rw [PartAt, hmatch]
    have hback : e - (e - pageOff) = pageOff := by omega
    constructor
    · rintro ⟨hpm, hlen, hm⟩
      rw [min_eq_left hlen.le] at hpm hm
      rw [hback] at hm
      exact ⟨hpm, hlen, hm⟩
    · rintro ⟨hpm, hlen, hm⟩
      rw [min_eq_left hlen.le, hback]
      exact ⟨hpm, hlen, hm⟩

theorem matchPtnBefore_spec (he : pageOff < e) :
    ScanSpec (· ≥ ·) (matchPtnBefore flags ptns (fun off => mem (pageEa + off)) pageEa pageOff e idx)
      (fun i ea => i = idx ∧ FullAt flags ptns mem pageEa pageOff idx e ea)
      (PartAt flags ptns mem pageEa pageOff idx e) := by
  apply scanAt_spec he
  · intro hlen
    rw [min_eq_right hlen]
    omega
  · exact matchPattern_iff

variable {e' ea : Nat}

theorem FullAt.ge {ea' : Nat} (hle : e' ≤ e) (h : FullAt flags ptns mem pageEa pageOff idx e ea)
    (h' : FullAt flags ptns mem pageEa pageOff idx e' ea') : ea ≥ ea' := by
  have hstop := h.1
  have hstop' := h'.1
  omega

variable {pm : PartMatch}

theorem PartAt.before {idx' : Nat} {pm' : PartMatch} (hlt : e' < e) (hoff : pageOff < e')
    (h : PartAt flags ptns mem pageEa pageOff idx e pm) (h' : PartAt flags ptns mem pageEa pageOff idx' e' pm') :
    Before pm pm' := by
  intro _
  rw [h.1, h'.1]
  simp only
  omega

theorem PartAt.before_of_ne {idx' : Nat} {pm' : PartMatch} (hne : idx ≠ idx')
    (h : PartAt flags ptns mem pageEa pageOff idx e pm) (h' : PartAt flags ptns mem pageEa pageOff idx' e' pm') :
    Before pm pm' := by
  intro heq
  rw [h.1, h'.1] at heq
  exact absurd heq hne

theorem not_matchesAt_of_last {n : Nat} (hcase : flags.caseSensitive = true)
    (hdef : (ptnAt ptns idx).allBytesDefined = true) (hn : 0 < n) (hlen : n ≤ (ptnAt ptns idx).bytes.length)
    (hne : mem (ea + n - 1) ≠ (ptnAt ptns idx).bytes.getD ((ptnAt ptns idx).bytes.length - 1) 0) :
    ¬ MatchesAt flags (ptnAt ptns idx) mem ea ((ptnAt ptns idx).bytes.length - n) n := by
  intro h
  have hlast := h (n - 1) (by omega)
  have hidx : (ptnAt ptns idx).bytes.length - n + (n - 1) = (ptnAt ptns idx).bytes.length - 1 := by omega
  rw [byteMatches_simple hcase hdef, hidx, show ea + (n - 1) = ea + n - 1 by omega] at hlast
  exact hne (by simpa using hlast)

theorem not_fullAt_of_last (hidx : Usable ptns idx) (hcase : flags.caseSensitive = true)
    (hdef : (ptnAt ptns idx).allBytesDefined = true)
    (hne : mem (pageEa + (e - 1)) ≠ (ptnAt ptns idx).bytes.getD ((ptnAt ptns idx).bytes.length - 1) 0) :
    ¬ FullAt flags ptns mem pageEa pageOff idx e ea := by
  rintro ⟨hstop, hlen, hm⟩
  have hpos := hidx.2
  rw [← Nat.sub_self (ptnAt ptns idx).bytes.length] at hm
  refine not_matchesAt_of_last hcase hdef hpos le_rfl ?_ hm
  rwa [show ea + (ptnAt ptns idx).bytes.length - 1 = pageEa + (e - 1) by omega]

theorem not_partAt_of_last (he : pageOff < e) (hcase : flags.caseSensitive = true)
    (hdef : (ptnAt ptns idx).allBytesDefined = true)
    (hne : mem (pageEa + (e - 1)) ≠ (ptnAt ptns idx).bytes.getD ((ptnAt ptns idx).bytes.length - 1) 0) :
    ¬ PartAt flags ptns mem pageEa pageOff idx e pm := by
  rintro ⟨-, hlen, hm⟩
  refine not_matchesAt_of_last hcase hdef (by omega) hlen.le ?_ hm
  rwa [show pageEa + pageOff + (e - pageOff) - 1 = pageEa + (e - 1) by omega]

theorem simpleLoop_spec (hidx : Usable ptns idx) (hcase : flags.caseSensitive = true)
    (hdef : (ptnAt ptns idx).allBytesDefined = true) (fuel rest : Nat) (hfuel : rest ≤ fuel)
    (hmod : pageEa + (pageOff + rest) < eaModulus) :
    ScanSpec (· ≥ ·) (simpleLoop (fun o => mem (pageEa + o)) pageEa pageOff idx (ptnAt ptns idx) fuel rest)
      (fun i ea => i = idx ∧
        ∃ e, (pageOff < e ∧ e ≤ pageOff + rest) ∧ FullAt flags ptns mem pageEa pageOff idx e ea)
      (fun pm => ∃ e, (pageOff < e ∧ e ≤ pageOff + rest) ∧ PartAt flags ptns mem pageEa pageOff idx e pm) := by
  induction fuel generalizing rest with
  | zero =>
      apply ScanSpec.of_empty (fun pms => rfl)
      · rintro i ea ⟨-, e, he, -⟩
        omega
      · rintro pm ⟨e, he, -⟩
        omega
  | succ fuel ih =>
      cases hchr : memrchr (fun o => mem (pageEa + o)) pageOff
          ((ptnAt ptns idx).bytes.getD ((ptnAt ptns idx).bytes.length - 1) 0) rest with
      | none =>
          have hno := memrchr_none hchr
          apply ScanSpec.of_empty (fun pms => by simp only [simpleLoop, hchr])
          · rintro i ea ⟨-, e, he, hfull⟩
            exact not_fullAt_of_last hidx hcase hdef (hno (e - 1) (by omega) (by omega)) hfull
          · rintro pm ⟨e, he, hpart⟩
            exact not_partAt_of_last he.1 hcase hdef (hno (e - 1) (by omega) (by omega)) hpart
      | some p =>
          obtain ⟨hle, hlt, hno⟩ := memrchr_some hchr
          -- the end that `memrchr` found, then the window below it
          have hfound : (ptnAt ptns idx).bytes.length ≤ p + 1 - pageOff →
              startOf ptns idx (pageEa + (p + 1)) + (ptnAt ptns idx).bytes.length = pageEa + (p + 1) := fun hlen =>
            startOf_add (by omega) (by omega)
          have hboth := (scanAt_spec (by omega) hfound (@memcmpEq_iff flags (ptnAt ptns idx) mem hcase hdef pageEa
            (p + 1 - min (p + 1 - pageOff) (ptnAt ptns idx).bytes.length) _ _)).andThen
              (ih (p + 1 - pageOff - 1) (by omega) (by omega)) (by
                refine ⟨fun {i ea ea'} hea hea' => ?_, fun {pm pm'} hpm hpm' => ?_⟩
                · obtain ⟨-, e, he, hea'⟩ := hea'
                  exact hea.2.ge (by omega) hea'
                · obtain ⟨e, he, hpm'⟩ := hpm'
                  exact hpm.before (by omega) he.1 hpm')
          have hfun : simpleLoop (fun o => mem (pageEa + o)) pageEa pageOff idx (ptnAt ptns idx) (fuel + 1) rest =
              fun pms => (keepMatch (memcmpEq (fun o => mem (pageEa + o))
                  (p + 1 - min (p + 1 - pageOff) (ptnAt ptns idx).bytes.length) (ptnAt ptns idx)
                  ((ptnAt ptns idx).bytes.length - min (p + 1 - pageOff) (ptnAt ptns idx).bytes.length)
                  (min (p + 1 - pageOff) (ptnAt ptns idx).bytes.length)) (ptnAt ptns idx).bytes.length
                (p + 1 - pageOff) (startOf ptns idx (pageEa + (p + 1)))
                ⟨startOf ptns idx (pageEa + (p + 1)), idx, min (p + 1 - pageOff) (ptnAt ptns idx).bytes.length⟩
                  pms).andThen
                  (simpleLoop (fun o => mem (pageEa + o)) pageEa pageOff idx (ptnAt ptns idx) fuel
                    (p + 1 - pageOff - 1)) := by
            funext pms
            simp only [simpleLoop, hchr]
            rfl
          rw [hfun]
          refine hboth.congr (fun i ea => ?_) (fun pm => ?_)
          · rw [← and_or_left]
            refine and_congr_right fun _ => ?_
            constructor
            · rintro (hfull | ⟨e, he, hfull⟩)
              · exact ⟨p + 1, by omega, hfull⟩
              · exact ⟨e, by omega, hfull⟩
            rintro ⟨e, he, hfull⟩
            rcases lt_trichotomy e (p + 1) with hlt' | rfl | hgt
            · exact .inr ⟨e, by omega, hfull⟩
            · exact .inl hfull
            · exact absurd hfull (not_fullAt_of_last hidx hcase hdef (hno (e - 1) (by omega) (by omega)))
          · constructor
            · rintro (hpart | ⟨e, he, hpart⟩)
              · exact ⟨p + 1, by omega, hpart⟩
              · exact ⟨e, by omega, hpart⟩
            rintro ⟨e, he, hpart⟩
            rcases lt_trichotomy e (p + 1) with hlt' | rfl | hgt
            · exact .inr ⟨e, by omega, hpart⟩
            · exact .inl hpart
            · exact absurd hpart (not_partAt_of_last he.1 hcase hdef (hno (e - 1) (by omega) (by omega)))

theorem matchSimplePatterns_spec (hoff : pageOff ≤ lastOff) (hmod : pageEa + lastOff < eaModulus) :
    ScanSpec (· ≥ ·) (matchSimplePatterns flags ptns (fun o => mem (pageEa + o)) pageEa pageOff lastOff)
      (fun i ea => ∃ idx ∈ simplePtns flags ptns, i = idx ∧
        ∃ e, (pageOff < e ∧ e ≤ lastOff) ∧ FullAt flags ptns mem pageEa pageOff idx e ea)
      (fun pm => ∃ idx ∈ simplePtns flags ptns,
        ∃ e, (pageOff < e ∧ e ≤ lastOff) ∧ PartAt flags ptns mem pageEa pageOff idx e pm) := by
  refine ScanSpec.each (simplePtns flags ptns) (fun idx hidx => ?_) (nodup_simplePtns.imp fun {idx idx'} hne => ?_)
  · obtain ⟨husable, hcase, hdef⟩ := mem_simplePtns.mp hidx
    have hsum : pageOff + (lastOff - pageOff) = lastOff := by omega
    have hspec := @simpleLoop_spec flags ptns mem pageEa pageOff idx husable hcase hdef (lastOff - pageOff)
      (lastOff - pageOff) le_rfl (by rwa [hsum])
    rwa [hsum] at hspec
  · refine ⟨fun {i ea ea'} hea hea' => ?_, fun {pm pm'} hpm hpm' => ?_⟩
    · exact absurd (hea.1.symm.trans hea'.1) hne
    · obtain ⟨e, -, hpm⟩ := hpm
      obtain ⟨e', -, hpm'⟩ := hpm'
      exact hpm.before_of_ne hne hpm'

theorem mem_ends : e ∈ (List.range' (pageOff + 1) (lastOff - pageOff)).reverse ↔ pageOff < e ∧ e ≤ lastOff := by
  rw [List.mem_reverse, List.mem_range'_1]
  omega

theorem matchComplexPatterns_spec :
    ScanSpec (· ≥ ·) (matchComplexPatterns flags ptns (fun o => mem (pageEa + o)) pageEa pageOff lastOff)
      (fun i ea => ∃ e ∈ (List.range' (pageOff + 1) (lastOff - pageOff)).reverse,
        ∃ idx ∈ complexPtns flags ptns, i = idx ∧ FullAt flags ptns mem pageEa pageOff idx e ea)
      (fun pm => ∃ e ∈ (List.range' (pageOff + 1) (lastOff - pageOff)).reverse,
        ∃ idx ∈ complexPtns flags ptns, PartAt flags ptns mem pageEa pageOff idx e pm) := by
  refine ScanSpec.each _ (fun e he => ?_) ?_
  · have hlt := (mem_ends.1 he).1
    refine ScanSpec.each (complexPtns flags ptns) (fun idx _ => matchPtnBefore_spec hlt)
      (nodup_complexPtns.imp fun {idx idx'} hne => ⟨fun {i ea ea'} hea hea' => ?_, fun {pm pm'} hpm hpm' => ?_⟩)
    · exact absurd (hea.1.symm.trans hea'.1) hne
    · exact hpm.before_of_ne hne hpm'
  · refine List.Pairwise.imp_of_mem (fun {e e'} _ he' hlt => ?_) (List.pairwise_reverse.mpr List.pairwise_lt_range')
    have hoff := (mem_ends.1 he').1
    refine ⟨fun {i ea ea'} hea hea' => ?_, fun {pm pm'} hpm hpm' => ?_⟩
    · obtain ⟨idx, -, rfl, hea⟩ := hea
      obtain ⟨idx', -, rfl, hea'⟩ := hea'
      exact hea.ge (Nat.le_of_lt hlt) hea'
    · obtain ⟨idx, -, hpm⟩ := hpm
      obtain ⟨idx', -, hpm'⟩ := hpm'
      exact hpm.before hlt hoff hpm'

theorem matchPatterns_spec (hoff : pageOff ≤ lastOff) (hmod : pageEa + lastOff < eaModulus) :
    ScanSpec (· ≥ ·) (fun pms =>
        (matchSimplePatterns flags ptns (fun o => mem (pageEa + o)) pageEa pageOff lastOff pms).andThen
          (matchComplexPatterns flags ptns (fun o => mem (pageEa + o)) pageEa pageOff lastOff))
      (fun idx ea => Usable ptns idx ∧
        ∃ e, (pageOff < e ∧ e ≤ lastOff) ∧ FullAt flags ptns mem pageEa pageOff idx e ea)
      (fun pm => ∃ idx, Usable ptns idx ∧ ∃ e, (pageOff < e ∧ e ≤ lastOff) ∧
        PartAt flags ptns mem pageEa pageOff idx e pm) := by
  refine ((matchSimplePatterns_spec hoff hmod).andThen matchComplexPatterns_spec ?_).congr
    (fun i ea => ?_) (fun pm => ?_)
  · refine ⟨fun {i ea ea'} hea hea' => ?_, fun {pm pm'} hpm hpm' => ?_⟩
    · obtain ⟨idx, hidx, rfl, -⟩ := hea
      obtain ⟨e, -, idx', hidx', rfl, -⟩ := hea'
      exact absurd rfl (ne_of_mem_ptns hidx hidx')
    · obtain ⟨idx, hidx, e, -, hpm⟩ := hpm
      obtain ⟨e', -, idx', hidx', hpm'⟩ := hpm'
      exact hpm.before_of_ne (ne_of_mem_ptns hidx hidx') hpm'
  · rw [← @mem_ptns_iff flags]
    simp only [mem_ends]
    constructor
    · rintro (⟨idx, hidx, rfl, e, he, hfull⟩ | ⟨e, he, idx, hidx, rfl, hfull⟩)
      · exact ⟨.inl hidx, e, he, hfull⟩
      · exact ⟨.inr hidx, e, he, hfull⟩
    · rintro ⟨hidx | hidx, e, he, hfull⟩
      · exact .inl ⟨i, hidx, rfl, e, he, hfull⟩
      · exact .inr ⟨e, he, i, hidx, rfl, hfull⟩
  · simp only [← @mem_ptns_iff flags, mem_ends]
    constructor
    · rintro (⟨idx, hidx, e, he, hpart⟩ | ⟨e, he, idx, hidx, hpart⟩)
      · exact ⟨idx, .inl hidx, e, he, hpart⟩
      · exact ⟨idx, .inr hidx, e, he, hpart⟩
    · rintro ⟨idx, hidx | hidx, e, he, hpart⟩
      · exact .inl ⟨idx, hidx, e, he, hpart⟩
      · exact .inr ⟨e, he, idx, hidx, hpart⟩

end

end IdaSdk.BinSearch.Backward
