import IdaSdk.BinSearchScan

/-!
The forward matcher on one range. Between two pages the list of partial matches holds exactly the
pattern prefixes that end at the page boundary, and what earlier ranges left there.
-/

namespace IdaSdk.BinSearch.Forward

section
variable {flags : SearchFlags} {ptns : List CompiledBinpat} {mem : Nat → UInt8} {pageEa lastOff : Nat}

/-- A full match of pattern `idx` at page offset `o`. -/
def FullAt (flags : SearchFlags) (ptns : List CompiledBinpat) (mem : Nat → UInt8) (pageEa lastOff idx o : Nat)
    (ea : Nat) : Prop :=
  ea = pageEa + o ∧ (ptnAt ptns idx).bytes.length ≤ lastOff - o ∧
    MatchesAt flags (ptnAt ptns idx) mem (pageEa + o) 0 (ptnAt ptns idx).bytes.length

/-- A partial match of pattern `idx` at page offset `o`. -/
def PartAt (flags : SearchFlags) (ptns : List CompiledBinpat) (mem : Nat → UInt8) (pageEa lastOff idx o : Nat)
    (pm : PartMatch) : Prop :=
  pm = ⟨pageEa + o, idx, lastOff - o⟩ ∧ lastOff - o < (ptnAt ptns idx).bytes.length ∧
    MatchesAt flags (ptnAt ptns idx) mem (pageEa + o) 0 (lastOff - o)

variable {idx o : Nat}

theorem scanAt_spec {isMatch : Bool}
    (hmatch : isMatch = true ↔ MatchesAt flags (ptnAt ptns idx) mem (pageEa + o) 0
      (min (lastOff - o) (ptnAt ptns idx).bytes.length)) :
    ScanSpec (· ≤ ·) (keepMatch isMatch (ptnAt ptns idx).bytes.length (lastOff - o) (pageEa + o)
        ⟨pageEa + o, idx, min (lastOff - o) (ptnAt ptns idx).bytes.length⟩)
      (fun i ea => i = idx ∧ FullAt flags ptns mem pageEa lastOff idx o ea)
      (PartAt flags ptns mem pageEa lastOff idx o) := by
  refine (keepMatch_spec le_rfl).congr (fun i ea => and_congr_right fun _ => ?_) (fun pm => ?_)
  · rw [FullAt, hmatch]
    refine and_congr_right fun _ => and_congr_right fun hlen => ?_
    rw [min_eq_right hlen]
  rw [PartAt, hmatch]
  constructor
  · rintro ⟨hpm, hlen, hm⟩
    rw [min_eq_left hlen.le] at hpm hm
    exact ⟨hpm, hlen, hm⟩
  · rintro ⟨hpm, hlen, hm⟩
    rw [min_eq_left hlen.le]
    exact ⟨hpm, hlen, hm⟩

theorem matchPtnAt_spec (o idx : Nat) :
    ScanSpec (· ≤ ·) (matchPtnAt flags ptns (fun off => mem (pageEa + off)) pageEa lastOff o idx)
      (fun i ea => i = idx ∧ FullAt flags ptns mem pageEa lastOff idx o ea)
      (PartAt flags ptns mem pageEa lastOff idx o) :=
  scanAt_spec matchPattern_iff

variable {o' : Nat}

theorem FullAt.le {ea ea' : Nat} (hlt : o ≤ o') (h : FullAt flags ptns mem pageEa lastOff idx o ea)
    (h' : FullAt flags ptns mem pageEa lastOff idx o' ea') : ea ≤ ea' := by
  rw [h.1, h'.1]
  omega

theorem PartAt.before {idx' : Nat} {pm pm' : PartMatch} (hlt : o < o') (hlast : o' < lastOff)
    (h : PartAt flags ptns mem pageEa lastOff idx o pm) (h' : PartAt flags ptns mem pageEa lastOff idx' o' pm') :
    Before pm pm' := by
  intro _
  rw [h.1, h'.1]
  simp only
  omega

theorem PartAt.before_of_ne {idx' : Nat} {pm pm' : PartMatch} (hne : idx ≠ idx')
    (h : PartAt flags ptns mem pageEa lastOff idx o pm) (h' : PartAt flags ptns mem pageEa lastOff idx' o' pm') :
    Before pm pm' := by
  intro heq
  rw [h.1, h'.1] at heq
  exact absurd heq hne

theorem not_matchesAt_of_first (hcase : flags.caseSensitive = true)
    (hdef : (ptnAt ptns idx).allBytesDefined = true) (hne : mem (pageEa + o) ≠ (ptnAt ptns idx).bytes.getD 0 0)
    {n : Nat} (hn : 0 < n) : ¬ MatchesAt flags (ptnAt ptns idx) mem (pageEa + o) 0 n := by
  intro h
  have h0 := h 0 hn
  rw [byteMatches_simple hcase hdef] at h0
  exact hne (by simpa using h0)

theorem simpleLoop_spec (hidx : Usable ptns idx) (hcase : flags.caseSensitive = true)
    (hdef : (ptnAt ptns idx).allBytesDefined = true) (fuel off : Nat) (hfuel : lastOff - off ≤ fuel) :
    ScanSpec (· ≤ ·) (simpleLoop (fun o => mem (pageEa + o)) pageEa lastOff idx (ptnAt ptns idx) fuel off)
      (fun i ea => i = idx ∧ ∃ o, (off ≤ o ∧ o < lastOff) ∧ FullAt flags ptns mem pageEa lastOff idx o ea)
      (fun pm => ∃ o, (off ≤ o ∧ o < lastOff) ∧ PartAt flags ptns mem pageEa lastOff idx o pm) := by
  induction fuel generalizing off with
  | zero =>
      apply ScanSpec.of_empty (fun pms => rfl)
      · rintro i ea ⟨-, o, ho, -⟩
        omega
      · rintro pm ⟨o, ho, -⟩
        omega
  | succ fuel ih =>
      cases hchr : memchr (fun o => mem (pageEa + o)) off ((ptnAt ptns idx).bytes.getD 0 0) (lastOff - off) with
      | none =>
          have hno := memchr_none hchr
          have hstart : ∀ o, off ≤ o ∧ o < lastOff → ∀ n, 0 < n →
              ¬ MatchesAt flags (ptnAt ptns idx) mem (pageEa + o) 0 n := fun o ho n hn =>
            not_matchesAt_of_first hcase hdef (hno o ho.1 (by omega)) hn
          apply ScanSpec.of_empty (fun pms => by simp only [simpleLoop, hchr])
          · rintro i ea ⟨-, o, ho, -, -, hm⟩
            exact hstart o ho _ hidx.2 hm
          · rintro pm ⟨o, ho, -, -, hm⟩
            exact hstart o ho _ (by omega) hm
      | some pnew =>
          obtain ⟨hle, hlt, hno⟩ := memchr_some hchr
          have hstart : ∀ o, off ≤ o ∧ o < pnew → ∀ n, 0 < n →
              ¬ MatchesAt flags (ptnAt ptns idx) mem (pageEa + o) 0 n := fun o ho n hn =>
            not_matchesAt_of_first hcase hdef (hno o ho.1 ho.2) hn
          -- the offset that `memchr` found, then the rest of the window
          have hboth := (scanAt_spec (@memcmpEq_iff flags (ptnAt ptns idx) mem hcase hdef pageEa pnew 0
            (min (lastOff - pnew) (ptnAt ptns idx).bytes.length))).andThen (ih (pnew + 1) (by omega)) (by
              refine ⟨fun {i ea ea'} hea hea' => ?_, fun {pm pm'} hpm hpm' => ?_⟩
              · obtain ⟨-, o, ho, hea'⟩ := hea'
                exact hea.2.le (by omega) hea'
              · obtain ⟨o, ho, hpm'⟩ := hpm'
                exact hpm.before (by omega) ho.2 hpm')
          have hfun : simpleLoop (fun o => mem (pageEa + o)) pageEa lastOff idx (ptnAt ptns idx) (fuel + 1) off =
              fun pms => (keepMatch (memcmpEq (fun o => mem (pageEa + o)) pnew (ptnAt ptns idx) 0
                  (min (lastOff - pnew) (ptnAt ptns idx).bytes.length)) (ptnAt ptns idx).bytes.length
                (lastOff - pnew) (pageEa + pnew)
                ⟨pageEa + pnew, idx, min (lastOff - pnew) (ptnAt ptns idx).bytes.length⟩ pms).andThen
                  (simpleLoop (fun o => mem (pageEa + o)) pageEa lastOff idx (ptnAt ptns idx) fuel (pnew + 1)) := by
            funext pms
            simp only [simpleLoop, hchr]
          rw [hfun]
          refine hboth.congr (fun i ea => ?_) (fun pm => ?_)
          · rw [← and_or_left]
            refine and_congr_right fun _ => ?_
            constructor
            · rintro (hfull | ⟨o, ho, hfull⟩)
              · exact ⟨pnew, by omega, hfull⟩
              · exact ⟨o, by omega, hfull⟩
            rintro ⟨o, ho, hfull⟩
            rcases lt_trichotomy o pnew with hlt' | rfl | hgt
            · exact absurd hfull.2.2 (hstart o ⟨ho.1, hlt'⟩ _ hidx.2)
            · exact .inl hfull
            · exact .inr ⟨o, by omega, hfull⟩
          · constructor
            · rintro (hpart | ⟨o, ho, hpart⟩)
              · exact ⟨pnew, by omega, hpart⟩
              · exact ⟨o, by omega, hpart⟩
            rintro ⟨o, ho, hpart⟩
            rcases lt_trichotomy o pnew with hlt' | rfl | hgt
            · exact absurd hpart.2.2 (hstart o ⟨ho.1, hlt'⟩ _ (by omega))
            · exact .inl hpart
            · exact .inr ⟨o, by omega, hpart⟩

variable (pageOff : Nat)

theorem matchSimplePatterns_spec :
    ScanSpec (· ≤ ·) (matchSimplePatterns flags ptns (fun o => mem (pageEa + o)) pageEa lastOff pageOff)
      (fun i ea => ∃ idx ∈ simplePtns flags ptns, i = idx ∧
        ∃ o, (pageOff ≤ o ∧ o < lastOff) ∧ FullAt flags ptns mem pageEa lastOff idx o ea)
      (fun pm => ∃ idx ∈ simplePtns flags ptns,
        ∃ o, (pageOff ≤ o ∧ o < lastOff) ∧ PartAt flags ptns mem pageEa lastOff idx o pm) := by
  refine ScanSpec.each (simplePtns flags ptns) (fun idx hidx => ?_) (nodup_simplePtns.imp fun {idx idx'} hne => ?_)
  · obtain ⟨husable, hcase, hdef⟩ := mem_simplePtns.mp hidx
    exact simpleLoop_spec husable hcase hdef (lastOff - pageOff) pageOff le_rfl
  refine ⟨fun {i ea ea'} hea hea' => ?_, fun {pm pm'} hpm hpm' => ?_⟩
  · exact absurd (hea.1.symm.trans hea'.1) hne
  · obtain ⟨o, -, hpm⟩ := hpm
    obtain ⟨o', -, hpm'⟩ := hpm'
    exact hpm.before_of_ne hne hpm'

theorem matchComplexPatterns_spec :
    ScanSpec (· ≤ ·) (matchComplexPatterns flags ptns (fun o => mem (pageEa + o)) pageEa lastOff pageOff)
      (fun i ea => ∃ o ∈ List.range' pageOff (lastOff - pageOff),
        ∃ idx ∈ complexPtns flags ptns, i = idx ∧ FullAt flags ptns mem pageEa lastOff idx o ea)
      (fun pm => ∃ o ∈ List.range' pageOff (lastOff - pageOff),
        ∃ idx ∈ complexPtns flags ptns, PartAt flags ptns mem pageEa lastOff idx o pm) := by
  refine ScanSpec.each _ (fun o _ => ?_) ?_
  · refine ScanSpec.each (complexPtns flags ptns) (fun idx _ => matchPtnAt_spec o idx)
      (nodup_complexPtns.imp fun {idx idx'} hne => ⟨fun {i ea ea'} hea hea' => ?_, fun {pm pm'} hpm hpm' => ?_⟩)
    · exact absurd (hea.1.symm.trans hea'.1) hne
    · exact hpm.before_of_ne hne hpm'
  · refine List.Pairwise.imp_of_mem (fun {o o'} _ ho' hlt => ?_) List.pairwise_lt_range'
    have hlast := List.mem_range'_1.mp ho'
    refine ⟨fun {i ea ea'} hea hea' => ?_, fun {pm pm'} hpm hpm' => ?_⟩
    · obtain ⟨idx, -, rfl, hea⟩ := hea
      obtain ⟨idx', -, rfl, hea'⟩ := hea'
      exact hea.le hlt.le hea'
    · obtain ⟨idx, -, hpm⟩ := hpm
      obtain ⟨idx', -, hpm'⟩ := hpm'
      exact hpm.before hlt (by omega) hpm'

theorem matchPatterns_spec :
    ScanSpec (· ≤ ·) (fun pms =>
        (matchSimplePatterns flags ptns (fun o => mem (pageEa + o)) pageEa lastOff pageOff pms).andThen
          (matchComplexPatterns flags ptns (fun o => mem (pageEa + o)) pageEa lastOff pageOff))
      (fun idx ea => Usable ptns idx ∧
        ∃ o, (pageOff ≤ o ∧ o < lastOff) ∧ FullAt flags ptns mem pageEa lastOff idx o ea)
      (fun pm => ∃ idx, Usable ptns idx ∧ ∃ o, (pageOff ≤ o ∧ o < lastOff) ∧
        PartAt flags ptns mem pageEa lastOff idx o pm) := by
  have hrange : ∀ o, o ∈ List.range' pageOff (lastOff - pageOff) ↔ pageOff ≤ o ∧ o < lastOff := by
    intro o
    rw [List.mem_range'_1]
    omega
  refine ((matchSimplePatterns_spec pageOff).andThen (matchComplexPatterns_spec pageOff) ?_).congr
    (fun i ea => ?_) (fun pm => ?_)
  · refine ⟨fun {i ea ea'} hea hea' => ?_, fun {pm pm'} hpm hpm' => ?_⟩
    · obtain ⟨idx, hidx, rfl, -⟩ := hea
      obtain ⟨o, -, idx', hidx', rfl, -⟩ := hea'
      exact absurd rfl (ne_of_mem_ptns hidx hidx')
    · obtain ⟨idx, hidx, o, -, hpm⟩ := hpm
      obtain ⟨o', -, idx', hidx', hpm'⟩ := hpm'
      exact hpm.before_of_ne (ne_of_mem_ptns hidx hidx') hpm'
  · rw [← @mem_ptns_iff flags]
    simp only [hrange]
    constructor
    · rintro (⟨idx, hidx, rfl, o, ho, hfull⟩ | ⟨o, ho, idx, hidx, rfl, hfull⟩)
      · exact ⟨.inl hidx, o, ho, hfull⟩
      · exact ⟨.inr hidx, o, ho, hfull⟩
    · rintro ⟨hidx | hidx, o, ho, hfull⟩
      · exact .inl ⟨i, hidx, rfl, o, ho, hfull⟩
      · exact .inr ⟨o, ho, i, hidx, rfl, hfull⟩
  · simp only [← @mem_ptns_iff flags, hrange]
    constructor
    · rintro (⟨idx, hidx, o, ho, hpart⟩ | ⟨o, ho, idx, hidx, hpart⟩)
      · exact ⟨idx, .inl hidx, o, ho, hpart⟩
      · exact ⟨idx, .inr hidx, o, ho, hpart⟩
    · rintro ⟨idx, hidx | hidx, o, ho, hpart⟩
      · exact .inl ⟨idx, hidx, o, ho, hpart⟩
      · exact .inr ⟨o, ho, idx, hidx, hpart⟩

end

/-! ### From page to page -/

section
variable {flags : SearchFlags} {ptns : List CompiledBinpat} {mem : Nat → UInt8} {a b x y : Nat}
  {pms₀ pms : List PartMatch}

/-- `pm` is a prefix of a pattern that begins at or after `a` and ends at `x`. -/
structure NewAt (flags : SearchFlags) (ptns : List CompiledBinpat) (mem : Nat → UInt8) (a x : Nat) (pm : PartMatch) :
    Prop where
  usable : Usable ptns pm.ptnIdx
  start : a ≤ pm.matchEa
  stop : pm.matchEa + pm.ptnOff = x
  off_pos : 0 < pm.ptnOff
  off_lt : pm.ptnOff < (ptnAt ptns pm.ptnIdx).bytes.length
  matches_ : MatchesAt flags (ptnAt ptns pm.ptnIdx) mem pm.matchEa 0 pm.ptnOff

/-- The partial match `pm₀`, taken up again at `x₀`, has become `pm` at `x`. -/
structure CarryTo (flags : SearchFlags) (ptns : List CompiledBinpat) (mem : Nat → UInt8) (x₀ x : Nat)
    (pm₀ pm : PartMatch) : Prop where
  eq : pm = { pm₀ with ptnOff := pm₀.ptnOff + (x - x₀) }
  off_lt : pm₀.ptnOff + (x - x₀) < (ptnAt ptns pm₀.ptnIdx).bytes.length
  matches_ : MatchesAt flags (ptnAt ptns pm₀.ptnIdx) mem x₀ pm₀.ptnOff (x - x₀)

variable {pm : PartMatch} {n : Nat}

theorem NewAt.extend (h : NewAt flags ptns mem a x pm)
    (hn : n < (ptnAt ptns pm.ptnIdx).bytes.length - pm.ptnOff)
    (hm : MatchesAt flags (ptnAt ptns pm.ptnIdx) mem x pm.ptnOff n) :
    NewAt flags ptns mem a (x + n) { pm with ptnOff := pm.ptnOff + n } where
  usable := h.usable
  start := h.start
  stop := by
    have hstop := h.stop
    simp only
    omega
  off_pos := by
    have hpos := h.off_pos
    simp only
    omega
  off_lt := by
    have hlt := h.off_lt
    simp only
    omega
  matches_ := by
    refine matchesAt_add.mpr ⟨h.matches_, ?_⟩
    rw [h.stop, Nat.zero_add]
    exact hm

theorem NewAt.restrict (h : NewAt flags ptns mem a (x + n) pm) (hlt : pm.matchEa < x) :
    NewAt flags ptns mem a x { pm with ptnOff := x - pm.matchEa } ∧
      n < (ptnAt ptns pm.ptnIdx).bytes.length - (x - pm.matchEa) ∧
      MatchesAt flags (ptnAt ptns pm.ptnIdx) mem x (x - pm.matchEa) n ∧ pm.ptnOff = x - pm.matchEa + n := by
  have hstop := h.stop
  have hoff : pm.ptnOff = x - pm.matchEa + n := by omega
  have hlen := h.off_lt
  have hboth := h.matches_
  rw [hoff] at hboth
  obtain ⟨hfirst, hrest⟩ := matchesAt_add.mp hboth
  rw [Nat.add_sub_cancel' hlt.le, Nat.zero_add] at hrest
  refine ⟨⟨h.usable, h.start, ?_, ?_, ?_, hfirst⟩, by omega, hrest, hoff⟩
  · simp only
    omega
  · simp only
    omega
  · simp only
    omega

theorem CarryTo.extend {pm₀ : PartMatch} {x₀ : Nat} (h : CarryTo flags ptns mem x₀ x pm₀ pm) (hx : x₀ ≤ x)
    (hn : n < (ptnAt ptns pm.ptnIdx).bytes.length - pm.ptnOff)
    (hm : MatchesAt flags (ptnAt ptns pm.ptnIdx) mem x pm.ptnOff n) :
    CarryTo flags ptns mem x₀ (x + n) pm₀ { pm with ptnOff := pm.ptnOff + n } := by
  obtain ⟨rfl, hlt, hm₀⟩ := h
  simp only at hn hm
  have hsub : x + n - x₀ = x - x₀ + n := by omega
  refine ⟨?_, ?_, ?_⟩
  · rw [hsub, Nat.add_assoc]
  · omega
  · rw [hsub]
    refine matchesAt_add.mpr ⟨hm₀, ?_⟩
    rw [Nat.add_sub_cancel' hx]
    exact hm

variable {lastOff : Nat}

theorem PartAt.newAt {idx o : Nat} (hidx : Usable ptns idx) (ho : a - x ≤ o ∧ o < lastOff)
    (h : PartAt flags ptns mem x lastOff idx o pm) : NewAt flags ptns mem a (x + lastOff) pm := by
  obtain ⟨rfl, hlt, hm⟩ := h
  refine ⟨hidx, ?_, ?_, ?_, hlt, hm⟩
  · simp only
    omega
  · simp only
    omega
  · simp only
    omega

variable [PageSize]

/-- The invariant when everything below `x` has been searched. A partial match that does not reach the page of
an inner boundary is dropped there. -/
structure PageInv (flags : SearchFlags) (ptns : List CompiledBinpat) (mem : Nat → UInt8) (a x : Nat)
    (pms₀ pms : List PartMatch) : Prop where
  sound : ∀ pm ∈ pms,
    NewAt flags ptns mem a x pm ∨ PAGESZ ∣ x ∧ ∃ pm₀ ∈ pms₀, CarryTo flags ptns mem (alignDown a) x pm₀ pm
  complete : ∀ pm, NewAt flags ptns mem a x pm → PAGESZ ∣ x ∨ alignDown x ≤ pm.matchEa → pm ∈ pms
  none : ∀ ea, ¬ OccursIn flags ptns mem a x ea

theorem finalize_eq_ok :
    finalizePartialMatch flags ptns (fun o => mem (x + o)) lastOff pm = .ok ↔
      (ptnAt ptns pm.ptnIdx).bytes.length - pm.ptnOff ≤ lastOff ∧
        MatchesAt flags (ptnAt ptns pm.ptnIdx) mem x pm.ptnOff
          ((ptnAt ptns pm.ptnIdx).bytes.length - pm.ptnOff) := by
  have hiff := @matchPattern_iff flags (ptnAt ptns pm.ptnIdx) mem x 0 pm.ptnOff
    (min ((ptnAt ptns pm.ptnIdx).bytes.length - pm.ptnOff) lastOff)
  rw [Nat.add_zero] at hiff
  rw [finalizePartialMatch]
  by_cases hlen : (ptnAt ptns pm.ptnIdx).bytes.length - pm.ptnOff ≤ lastOff
  · rw [min_eq_left hlen] at hiff ⊢
    rw [← hiff]
    cases matchPattern flags (fun o => mem (x + o)) 0 (ptnAt ptns pm.ptnIdx) pm.ptnOff
      ((ptnAt ptns pm.ptnIdx).bytes.length - pm.ptnOff) <;> simp [hlen]
  · refine ⟨fun h => ?_, fun h => absurd h.1 hlen⟩
    simp only [if_neg hlen] at h
    split at h
    · exact absurd h (by simp)
    · split at h <;> exact absurd h (by simp)

theorem finalize_eq_again {pm' : PartMatch} :
    finalizePartialMatch flags ptns (fun o => mem (x + o)) lastOff pm = .again pm' ↔
      lastOff = PAGESZ ∧ PAGESZ < (ptnAt ptns pm.ptnIdx).bytes.length - pm.ptnOff ∧
        MatchesAt flags (ptnAt ptns pm.ptnIdx) mem x pm.ptnOff PAGESZ ∧
        pm' = { pm with ptnOff := pm.ptnOff + PAGESZ } := by
  have hiff := @matchPattern_iff flags (ptnAt ptns pm.ptnIdx) mem x 0 pm.ptnOff
    (min ((ptnAt ptns pm.ptnIdx).bytes.length - pm.ptnOff) lastOff)
  rw [Nat.add_zero] at hiff
  rw [finalizePartialMatch]
  by_cases hlen : (ptnAt ptns pm.ptnIdx).bytes.length - pm.ptnOff ≤ lastOff
  · refine ⟨fun h => ?_, fun h => absurd h.2.1 (by omega)⟩
    simp only [if_pos hlen] at h
    split at h <;> exact absurd h (by simp)
  rw [min_eq_right (by omega)] at hiff ⊢
  by_cases hlast : lastOff = PAGESZ
  · subst hlast
    rw [← hiff]
    cases matchPattern flags (fun o => mem (x + o)) 0 (ptnAt ptns pm.ptnIdx) pm.ptnOff PAGESZ
    · simp
    · simp only [Bool.not_true, Bool.false_eq_true, if_false, if_neg hlen, ne_eq, not_true, true_and,
        Finalized.again.injEq]
      exact ⟨fun h => ⟨by omega, h.symm⟩, fun h => h.2.symm⟩
  · refine ⟨fun h => ?_, fun h => absurd h.1 hlast⟩
    simp only [if_neg hlen, ne_eq, hlast, not_false_eq_true, if_true] at h
    split at h <;> exact absurd h (by simp)

variable {pms' : List PartMatch}

/-- One page without a report keeps the invariant. -/
theorem scanPage_inv (hx : PAGESZ ∣ x) (hax : alignDown a ≤ x) (hinv : PageInv flags ptns mem a x pms₀ pms) (hlast : 0 < lastOff ∧ lastOff ≤ PAGESZ)
    (h : scanPage (finalizePartialMatch flags ptns (fun o => mem (x + o)) lastOff)
      (matchSimplePatterns flags ptns (fun o => mem (x + o)) x lastOff (a - x))
      (matchComplexPatterns flags ptns (fun o => mem (x + o)) x lastOff (a - x)) pms = .more pms') :
    PageInv flags ptns mem a (x + lastOff) pms₀ pms' := by
  obtain ⟨hmem, hok, hnone⟩ := scanPage_more (matchPatterns_spec (a - x)) h
  refine ⟨fun pm hpm => ?_, fun pm hnew hpage => ?_, fun ea hocc => ?_⟩
  · rcases (hmem pm).mp hpm with ⟨pm₁, hpm₁, hagain⟩ | ⟨idx, hidx, o, ho, hpart⟩
    · obtain ⟨rfl, hlt, hm, rfl⟩ := finalize_eq_again.1 hagain
      rcases hinv.sound pm₁ hpm₁ with hnew | ⟨hdvd, pm₀, hpm₀, hcarry⟩
      · exact .inl (hnew.extend hlt hm)
      · exact .inr ⟨Nat.dvd_add hdvd (Nat.dvd_refl _), pm₀, hpm₀, hcarry.extend hax hlt hm⟩
    · exact .inl (PartAt.newAt hidx ho hpart)
  · rw [hmem]
    have hstop := hnew.stop
    have hpos := hnew.off_pos
    have hstart := hnew.start
    by_cases hlt : pm.matchEa < x
    · -- a longer prefix reaches back before the page, so the page is whole
      obtain ⟨hold, hlen, hm, hoff⟩ := hnew.restrict hlt
      have hwhole : lastOff = PAGESZ := by
        by_contra hne
        have hshort : lastOff < PAGESZ := by omega
        rcases hpage with hdvd | hdown
        · have hfar := add_pagesz_le hx hdvd (by omega)
          omega
        · rw [alignDown_add hx hshort] at hdown
          omega
      refine .inl ⟨_, hinv.complete _ hold (.inl hx), ?_⟩
      subst hwhole
      refine finalize_eq_again.2 ⟨rfl, hlen, hm, ?_⟩
      simp only [← hoff]
    · have heq : x + (pm.matchEa - x) = pm.matchEa := by omega
      have hoff : lastOff - (pm.matchEa - x) = pm.ptnOff := by omega
      refine .inr ⟨pm.ptnIdx, hnew.usable, pm.matchEa - x, by omega, ?_, ?_, ?_⟩
      · rw [heq, hoff]
      · rw [hoff]
        exact hnew.off_lt
      · rw [heq, hoff]
        exact hnew.matches_
  · obtain ⟨idx, hidx, hstart, hstop, hm⟩ := hocc
    by_cases hinside : x ≤ ea
    · have heq : x + (ea - x) = ea := by omega
      have hpos := hidx.2
      refine hnone idx ea ⟨hidx, ea - x, by omega, heq.symm, by omega, ?_⟩
      rw [heq]
      exact hm
    · by_cases hbefore : ea + (ptnAt ptns idx).bytes.length ≤ x
      · exact hinv.none ea ⟨idx, hidx, hstart, hbefore, hm⟩
      -- the occurrence was a partial match when the page began
      have hsum : x - ea + ((ptnAt ptns idx).bytes.length - (x - ea)) = (ptnAt ptns idx).bytes.length := by omega
      rw [← hsum] at hm
      obtain ⟨hfirst, hrest⟩ := matchesAt_add.mp hm
      rw [Nat.add_sub_cancel' (by omega), Nat.zero_add] at hrest
      have hpm : (⟨ea, idx, x - ea⟩ : PartMatch) ∈ pms := by
        refine hinv.complete _ ⟨hidx, hstart, ?_, ?_, ?_, hfirst⟩ (.inl hx)
        · simp only
          omega
        · simp only
          omega
        · simp only
          omega
      refine hok _ hpm (finalize_eq_ok.2 ⟨?_, hrest⟩)
      simp only
      omega

variable {mod : Debmod}

def PagesReadable (mod : Debmod) (a b : Nat) : Prop :=
  ∀ x, PAGESZ ∣ x → alignDown a ≤ x → x < b → mod.readable x PAGESZ = true

/-- The pages before `x` have been read and searched. -/
structure LoopInv (flags : SearchFlags) (ptns : List CompiledBinpat) (mod : Debmod) (a b x : Nat)
    (pms₀ pms : List PartMatch) : Prop where
  dvd : PAGESZ ∣ x
  align_le : alignDown a ≤ x
  inv : PageInv flags ptns mod.memory a (min b x) pms₀ pms
  readable : PagesReadable mod a x

theorem LoopInv.next (h : LoopInv flags ptns mod a b x pms₀ pms) (hxb : x < b) (hread : mod.readable x PAGESZ = true)
    (hscan : scanPage (finalizePartialMatch flags ptns (fun o => mod.memory (x + o)) (min (b - x) PAGESZ))
      (matchSimplePatterns flags ptns (fun o => mod.memory (x + o)) x (min (b - x) PAGESZ) (a - x))
      (matchComplexPatterns flags ptns (fun o => mod.memory (x + o)) x (min (b - x) PAGESZ) (a - x)) pms = .more pms') :
    LoopInv flags ptns mod a b (x + PAGESZ) pms₀ pms' := by
  have hinv := h.inv
  rw [min_eq_right hxb.le] at hinv
  have hpage := scanPage_inv h.dvd h.align_le hinv (by have := pagesz_pos; omega) hscan
  have hmin : x + min (b - x) PAGESZ = min b (x + PAGESZ) := by omega
  rw [hmin] at hpage
  refine ⟨Nat.dvd_add h.dvd (Nat.dvd_refl _), by have := h.align_le; omega, hpage, fun y hy hay hyx => ?_⟩
  by_cases hlt : y < x
  · exact h.readable y hy hay hlt
  obtain rfl : y = x := by
    by_contra hne
    have hfar := add_pagesz_le h.dvd hy (by omega)
    omega
  exact hread

theorem loopInv_init (hab : a ≤ b) (hpms : ∀ pm ∈ pms, pm.ptnOff < (ptnAt ptns pm.ptnIdx).bytes.length) :
    LoopInv flags ptns mod a b (alignDown a) pms pms := by
  have hle := alignDown_le a
  refine ⟨dvd_alignDown a, le_rfl, ?_, fun y _ hay hyx => by omega⟩
  rw [min_eq_right (by omega)]
  refine ⟨fun pm hpm => .inr ⟨dvd_alignDown a, pm, hpm, ?_⟩, fun pm hnew _ => ?_, fun ea hocc => ?_⟩
  · refine ⟨by simp, by simpa using hpms pm hpm, ?_⟩
    intro i hi
    omega
  · have hstart := hnew.start
    have hstop := hnew.stop
    have hpos := hnew.off_pos
    omega
  · obtain ⟨idx, hidx, hstart, hstop, -⟩ := hocc
    have hpos := hidx.2
    omega

end

end IdaSdk.BinSearch.Forward
