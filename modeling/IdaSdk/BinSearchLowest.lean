import IdaSdk.BinSearchForward

/-!
Which match the forward matcher reports. The partial matches of one pattern stay in the order of their
addresses, and they all lie before the page, so that the address is the lowest one of its pattern.
-/

namespace IdaSdk.BinSearch

section
variable {flags : SearchFlags} {ptns : List CompiledBinpat} {mem : Nat → UInt8}

/-- `ea` is the first place in `[a, b)` where some pattern occurs. -/
def FirstIn (le : Nat → Nat → Prop) (flags : SearchFlags) (ptns : List CompiledBinpat) (mem : Nat → UInt8)
    (a b ea : Nat) : Prop :=
  ∃ idx, OccursAt flags ptns mem a b idx ea ∧ ∀ ea', OccursAt flags ptns mem a b idx ea' → le ea ea'

theorem FirstIn.occursIn {le : Nat → Nat → Prop} {a b ea : Nat} (h : FirstIn le flags ptns mem a b ea) :
    OccursIn flags ptns mem a b ea := by
  obtain ⟨idx, hocc, -⟩ := h
  exact ⟨idx, hocc⟩

theorem FirstIn.widen {a b b' ea : Nat} (h : FirstIn (· ≤ ·) flags ptns mem a b' ea) (hb : b' ≤ b) :
    FirstIn (· ≤ ·) flags ptns mem a b ea := by
  obtain ⟨idx, ⟨hidx, hstart, hstop, hm⟩, hfirst⟩ := h
  refine ⟨idx, ⟨hidx, hstart, by omega, hm⟩, fun ea' hocc => ?_⟩
  by_contra hlt
  exact hlt (hfirst ea' ⟨hidx, hocc.2.1, by omega, hocc.2.2.2⟩)

end

/-- A range to search: all of its pages can be read, and the user does not cancel. -/
structure Searchable [PageSize] (mod : Debmod) (flags : SearchFlags) (a b : Nat) : Prop where
  nonempty : a < b
  no_wrap : b + PAGESZ ≤ eaModulus
  readable : ∀ x, PAGESZ ∣ x → alignDown a ≤ x → x < b → mod.readable x PAGESZ = true
  not_cancelled : flags.noBreak = true ∨ ∀ x y, mod.cancelled x y = false

theorem Searchable.goes_on [PageSize] {mod : Debmod} {flags : SearchFlags} {a b : Nat} (h : Searchable mod flags a b)
    (x y : Nat) : ¬ (!flags.noBreak && mod.cancelled x y) = true := by
  rcases h.not_cancelled with hno | hno
  · simp [hno]
  · simp [hno]

/-- What `find` returns: a first occurrence of some pattern, or that no pattern occurs. -/
def Finds (le : Nat → Nat → Prop) (flags : SearchFlags) (ptns : List CompiledBinpat) (mem : Nat → UInt8) (a b : Nat) :
    Drc → Prop
  | .ok ea => FirstIn le flags ptns mem a b ea
  | .failed => ∀ ea, ¬ OccursIn flags ptns mem a b ea
  | .error => False

/-- The result of `find` beside the byte-by-byte search: `DRC_OK` exactly when some pattern occurs, and then with the
first place of the pattern that was found, which is the first place of all if there is but one pattern. -/
structure Agrees (le : Nat → Nat → Prop) (flags : SearchFlags) (ptns : List CompiledBinpat) (mem : Nat → UInt8)
    (a b : Nat) (drc : Drc) : Prop where
  ok_iff : (∃ ea, drc = .ok ea) ↔ ∃ ea, OccursIn flags ptns mem a b ea
  failed_iff : drc = .failed ↔ ∀ ea, ¬ OccursIn flags ptns mem a b ea
  first : ∀ {ea}, drc = .ok ea → FirstIn le flags ptns mem a b ea
  single : ∀ {ea}, drc = .ok ea → ptns.length = 1 → ∀ ea', OccursIn flags ptns mem a b ea' → le ea ea'

theorem Finds.agrees {le : Nat → Nat → Prop} {flags : SearchFlags} {ptns : List CompiledBinpat} {mem : Nat → UInt8}
    {a b : Nat} {drc : Drc} (h : Finds le flags ptns mem a b drc) : Agrees le flags ptns mem a b drc := by
  have first : ∀ {ea}, drc = .ok ea → FirstIn le flags ptns mem a b ea := by
    rintro ea rfl
    exact h
  refine ⟨?_, ?_, first, fun {ea} hea hone ea' hocc => ?_⟩
  · cases drc with
    | ok ea => exact ⟨fun _ => ⟨ea, FirstIn.occursIn h⟩, fun _ => ⟨ea, rfl⟩⟩
    | failed => simpa [Finds] using h
    | error => exact h.elim
  · cases drc with
    | ok ea => simpa using ⟨ea, FirstIn.occursIn h⟩
    | failed => exact ⟨fun _ => h, fun _ => rfl⟩
    | error => exact h.elim
  · obtain ⟨idx, hfirst, hle⟩ := first hea
    obtain ⟨idx', hocc⟩ := hocc
    have hidx := hfirst.1.1
    have hidx' := hocc.1.1
    obtain rfl : idx' = idx := by omega
    exact hle ea' hocc

namespace Forward

variable [PageSize] {flags : SearchFlags} {ptns : List CompiledBinpat} {mem : Nat → UInt8} {mod : Debmod}
  {a b x lastOff : Nat} {pms pms' : List PartMatch}

theorem finalize_advances :
    AdvancesBy PAGESZ (finalizePartialMatch flags ptns (fun o => mem (x + o)) lastOff) := by
  intro pm pm' h
  obtain ⟨-, -, -, rfl⟩ := finalize_eq_again.mp h
  exact ⟨rfl, rfl⟩

theorem PageInv.newAt (hinv : PageInv flags ptns mem a x [] pms) {pm : PartMatch} (hpm : pm ∈ pms) :
    NewAt flags ptns mem a x pm :=
  (hinv.sound pm hpm).resolve_right fun ⟨_, _, hpm₀, _⟩ => List.not_mem_nil hpm₀

theorem scanPage_ordered (hinv : PageInv flags ptns mem a x [] pms) (hlast : lastOff ≤ PAGESZ)
    (hord : pms.Pairwise Before)
    (h : scanPage (finalizePartialMatch flags ptns (fun o => mem (x + o)) lastOff)
      (matchSimplePatterns flags ptns (fun o => mem (x + o)) x lastOff (a - x))
      (matchComplexPatterns flags ptns (fun o => mem (x + o)) x lastOff (a - x)) pms = .more pms') :
    pms'.Pairwise Before := by
  refine scanPage_pairwise (matchPatterns_spec (a - x)) finalize_advances (fun pm hpm => ?_) (fun pm hpm => ?_) hord h
  · exact (hinv.newAt hpm).off_pos
  · obtain ⟨idx, -, o, -, rfl, -⟩ := hpm
    simp only
    omega

theorem PageInv.occursAt_cases (hx : PAGESZ ∣ x) (hinv : PageInv flags ptns mem a x [] pms) {idx ea : Nat}
    (h : OccursAt flags ptns mem a (x + lastOff) idx ea) :
    (x ≤ ea ∧ Usable ptns idx ∧
        ∃ o, (a - x ≤ o ∧ o < lastOff) ∧ FullAt flags ptns mem x lastOff idx o ea) ∨
      ∃ pm ∈ pms, finalizePartialMatch flags ptns (fun o => mem (x + o)) lastOff pm = .ok ∧
        pm.matchEa = ea ∧ pm.ptnIdx = idx := by
  obtain ⟨hidx, hstart, hstop, hm⟩ := h
  have hpos := hidx.2
  by_cases hinside : x ≤ ea
  · have heq : x + (ea - x) = ea := by omega
    refine .inl ⟨hinside, hidx, ea - x, by omega, heq.symm, by omega, ?_⟩
    rw [heq]
    exact hm
  · have hreach : ¬ ea + (ptnAt ptns idx).bytes.length ≤ x := by
      intro hbefore
      exact hinv.none ea ⟨idx, hidx, hstart, hbefore, hm⟩
    have hsum : x - ea + ((ptnAt ptns idx).bytes.length - (x - ea)) = (ptnAt ptns idx).bytes.length := by omega
    rw [← hsum] at hm
    obtain ⟨hfirst, hrest⟩ := matchesAt_add.mp hm
    rw [Nat.add_sub_cancel' (by omega), Nat.zero_add] at hrest
    have hnew : NewAt flags ptns mem a x ⟨ea, idx, x - ea⟩ := by
      refine ⟨hidx, hstart, ?_, ?_, ?_, hfirst⟩
      · simp only
        omega
      · simp only
        omega
      · simp only
        omega
    refine .inr ⟨_, hinv.complete _ hnew (.inl hx), finalize_eq_ok.mpr ⟨?_, hrest⟩, rfl, rfl⟩
    simp only
    omega

theorem scanPage_lowest (hx : PAGESZ ∣ x) (hinv : PageInv flags ptns mem a x [] pms) (hord : pms.Pairwise Before)
    {ea : Nat}
    (h : scanPage (finalizePartialMatch flags ptns (fun o => mem (x + o)) lastOff)
      (matchSimplePatterns flags ptns (fun o => mem (x + o)) x lastOff (a - x))
      (matchComplexPatterns flags ptns (fun o => mem (x + o)) x lastOff (a - x)) pms = .found ea) :
    FirstIn (· ≤ ·) flags ptns mem a (x + lastOff) ea := by
  rcases scanPage_found (matchPatterns_spec (a - x)) h with
    ⟨pm, hpm, hok, rfl, hfirst⟩ | ⟨hno, idx, ⟨hidx, o, ho, rfl, hlen, hm⟩, hfirst⟩
  · have hnew := hinv.newAt hpm
    have hlt := hnew.off_lt
    have hstop := hnew.stop
    obtain ⟨hlen, hrest⟩ := finalize_eq_ok.mp hok
    refine ⟨pm.ptnIdx, ⟨hnew.usable, hnew.start, by omega, ?_⟩, fun ea' hocc => ?_⟩
    · have hall := matchesAt_add.mpr ⟨hnew.matches_, by rw [hstop, Nat.zero_add]; exact hrest⟩
      rwa [Nat.add_sub_cancel' hlt.le] at hall
    rcases hinv.occursAt_cases hx hocc with ⟨hinside, -⟩ | ⟨pm', hpm', hok', rfl, hidx⟩
    · have hpos := hnew.off_pos
      omega
    · have hlong := hfirst hord pm' hpm' hok' hidx.symm
      have hstop' := (hinv.newAt hpm').stop
      omega
  · refine ⟨idx, ⟨hidx, by omega, by omega, hm⟩, fun ea' hocc => ?_⟩
    rcases hinv.occursAt_cases hx hocc with ⟨-, hidx', o', ho', hfull⟩ | ⟨pm', hpm', hok', -, -⟩
    · exact hfirst ea' ⟨hidx', o', ho', hfull⟩
    · exact absurd hok' (hno pm' hpm')

theorem findLoop_finds (hsearch : Searchable mod flags a b) (fuel : Nat) (h : LoopInv flags ptns mod a b x [] pms)
    (hord : pms.Pairwise Before) (hfuel : b ≤ x + fuel * PAGESZ) :
    ∃ drc pms', findLoop flags ptns mod a b (fuel + 1) x (a - x) pms = some (drc, pms') ∧
      Finds (· ≤ ·) flags ptns mod.memory a b drc := by
  induction fuel generalizing x pms with
  | zero =>
      have hinv := h.inv
      rw [min_eq_left (by omega)] at hinv
      exact ⟨.failed, pms, by rw [findLoop, if_neg (by omega)], hinv.none⟩
  | succ fuel ih =>
      have hinv := h.inv
      rw [findLoop]
      by_cases hxb : x < b
      · rw [min_eq_right hxb.le] at hinv
        have hread := hsearch.readable x h.dvd h.align_le hxb
        rw [if_pos hxb, if_neg (hsearch.goes_on a x), if_neg (by simp [hread])]
        simp only
        split
        · rename_i ea hscan
          exact ⟨.ok ea, pms, rfl, FirstIn.widen (scanPage_lowest h.dvd hinv hord hscan) (by omega)⟩
        rename_i pms₁ hscan
        have hwrap := hsearch.no_wrap
        have hoff : a - (x + PAGESZ) = 0 := by
          have hpage := lt_alignDown_add a
          have hle := h.align_le
          omega
        have hrec := ih (h.next hxb hread hscan) (scanPage_ordered hinv (min_le_right _ _) hord hscan) (by
          rw [Nat.succ_mul] at hfuel
          omega)
        rw [hoff] at hrec
        rwa [Nat.mod_eq_of_lt (by omega)]
      · rw [min_eq_left (by omega)] at hinv
        exact ⟨.failed, pms, by rw [if_neg hxb], hinv.none⟩

/-- On a readable range `find` reports, if any pattern occurs, an address, and it is the lowest one where the
pattern that was found occurs. -/
theorem find_lowest (h : Searchable mod flags a b) {fuel : Nat} (hfuel : b < fuel) :
    ∃ drc pms, find flags ptns mod fuel a b [] = some (drc, pms) ∧ Agrees (· ≤ ·) flags ptns mod.memory a b drc := by
  obtain ⟨fuel, rfl⟩ : ∃ n, fuel = n + 1 := ⟨fuel - 1, by omega⟩
  have hscale := Nat.le_mul_of_pos_right fuel pagesz_pos
  obtain ⟨drc, pms, hres, hfinds⟩ := findLoop_finds h fuel (loopInv_init h.nonempty.le (by simp)) List.Pairwise.nil
    (show b ≤ alignDown a + fuel * PAGESZ by omega)
  exact ⟨drc, pms, hres, hfinds.agrees⟩

end Forward

/-- Memory that begins with "abc", all of it readable. -/
def abcMemory : Debmod where
  memory ea := [97, 98, 99].getD ea 0
  readable _ _ := true
  cancelled _ _ := false
  oldRanges := []

def exactFlags : SearchFlags := ⟨true, true, false⟩

def exactPattern (bytes : List UInt8) : CompiledBinpat := ⟨bytes, [], .inl rfl⟩

theorem searchable_abcMemory : @Searchable debuggerPage abcMemory exactFlags 0 3 :=
  @Searchable.mk debuggerPage _ _ _ _ (by decide) (by decide) (fun _ _ _ _ => rfl) (.inl rfl)

theorem Forward.find_lowest_abc :
    ∃ drc pms, @Forward.find exactFlags [exactPattern [98, 99]] debuggerPage abcMemory 4 0 3 [] = some (drc, pms) ∧
      Agrees (· ≤ ·) exactFlags [exactPattern [98, 99]] abcMemory.memory 0 3 drc :=
  @Forward.find_lowest debuggerPage _ _ _ _ _ searchable_abcMemory 4 (by decide)

/-- With "bc" and "a" the search of "abc" reports 1, because the patterns are tried one after the other. -/
theorem Forward.find_bc_before_a :
    ¬ ∀ (page : PageSize) (flags : SearchFlags) (ptns : List CompiledBinpat) (mod : Debmod) (a b fuel : Nat),
      @Searchable page mod flags a b → b < fuel →
        ∀ ea pms, @Forward.find flags ptns page mod fuel a b [] = some (.ok ea, pms) →
          ∀ ea', OccursIn flags ptns mod.memory a b ea' → ea ≤ ea' := by
  intro h
  have hfind : @Forward.find exactFlags [exactPattern [98, 99], exactPattern [97]] debuggerPage abcMemory 4 0 3 [] =
      some (.ok 1, []) := by decide +kernel
  have hocc : OccursIn exactFlags [exactPattern [98, 99], exactPattern [97]] abcMemory.memory 0 3 0 := by
    refine ⟨1, ⟨by decide, by decide⟩, le_rfl, by decide, ?_⟩
    unfold MatchesAt
    decide
  exact absurd (h debuggerPage _ _ _ 0 3 4 searchable_abcMemory (by decide) 1 [] hfind 0 hocc) (by decide)

end IdaSdk.BinSearch
