import IdaSdk.BinSearchBackward

/-!
Which match the backward matcher reports: as for the forward one, with the suffixes of patterns that begin
at the boundary of a page. The search goes down from the end of the range, and `top` is how far it has come.
-/

namespace IdaSdk.BinSearch.Backward

section
variable {flags : SearchFlags} {ptns : List CompiledBinpat} {mem : Nat → UInt8} {a b x top pageOff : Nat}
  {pms pms' : List PartMatch}

/-- `pm` is a suffix of a pattern that begins at `top` and ends before `b`. -/
structure NewAt (flags : SearchFlags) (ptns : List CompiledBinpat) (mem : Nat → UInt8) (top b : Nat) (pm : PartMatch) :
    Prop where
  usable : Usable ptns pm.ptnIdx
  matchEa_eq : pm.matchEa = startOf ptns pm.ptnIdx (top + pm.ptnOff)
  stop : top + pm.ptnOff ≤ b
  off_pos : 0 < pm.ptnOff
  off_lt : pm.ptnOff < (ptnAt ptns pm.ptnIdx).bytes.length
  matches_ : MatchesAt flags (ptnAt ptns pm.ptnIdx) mem top ((ptnAt ptns pm.ptnIdx).bytes.length - pm.ptnOff) pm.ptnOff

/-- The invariant when everything from `top` on has been searched. -/
structure PageInv (flags : SearchFlags) (ptns : List CompiledBinpat) (mem : Nat → UInt8) (top b : Nat)
    (pms : List PartMatch) : Prop where
  mem_iff : ∀ pm, pm ∈ pms ↔ NewAt flags ptns mem top b pm
  ordered : pms.Pairwise Before
  none : ∀ ea, ¬ OccursIn flags ptns mem top b ea

theorem pageInv_init : PageInv flags ptns mem b b [] := by
  refine ⟨fun pm => ⟨fun hpm => absurd hpm List.not_mem_nil, fun hnew => ?_⟩, List.Pairwise.nil, fun ea hocc => ?_⟩
  · have hstop := hnew.stop
    have hpos := hnew.off_pos
    omega
  · obtain ⟨idx, hidx, hstart, hstop, -⟩ := hocc
    have hpos := hidx.2
    omega

variable {pm : PartMatch}

theorem NewAt.complete (h : NewAt flags ptns mem top b pm) (hb : b < eaModulus)
    (hlen : (ptnAt ptns pm.ptnIdx).bytes.length - pm.ptnOff ≤ top)
    (hm : MatchesAt flags (ptnAt ptns pm.ptnIdx) mem (top - ((ptnAt ptns pm.ptnIdx).bytes.length - pm.ptnOff)) 0
      ((ptnAt ptns pm.ptnIdx).bytes.length - pm.ptnOff)) :
    pm.matchEa + (ptnAt ptns pm.ptnIdx).bytes.length = top + pm.ptnOff ∧
      MatchesAt flags (ptnAt ptns pm.ptnIdx) mem pm.matchEa 0 (ptnAt ptns pm.ptnIdx).bytes.length := by
  have hlt := h.off_lt
  have hstop := h.stop
  have hadd : pm.matchEa + (ptnAt ptns pm.ptnIdx).bytes.length = top + pm.ptnOff := by
    rw [h.matchEa_eq]
    exact startOf_add (by omega) (by omega)
  refine ⟨hadd, ?_⟩
  have hall := matchesAt_add.mpr ⟨hm, by rw [Nat.sub_add_cancel hlen, Nat.zero_add]; exact h.matches_⟩
  rw [Nat.sub_add_cancel hlt.le] at hall
  rwa [show pm.matchEa = top - ((ptnAt ptns pm.ptnIdx).bytes.length - pm.ptnOff) by omega]

variable {ea : Nat}

theorem newAt_of_occursAt {idx : Nat} (h : OccursAt flags ptns mem a b idx ea) (hb : b < eaModulus)
    (hlt : ea < top) (hgt : top < ea + (ptnAt ptns idx).bytes.length) :
    NewAt flags ptns mem top b ⟨ea, idx, ea + (ptnAt ptns idx).bytes.length - top⟩ ∧
      MatchesAt flags (ptnAt ptns idx) mem ea 0 (top - ea) := by
  obtain ⟨hidx, hstart, hstop, hm⟩ := h
  have hsum : top - ea + (ea + (ptnAt ptns idx).bytes.length - top) = (ptnAt ptns idx).bytes.length := by omega
  rw [← hsum] at hm
  obtain ⟨hfirst, hrest⟩ := matchesAt_add.mp hm
  rw [Nat.add_sub_cancel' hlt.le, Nat.zero_add] at hrest
  have hend : top + (ea + (ptnAt ptns idx).bytes.length - top) = ea + (ptnAt ptns idx).bytes.length := by omega
  refine ⟨⟨hidx, ?_, ?_, ?_, ?_, ?_⟩, hfirst⟩
  · simp only [hend]
    have hadd := @startOf_add ptns idx (ea + (ptnAt ptns idx).bytes.length) (by omega) (by omega)
    omega
  · simp only
    omega
  · simp only
    omega
  · simp only
    omega
  · simp only
    rwa [show (ptnAt ptns idx).bytes.length - (ea + (ptnAt ptns idx).bytes.length - top) = top - ea by omega]

theorem NewAt.extend {n : Nat} (h : NewAt flags ptns mem (x + n) b pm)
    (hlen : n < (ptnAt ptns pm.ptnIdx).bytes.length - pm.ptnOff)
    (hm : MatchesAt flags (ptnAt ptns pm.ptnIdx) mem x ((ptnAt ptns pm.ptnIdx).bytes.length - pm.ptnOff - n) n) :
    NewAt flags ptns mem x b { pm with ptnOff := pm.ptnOff + n } where
  usable := h.usable
  matchEa_eq := by
    rw [h.matchEa_eq]
    simp only
    congr 1
    omega
  stop := by
    have hstop := h.stop
    simp only
    omega
  off_pos := by
    have hpos := h.off_pos
    simp only
    omega
  off_lt := by
    simp only
    omega
  matches_ := by
    simp only
    rw [Nat.add_comm pm.ptnOff n, show (ptnAt ptns pm.ptnIdx).bytes.length - (n + pm.ptnOff) =
      (ptnAt ptns pm.ptnIdx).bytes.length - pm.ptnOff - n by omega]
    refine matchesAt_add.mpr ⟨hm, ?_⟩
    rw [Nat.sub_add_cancel hlen.le]
    exact h.matches_

theorem NewAt.restrict {n : Nat} (h : NewAt flags ptns mem x b pm) (hlt : n < pm.ptnOff) :
    NewAt flags ptns mem (x + n) b { pm with ptnOff := pm.ptnOff - n } ∧
      MatchesAt flags (ptnAt ptns pm.ptnIdx) mem x ((ptnAt ptns pm.ptnIdx).bytes.length - pm.ptnOff) n := by
  have hstop := h.stop
  have hlen := h.off_lt
  have hboth := h.matches_
  have hsum : n + (pm.ptnOff - n) = pm.ptnOff := by omega
  have hsplit := @matchesAt_add flags (ptnAt ptns pm.ptnIdx) mem x
    ((ptnAt ptns pm.ptnIdx).bytes.length - pm.ptnOff) n (pm.ptnOff - n)
  rw [hsum] at hsplit
  obtain ⟨hfirst, hrest⟩ := hsplit.mp hboth
  refine ⟨⟨h.usable, ?_, ?_, ?_, ?_, ?_⟩, hfirst⟩
  · rw [h.matchEa_eq]
    simp only
    congr 1
    omega
  · simp only
    omega
  · simp only
    omega
  · simp only
    omega
  · simp only
    rwa [show (ptnAt ptns pm.ptnIdx).bytes.length - (pm.ptnOff - n) =
      (ptnAt ptns pm.ptnIdx).bytes.length - pm.ptnOff + n by omega]

theorem partAt_iff (hstop : top ≤ b) (hxt : x < top) :
    (∃ idx, Usable ptns idx ∧ ∃ e, (0 < e ∧ e ≤ top - x) ∧ PartAt flags ptns mem x 0 idx e pm) ↔
      NewAt flags ptns mem x b pm ∧ pm.ptnOff ≤ top - x := by
  constructor
  · rintro ⟨idx, hidx, e, he, rfl, hlen, hm⟩
    rw [Nat.sub_zero] at *
    refine ⟨⟨hidx, rfl, ?_, he.1, hlen, hm⟩, he.2⟩
    simp only
    omega
  · rintro ⟨hnew, hle⟩
    refine ⟨pm.ptnIdx, hnew.usable, pm.ptnOff, ⟨hnew.off_pos, hle⟩, ?_, ?_, ?_⟩
    · rw [Nat.sub_zero, ← hnew.matchEa_eq]
    · exact hnew.off_lt
    · exact hnew.matches_

theorem FirstIn.lower {a' : Nat} (h : FirstIn (· ≥ ·) flags ptns mem a' b ea) (ha : a ≤ a') :
    FirstIn (· ≥ ·) flags ptns mem a b ea := by
  obtain ⟨idx, ⟨hidx, hstart, hstop, hm⟩, hfirst⟩ := h
  refine ⟨idx, ⟨hidx, by omega, hstop, hm⟩, fun ea' hocc => ?_⟩
  by_cases hlt : ea' < a'
  · change ea' ≤ ea
    omega
  · exact hfirst ea' ⟨hidx, by omega, hocc.2.2⟩

variable [PageSize]

theorem finalize_eq_ok (hoff : pageOff < PAGESZ) :
    finalizePartialMatch flags ptns (fun o => mem (x + o)) pageOff pm = .ok ↔
      (ptnAt ptns pm.ptnIdx).bytes.length - pm.ptnOff ≤ PAGESZ - pageOff ∧
        MatchesAt flags (ptnAt ptns pm.ptnIdx) mem
          (x + PAGESZ - ((ptnAt ptns pm.ptnIdx).bytes.length - pm.ptnOff)) 0
          ((ptnAt ptns pm.ptnIdx).bytes.length - pm.ptnOff) := by
  have hiff := fun n => @matchPattern_iff flags (ptnAt ptns pm.ptnIdx) mem x (PAGESZ - n)
    ((ptnAt ptns pm.ptnIdx).bytes.length - pm.ptnOff - n) n
  rw [finalizePartialMatch]
  by_cases hlen : (ptnAt ptns pm.ptnIdx).bytes.length - pm.ptnOff ≤ PAGESZ - pageOff
  · have hiff := hiff ((ptnAt ptns pm.ptnIdx).bytes.length - pm.ptnOff)
    rw [min_eq_left hlen]
    rw [Nat.sub_self, show x + (PAGESZ - ((ptnAt ptns pm.ptnIdx).bytes.length - pm.ptnOff)) =
      x + PAGESZ - ((ptnAt ptns pm.ptnIdx).bytes.length - pm.ptnOff) by omega] at hiff
    rw [← hiff, Nat.sub_self]
    cases matchPattern flags (fun o => mem (x + o)) (PAGESZ - ((ptnAt ptns pm.ptnIdx).bytes.length - pm.ptnOff))
      (ptnAt ptns pm.ptnIdx) 0 ((ptnAt ptns pm.ptnIdx).bytes.length - pm.ptnOff) <;> simp [hlen]
  · refine ⟨fun h => ?_, fun h => absurd h.1 hlen⟩
    simp only [if_neg hlen] at h
    split at h
    · exact absurd h (by simp)
    · split at h <;> exact absurd h (by simp)

theorem finalize_eq_again {pm' : PartMatch} :
    finalizePartialMatch flags ptns (fun o => mem (x + o)) pageOff pm = .again pm' ↔
      pageOff = 0 ∧ PAGESZ < (ptnAt ptns pm.ptnIdx).bytes.length - pm.ptnOff ∧
        MatchesAt flags (ptnAt ptns pm.ptnIdx) mem x
          ((ptnAt ptns pm.ptnIdx).bytes.length - pm.ptnOff - PAGESZ) PAGESZ ∧
        pm' = { pm with ptnOff := pm.ptnOff + PAGESZ } := by
  rw [finalizePartialMatch]
  by_cases hlen : (ptnAt ptns pm.ptnIdx).bytes.length - pm.ptnOff ≤ PAGESZ - pageOff
  · refine ⟨fun h => ?_, fun h => absurd h.2.1 (by omega)⟩
    simp only [if_pos hlen] at h
    split at h <;> exact absurd h (by simp)
  by_cases hoff : pageOff = 0
  · subst hoff
    have hiff := @matchPattern_iff flags (ptnAt ptns pm.ptnIdx) mem x 0
      ((ptnAt ptns pm.ptnIdx).bytes.length - pm.ptnOff - PAGESZ) PAGESZ
    rw [Nat.add_zero] at hiff
    rw [Nat.sub_zero] at hlen ⊢
    rw [min_eq_right (by omega), Nat.sub_self, ← hiff]
    cases matchPattern flags (fun o => mem (x + o)) 0 (ptnAt ptns pm.ptnIdx)
      ((ptnAt ptns pm.ptnIdx).bytes.length - pm.ptnOff - PAGESZ) PAGESZ
    · simp
    · simp only [Bool.not_true, Bool.false_eq_true, if_false, if_neg hlen, ne_eq, not_true, true_and,
        Finalized.again.injEq]
      exact ⟨fun h => ⟨by omega, h.symm⟩, fun h => h.2.symm⟩
  · refine ⟨fun h => ?_, fun h => absurd h.1 hoff⟩
    simp only [if_neg hlen, ne_eq, hoff, not_false_eq_true, if_true] at h
    split at h <;> exact absurd h (by simp)

theorem finalize_advances : AdvancesBy PAGESZ (finalizePartialMatch flags ptns (fun o => mem (x + o)) pageOff) := by
  intro pm pm' h
  obtain ⟨-, -, -, rfl⟩ := finalize_eq_again.1 h
  exact ⟨rfl, rfl⟩

/-- The page that is searched: it holds what is below `top`, and its window begins at `max a x`. -/
structure Window (a b x top : Nat) : Prop where
  dvd : PAGESZ ∣ x
  start : a < top
  stop : top ≤ b
  inside : x < top
  reach : top = b ∧ top ≤ x + PAGESZ ∨ top = x + PAGESZ
  no_wrap : b < eaModulus

theorem Window.le (w : Window a b x top) : top ≤ x + PAGESZ := by
  rcases w.reach with ⟨-, hle⟩ | heq <;> omega

theorem occursAt_cases (w : Window a b x top) (hinv : PageInv flags ptns mem top b pms) {idx : Nat}
    (h : OccursAt flags ptns mem (max a x) b idx ea) :
    (ea + (ptnAt ptns idx).bytes.length ≤ top ∧ Usable ptns idx ∧
        ∃ e, (a - x < e ∧ e ≤ top - x) ∧ FullAt flags ptns mem x (a - x) idx e ea) ∨
      ∃ pm ∈ pms, finalizePartialMatch flags ptns (fun o => mem (x + o)) (a - x) pm = .ok ∧
        pm.ptnIdx = idx ∧ ea + (ptnAt ptns idx).bytes.length = top + pm.ptnOff := by
  have hle := w.le
  have hin := w.inside
  have hst := w.start
  obtain ⟨hidx, hstart, hstop, hm⟩ := h
  have hpos := hidx.2
  by_cases hbelow : ea + (ptnAt ptns idx).bytes.length ≤ top
  · refine .inl ⟨hbelow, hidx, ea + (ptnAt ptns idx).bytes.length - x, by omega, by omega, by omega, hm⟩
  have hlt : ea < top := by
    by_contra hge
    exact hinv.none ea ⟨idx, hidx, by omega, hstop, hm⟩
  have hwhole : top = x + PAGESZ := w.reach.resolve_left fun hb => by omega
  obtain ⟨hnew, hrest⟩ := newAt_of_occursAt ⟨hidx, hstart, hstop, hm⟩ w.no_wrap hlt (by omega)
  refine .inr ⟨_, (hinv.mem_iff _).mpr hnew, (finalize_eq_ok (by omega)).mpr ⟨?_, ?_⟩, rfl, ?_⟩
  · simp only
    omega
  · simp only
    rw [show (ptnAt ptns idx).bytes.length - (ea + (ptnAt ptns idx).bytes.length - top) = top - ea by omega,
      ← hwhole, show top - (top - ea) = ea by omega]
    exact hrest
  · simp only
    omega

theorem scanPage_highest (w : Window a b x top) (hinv : PageInv flags ptns mem top b pms)
    (h : scanPage (finalizePartialMatch flags ptns (fun o => mem (x + o)) (a - x))
      (matchSimplePatterns flags ptns (fun o => mem (x + o)) x (a - x) (top - x))
      (matchComplexPatterns flags ptns (fun o => mem (x + o)) x (a - x) (top - x)) pms = .found ea) :
    FirstIn (· ≥ ·) flags ptns mem (max a x) b ea := by
  have hle := w.le
  have hin := w.inside
  have hst := w.start
  have hsp := w.stop
  have hmod := w.no_wrap
  rcases scanPage_found (matchPatterns_spec (by omega) (by omega)) h with
    ⟨pm, hpm, hok, rfl, hfirst⟩ | ⟨hno, idx, ⟨hidx, e, he, hstop, hlen, hm⟩, hfirst⟩
  · have hnew := (hinv.mem_iff pm).mp hpm
    have hpos := hnew.off_pos
    have hlt := hnew.off_lt
    have hbelow := hnew.stop
    have hwhole : top = x + PAGESZ := w.reach.resolve_left fun hb => by omega
    obtain ⟨hlen, hrest⟩ := (finalize_eq_ok (by omega)).mp hok
    rw [← hwhole] at hrest
    obtain ⟨hadd, hm⟩ := hnew.complete w.no_wrap (by omega) hrest
    refine ⟨pm.ptnIdx, ⟨hnew.usable, by omega, by omega, hm⟩, fun ea' hocc => ?_⟩
    rcases occursAt_cases w hinv hocc with ⟨hends, -⟩ | ⟨pm', hpm', hok', hidx, hadd'⟩
    · change ea' ≤ pm.matchEa
      omega
    · have hlong := hfirst hinv.ordered pm' hpm' hok' hidx.symm
      change ea' ≤ pm.matchEa
      omega
  · refine ⟨idx, ⟨hidx, by omega, by omega, hm⟩, fun ea' hocc => ?_⟩
    rcases occursAt_cases w hinv hocc with ⟨-, hfull⟩ | ⟨pm', hpm', hok', -, -⟩
    · exact hfirst ea' hfull
    · exact absurd hok' (hno pm' hpm')

theorem scanPage_none (w : Window a b x top) (hinv : PageInv flags ptns mem top b pms)
    (h : scanPage (finalizePartialMatch flags ptns (fun o => mem (x + o)) (a - x))
      (matchSimplePatterns flags ptns (fun o => mem (x + o)) x (a - x) (top - x))
      (matchComplexPatterns flags ptns (fun o => mem (x + o)) x (a - x) (top - x)) pms = .more pms') (ea : Nat) :
    ¬ OccursIn flags ptns mem (max a x) b ea := by
  have hle := w.le
  have hin := w.inside
  have hst := w.start
  have hsp := w.stop
  have hmod := w.no_wrap
  obtain ⟨-, hok, hnone⟩ := scanPage_more (matchPatterns_spec (by omega) (by omega)) h
  rintro ⟨idx, hocc⟩
  rcases occursAt_cases w hinv hocc with ⟨-, hfull⟩ | ⟨pm, hpm, hdone, -, -⟩
  · exact hnone idx ea hfull
  · exact hok pm hpm hdone

theorem scanPage_inv (w : Window a b x top) (hax : a ≤ x) (hinv : PageInv flags ptns mem top b pms)
    (h : scanPage (finalizePartialMatch flags ptns (fun o => mem (x + o)) (a - x))
      (matchSimplePatterns flags ptns (fun o => mem (x + o)) x (a - x) (top - x))
      (matchComplexPatterns flags ptns (fun o => mem (x + o)) x (a - x) (top - x)) pms = .more pms') :
    PageInv flags ptns mem x b pms' := by
  have hle := w.le
  have hin := w.inside
  have hst := w.start
  have hsp := w.stop
  have hmod := w.no_wrap
  have hzero : a - x = 0 := by omega
  have hnone := scanPage_none w hinv h
  rw [max_eq_right hax] at hnone
  have hspec := @matchPatterns_spec flags ptns mem x (a - x) (top - x) (by omega) (by omega)
  obtain ⟨hmem, -, -⟩ := scanPage_more hspec h
  refine ⟨fun pm => ?_, ?_, hnone⟩
  · rw [hmem, hzero, partAt_iff hsp hin]
    constructor
    · rintro (⟨pm₀, hpm₀, hagain⟩ | ⟨hnew, -⟩)
      · obtain ⟨-, hlen, hm, rfl⟩ := finalize_eq_again.mp hagain
        have hold := (hinv.mem_iff pm₀).mp hpm₀
        have hpos := hold.off_pos
        have hbelow := hold.stop
        rw [show top = x + PAGESZ from w.reach.resolve_left fun hb => by omega] at hold
        exact hold.extend hlen hm
      · exact hnew
    · intro hnew
      by_cases hends : pm.ptnOff ≤ top - x
      · exact .inr ⟨hnew, hends⟩
      have hbelow := hnew.stop
      have hlt := hnew.off_lt
      have hwhole : top = x + PAGESZ := w.reach.resolve_left fun hb => by omega
      have hlong : PAGESZ < pm.ptnOff := by omega
      obtain ⟨hold, hm⟩ := hnew.restrict hlong
      rw [← hwhole] at hold
      refine .inl ⟨_, (hinv.mem_iff _).mpr hold, finalize_eq_again.mpr ⟨rfl, ?_, ?_, ?_⟩⟩
      · simp only
        omega
      · simp only
        rwa [show (ptnAt ptns pm.ptnIdx).bytes.length - (pm.ptnOff - PAGESZ) - PAGESZ =
          (ptnAt ptns pm.ptnIdx).bytes.length - pm.ptnOff by omega]
      · simp only [Nat.sub_add_cancel hlong.le]
  · refine scanPage_pairwise hspec finalize_advances (fun pm hpm => ?_) (fun pm hpm => ?_) hinv.ordered h
    · exact ((hinv.mem_iff pm).mp hpm).off_pos
    · obtain ⟨idx, -, e, he, rfl, -⟩ := hpm
      simp only
      omega

variable {mod : Debmod}

theorem window_alignDown (hst : a < top) (hsp : top ≤ b) (hb : b < eaModulus) (htop : top = b ∨ PAGESZ ∣ top) :
    Window a b (alignDown (top - 1)) top := by
  have hdown := alignDown_le (top - 1)
  have hreach := lt_alignDown_add (top - 1)
  refine ⟨dvd_alignDown _, hst, hsp, by omega, ?_, hb⟩
  rcases htop with rfl | hdvd
  · exact .inl ⟨rfl, by omega⟩
  · have hfar := add_pagesz_le (dvd_alignDown (top - 1)) hdvd (by omega)
    exact .inr (by omega)

theorem findLoop_finds (hsearch : Searchable mod flags a b) (fuel : Nat) (htop : top = b ∨ PAGESZ ∣ top)
    (hst : a < top) (hsp : top ≤ b) (hinv : PageInv flags ptns mod.memory top b pms) (hfuel : top < fuel) :
    ∃ drc pms', findLoop flags ptns mod a b fuel (alignDown (top - 1)) (top - alignDown (top - 1)) pms =
        some (drc, pms') ∧ Finds (· ≥ ·) flags ptns mod.memory a b drc := by
  induction fuel generalizing top pms with
  | zero => omega
  | succ fuel ih =>
      have hwrap := hsearch.no_wrap
      have hpos := pagesz_pos
      have w := window_alignDown hst hsp (by omega) htop
      have hin := w.inside
      have hle := w.le
      generalize hx : alignDown (top - 1) = x at *
      have hax : alignDown a ≤ x := by
        rw [← hx]
        exact Nat.mul_le_mul_right _ (Nat.div_le_div_right (by omega))
      have hread := hsearch.readable x w.dvd hax (by omega)
      rw [findLoop, Nat.mod_eq_of_lt (by omega), if_pos (by omega), if_neg (hsearch.goes_on b x),
        if_neg (by simp [hread])]
      simp only
      split
      · rename_i ea hscan
        exact ⟨.ok ea, pms, rfl, FirstIn.lower (scanPage_highest w hinv hscan) (le_max_left _ _)⟩
      rename_i pms₁ hscan
      have hnone := scanPage_none w hinv hscan
      by_cases hgo : a < x
      · have hnext := scanPage_inv w hgo.le hinv hscan
        have hlow := add_pagesz_le (Nat.dvd_zero PAGESZ) w.dvd (by omega)
        have hbelow : alignDown (x - 1) = x - PAGESZ := by
          have hdown : PAGESZ ∣ x - PAGESZ := Nat.dvd_sub w.dvd (Nat.dvd_refl _)
          have heq := alignDown_add hdown (show PAGESZ - 1 < PAGESZ by omega)
          rwa [show x - PAGESZ + (PAGESZ - 1) = x - 1 by omega] at heq
        have hrec := ih (.inr w.dvd) hgo (by omega) hnext (by omega)
        rw [hbelow, show x - (x - PAGESZ) = PAGESZ by omega] at hrec
        rwa [show x + (eaModulus - PAGESZ) = x - PAGESZ + eaModulus by have := pagesz_lt_eaModulus; omega,
          Nat.add_mod_right, Nat.mod_eq_of_lt (by omega)]
      · -- the page of `a` was the last one
        obtain ⟨fuel, rfl⟩ : ∃ n, fuel = n + 1 := ⟨fuel - 1, by omega⟩
        rw [max_eq_left (by omega)] at hnone
        refine ⟨.failed, pms₁, ?_, hnone⟩
        rw [findLoop, Nat.mod_add_mod, Nat.add_assoc, Nat.sub_add_cancel pagesz_lt_eaModulus.le,
          Nat.add_mod_right, Nat.mod_eq_of_lt (by omega), if_neg hgo]

/-- On a readable range `find` reports, if any pattern occurs, an address, and it is the highest one where the
pattern that was found occurs. -/
theorem find_highest (h : Searchable mod flags a b) {fuel : Nat} (hfuel : b < fuel) :
    ∃ drc pms, find flags ptns mod fuel a b [] = some (drc, pms) ∧ Agrees (· ≥ ·) flags ptns mod.memory a b drc := by
  obtain ⟨drc, pms, hres, hfinds⟩ := findLoop_finds h fuel (.inl rfl) h.nonempty le_rfl pageInv_init hfuel
  exact ⟨drc, pms, hres, hfinds.agrees⟩

end

theorem find_highest_abc :
    ∃ drc pms, @find exactFlags [exactPattern [98, 99]] debuggerPage abcMemory 4 0 3 [] = some (drc, pms) ∧
      Agrees (· ≥ ·) exactFlags [exactPattern [98, 99]] abcMemory.memory 0 3 drc :=
  @find_highest _ _ _ _ debuggerPage _ searchable_abcMemory 4 (by decide)

/-- With "ab" and "c" the search of "abc" reports 0, although "c" is behind it. -/
theorem find_ab_before_c :
    ¬ ∀ (page : PageSize) (flags : SearchFlags) (ptns : List CompiledBinpat) (mod : Debmod) (a b fuel : Nat),
      @Searchable page mod flags a b → b < fuel →
        ∀ ea pms, @find flags ptns page mod fuel a b [] = some (.ok ea, pms) →
          ∀ ea', OccursIn flags ptns mod.memory a b ea' → ea' ≤ ea := by
  intro h
  have hfind : @find exactFlags [exactPattern [97, 98], exactPattern [99]] debuggerPage abcMemory 4 0 3 [] =
      some (.ok 0, []) := by decide +kernel
  have hocc : OccursIn exactFlags [exactPattern [97, 98], exactPattern [99]] abcMemory.memory 0 3 2 := by
    refine ⟨1, ⟨by decide, by decide⟩, by decide, by decide, ?_⟩
    unfold MatchesAt
    decide
  exact absurd (h debuggerPage _ _ _ 0 3 4 searchable_abcMemory (by decide) 0 [] hfind 2 hocc) (by decide)

end IdaSdk.BinSearch.Backward
