import IdaSdk.PageBptsModel

/-!
The page ranges of the recorded breakpoints. They are disjoint in every run whose additions have a range
of whole pages, and then the search by the neighbours of a page finds the only range that can meet an interval.
-/

namespace IdaSdk.PageBpts

variable {sys : Sys} {s s' : State} {t t' : page_bpts_t} {k : Nat} {b : Bpt}

variable {x : Int}

theorem wrap_of_nonneg (h : 0 ≤ x) (h' : x < 2 ^ 64) : (wrap x : Int) = x := by
  rw [wrap, Int.emod_eq_of_lt h h', Int.toNat_of_nonneg h]

theorem page_base_bounds (ea : Nat) : calc_page_base ea ≤ ea ∧ ea < calc_page_base ea + 4096 := by
  rw [calc_page_base, MEMORY_PAGE_SIZE]
  omega

theorem page_base_dvd (ea : Nat) : 4096 ∣ calc_page_base ea := Nat.dvd_mul_left 4096 (ea / MEMORY_PAGE_SIZE)

def pages (n : Nat) : Nat := (n + 4095) / 4096 * 4096

theorem pages_bounds (n : Nat) : n ≤ pages n ∧ pages n < n + 4096 ∧ 4096 ∣ pages n := by
  refine ⟨?_, ?_, Nat.dvd_mul_left 4096 _⟩ <;>
    · rw [pages]
      omega

/-- The range of an entry: whole pages from its key, all with an address. -/
structure Page (k : Nat) (b : Bpt) : Prop where
  key : b.page_ea = k
  aligned : 4096 ∣ k
  len_pos : 0 < b.aligned_len
  len_dvd : 4096 ∣ b.aligned_len
  top : k + b.aligned_len < 2 ^ 64

def Covers (k : Nat) (b : Bpt) (x : Int) : Prop := k ≤ x ∧ x < k + b.aligned_len

/-- Every entry has a range, and no two ranges share an address. -/
structure Ranged (t : page_bpts_t) : Prop where
  page : ∀ k b, t.find k = some b → Page k b
  disjoint : ∀ k b k' b', t.find k = some b → t.find k' = some b' → k < k' → k + b.aligned_len ≤ k'

variable {b' : Bpt}

theorem Ranged.unique (h : Ranged t) {k' : Nat} (hk : t.find k = some b)
    (hk' : t.find k' = some b') (hx : Covers k b x) (hx' : Covers k' b' x) : k = k' := by
  rcases Nat.lt_trichotomy k k' with hlt | heq | hgt
  · have := h.disjoint k b k' b' hk hk' hlt
    have := hx.2
    have := hx'.1
    omega
  · exact heq
  · have := h.disjoint k' b' k b hk' hk hgt
    have := hx'.2
    have := hx.1
    omega

theorem Ranged.empty : Ranged Table.empty := by
  constructor
  · intro k b h
    cases h
  · intro k b k' b' h
    cases h

/-- A table with no other ranges than those of `t`. -/
def Within (t t' : page_bpts_t) : Prop :=
  ∀ k b', t'.find k = some b' → ∃ b, t.find k = some b ∧ b'.page_ea = b.page_ea ∧ b'.aligned_len = b.aligned_len

theorem Within.refl (t : page_bpts_t) : Within t t := fun _ b h => ⟨b, h, rfl, rfl⟩

theorem Within.trans {t'' : page_bpts_t} (h : Within t t') (h' : Within t' t'') : Within t t'' := by
  intro k b'' hb''
  obtain ⟨b', hb', hkey', hlen'⟩ := h' k b'' hb''
  obtain ⟨b, hb, hkey, hlen⟩ := h k b' hb'
  exact ⟨b, hb, hkey'.trans hkey, hlen'.trans hlen⟩

theorem Within.ranged (h : Within t t') (hr : Ranged t) : Ranged t' := by
  constructor
  · intro k b' hb'
    obtain ⟨b, hb, hkey, hlen⟩ := h k b' hb'
    have hp := hr.page k b hb
    exact ⟨hkey.trans hp.key, hp.aligned, hlen ▸ hp.len_pos, hlen ▸ hp.len_dvd, hlen ▸ hp.top⟩
  · intro k₁ b₁ k₂ b₂ h₁ h₂ hlt
    obtain ⟨c₁, hc₁, -, hlen₁⟩ := h k₁ b₁ h₁
    obtain ⟨c₂, hc₂, -, -⟩ := h k₂ b₂ h₂
    rw [hlen₁]
    exact hr.disjoint k₁ c₁ k₂ c₂ hc₁ hc₂ hlt

theorem Within.erase (t : page_bpts_t) (k : Nat) : Within t (t.erase k) := by
  intro k' b' h
  rw [Table.find_erase] at h
  split at h
  · cases h
  · exact ⟨b', h, rfl, rfl⟩

theorem Within.modify {f : Bpt → Bpt} (hf : ∀ b, t.find k = some b →
    (f b).page_ea = b.page_ea ∧ (f b).aligned_len = b.aligned_len) : Within t (t.modify k f) := by
  intro k' b' h
  rw [Table.find_modify] at h
  split at h
  · next heq =>
      subst heq
      obtain ⟨b, hb, rfl⟩ := Option.map_eq_some_iff.mp h
      exact ⟨b, hb, hf b hb⟩
  · exact ⟨b', h, rfl, rfl⟩

/-! ### The search -/

variable {size : Int} {ea : Nat}

theorem overlap_iff {k : Nat} {len : Int} (hsize : 0 ≤ size) (hea : ea + size < 2 ^ 64) (hlen : 0 < len)
    (htop : k + len < 2 ^ 64) :
    overlap ea (wrap size) k (wrap len) = true ↔ 0 < size ∧ (k : Int) < ea + size ∧ (ea : Int) < k + len := by
  have hs := wrap_of_nonneg hsize (by omega)
  have hl := wrap_of_nonneg (Int.le_of_lt hlen) (by omega)
  rw [overlap]
  simp only [Bool.and_eq_true, decide_eq_true_eq]
  by_cases hzero : size = 0
  · constructor
    · intro h
      exact absurd (show wrap size = 0 by omega) h.1.1.1
    · intro h
      omega
  · have hpos : 0 < size := by omega
    have hlast : (last ea (wrap size) : Int) = ea + size - 1 := by
      rw [last, hs]
      exact wrap_of_nonneg (by omega) (by omega)
    have hlast' : (last k (wrap len) : Int) = k + len - 1 := by
      rw [last, hl]
      exact wrap_of_nonneg (by omega) (by omega)
    constructor
    · rintro ⟨⟨⟨-, -⟩, h⟩, h'⟩
      omega
    · rintro ⟨-, h, h'⟩
      refine ⟨⟨⟨?_, ?_⟩, ?_⟩, ?_⟩ <;> omega

/-- Some address of the interval is in the range of the entry. -/
def Shares (ea : Nat) (size : Int) (k : Nat) (b : Bpt) : Prop := ∃ x : Int, ea ≤ x ∧ x < ea + size ∧ Covers k b x

theorem shares_iff (hlen : 0 < b.aligned_len) :
    Shares ea size k b ↔ 0 < size ∧ (k : Int) < ea + size ∧ (ea : Int) < k + b.aligned_len := by
  constructor
  · rintro ⟨x, h1, h2, h3, h4⟩
    omega
  · rintro ⟨h1, h2, h3⟩
    rcases Nat.le_total ea k with hle | hle
    · exact ⟨k, by omega, by omega, by omega, by omega⟩
    · exact ⟨ea, by omega, by omega, by omega, by omega⟩

theorem candidate_spec (hr : Ranged t) (hsize : 0 ≤ size) (hea : ea + size < 2 ^ 64)
    (hk : t.find k = some b) (hs : Shares ea size k b) :
    ∃ p, candidate t ea size = some p ∧ t.find p.1 = some p.2 ∧ Shares ea size p.1 p.2 := by
  have hbase := page_base_bounds ea
  have hwrap := wrap_of_nonneg (x := ea + size) (by omega) hea
  have hp := hr.page k b hk
  obtain ⟨hpos, hlt, hgt⟩ := (shares_iff hp.len_pos).mp hs
  -- an entry below the page is the one before it: the entries between would stand in its range
  have hprev : k < calc_page_base ea → t.previous (calc_page_base ea) = some (k, b) := by
    intro hbelow
    cases hq : t.previous (calc_page_base ea) with
    | none => exact absurd (Table.previous_eq_none hq hk) (by omega)
    | some q =>
        obtain ⟨hfind, hlt'⟩ := Table.mem_previous hq
        have hle := Table.le_previous hq hk hbelow
        have heq : k = q.1 := by
          rcases Nat.lt_or_ge k q.1 with hlt'' | hge
          · have := hr.disjoint k b q.1 q.2 hk hfind hlt''
            omega
          · exact Nat.le_antisymm hle hge
        rw [← heq, hk] at hfind
        rw [← Prod.eta q, ← heq, ← Option.some.inj hfind]
  rw [candidate]
  cases hl : t.lowerBound (calc_page_base ea) with
  | none => exact ⟨(k, b), hprev (Table.lowerBound_eq_none hl hk), hk, hs⟩
  | some p =>
      obtain ⟨hfind, hle⟩ := Table.mem_lowerBound hl
      have hfirst := fun h => Table.lowerBound_le hl hk h
      by_cases hend : wrap (ea + size) ≤ p.1
      · refine ⟨(k, b), ?_, hk, hs⟩
        show (if wrap (ea + size) ≤ p.1 then t.previous (calc_page_base ea) else some p) = some (k, b)
        rw [if_pos hend]
        apply hprev
        rcases Nat.lt_or_ge k (calc_page_base ea) with h | h
        · exact h
        · have := hfirst h
          omega
      · refine ⟨p, ?_, hfind, ?_⟩
        · show (if wrap (ea + size) ≤ p.1 then t.previous (calc_page_base ea) else some p) = some p
          rw [if_neg hend]
        · have hq := hr.page p.1 p.2 hfind
          have hlen := Int.le_of_dvd hq.len_pos hq.len_dvd
          exact (shares_iff hq.len_pos).mpr ⟨hpos, by omega, by omega⟩

variable {p : Nat × Bpt}

theorem candidate_mem (h : candidate t ea size = some p) :
    t.find p.1 = some p.2 := by
  rw [candidate] at h
  cases hl : t.lowerBound (calc_page_base ea) with
  | none =>
      rw [hl] at h
      exact (Table.mem_previous h).1
  | some q =>
      rw [hl] at h
      change (if wrap (ea + size) ≤ q.1 then t.previous (calc_page_base ea) else some q) = some p at h
      split at h
      · exact (Table.mem_previous h).1
      · exact Option.some.inj h ▸ (Table.mem_lowerBound hl).1

theorem find_page_bpt_mem (h : find_page_bpt t ea size = some p) :
    t.find p.1 = some p.2 := candidate_mem (Option.filter_eq_some_iff.mp h).1

theorem find_page_bpt_shares (hr : Ranged t) (hsize : 0 ≤ size)
    (hea : ea + size < 2 ^ 64) (h : find_page_bpt t ea size = some p) : Shares ea size p.1 p.2 := by
  have hp := hr.page p.1 p.2 (find_page_bpt_mem h)
  exact (shares_iff hp.len_pos).mpr ((overlap_iff hsize hea hp.len_pos hp.top).mp (Option.filter_eq_some_iff.mp h).2)

theorem find_page_bpt_isSome (hr : Ranged t) (hsize : 0 ≤ size) (hea : ea + size < 2 ^ 64) :
    (find_page_bpt t ea size).isSome = true ↔ ∃ k b, t.find k = some b ∧ Shares ea size k b := by
  constructor
  · intro h
    obtain ⟨p, hp⟩ := Option.isSome_iff_exists.mp h
    exact ⟨p.1, p.2, find_page_bpt_mem hp, find_page_bpt_shares hr hsize hea hp⟩
  rintro ⟨k, b, hk, hs⟩
  obtain ⟨p, hc, hfind, hp⟩ := candidate_spec hr hsize hea hk hs
  have hlen := hr.page p.1 p.2 hfind
  rw [find_page_bpt, hc, Option.isSome_iff_exists]
  refine ⟨p, Option.filter_eq_some_iff.mpr ⟨rfl, ?_⟩⟩
  exact (overlap_iff hsize hea hlen.len_pos hlen.top).mpr ((shares_iff hlen.len_pos).mp hp)

/-! ### What a call does to the table -/

theorem enable_within (sys : Sys) (s : State) (k : Nat) (enable : Bool) :
    Within s.page_bpts (dbg_enable_page_bpt sys s k enable).2.page_bpts := by
  rw [dbg_enable_page_bpt]
  cases hk : s.page_bpts.find k with
  | none => exact Within.refl _
  | some b =>
      dsimp only
      split
      · exact Within.refl _
      split
      · exact Within.modify fun _ _ => ⟨rfl, rfl⟩
      · split
        · exact Within.refl _
        · exact Within.modify fun _ _ => ⟨rfl, rfl⟩

theorem enable_page_bpts_within (sys : Sys) (s : State) (enable : Bool) :
    Within s.page_bpts (enable_page_bpts sys s enable).page_bpts := by
  rw [enable_page_bpts]
  generalize s.page_bpts.keys = ks
  induction ks generalizing s with
  | nil => exact Within.refl _
  | cons k ks ih => exact (enable_within sys s k enable).trans (ih _)

theorem del_within (sys : Sys) (s : State) (ea type : Nat) :
    Within s.page_bpts (del_page_bpt sys s ea type).2.page_bpts := by
  rw [del_page_bpt]
  cases hp : find_page_bpt s.page_bpts ea 1 with
  | none => exact Within.refl _
  | some p =>
      dsimp only
      split
      · exact Within.refl _
      · exact (enable_within sys s p.1 false).trans (Within.erase _ _)

theorem adjust_keeps {dep : Dep} {protect : Nat} (h : adjust dep protect b = some b') :
    b'.page_ea = b.page_ea ∧ b'.aligned_len = b.aligned_len := by
  rw [adjust] at h
  split at h
  · obtain rfl := Option.some.inj h
    exact ⟨rfl, rfl⟩
  · obtain ⟨⟨removed, prot⟩, -, rfl⟩ := Option.map_eq_some_iff.mp h
    cases removed <;> exact ⟨rfl, rfl⟩

theorem mask_loop_within (dep : Dep) (startea endea protect : Nat) (ks : List Nat) (t : page_bpts_t) (newprot : Nat)
    {r : page_bpts_t × Nat} (h : mask_loop dep startea endea protect ks t newprot = some r) : Within t r.1 := by
  induction ks generalizing t newprot with
  | nil =>
      obtain rfl := Option.some.inj h
      exact Within.refl _
  | cons k ks ih =>
      rw [mask_loop] at h
      cases hk : t.find k with
      | none =>
          rw [hk] at h
          exact ih _ _ h
      | some b =>
          rw [hk] at h
          dsimp only at h
          split at h
          · split at h
            · obtain rfl := Option.some.inj h
              exact Within.refl _
            split at h
            · split at h
              · exact ih _ _ h
              cases hb : adjust dep protect b with
              | none =>
                  rw [hb] at h
                  cases h
              | some b' =>
                  rw [hb] at h
                  refine Within.trans (Within.modify ?_) (ih _ _ h)
                  intro c hc
                  rw [hk] at hc
                  rw [← Option.some.inj hc]
                  exact adjust_keeps hb
            · exact ih _ _ h
          · exact ih _ _ h

theorem find_record (t : page_bpts_t) (k : Nat) (b : Bpt) (k' : Nat) :
    (record t k b).find k' = if k' = k then some b else t.find k' := by
  rw [record, Table.find_modify]
  cases hk : t.find k with
  | none =>
      rw [Table.find_insertNew hk]
      split <;> rfl
  | some c =>
      rw [Table.insertNew_of_mem hk]
      split
      · next h =>
          rw [h, hk]
          rfl
      · rfl

theorem Ranged.record (hr : Ranged t) (hp : Page k b)
    (hfree : ∀ k' b', t.find k' = some b' → ∀ x, Covers k b x → ¬ Covers k' b' x) : Ranged (record t k b) := by
  have hself : ∀ k' b', t.find k' = some b' → k' ≠ k ∧ (k < k' → k + b.aligned_len ≤ k') ∧
      (k' < k → k' + b'.aligned_len ≤ k) := by
    intro k' b' h
    have hp' := hr.page k' b' h
    have hpos := hp.len_pos
    have hpos' := hp'.len_pos
    have hfree := hfree k' b' h
    refine ⟨?_, ?_, ?_⟩
    · rintro rfl
      exact hfree k' ⟨by omega, by omega⟩ ⟨by omega, by omega⟩
    · intro hlt
      by_contra hle
      exact hfree k' ⟨by omega, by omega⟩ ⟨by omega, by omega⟩
    · intro hlt
      by_contra hle
      exact hfree k ⟨by omega, by omega⟩ ⟨by omega, by omega⟩
  constructor
  · intro k' b' h
    rw [find_record] at h
    split at h
    · next heq =>
        subst heq
        exact Option.some.inj h ▸ hp
    · exact hr.page k' b' h
  · intro k₁ b₁ k₂ b₂ h₁ h₂ hlt
    rw [find_record] at h₁ h₂
    split at h₁ <;> split at h₂
    · omega
    · next heq _ =>
        subst heq
        exact Option.some.inj h₁ ▸ (hself k₂ b₂ h₂).2.1 hlt
    · next heq =>
        subst heq
        exact (hself k₁ b₁ h₁).2.2 hlt
    · exact hr.disjoint k₁ b₁ k₂ b₂ h₁ h₂ hlt

/-! ### Additions -/

/-- The range of an addition is at least one page long, has an address and a length that `int` holds, and an addition
of no bytes is on a page without a breakpoint. -/
structure Fits (t : page_bpts_t) (ea : Nat) (size : Int) : Prop where
  address : ea < 2 ^ 64
  pos : 0 < ea - calc_page_base ea + size
  small : ea - calc_page_base ea + size ≤ 2 ^ 31 - 4096
  top : calc_page_base ea + pages (ea - calc_page_base ea + size).toNat < 2 ^ 64
  free : size ≤ 0 → ∀ k b, t.find k = some b → ¬ Covers k b (calc_page_base ea)

theorem Fits.aligned_len (h : Fits t ea size) :
    aligned_len ea size = pages (ea - calc_page_base ea + size).toNat := by
  obtain ⟨-, hpos, hsmall, -, -⟩ := h
  generalize hm : (ea : Int) - calc_page_base ea + size = m at hpos hsmall
  have hbase := page_base_bounds ea
  have hwrap := wrap_of_nonneg (x := m) (by omega) (by omega)
  have hle := pages_bounds m.toNat
  have halign : align_up (wrap m) = pages m.toNat := by
    rw [align_up, pages, MEMORY_PAGE_SIZE]
    have hw : wrap (wrap m + ((4096 : Nat) - 1)) = m.toNat + 4095 := by
      have := wrap_of_nonneg (x := (wrap m : Int) + ((4096 : Nat) - 1)) (by omega) (by omega)
      omega
    rw [← hw]
  rw [PageBpts.aligned_len, hm, halign, int32]
  omega

theorem Fits.page (h : Fits t ea size) (type : Nat) (removed : Bool) (prot old : Nat) :
    Page (calc_page_base ea) (new_bpt type ea size removed prot old) := by
  have hlen := h.aligned_len
  have hb := pages_bounds (ea - calc_page_base ea + size).toNat
  have hpos := h.pos
  have htop := h.top
  refine ⟨rfl, page_base_dvd ea, ?_, ?_, ?_⟩
  · show 0 < PageBpts.aligned_len ea size
    omega
  · show 4096 ∣ PageBpts.aligned_len ea size
    rw [hlen]
    exact Int.natCast_dvd_natCast.mpr hb.2.2
  · show calc_page_base ea + PageBpts.aligned_len ea size < 2 ^ 64
    omega

theorem Fits.fresh (h : Fits t ea size) (hr : Ranged t)
    (hnone : find_page_bpt t ea size = none) {type prot old : Nat} {removed : Bool} {k' : Nat}
    (hk' : t.find k' = some b') (hx : Covers (calc_page_base ea) (new_bpt type ea size removed prot old) x) :
    ¬ Covers k' b' x := by
  intro hx'
  have hp := h.page type removed prot old
  have hp' := hr.page k' b' hk'
  have hlen : (new_bpt type ea size removed prot old).aligned_len = pages (ea - calc_page_base ea + size).toNat :=
    h.aligned_len
  have hb := pages_bounds (ea - calc_page_base ea + size).toNat
  have hbase := page_base_bounds ea
  have hpos := h.pos
  have htop := h.top
  have haligned := page_base_dvd ea
  have haligned' := hp'.aligned
  have hdvd' := hp'.len_dvd
  obtain ⟨hx1, hx2⟩ := hx
  obtain ⟨hx1', hx2'⟩ := hx'
  rcases Int.lt_or_le 0 size with hsize | hsize
  · have hsome : (find_page_bpt t ea size).isSome = true :=
      (find_page_bpt_isSome hr (Int.le_of_lt hsize) (by omega)).mpr
        ⟨k', b', hk', (shares_iff hp'.len_pos).mpr ⟨hsize, by omega, by omega⟩⟩
    rw [hnone] at hsome
    cases hsome
  · refine h.free hsize k' b' hk' ⟨?_, ?_⟩
    · omega
    · omega

theorem place_ranged (h : Fits s.page_bpts ea size) (hr : Ranged s.page_bpts)
    (hnone : find_page_bpt s.page_bpts ea size = none) (type : Nat) (removed : Bool) (prot : Nat) :
    Ranged (place_page_bpt sys s type ea size removed prot).2.page_bpts := by
  rw [place_page_bpt]
  split
  · exact hr.record (h.page type removed prot _) fun k' b' hk' x hx => h.fresh hr hnone hk' hx
  · rw [write_page_bpt]
    refine (enable_within sys _ _ true).ranged ?_
    exact hr.record (h.page type removed prot _) fun k' b' hk' x hx => h.fresh hr hnone hk' hx

theorem dbg_add_ranged {type : Nat} {r : Nat × State} (h : Fits s.page_bpts ea size)
    (hr : Ranged s.page_bpts) (hadd : dbg_add_page_bpt sys s type ea size = some r) : Ranged r.2.page_bpts := by
  rw [dbg_add_page_bpt] at hadd
  split at hadd
  · obtain rfl := Option.some.inj hadd
    exact hr
  rename_i hnone
  cases hq : sys.query with
  | none =>
      rw [hq] at hadd
      obtain rfl := Option.some.inj hadd
      exact hr
  | some state =>
      rw [hq] at hadd
      dsimp only at hadd
      split at hadd
      · obtain rfl := Option.some.inj hadd
        exact hr
      split at hadd
      · obtain rfl := Option.some.inj hadd
        exact hr
      · obtain ⟨p, -, rfl⟩ := Option.map_eq_some_iff.mp hadd
        exact place_ranged h hr (Option.not_isSome_iff_eq_none.mp hnone) type p.1 p.2

end IdaSdk.PageBpts
