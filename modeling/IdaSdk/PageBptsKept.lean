import IdaSdk.PageBptsTable

/-!
The original protections of the pages. As long as only the debugger changes protections, and every breakpoint stands on
pages of one protection, each page has either its original protection or the one of a written breakpoint.
-/

namespace IdaSdk.PageBpts

variable {orig : Nat → Nat} {sys : Sys} {s s' : State} {k : Nat} {b : Bpt}

def Written (b : Bpt) : Prop := b.real_len ≠ 0 ∧ b.old_prot ≠ 0

def On (k : Nat) (b : Bpt) (page : Nat) : Prop := Covers k b (page * MEMORY_PAGE_SIZE : Nat)

/-- An entry knows the original protection of its pages. -/
structure Entry (orig prot : Nat → Nat) (k : Nat) (b : Bpt) : Prop where
  real : b.real_len = 0 ∨ b.real_len = b.aligned_len
  uniform : b.real_len ≠ 0 → ∀ page, On k b page → orig page = orig (k / MEMORY_PAGE_SIZE)
  old : b.old_prot ≠ 0 → b.old_prot = orig (k / MEMORY_PAGE_SIZE)
  guard : b.real_len = 0 → b.new_prot = orig (k / MEMORY_PAGE_SIZE)
  nonzero : orig (k / MEMORY_PAGE_SIZE) ≠ 0
  written : Written b → ∀ page, On k b page → prot page = b.new_prot

structure Kept (orig : Nat → Nat) (s : State) : Prop where
  ranged : Ranged s.page_bpts
  entry : ∀ k b, s.page_bpts.find k = some b → Entry orig s.prot k b
  free : ∀ page, (∀ k b, s.page_bpts.find k = some b → On k b page → ¬ Written b) → s.prot page = orig page

theorem Kept.start (orig : Nat → Nat) : Kept orig ⟨orig, Table.empty⟩ := by
  refine ⟨Ranged.empty, ?_, fun _ _ => rfl⟩
  intro k b h
  cases h

theorem on_first (h : Page k b) : On k b (k / MEMORY_PAGE_SIZE) := by
  have hk : k / MEMORY_PAGE_SIZE * MEMORY_PAGE_SIZE = k := Nat.div_mul_cancel h.aligned
  have := h.len_pos
  rw [On, hk]
  exact ⟨Int.le_refl _, by omega⟩

theorem Kept.change (h : Kept orig s) (hk : s.page_bpts.find k = some b) {f : Bpt → Bpt} {prot : Nat → Nat}
    (hrange : (f b).page_ea = b.page_ea ∧ (f b).aligned_len = b.aligned_len)
    (houtside : ∀ page, ¬ On k b page → prot page = s.prot page) (hentry : Entry orig prot k (f b))
    (hfree : ¬ Written (f b) → ∀ page, On k b page → prot page = orig page) :
    Kept orig ⟨prot, s.page_bpts.modify k f⟩ := by
  have hother : ∀ k' b', k' ≠ k → s.page_bpts.find k' = some b' → ∀ page, On k' b' page → ¬ On k b page :=
    fun k' b' hne hk' page hon hon' => hne (h.ranged.unique hk' hk hon hon')
  refine ⟨?_, ?_, ?_⟩
  · refine (Within.modify ?_).ranged h.ranged
    intro c hc
    rw [hk] at hc
    rwa [← Option.some.inj hc]
  · intro k' b' hk'
    rw [Table.find_modify] at hk'
    split at hk'
    · next heq =>
        subst heq
        rw [hk] at hk'
        rwa [← Option.some.inj hk']
    · next hne =>
        have he := h.entry k' b' hk'
        refine { he with written := ?_ }
        intro hw page hon
        exact (houtside page (hother k' b' hne hk' page hon)).trans (he.written hw page hon)
  · intro page hpage
    by_cases hon : On k b page
    · refine hfree (fun hw => ?_) page hon
      refine hpage k (f b) ?_ ?_ hw
      · show (s.page_bpts.modify k f).find k = some (f b)
        rw [Table.find_modify_self, hk, Option.map_some]
      · rw [On, Covers, hrange.2]
        exact hon
    · refine (houtside page hon).trans (h.free page ?_)
      intro k' b' hk' hon'
      by_cases heq : k' = k
      · subst heq
        rw [hk] at hk'
        exact absurd (Option.some.inj hk' ▸ hon') hon
      · refine hpage k' b' ?_ hon'
        show (s.page_bpts.modify k f).find k' = some b'
        rwa [Table.find_modify_of_ne heq]

theorem Kept.erase (h : Kept orig s) (hnot : ∀ b, s.page_bpts.find k = some b → ¬ Written b) :
    Kept orig { s with page_bpts := s.page_bpts.erase k } := by
  refine ⟨(Within.erase _ _).ranged h.ranged, ?_, ?_⟩
  · intro k' b' hk'
    rw [Table.find_erase] at hk'
    split at hk'
    · cases hk'
    · exact h.entry k' b' hk'
  · intro page hpage
    apply h.free
    intro k' b' hk' hon
    by_cases heq : k' = k
    · subst heq
      exact hnot b' hk'
    · refine hpage k' b' ?_ hon
      show (s.page_bpts.erase k).find k' = some b'
      rwa [Table.find_erase, if_neg heq]

theorem Kept.add (h : Kept orig s) (hp : Page b.page_ea b) (he : Entry orig s.prot b.page_ea b)
    (hfresh : ∀ k' b', s.page_bpts.find k' = some b' → ∀ x, Covers b.page_ea b x → ¬ Covers k' b' x) :
    Kept orig (s.add b) := by
  refine ⟨h.ranged.record hp hfresh, ?_, ?_⟩
  · intro k' b' hk'
    rw [State.add, find_record] at hk'
    split at hk'
    · next heq =>
        rw [heq, ← Option.some.inj hk']
        exact he
    · exact h.entry k' b' hk'
  · intro page hpage
    apply h.free
    intro k' b' hk' hon
    by_cases heq : k' = b.page_ea
    · -- the new range would share its first address with the old one
      subst heq
      have hp' := h.ranged.page _ b' hk'
      have hpos := hp.len_pos
      have hpos' := hp'.len_pos
      exact absurd ⟨Int.le_refl _, by omega⟩ (hfresh _ b' hk' b.page_ea ⟨Int.le_refl _, by omega⟩)
    · refine hpage k' b' ?_ hon
      rw [State.add, find_record, if_neg heq]
      exact hk'

/-! ### Writing and removing -/

theorem virtualProtect_range (prot : Nat → Nat) (new : Nat) (hp : Page k b) (hreal : b.real_len = b.aligned_len)
    (page : Nat) : (On k b page → virtualProtect prot k (wrap b.real_len) new page = new) ∧
      (¬ On k b page → virtualProtect prot k (wrap b.real_len) new page = prot page) := by
  have hwrap : (wrap b.real_len : Int) = b.aligned_len := by
    rw [hreal]
    have := hp.len_pos
    have := hp.top
    exact wrap_of_nonneg (by omega) (by omega)
  have haligned := hp.aligned
  have hiff : On k b page ↔ k < (page + 1) * MEMORY_PAGE_SIZE ∧ page * MEMORY_PAGE_SIZE < k + wrap b.real_len := by
    rw [On, Covers, MEMORY_PAGE_SIZE]
    omega
  rw [virtualProtect]
  constructor
  · intro hon
    rw [if_pos (hiff.mp hon)]
  · intro hon
    rw [if_neg fun h => hon (hiff.mpr h)]

theorem virtualProtect_zero {prot : Nat → Nat} {new : Nat} (hk : 4096 ∣ k) : virtualProtect prot k (wrap 0) new = prot := by
  funext page
  rw [virtualProtect, if_neg]
  have : wrap 0 = 0 := rfl
  rw [MEMORY_PAGE_SIZE]
  omega

theorem Kept.unwritten (h : Kept orig s) (hk : s.page_bpts.find k = some b) (hnot : ¬ Written b) {page : Nat}
    (hon : On k b page) : s.prot page = orig page := by
  apply h.free
  intro k' b' hk' hon'
  have heq := h.ranged.unique hk' hk hon' hon
  subst heq
  rw [hk] at hk'
  rwa [← Option.some.inj hk']

theorem Kept.protect (h : Kept orig s) (hk : s.page_bpts.find k = some b) (new o : Nat)
    (hold : o ≠ 0 → o = orig (k / MEMORY_PAGE_SIZE)) (hwritten : o ≠ 0 → new = b.new_prot)
    (hback : b.real_len ≠ 0 → o = 0 → new = orig (k / MEMORY_PAGE_SIZE)) :
    Kept orig ⟨virtualProtect s.prot b.page_ea (wrap b.real_len) new,
      s.page_bpts.modify k fun b => { b with old_prot := o }⟩ := by
  have hp := h.ranged.page k b hk
  have he := h.entry k b hk
  rw [hp.key]
  rcases he.real with hzero | hreal
  · have hnot : ¬ Written b := fun hw => hw.1 hzero
    rw [hzero, virtualProtect_zero hp.aligned]
    refine h.change hk ⟨rfl, rfl⟩ (fun _ _ => rfl) ?_ fun _ page hon => h.unwritten hk hnot hon
    exact ⟨he.real, he.uniform, hold, he.guard, he.nonzero, fun hw => absurd hzero hw.1⟩
  · have hne : b.real_len ≠ 0 := by
      have := hp.len_pos
      omega
    have hprot := virtualProtect_range s.prot new hp hreal
    refine h.change hk ⟨rfl, rfl⟩ (fun page => (hprot page).2) ?_ ?_
    · refine ⟨he.real, he.uniform, hold, he.guard, he.nonzero, ?_⟩
      intro hw page hon
      exact ((hprot page).1 hon).trans (hwritten hw.2)
    intro hnot page hon
    have ho : o = 0 := by
      by_contra ho
      exact hnot ⟨hne, ho⟩
    rw [(hprot page).1 hon, hback hne ho, he.uniform hne page hon]

theorem Kept.enable_true (h : Kept orig s) (k : Nat) : Kept orig (dbg_enable_page_bpt sys s k true).2 := by
  rw [dbg_enable_page_bpt]
  cases hk : s.page_bpts.find k with
  | none => exact h
  | some b =>
      dsimp only
      split
      · exact h
      rename_i hold
      have hold : b.old_prot = 0 := by simpa using hold
      have hnot : ¬ Written b := fun hw => hw.2 hold
      have hat : s.at b.page_ea = orig (k / MEMORY_PAGE_SIZE) := by
        rw [State.at, (h.ranged.page k b hk).key]
        exact h.unwritten hk hnot (on_first (h.ranged.page k b hk))
      split
      · refine h.protect hk b.new_prot (s.at b.page_ea) ?_ (fun _ => rfl) ?_
        · intro _
          exact hat
        · intro _ hzero
          exact absurd (hat.symm.trans hzero) (h.entry k b hk).nonzero
      · exact h

theorem Kept.enable_false (h : Kept orig s) (k : Nat)
    (hclean : ∀ b, s.page_bpts.find k = some b → Written b → sys.protects b.page_ea = true) :
    Kept orig (dbg_enable_page_bpt sys s k false).2 := by
  rw [dbg_enable_page_bpt]
  cases hk : s.page_bpts.find k with
  | none => exact h
  | some b =>
      have he := h.entry k b hk
      dsimp only
      split
      · exact h
      rename_i hold
      have hold : b.old_prot ≠ 0 := by simpa using hold
      have hback := h.protect hk b.old_prot 0 (fun h => absurd rfl h) (fun h => absurd rfl h)
        fun _ _ => he.old hold
      split
      · exact hback
      rename_i hfail
      have hzero : b.real_len = 0 := by
        by_contra hne
        exact hfail (hclean b hk ⟨hne, hold⟩)
      rw [hzero, virtualProtect_zero ((h.ranged.page k b hk).key ▸ (h.ranged.page k b hk).aligned)] at hback
      exact hback

theorem written_of_disable {k' : Nat} {b' : Bpt}
    (hk' : (dbg_enable_page_bpt sys s k false).2.page_bpts.find k' = some b') (hw : Written b') :
    s.page_bpts.find k' = some b' ∧ k' ≠ k := by
  rw [dbg_enable_page_bpt] at hk'
  cases hk : s.page_bpts.find k with
  | none =>
      rw [hk] at hk'
      refine ⟨hk', ?_⟩
      rintro rfl
      rw [hk] at hk'
      cases hk'
  | some b =>
      rw [hk] at hk'
      dsimp only at hk'
      have hmod : (s.page_bpts.modify k fun b => { b with old_prot := 0 }).find k' = some b' →
          s.page_bpts.find k' = some b' ∧ k' ≠ k := by
        intro hmod
        rw [Table.find_modify] at hmod
        split at hmod
        · obtain ⟨c, -, rfl⟩ := Option.map_eq_some_iff.mp hmod
          exact absurd rfl hw.2
        · next hne => exact ⟨hmod, hne⟩
      split at hk'
      · next hold =>
          refine ⟨hk', ?_⟩
          rintro rfl
          rw [hk] at hk'
          have hzero : b.old_prot = 0 := by simpa using hold
          exact hw.2 (Option.some.inj hk' ▸ hzero)
      · split at hk'
        · exact hmod hk'
        · exact hmod hk'

theorem Kept.enable_all_true (h : Kept orig s) : Kept orig (enable_page_bpts sys s true) := by
  rw [enable_page_bpts]
  generalize s.page_bpts.keys = ks
  induction ks generalizing s with
  | nil => exact h
  | cons k ks ih => exact ih (h.enable_true k)

theorem Kept.enable_all_false (h : Kept orig s)
    (hclean : ∀ k b, s.page_bpts.find k = some b → Written b → sys.protects b.page_ea = true) :
    Kept orig (enable_page_bpts sys s false) := by
  rw [enable_page_bpts]
  generalize s.page_bpts.keys = ks
  induction ks generalizing s with
  | nil => exact h
  | cons k ks ih =>
      apply ih (h.enable_false k (hclean k))
      intro k' b' hk' hw
      exact hclean k' b' (written_of_disable hk' hw).1 hw

theorem Kept.del (h : Kept orig s) (k : Nat)
    (hclean : ∀ b, s.page_bpts.find k = some b → Written b → sys.protects b.page_ea = true) :
    Kept orig { (dbg_enable_page_bpt sys s k false).2 with
      page_bpts := (dbg_enable_page_bpt sys s k false).2.page_bpts.erase k } := by
  apply (h.enable_false k hclean).erase
  intro b' hk' hw
  exact (written_of_disable hk' hw).2 rfl

theorem Kept.del_range (h : Kept orig s) (hk : s.page_bpts.find k = some b)
    (hclean : Written b → sys.protects b.page_ea = true) {page : Nat} (hon : On k b page) :
    (dbg_enable_page_bpt sys s k false).2.prot page = orig page := by
  have hclean' : ∀ c, s.page_bpts.find k = some c → Written c → sys.protects c.page_ea = true := by
    intro c hc
    rw [hk] at hc
    exact Option.some.inj hc ▸ hclean
  apply (h.del k hclean').free
  intro k' b' hk' hon' hw
  -- another written entry stood there before, and shares the page
  change (Table.erase _ k).find k' = some b' at hk'
  rw [Table.find_erase] at hk'
  split at hk'
  · cases hk'
  · next hne => exact hne (h.ranged.unique (written_of_disable hk' hw).1 hk hon' hon)

/-! ### Masks -/

/-- A region of memory as the system reports it: whole pages with one protection, and here with one original one. -/
structure Region (orig : Nat → Nat) (s : State) (startea endea protect : Nat) : Prop where
  nonempty : startea < endea
  top : endea < 2 ^ 64
  start_aligned : 4096 ∣ startea
  end_aligned : 4096 ∣ endea
  uniform : ∀ page, startea ≤ page * MEMORY_PAGE_SIZE → page * MEMORY_PAGE_SIZE < endea →
    s.prot page = protect ∧ orig page = orig (startea / MEMORY_PAGE_SIZE)

def Meets (startea endea : Nat) (b : Bpt) : Prop := startea < wrap (b.page_ea + b.real_len) ∧ b.page_ea < endea

/-- The loop where every entry that it looks at has the protection of the region and keeps the same original one. -/
theorem mask_loop_spec (dep : Dep) {startea endea protect o : Nat} {t : page_bpts_t}
    (hkey : ∀ k b, t.find k = some b → b.page_ea = k)
    (hmeets : ∀ k b, t.find k = some b → Meets startea endea b → b.old_prot ≠ 0 →
      protect = b.new_prot ∧ b.old_prot = o) :
    ∀ (ks : List Nat), ks.Pairwise (· < ·) → ∀ newprot, ∃ newprot',
      mask_loop dep startea endea protect ks t newprot = some (t, newprot') ∧
      (newprot' = o ∨ newprot' = newprot ∧
        ∀ k ∈ ks, ∀ b, t.find k = some b → Meets startea endea b → b.old_prot = 0) := by
  intro ks
  induction ks with
  | nil =>
      intro _ newprot
      refine ⟨newprot, rfl, .inr ⟨rfl, ?_⟩⟩
      intro k hk
      cases hk
  | cons k ks ih =>
      intro hsorted newprot
      rw [List.pairwise_cons] at hsorted
      -- an entry that changes nothing is left to the rest of the loop
      have hskip : (∀ b, t.find k = some b → Meets startea endea b → b.old_prot = 0) →
          ∃ newprot', mask_loop dep startea endea protect ks t newprot = some (t, newprot') ∧
            (newprot' = o ∨ newprot' = newprot ∧
              ∀ k' ∈ k :: ks, ∀ b, t.find k' = some b → Meets startea endea b → b.old_prot = 0) := by
        intro hnone
        obtain ⟨newprot', heq, hres⟩ := ih hsorted.2 newprot
        exact ⟨newprot', heq, hres.imp_right fun h => ⟨h.1, List.forall_mem_cons.mpr ⟨hnone, h.2⟩⟩⟩
      rw [mask_loop]
      cases hk : t.find k with
      | none =>
          apply hskip
          intro b hb
          rw [hk] at hb
          cases hb
      | some b =>
          have hself : ∀ c, t.find k = some c → c = b := by
            intro c hc
            rw [hk] at hc
            exact (Option.some.inj hc).symm
          dsimp only
          split
          · next hstart =>
              split
              · next hend =>
                  refine ⟨newprot, rfl, .inr ⟨rfl, ?_⟩⟩
                  intro k' hk' c hc hm
                  have hlt := hm.2
                  rw [hkey k' c hc] at hlt
                  rw [hkey k b hk] at hend
                  rcases List.mem_cons.mp hk' with rfl | hk'
                  · omega
                  · have := hsorted.1 k' hk'
                    omega
              · next hend =>
                  split
                  · next hold =>
                      obtain ⟨hprot, ho⟩ := hmeets k b hk ⟨hstart, Nat.lt_of_not_le hend⟩ hold
                      rw [if_pos hprot]
                      obtain ⟨newprot', heq, hres⟩ := ih hsorted.2 b.old_prot
                      exact ⟨newprot', heq, .inl (hres.elim id fun h => h.1.trans ho)⟩
                  · next hold =>
                      apply hskip
                      intro c hc _
                      rw [hself c hc]
                      exact not_not.mp hold
          · next hstart =>
              apply hskip
              intro c hc hm
              rw [hself c hc] at hm
              exact absurd hm.1 hstart

/-- A mask reports the original protection of the region, and changes no entry. -/
theorem Kept.mask (h : Kept orig s) (dep : Dep) {startea endea protect : Nat}
    (hr : Region orig s startea endea protect) : ∃ changed,
    mask_page_bpts dep s.page_bpts startea endea protect =
      some (changed, orig (startea / MEMORY_PAGE_SIZE), s.page_bpts) := by
  have hstart : startea / MEMORY_PAGE_SIZE * MEMORY_PAGE_SIZE = startea := Nat.div_mul_cancel hr.start_aligned
  have hend := hr.end_aligned
  have hstart' := hr.start_aligned
  have hwrap : ∀ k b, s.page_bpts.find k = some b → (wrap (b.page_ea + b.real_len) : Int) = k + b.real_len := by
    intro k b hk
    have hp := h.ranged.page k b hk
    have := hp.len_pos
    have := hp.top
    have hreal := (h.entry k b hk).real
    rw [hp.key]
    exact wrap_of_nonneg (by omega) (by omega)
  have hmeets : ∀ k b, s.page_bpts.find k = some b → Meets startea endea b → b.old_prot ≠ 0 →
      protect = b.new_prot ∧ b.old_prot = orig (startea / MEMORY_PAGE_SIZE) := by
    intro k b hk hm hold
    have hp := h.ranged.page k b hk
    have he := h.entry k b hk
    have hw := hwrap k b hk
    have haligned := hp.aligned
    have hkmul : k / MEMORY_PAGE_SIZE * MEMORY_PAGE_SIZE = k := Nat.div_mul_cancel hp.aligned
    obtain ⟨hm1, hm2⟩ := hm
    rw [hp.key] at hm2
    rcases he.real with hzero | hreal
    · have hin := hr.uniform (k / MEMORY_PAGE_SIZE) (by omega) (by omega)
      have hfirst := h.unwritten hk (fun hw => hw.1 hzero) (on_first hp)
      refine ⟨?_, (he.old hold).trans hin.2⟩
      rw [← hin.1, hfirst, he.guard hzero]
    · have hpos := hp.len_pos
      have hdvd := hp.len_dvd
      have hne : b.real_len ≠ 0 := by omega
      -- the later one of the two first pages is in both
      have hpage : ∃ page, startea ≤ page * MEMORY_PAGE_SIZE ∧ page * MEMORY_PAGE_SIZE < endea ∧ On k b page := by
        rcases Nat.le_total startea k with hle | hle
        · exact ⟨k / MEMORY_PAGE_SIZE, by omega, by omega, on_first hp⟩
        · refine ⟨startea / MEMORY_PAGE_SIZE, by omega, by rw [hstart]; exact hr.nonempty, ?_⟩
          rw [On, hstart]
          exact ⟨by omega, by omega⟩
      obtain ⟨page, hge, hlt, hon⟩ := hpage
      have hin := hr.uniform page hge hlt
      refine ⟨hin.1.symm.trans (he.written ⟨hne, hold⟩ page hon), ?_⟩
      rw [he.old hold, ← hin.2, he.uniform hne page hon]
  have hsorted : s.page_bpts.keys.Pairwise (· < ·) := List.pairwise_map.mpr s.page_bpts.sorted
  obtain ⟨newprot, heq, hres⟩ := mask_loop_spec dep (fun k b hk => (h.ranged.page k b hk).key) hmeets
    s.page_bpts.keys hsorted 0
  rw [mask_page_bpts, heq]
  show ∃ changed, some (if newprot ≠ 0 then (true, newprot, s.page_bpts) else (false, protect, s.page_bpts)) = _
  by_cases hne : newprot = 0
  · rw [if_neg (not_not.mpr hne)]
    refine ⟨false, ?_⟩
    have hin := hr.uniform (startea / MEMORY_PAGE_SIZE) (by omega) (by rw [hstart]; exact hr.nonempty)
    have hprot : s.prot (startea / MEMORY_PAGE_SIZE) = orig (startea / MEMORY_PAGE_SIZE) := by
      apply h.free
      intro k b hk hon hw
      have hp := h.ranged.page k b hk
      have hpos := hp.len_pos
      have hreal := (h.entry k b hk).real.resolve_left hw.1
      have hww := hwrap k b hk
      rw [On, hstart] at hon
      obtain ⟨hon1, hon2⟩ := hon
      have hm : Meets startea endea b := by
        refine ⟨by omega, ?_⟩
        rw [hp.key]
        have := hr.nonempty
        omega
      rcases hres with ho | ⟨-, hnone⟩
      · have ho := hne.symm.trans ho
        exact hw.2 ((hmeets k b hk hm hw.2).2.trans ho.symm)
      · exact hw.2 (hnone k (Table.mem_keys.mpr (by rw [hk]; rfl)) b hk hm)
    rw [← hprot, hin.1]
  · rw [if_pos hne]
    refine ⟨true, ?_⟩
    rcases hres with ho | ⟨hzero, -⟩
    · rw [ho]
    · exact absurd hzero hne

end IdaSdk.PageBpts
