import IdaSdk.PdbOverlapTree
import Mathlib.Data.List.Forall2

/-!
The union of a range of members. Every member of the range gets into one stem, and the members of a stem are sorted
and do not overlap.
-/

namespace IdaSdk.PdbOverlap

variable {m q : pdb_udm_t} {ms ms' udt : List pdb_udm_t} {stems stems' : List Stem} {sm : Stem}
  {b off size i : Nat} {create : Create} {bf_bits : Bool} {e : Fault}

/-! ### The repair of the stems -/

/-- A member or the same bitfield of another unit. -/
def Retyped (m m' : pdb_udm_t) : Prop :=
  m' = m ∨ m.is_bitfield = true ∧ ∃ n, m' = { m with type := .bitfield n }

theorem is_bitfield_iff : m.is_bitfield = true ↔ ∃ n, m.type = .bitfield n := by
  unfold pdb_udm_t.is_bitfield
  cases m.type <;> simp

theorem original_of_bitfield (h : m.is_bitfield = true) : m.original = true := by
  obtain ⟨n, hn⟩ := is_bitfield_iff.1 h
  simp [pdb_udm_t.original, hn]

variable {m m' : pdb_udm_t}

theorem Retyped.leaves (h : Retyped m m') : m'.leaves b = m.leaves b := by
  rcases h with rfl | ⟨hbf, n, rfl⟩
  · rfl
  · rw [original_leaves (original_of_bitfield hbf), original_leaves rfl]
    rfl

theorem Retyped.structs (h : Retyped m m') : m'.structs = m.structs := by
  rcases h with rfl | ⟨hbf, n, rfl⟩
  · rfl
  · rw [original_structs (original_of_bitfield hbf), original_structs rfl]

theorem Retyped.layout (h : Retyped m m') : m'.offset = m.offset ∧ m'.finish = m.finish := by
  rcases h with rfl | ⟨hbf, n, rfl⟩
  · exact ⟨rfl, rfl⟩
  · exact ⟨rfl, rfl⟩

theorem Retyped.is_bitfield (h : Retyped m m') (hm : m.is_bitfield = true) :
    m'.is_bitfield = true := by
  rcases h with rfl | ⟨hbf, n, rfl⟩
  · exact hm
  · rfl

theorem Retyped.trans {m'' : pdb_udm_t} (h : Retyped m m') (h' : Retyped m' m'') : Retyped m m'' := by
  rcases h with rfl | ⟨hbf, n, rfl⟩
  · exact h'
  · rcases h' with rfl | ⟨hbf', n', rfl⟩
    · exact Or.inr ⟨hbf, n, rfl⟩
    · exact Or.inr ⟨hbf, n', rfl⟩

theorem retyped_refl (ms : List pdb_udm_t) : List.Forall₂ Retyped ms ms := by
  induction ms with
  | nil => exact .nil
  | cons m ms ih => exact .cons (Or.inl rfl) ih

theorem retyped_trans {ms ms' ms'' : List pdb_udm_t} (h : List.Forall₂ Retyped ms ms')
    (h' : List.Forall₂ Retyped ms' ms'') : List.Forall₂ Retyped ms ms'' := by
  induction h generalizing ms'' with
  | nil => exact h'
  | cons hm _ ih =>
      cases h' with
      | cons hm' htail => exact .cons (hm.trans hm') (ih htail)

theorem retyped_all (h : List.Forall₂ Retyped ms ms') (hbf : ∀ m ∈ ms, m.is_bitfield = true) :
    ∀ m ∈ ms', m.is_bitfield = true := by
  induction h with
  | nil => exact hbf
  | cons hm _ ih =>
      intro m' hm'
      rcases List.mem_cons.mp hm' with rfl | hm'
      · exact hm.is_bitfield (hbf _ List.mem_cons_self)
      · exact ih (fun m hm => hbf m (List.mem_cons_of_mem _ hm)) m' hm'

theorem widen_retyped (ms : List pdb_udm_t) (hbf : ∀ m ∈ ms, m.is_bitfield = true) :
    List.Forall₂ Retyped ms (widen ms).1 := by
  induction ms using widen.induct with
  | case1 udm0 udm1 udt hfix ih =>
      rw [widen, if_pos hfix]
      exact .cons (Or.inr ⟨hbf _ List.mem_cons_self, _, rfl⟩) (ih fun m hm => hbf m (List.mem_cons_of_mem _ hm))
  | case2 udm0 udm1 udt hfix ih =>
      rw [widen, if_neg hfix]
      exact .cons (Or.inl rfl) (ih fun m hm => hbf m (List.mem_cons_of_mem _ hm))
  | case3 udt hne =>
      have heq : widen udt = (udt, false) := by
        cases udt with
        | nil => rfl
        | cons m udt =>
            cases udt with
            | nil => rfl
            | cons m' udt => exact absurd rfl (hne m m' udt)
      rw [heq]
      exact retyped_refl udt

theorem widen_all_retyped (ms : List pdb_udm_t) (hbf : ∀ m ∈ ms, m.is_bitfield = true) :
    List.Forall₂ Retyped ms (widen_all ms) := by
  induction ms using widen_all.induct with
  | case1 ms hchanged ih =>
      have hw := widen_retyped ms hbf
      rw [widen_all, if_pos hchanged]
      exact retyped_trans hw (ih (retyped_all hw hbf))
  | case2 ms hsame =>
      rw [widen_all, if_neg hsame]
      exact widen_retyped ms hbf

theorem verify_union_stem_retyped (ms : List pdb_udm_t) : List.Forall₂ Retyped ms (verify_union_stem ms) := by
  unfold verify_union_stem
  split
  · exact retyped_refl ms
  · split
    · rename_i hall
      exact widen_all_retyped ms (List.all_eq_true.mp hall)
    · exact retyped_refl ms

theorem retyped_leaves (h : List.Forall₂ Retyped ms ms') : leaves b ms' = leaves b ms := by
  induction h with
  | nil => rfl
  | cons hm _ ih => rw [leaves, leaves, hm.leaves, ih]

theorem retyped_structs (h : List.Forall₂ Retyped ms ms') : structs ms' = structs ms := by
  induction h with
  | nil => rfl
  | cons hm _ ih => rw [structs, structs, hm.structs, ih]

theorem retyped_mem (h : List.Forall₂ Retyped ms ms') (hm' : m' ∈ ms') :
    ∃ m ∈ ms, Retyped m m' := by
  induction h with
  | nil => cases hm'
  | cons hm _ ih =>
      rcases List.mem_cons.mp hm' with rfl | hm'
      · exact ⟨_, List.mem_cons_self, hm⟩
      · obtain ⟨m, hmem, hr⟩ := ih hm'
        exact ⟨m, List.mem_cons_of_mem _ hmem, hr⟩

theorem retyped_ordered (h : List.Forall₂ Retyped ms ms') (ho : Ordered ms) : Ordered ms' := by
  induction h with
  | nil => exact ho
  | cons hm htail ih =>
      obtain ⟨hhead, ho⟩ := List.pairwise_cons.mp ho
      refine List.pairwise_cons.mpr ⟨fun m' hm' => ?_, ih ho⟩
      obtain ⟨m₁, hmem, hr⟩ := retyped_mem htail hm'
      have hle := hhead m₁ hmem
      rw [hm.layout.1, hm.layout.2, hr.layout.1, pdb_udm_t.begin, hr.layout.1]
      exact hle

/-! ### The stems -/

theorem find_best_spec {best : Option (Nat × Nat)} {j smend : Nat} (h : find_best q stems i best = some (j, smend)) :
    best = some (j, smend) ∨
      ∃ sm lastmem, i ≤ j ∧ stems[j - i]? = some sm ∧ sm.members.getLast? = some lastmem ∧ lastmem.finish ≤ q.begin := by
  induction stems generalizing i best with
  | nil => exact Or.inl h
  | cons sm stems ih =>
      have hlater : ∀ {best'}, find_best q stems (i + 1) best' = some (j, smend) → best' = some (j, smend) ∨
          ∃ sm' lastmem, i ≤ j ∧ (sm :: stems)[j - i]? = some sm' ∧ sm'.members.getLast? = some lastmem ∧
            lastmem.finish ≤ q.begin := by
        intro best' h
        rcases ih h with hb | ⟨sm', lastmem, hij, hget, hlast, hle⟩
        · exact Or.inl hb
        · refine Or.inr ⟨sm', lastmem, by omega, ?_, hlast, hle⟩
          have heq : j - i = j - (i + 1) + 1 := by omega
          rw [heq, List.getElem?_cons_succ]
          exact hget
      rw [find_best] at h
      cases hs : suits q sm best with
      | none =>
          rw [hs] at h
          exact hlater h
      | some e =>
          rw [hs] at h
          rcases hlater h with hb | hr
          · refine Or.inr ?_
            obtain ⟨rfl, rfl⟩ := Prod.mk.inj (Option.some.inj hb)
            unfold suits at hs
            split at hs
            · cases hs
            rename_i lastmem hlast
            split at hs
            · rename_i hfits
              exact ⟨sm, lastmem, Nat.le_refl _, by simp, hlast, hfits.2.1⟩
            · cases hs
          · exact Or.inr hr

/-- What the stems are for the members that have been put into them. -/
structure Stems (members : List pdb_udm_t) (stems : List Stem) : Prop where
  perm : (stems.flatMap Stem.members).Perm members
  nonempty : ∀ sm ∈ stems, sm.members ≠ []
  ordered : members.Pairwise (fun m m' => m.offset ≤ m'.offset) → ∀ sm ∈ stems, Ordered sm.members

theorem no_stems : Stems [] [] := ⟨List.Perm.refl _, by simp, by simp⟩

theorem ordered_append {lastmem : pdb_udm_t} (ho : Ordered ms) (hlast : ms.getLast? = some lastmem)
    (hfits : lastmem.finish ≤ q.begin) (hle : ∀ m ∈ ms, m.offset ≤ q.offset) : Ordered (ms ++ [q]) := by
  refine List.pairwise_append.mpr ⟨ho, List.pairwise_singleton _ _, ?_⟩
  intro m hm q' hq
  rw [List.mem_singleton.mp hq]
  refine ⟨hle m hm, ?_⟩
  obtain ⟨ms₀, rfl⟩ := List.getLast?_eq_some_iff.mp hlast
  rcases List.mem_append.mp hm with hm | hm
  · have hml := (List.pairwise_append.mp ho).2.2 m hm lastmem List.mem_cons_self
    have hlq := hle lastmem (List.mem_append_right _ List.mem_cons_self)
    exact Nat.le_trans hml.2 hlq
  · rw [List.mem_singleton.mp hm]
    exact hfits

theorem flatMap_modify {α : Type} {f : Stem → List α} {g : Stem → Stem} {x : List α} (hget : stems[i]? = some sm)
    (hg : (f (g sm)).Perm (f sm ++ x)) : ((stems.modify i g).flatMap f).Perm (stems.flatMap f ++ x) := by
  induction stems generalizing i with
  | nil => cases hget
  | cons sm' stems ih =>
      cases i with
      | zero =>
          obtain rfl := Option.some.inj hget
          rw [List.modify_zero_cons, List.flatMap_cons, List.flatMap_cons, List.append_assoc]
          refine (hg.append_right _).trans ?_
          rw [List.append_assoc]
          exact List.perm_append_comm.append_left _
      | succ i =>
          rw [List.modify_succ_cons, List.flatMap_cons, List.flatMap_cons, List.append_assoc]
          exact (ih hget).append_left _

theorem mem_modify {g : Stem → Stem} {sm' : Stem} (h : sm' ∈ stems.modify i g) :
    sm' ∈ stems ∨ ∃ sm, stems[i]? = some sm ∧ sm' = g sm := by
  induction stems generalizing i with
  | nil => simp at h
  | cons sm stems ih =>
      cases i with
      | zero =>
          rw [List.modify_zero_cons] at h
          rcases List.mem_cons.mp h with rfl | h
          · exact Or.inr ⟨sm, rfl, rfl⟩
          · exact Or.inl (List.mem_cons_of_mem _ h)
      | succ i =>
          rw [List.modify_succ_cons] at h
          rcases List.mem_cons.mp h with rfl | h
          · exact Or.inl List.mem_cons_self
          · rcases ih h with h | ⟨sm₁, hget, heq⟩
            · exact Or.inl (List.mem_cons_of_mem _ h)
            · exact Or.inr ⟨sm₁, hget, heq⟩

theorem Stems.place (h : Stems ms stems) (q : pdb_udm_t) (size : Nat) : Stems (ms ++ [q]) (place q size stems) := by
  unfold PdbOverlap.place
  split
  · refine ⟨?_, ?_, ?_⟩
    · rw [List.flatMap_append, List.flatMap_singleton]
      exact h.perm.append_right _
    · intro sm hsm
      rcases List.mem_append.mp hsm with hsm | hsm
      · exact h.nonempty sm hsm
      · rw [List.mem_singleton.mp hsm]
        exact List.cons_ne_nil _ _
    · intro hsorted sm hsm
      rcases List.mem_append.mp hsm with hsm | hsm
      · exact h.ordered (List.pairwise_append.mp hsorted).1 sm hsm
      · rw [List.mem_singleton.mp hsm]
        exact List.pairwise_singleton _ _
  · rename_i j smend hbest
    have hfound : ∃ sm lastmem, stems[j]? = some sm ∧ sm.members.getLast? = some lastmem ∧ lastmem.finish ≤ q.begin := by
      split at hbest
      · rcases find_best_spec hbest with hb | ⟨sm, lastmem, -, hget, hlast, hle⟩
        · cases hb
        · exact ⟨sm, lastmem, hget, hlast, hle⟩
      · cases hbest
    obtain ⟨sm, lastmem, hget, hlast, hle⟩ := hfound
    refine ⟨?_, ?_, ?_⟩
    · exact (flatMap_modify hget (List.Perm.refl _)).trans (h.perm.append_right _)
    · intro sm' hsm'
      rcases mem_modify hsm' with hsm' | ⟨sm₁, -, rfl⟩
      · exact h.nonempty sm' hsm'
      · simp [Stem.push_back]
    · intro hsorted sm' hsm'
      obtain ⟨hms, -, hq⟩ := List.pairwise_append.mp hsorted
      rcases mem_modify hsm' with hsm' | ⟨sm₁, hget₁, rfl⟩
      · exact h.ordered hms sm' hsm'
      · obtain rfl := Option.some.inj (hget.symm.trans hget₁)
        have hmem : sm ∈ stems := List.mem_of_getElem? hget
        refine ordered_append (h.ordered hms sm hmem) hlast hle fun m hm => ?_
        exact hq m (h.perm.mem_iff.mp (List.mem_flatMap.mpr ⟨sm, hmem, hm⟩)) q List.mem_cons_self

theorem collect_stems (h : Stems ms' stems) (hc : collect off ms stems = .ok stems') :
    Stems (ms' ++ ms.map (rebase off)) stems' := by
  induction ms generalizing ms' stems with
  | nil =>
      obtain rfl := Except.ok.inj hc
      simpa using h
  | cons q ms ih =>
      rw [collect] at hc
      split at hc
      · cases hc
      · rename_i size hsize
        have hq := ih (h.place (rebase off q) size) hc
        rwa [List.append_assoc, List.singleton_append] at hq

theorem Stem.trivial_iff : sm.trivial = true ↔ ∃ m, sm.members = [m] ∧ m.offset = 0 ∧ m.is_bitfield = false := by
  unfold Stem.trivial
  split
  · rename_i m hm
    simp [hm]
  rename_i hne
  constructor
  · intro h
    cases h
  · rintro ⟨m, hm, -⟩
    exact absurd hm (hne m)

theorem Stem.verify_retyped (sm : Stem) : List.Forall₂ Retyped sm.members sm.verify.members := by
  unfold Stem.verify
  split
  · exact retyped_refl _
  · exact verify_union_stem_retyped _

theorem Stem.verify_nonempty (h : sm.members ≠ []) : sm.verify.members ≠ [] := by
  intro hnil
  have hf := sm.verify_retyped
  rw [hnil] at hf
  cases hm : sm.members with
  | nil => exact h hm
  | cons m ms => rw [hm] at hf; cases hf

/-! ### The members of the union -/

theorem create_udt_ref_ok {is_union : Bool} {tif : tinfo_t} (h : create_udt_ref create bf_bits is_union size ms = .ok tif) :
    tif = .udt is_union bf_bits size ms := by
  unfold create_udt_ref at h
  split at h
  · exact (Except.ok.inj h).symm
  · cases h

theorem create_udt_ref_error {is_union : Bool} (h : create_udt_ref create bf_bits is_union size ms = .error e) :
    e = .cvt_failed := by
  unfold create_udt_ref at h
  split at h
  · cases h
  · exact (Except.error.inj h).symm

theorem convert_leaves (h : convert create bf_bits i sm = .ok m) : m.leaves b = leaves b sm.members := by
  unfold convert at h
  split at h
  · cases h
  rename_i m₀ ms hms
  split at h
  · rename_i htriv
    obtain ⟨m₁, hm₁, -⟩ := Stem.trivial_iff.mp htriv
    rw [hms] at hm₁
    obtain ⟨rfl, rfl⟩ := List.cons.inj hm₁
    obtain rfl := Except.ok.inj h
    rw [hms, leaves_singleton]
  · split at h
    · cases h
    split at h
    · cases h
    rename_i tif htif
    obtain rfl := Except.ok.inj h
    obtain rfl := create_udt_ref_ok htif
    rw [hms, struct_leaves rfl]
    rfl

variable {udt : List pdb_udm_t}

theorem convert_structs (h : convert create bf_bits i sm = .ok m) (hudt : udt ∈ m.structs) :
    udt = sm.members ∨ udt ∈ structs sm.members := by
  unfold convert at h
  split at h
  · cases h
  rename_i m₀ ms hms
  split at h
  · obtain rfl := Except.ok.inj h
    rw [hms]
    exact Or.inr (List.mem_append_left _ hudt)
  split at h
  · cases h
  split at h
  · cases h
  rename_i tif htif
  obtain rfl := Except.ok.inj h
  obtain rfl := create_udt_ref_ok htif
  rw [struct_structs rfl] at hudt
  rw [hms]
  exact List.mem_cons.mp hudt

theorem convert_error (hne : sm.members ≠ []) (h : convert create bf_bits i sm = .error e) : e = .cvt_failed := by
  unfold convert at h
  split at h
  · contradiction
  split at h
  · cases h
  split at h
  · exact (Except.error.inj h).symm
  split at h
  · rename_i htif
    obtain rfl := Except.error.inj h
    exact create_udt_ref_error htif
  · cases h

theorem convert_all_cons (h : convert_all create bf_bits i (sm :: stems) = .ok ms) :
    ∃ m ms', convert create bf_bits i sm = .ok m ∧ convert_all create bf_bits (i + 1) stems = .ok ms' ∧ m :: ms' = ms := by
  rw [convert_all] at h
  split at h
  · cases h
  rename_i m hm
  split at h
  · cases h
  · rename_i ms' hms
    exact ⟨m, ms', hm, hms, Except.ok.inj h⟩

theorem convert_all_leaves (h : convert_all create bf_bits i stems = .ok ms) :
    leaves b ms = leaves b (stems.flatMap Stem.members) := by
  induction stems generalizing i ms with
  | nil =>
      obtain rfl := Except.ok.inj h
      rfl
  | cons sm stems ih =>
      obtain ⟨m, ms', hm, hms, rfl⟩ := convert_all_cons h
      rw [leaves, List.flatMap_cons, leaves_append, convert_leaves hm, ih hms]

theorem convert_all_structs (h : convert_all create bf_bits i stems = .ok ms)
    (hudt : udt ∈ structs ms) : ∃ sm ∈ stems, udt = sm.members ∨ udt ∈ structs sm.members := by
  induction stems generalizing i ms with
  | nil =>
      obtain rfl := Except.ok.inj h
      cases hudt
  | cons sm stems ih =>
      obtain ⟨m, ms', hm, hms, rfl⟩ := convert_all_cons h
      rcases List.mem_append.mp hudt with hudt | hudt
      · exact ⟨sm, List.mem_cons_self, convert_structs hm hudt⟩
      · obtain ⟨sm', hsm, hr⟩ := ih hms hudt
        exact ⟨sm', List.mem_cons_of_mem _ hsm, hr⟩

theorem convert_all_error (hne : ∀ sm ∈ stems, sm.members ≠ []) (h : convert_all create bf_bits i stems = .error e) :
    e = .cvt_failed := by
  induction stems generalizing i with
  | nil => cases h
  | cons sm stems ih =>
      rw [convert_all] at h
      split at h
      · rename_i hm
        obtain rfl := Except.error.inj h
        exact convert_error (hne sm List.mem_cons_self) hm
      split at h
      · rename_i hms
        obtain rfl := Except.error.inj h
        exact ih (fun sm hsm => hne sm (List.mem_cons_of_mem _ hsm)) hms
      · cases h

theorem verify_leaves (stems : List Stem) :
    leaves b ((stems.map Stem.verify).flatMap Stem.members) = leaves b (stems.flatMap Stem.members) := by
  induction stems with
  | nil => rfl
  | cons sm stems ih =>
      rw [List.map_cons, List.flatMap_cons, List.flatMap_cons, leaves_append, leaves_append,
        retyped_leaves sm.verify_retyped, ih]

def range (udt : List pdb_udm_t) (p1 p2 : Nat) : List pdb_udm_t := (udt.take p2).drop p1

variable {p1 p2 : Nat} {tif : tinfo_t}

/-- A bitfield has a unit of 1, 2, 4 or 8 bytes. -/
def Unit (m : pdb_udm_t) : Prop := ∀ n, m.type = .bitfield n → n = 1 ∨ n = 2 ∨ n = 4 ∨ n = 8

theorem qend_ok (off : Nat) (h : Unit q) : ∃ size, qend (rebase off q) = .ok size := by
  unfold qend
  split
  · rename_i n hn
    have hn : q.type = .bitfield n := hn
    have hunit := h n hn
    rw [if_pos (by omega)]
    exact ⟨_, rfl⟩
  · exact ⟨_, rfl⟩

theorem collect_ok (off : Nat) (h : ∀ q ∈ ms, Unit q) (stems : List Stem) :
    ∃ stems', collect off ms stems = .ok stems' := by
  induction ms generalizing stems with
  | nil => exact ⟨stems, rfl⟩
  | cons q ms ih =>
      obtain ⟨size, hsize⟩ := qend_ok off (h q List.mem_cons_self)
      rw [collect, hsize]
      exact ih (fun q hq => h q (List.mem_cons_of_mem _ hq)) _

theorem create_union_error (hlt : p1 < p2) (hunit : ∀ m ∈ udt, Unit m)
    (h : create_union create bf_bits udt p1 p2 = .error e) : e = .cvt_failed := by
  have hmem : ∀ q ∈ (udt.take p2).drop p1, Unit q :=
    fun q hq => hunit q (List.mem_of_mem_take (List.mem_of_mem_drop hq))
  obtain ⟨stems, hstems⟩ := collect_ok (udt.getD p1 .default).offset hmem []
  have hinv := collect_stems no_stems hstems
  unfold create_union verify_union at h
  rw [if_neg (Nat.ne_of_lt hlt), if_neg (Nat.lt_asymm hlt), hstems] at h
  dsimp only at h
  split at h
  · rename_i hconv
    obtain rfl := Except.error.inj h
    refine convert_all_error ?_ hconv
    intro sm hsm
    obtain ⟨sm₀, hsm₀, rfl⟩ := List.mem_map.mp hsm
    exact Stem.verify_nonempty (hinv.nonempty sm₀ hsm₀)
  · split at h
    · rename_i htif
      obtain rfl := Except.error.inj h
      exact create_udt_ref_error htif
    · cases h

/-- What a union is made of. -/
structure Made (off : Nat) (ms : List pdb_udm_t) (tif : tinfo_t) : Prop where
  union : ∃ invbf total_size unimems, tif = .udt true invbf total_size unimems ∧
    (∀ b, (leaves b unimems).Perm (leaves b (ms.map (rebase off)))) ∧
    ((ms.map (rebase off)).Pairwise (fun m m' => m.offset ≤ m'.offset) →
      ∀ udt ∈ structs unimems, Ordered udt ∨ udt ∈ structs ms)

theorem create_union_made (hlt : p1 < p2) (h : create_union create bf_bits udt p1 p2 = .ok (size, tif)) :
    Made (udt.getD p1 .default).offset (range udt p1 p2) tif := by
  unfold create_union verify_union at h
  rw [if_neg (Nat.ne_of_lt hlt), if_neg (Nat.lt_asymm hlt)] at h
  cases hstems : collect (udt.getD p1 .default).offset ((udt.take p2).drop p1) [] with
  | error e => rw [hstems] at h; cases h
  | ok stems =>
      have hinv := collect_stems no_stems hstems
      rw [List.nil_append] at hinv
      rw [hstems] at h
      dsimp only at h
      split at h
      · cases h
      rename_i unimems hconv
      split at h
      · cases h
      rename_i tif' htif
      obtain ⟨-, rfl⟩ := Prod.mk.inj (Except.ok.inj h)
      refine ⟨_, _, unimems, create_udt_ref_ok htif, ?_, ?_⟩
      · intro b
        rw [convert_all_leaves hconv, verify_leaves]
        exact leaves_perm b hinv.perm
      intro hsorted udt' hudt
      obtain ⟨sm, hsm, hr⟩ := convert_all_structs hconv hudt
      obtain ⟨sm₀, hsm₀, rfl⟩ := List.mem_map.mp hsm
      rcases hr with rfl | hr
      · exact Or.inl (retyped_ordered sm₀.verify_retyped (hinv.ordered hsorted sm₀ hsm₀))
      refine Or.inr ?_
      rw [retyped_structs sm₀.verify_retyped] at hr
      rw [range, ← rebase_all_structs (udt.getD p1 .default).offset]
      refine (structs_perm hinv.perm).mem_iff.mp ?_
      rw [structs_eq_flatMap] at hr ⊢
      obtain ⟨m, hm, hr⟩ := List.mem_flatMap.mp hr
      exact List.mem_flatMap.mpr ⟨m, List.mem_flatMap.mpr ⟨sm₀, hsm₀, hm⟩, hr⟩

end IdaSdk.PdbOverlap
