import IdaSdk.PdbOverlapLoop
import Mathlib.Data.List.Nodup

/-!
`handle_overlapping_members` stops, and it keeps the layout exactly if every union that it makes begins at a byte.
-/

namespace IdaSdk.PdbOverlap

open StepMachine

variable {create : Create} {bf_bits : Bool} {udt udt₀ v : List pdb_udm_t} {s s' : State} {m : pdb_udm_t}
  {p p1 p2 size : Nat} {tif : tinfo_t}

/-- A member of the PDB stands at another offset than in the PDB. -/
def Misplaced (udt₀ : List pdb_udm_t) (ls : List Leaf) : Prop :=
  ∃ l ∈ ls, ∃ m ∈ udt₀, l.tag = m.tag ∧ l.offset % 2 ^ 64 ≠ m.offset

theorem not_misplaced (h : Convertible udt₀) (hv : (leaves 0 v).Perm (udt₀.map pdb_udm_t.leaf)) :
    ¬ Misplaced udt₀ (leaves 0 v) := by
  rintro ⟨l, hl, m, hm, htag, hne⟩
  obtain ⟨m', hm', rfl⟩ := List.mem_map.mp (hv.mem_iff.mp hl)
  have heq : m' = m := List.inj_on_of_nodup_map h.tags hm' hm htag
  subst heq
  exact hne (Nat.mod_eq_of_lt (h.bound m' hm'))

theorem joined_leaves {l : Leaf} :
    l ∈ leaves 0 (s.joined p1 p2 size tif).udt ↔
      l ∈ leaves 0 (s.udt.take p1) ∨ l ∈ (union_member (s.at p1).offset p1 size tif).leaves 0 ∨
        l ∈ leaves 0 (s.udt.drop p2) := by
  simp only [State.joined, leaves_append, leaves, List.mem_append]

theorem union_member_leaves (hlt : p1 < p2) (hu : create_union create bf_bits s.udt p1 p2 = .ok (size, tif)) {l : Leaf} :
    l ∈ (union_member (s.at p1).offset p1 size tif).leaves 0 ↔
      ∃ q ∈ range s.udt p1 p2, l ∈ (rebase (s.at p1).offset q).leaves ((s.at p1).offset / 8 * 8) := by
  obtain ⟨invbf, total, unimems, rfl, hleaves, -⟩ := (create_union_made hlt hu).union
  have hl : pdb_udm_t.leaves 0 (union_member (s.at p1).offset p1 size (.udt true invbf total unimems)) =
      leaves ((s.at p1).offset / 8 * 8) unimems := by
    rw [union_leaves rfl]
    exact congrArg (fun x => leaves x unimems) (Nat.zero_add _)
  rw [hl, (hleaves _).mem_iff, leaves_eq_flatMap, List.mem_flatMap]
  constructor
  · rintro ⟨q', hq', hl⟩
    obtain ⟨q, hq, rfl⟩ := List.mem_map.mp hq'
    exact ⟨q, hq, hl⟩
  · rintro ⟨q, hq, hl⟩
    exact ⟨_, List.mem_map_of_mem hq, hl⟩

theorem unaligned_misplaced (hb : Base s) (ho : s.overlap = some (p1, p2))
    (hu : create_union create bf_bits s.udt p1 p2 = .ok (size, tif)) (halign : (s.at p1).offset % 8 ≠ 0)
    (hknown : ∀ m ∈ s.udt, m.original = true → m ∈ udt₀) :
    Misplaced udt₀ (leaves 0 (s.joined p1 p2 size tif).udt) := by
  obtain ⟨h1, h2, h3, -⟩ := hb.overlap ho
  have hlt : p1 < p2 := Nat.lt_of_lt_of_le h1 h2
  have hmem : s.at p1 ∈ s.udt := at_mem (Nat.lt_of_lt_of_le hlt h3)
  have hfit := hb.fit _ hmem
  have horig := hfit.original halign
  have hhead : s.at p1 ∈ range s.udt p1 p2 := by
    rw [range_cons hlt h3]
    exact List.mem_cons_self
  have hreb : (rebase (s.at p1).offset (s.at p1)).original = true := horig
  have hzero := rebase_offset (Nat.le_refl _) hfit.bound
  refine ⟨(rebase (s.at p1).offset (s.at p1)).leaf.shift ((s.at p1).offset / 8 * 8), ?_, s.at p1,
    hknown _ hmem horig, rfl, ?_⟩
  · refine joined_leaves.2 (Or.inr (Or.inl ((union_member_leaves hlt hu).mpr ⟨_, hhead, ?_⟩)))
    rw [original_leaves hreb]
    exact List.mem_singleton.mpr rfl
  · simp only [Leaf.shift, pdb_udm_t.leaf, hzero]
    have hbound := hfit.bound
    omega

theorem shift_wrap (l : Leaf) (k : Nat) : (l.shift (2 ^ 64 * k)).offset % 2 ^ 64 = l.offset % 2 ^ 64 :=
  Nat.add_mul_mod_self_left _ _ _

theorem misplaced_joined (h : Misplaced udt₀ (leaves 0 s.udt)) (hb : Base s) (ho : s.overlap = some (p1, p2))
    (hu : create_union create bf_bits s.udt p1 p2 = .ok (size, tif)) (halign : (s.at p1).offset % 8 = 0) :
    Misplaced udt₀ (leaves 0 (s.joined p1 p2 size tif).udt) := by
  obtain ⟨h1, h2, h3, -⟩ := hb.overlap ho
  have hlt : p1 < p2 := Nat.lt_of_lt_of_le h1 h2
  have hbound := at_bound hb (Nat.lt_of_lt_of_le hlt h3)
  obtain ⟨l, hl, m, hm, htag, hne⟩ := h
  rw [← split_range s.udt (Nat.le_of_lt hlt), leaves_append, leaves_append] at hl
  rcases List.mem_append.mp hl with hl | hl
  · rcases List.mem_append.mp hl with hl | hl
    · exact ⟨l, joined_leaves.mpr (Or.inl hl), m, hm, htag, hne⟩
    rw [leaves_eq_flatMap] at hl
    obtain ⟨q, hq, hl⟩ := List.mem_flatMap.mp hl
    obtain ⟨k, hk⟩ := rebase_leaves_wrap (b := 0) hbound (hb.fit q (range_mem hq)).bound
    refine ⟨l.shift (2 ^ 64 * k), ?_, m, hm, htag, ?_⟩
    · refine joined_leaves.mpr (Or.inr (Or.inl ((union_member_leaves hlt hu).mpr ⟨q, hq, ?_⟩)))
      have hoff : (s.at p1).offset / 8 * 8 = 0 + (s.at p1).offset := by omega
      rw [hoff, hk]
      exact List.mem_map_of_mem hl
    · rw [shift_wrap]
      exact hne
  · exact ⟨l, joined_leaves.mpr (Or.inr (Or.inr hl)), m, hm, htag, hne⟩

/-! ### Runs -/

/-- The indices are right, and the members of the PDB that are left are as they were. -/
structure Sound (udt₀ : List pdb_udm_t) (s : State) : Prop where
  base : Base s
  known : ∀ m ∈ s.udt, m.original = true → m ∈ udt₀

theorem joined_known (hu : create_union create bf_bits s.udt p1 p2 = .ok (size, tif)) (hlt : p1 < p2)
    (h : ∀ m ∈ s.udt, m.original = true → m ∈ udt₀) :
    ∀ m ∈ (s.joined p1 p2 size tif).udt, m.original = true → m ∈ udt₀ := by
  obtain ⟨invbf, total, unimems, rfl, -⟩ := (create_union_made hlt hu).union
  intro m hm horig
  simp only [State.joined, List.mem_append, List.mem_cons] at hm
  rcases hm with hm | rfl | hm
  · exact h m (List.mem_of_mem_take hm) horig
  · cases horig
  · exact h m (List.mem_of_mem_drop hm) horig

theorem step_sound (h : Sound udt₀ s) (hs : step create bf_bits s = .next s') : Sound udt₀ s' := by
  refine ⟨(step_base h.base hs).1, ?_⟩
  have hr := h.base.round create bf_bits
  rw [hs] at hr
  cases hr with
  | union ho hu =>
      obtain ⟨h1, h2, -⟩ := h.base.overlap ho
      exact joined_known hu (Nat.lt_of_lt_of_le h1 h2) h.known
  | begin | found | more | apart => exact h.known

theorem start_sound (h : Convertible udt) : Sound udt (start udt) := ⟨start_base h, fun _ hm _ => hm⟩

theorem step_good (h : Good udt₀ s) (hb : Base s)
    (halign : ∀ first p, s.overlap = some (first, p) → (s.at first).offset % 8 = 0)
    (hs : step create bf_bits s = .next s') : Good udt₀ s' := by
  have hr := hb.round create bf_bits
  rw [hs] at hr
  cases hr with
  | union ho hu => exact joined_good h hb ho hu (halign _ _ ho)
  | begin hp hl =>
      refine begin_good h hp ?_ hl
      by_contra hf
      obtain ⟨first, hf⟩ := Option.ne_none_iff_exists'.mp hf
      exact (hb.first first hf).2 hl
  | found hp hl hf ho => exact next_collecting (found_good h hb hl hf) (fun hnone => by cases hnone)
  | more hp hl hf => exact next_collecting h (by rw [hf]; simp)
  | apart hp hl hf ho => exact next_apart h hb hp hl hf ho

theorem step_misplaced (h : Misplaced udt₀ (leaves 0 s.udt)) (hsound : Sound udt₀ s)
    (hs : step create bf_bits s = .next s') : Misplaced udt₀ (leaves 0 s'.udt) := by
  have hr := hsound.base.round create bf_bits
  rw [hs] at hr
  cases hr with
  | @union p1 p2 size tif ho hu =>
      by_cases halign : (s.at p1).offset % 8 = 0
      · exact misplaced_joined h hsound.base ho hu halign
      · exact unaligned_misplaced hsound.base ho hu halign hsound.known
  | begin | found | more | apart => exact h

theorem reaches_sound (h : Convertible udt) (hr : Reaches (step create bf_bits) (start udt) s) : Sound udt s :=
  hr.invariant (fun _ _ hs hstep => step_sound hs hstep) (start_sound h)

theorem aligned_good (h : Convertible udt) (ha : Aligned create bf_bits udt)
    (hr : Reaches (step create bf_bits) (start udt) s) : Good udt s := by
  induction hr with
  | refl => exact start_good h
  | tail hbefore hstep ih => exact step_good ih (reaches_sound h hbefore).base (ha _ hbefore) hstep

theorem Good.preserved (h : Good udt₀ s) (hf : s.first = none) (hp : s.udt.length ≤ s.p) : Preserved udt₀ s.udt where
  once := h.once
  stems := h.stems
  top := by
    have hd := (h.free hf).1
    rw [List.take_of_length_le hp] at hd
    exact List.pairwise_and_iff.mpr ⟨h.sorted, hd⟩

theorem done_ok (hb : Base s) (h : step create bf_bits s = .done (.ok v)) :
    v = s.udt ∧ s.first = none ∧ s.udt.length ≤ s.p := by
  have hr := hb.round create bf_bits
  rw [h] at hr
  cases hr with
  | done hp hf => exact ⟨rfl, hf, hp⟩

theorem unaligned_result (h : Convertible udt) (ha : ¬ Aligned create bf_bits udt)
    (hv : Stops (step create bf_bits) (start udt) (.ok v)) : Misplaced udt (leaves 0 v) := by
  simp only [Aligned, not_forall] at ha
  obtain ⟨s, hreach, p1, p2, ho, halign⟩ := ha
  have hsound := reaches_sound h hreach
  have hstop : Stops (step create bf_bits) s (.ok v) := hreach.steps.stops_iff.mp hv
  have hstep : ∃ size tif, create_union create bf_bits s.udt p1 p2 = .ok (size, tif) ∧
      step create bf_bits s = .next (s.joined p1 p2 size tif) := by
    cases hu : create_union create bf_bits s.udt p1 p2 with
    | error e =>
        have hdone : step create bf_bits s = .done (.error e) := by rw [step, ho]; simp only [hu]
        exact absurd (hstop.unique (Stops.of_done hdone)) (by simp)
    | ok r => exact ⟨r.1, r.2, rfl, by rw [step, ho]; simp only [hu]; rfl⟩
  obtain ⟨size, tif, hu, hstep⟩ := hstep
  have hbad := unaligned_misplaced hsound.base ho hu halign hsound.known
  have hafter : Stops (step create bf_bits) (s.joined p1 p2 size tif) (.ok v) :=
    (Steps.of_next hstep).stops_iff.mp hstop
  have hall : ∀ w, (Except.ok v : Except Fault (List pdb_udm_t)) = .ok w → Misplaced udt (leaves 0 w) := by
    refine Stops.of_invariant (P := fun s => Sound udt s ∧ Misplaced udt (leaves 0 s.udt))
      (Q := fun o => ∀ w, o = .ok w → Misplaced udt (leaves 0 w)) ?_ ?_ ⟨step_sound hsound hstep, hbad⟩ hafter
    · exact fun s s' hs hnext => ⟨step_sound hs.1 hnext, step_misplaced hs.2 hs.1 hnext⟩
    · intro s o hs hdone w hw
      subst hw
      obtain ⟨rfl, -, -⟩ := done_ok hs.1.base hdone
      exact hs.2
  exact hall v rfl

/-- What `handle_overlapping_members` does with the members of a structure: it stops, only a type that cannot be
created makes it fail, and its result keeps the layout exactly if every union that it makes begins at a byte. -/
structure Splits (create : Create) (bf_bits : Bool) (udt : List pdb_udm_t) : Prop where
  stops : ∃ o, Stops (step create bf_bits) (start udt) o
  fails : ∀ e, Stops (step create bf_bits) (start udt) (.error e) → e = .cvt_failed
  keeps : ∀ v, Stops (step create bf_bits) (start udt) (.ok v) → (Preserved udt v ↔ Aligned create bf_bits udt)

theorem overlapping_members_split (h : Convertible udt) : Splits create bf_bits udt where
  stops := (start_base h).stops
  fails e he := by
    obtain ⟨s, hreach, hdone⟩ := he.last
    rcases done_error (reaches_sound h hreach).base hdone with heq | heq
    · exact Except.error.inj heq
    · cases heq
  keeps v hv := by
    constructor
    · intro hpres
      by_contra ha
      exact not_misplaced h hpres.once (unaligned_result h ha hv)
    · intro ha
      obtain ⟨s, hreach, hdone⟩ := hv.last
      obtain ⟨rfl, hf, hp⟩ := done_ok (reaches_sound h hreach).base hdone
      exact (aligned_good h ha hreach).preserved hf hp

def byte_and_word : List pdb_udm_t :=
  [⟨0, 32, 8, "b", 0, false, .other⟩, ⟨1, 32, 16, "w", 0, false, .other⟩]

theorem byte_and_word_split : Splits (fun _ _ _ => true) false byte_and_word :=
  overlapping_members_split
    ⟨by decide, by simp [byte_and_word], by simp [byte_and_word, pdb_udm_t.original], by simp [byte_and_word],
      by simp [byte_and_word, Unit], by simp [byte_and_word]⟩

/-- Two bitfields of a union, each behind three unnamed bits. -/
def two_bitfields : List pdb_udm_t :=
  [⟨0, 3, 2, "x", 3, false, .bitfield 4⟩, ⟨1, 3, 4, "y", 3, false, .bitfield 4⟩]

/-- The union of two bitfields that do not begin at a byte is put three bits before them. -/
theorem two_bitfields_moved :
    ∃ v, Stops (step (fun _ _ _ => true) false) (start two_bitfields) (.ok v) ∧
      leaves 0 v = [⟨0, 0, 2, 3⟩, ⟨1, 0, 4, 3⟩] ∧ ¬ Preserved two_bitfields v := by
  obtain ⟨o, hrun, ho⟩ : ∃ o, run (step (fun _ _ _ => true) false) 4 (start two_bitfields) = some o ∧
      o.toOption.map (leaves 0) = some [⟨0, 0, 2, 3⟩, ⟨1, 0, 4, 3⟩] := by
    refine Option.map_eq_some_iff.mp (?_ : (run _ 4 (start two_bitfields)).map _ = some _)
    decide +kernel
  cases o with
  | error e => cases ho
  | ok v =>
      have hv : leaves 0 v = [⟨0, 0, 2, 3⟩, ⟨1, 0, 4, 3⟩] := Option.some.inj ho
      refine ⟨v, ⟨4, hrun⟩, hv, fun h => ?_⟩
      have hperm := h.once
      rw [hv] at hperm
      have hmem := hperm.mem_iff.mp List.mem_cons_self
      simp [two_bitfields, pdb_udm_t.leaf] at hmem

end IdaSdk.PdbOverlap
