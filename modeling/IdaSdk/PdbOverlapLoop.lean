import IdaSdk.PdbOverlapUnion
import Mathlib.Data.List.GetD

/-!
The rounds of the loop of `handle_overlapping_members`. Each leaves less to do, and each that makes no union at an odd
bit keeps the layout.
-/

namespace IdaSdk.PdbOverlap

open StepMachine

variable {create : Create} {bf_bits : Bool} {udt udt₀ v : List pdb_udm_t} {s s' : State} {m : pdb_udm_t}
  {first p p1 p2 size : Nat} {tif : tinfo_t} {o : Except Fault (List pdb_udm_t)}

/-- The members of a structure as `convert_udt` passes them on: sorted, without base classes, and with units of 1, 2, 4
or 8 bytes. -/
structure Convertible (udt : List pdb_udm_t) : Prop where
  tags : (udt.map pdb_udm_t.tag).Nodup
  sorted : udt.Pairwise fun m m' => m.offset ≤ m'.offset
  original : ∀ m ∈ udt, m.original = true
  bound : ∀ m ∈ udt, m.offset < 2 ^ 64
  unit : ∀ m ∈ udt, Unit m
  plain : ∀ m ∈ udt, m.is_baseclass = false

/-- The layout is kept: every member is in the result once, at its offset, the members of generated structures are
sorted and do not overlap, and neither do the members of the result. -/
structure Preserved (udt v : List pdb_udm_t) : Prop where
  once : (leaves 0 v).Perm (udt.map pdb_udm_t.leaf)
  stems : ∀ ms ∈ structs v, Ordered ms
  top : Ordered v

def Aligned (create : Create) (bf_bits : Bool) (udt : List pdb_udm_t) : Prop :=
  ∀ s, Reaches (step create bf_bits) (start udt) s → ∀ first p, s.overlap = some (first, p) → (s.at first).offset % 8 = 0

theorem split_range (udt : List pdb_udm_t) (h : p1 ≤ p2) : udt.take p1 ++ range udt p1 p2 ++ udt.drop p2 = udt := by
  have htake : udt.take p1 = (udt.take p2).take p1 := by rw [List.take_take, Nat.min_eq_left h]
  rw [range, htake, List.take_append_drop, List.take_append_drop]

theorem range_cons (h : p1 < p2) (hlen : p2 ≤ udt.length) :
    range udt p1 p2 = udt.getD p1 .default :: range udt (p1 + 1) p2 := by
  have hlt : p1 < (udt.take p2).length := by
    rw [List.length_take]
    omega
  rw [range, List.drop_eq_getElem_cons hlt, List.getElem_take, ← List.getD_eq_getElem _ .default]
  rfl

theorem move_back_le (udt : List pdb_udm_t) (n first : Nat) : move_back udt n first ≤ first := by
  induction first with
  | zero => exact Nat.le_refl _
  | succ first ih =>
      rw [move_back]
      split
      · exact Nat.le_succ_of_le ih
      · exact Nat.le_refl _

theorem move_on_bounds (n : Nat) (h : p ≤ udt.length) : p ≤ move_on udt n p ∧ move_on udt n p ≤ udt.length := by
  have hlen := (List.takeWhile_sublist (same_unit n) (l := udt.drop p)).length_le
  rw [List.length_drop] at hlen
  unfold move_on
  omega

theorem skip_member_bound {n collected : Nat} (h : skip_member udt n collected p = true) : p + 1 ≤ udt.length := by
  unfold skip_member at h
  split at h
  · rename_i m m' hm hm'
    have hlt := (List.getElem?_eq_some_iff.mp hm').1
    omega
  · cases h

theorem union_range_bounds (hp : p ≤ udt.length) {p1 p2 : Nat} (h : union_range udt first p = (p1, p2)) :
    p1 ≤ first ∧ p ≤ p2 ∧ p2 ≤ udt.length := by
  unfold union_range at h
  split at h
  · obtain ⟨rfl, rfl⟩ := Prod.mk.inj h
    exact ⟨Nat.le_refl _, Nat.le_refl _, hp⟩
  obtain ⟨rfl, rfl⟩ := Prod.mk.inj h
  refine ⟨move_back_le _ _ _, ?_⟩
  split
  · rename_i hskip
    obtain ⟨h1, h2⟩ := move_on_bounds (bf_typesize udt first p) (skip_member_bound hskip)
    exact ⟨by omega, h2⟩
  · exact move_on_bounds _ hp

/-! ### The states of the loop -/

/-- What holds of a member in the loop. Only a member of the PDB can be off a byte. -/
structure Fit (m : pdb_udm_t) : Prop where
  bound : m.offset < 2 ^ 64
  unit : Unit m
  plain : m.is_baseclass = false
  original : m.offset % 8 ≠ 0 → m.original = true

/-- The indices of the loop. -/
structure Base (s : State) : Prop where
  fit : ∀ m ∈ s.udt, Fit m
  bound : s.p ≤ s.udt.length
  last : ∀ last, s.last = some last → last < s.p
  first : ∀ first, s.first = some first → first < s.p ∧ s.last ≠ none

def State.rest (s : State) : Nat := 2 * (s.udt.length - s.p) + if s.first = none then 0 else 1

theorem overlap_some (h : s.overlap = some (p1, p2)) :
    ∃ first last, s.first = some first ∧ s.last = some last ∧
      ¬ (s.p < s.udt.length ∧ (s.at s.p).begin < (s.at last).finish) ∧ union_range s.udt first s.p = (p1, p2) := by
  unfold State.overlap at h
  split at h
  · rename_i first last hf hl
    split at h
    · cases h
    · rename_i hno
      exact ⟨first, last, hf, hl, hno, Option.some.inj h⟩
  · cases h

theorem Base.overlap (hb : Base s) (h : s.overlap = some (p1, p2)) :
    p1 < s.p ∧ s.p ≤ p2 ∧ p2 ≤ s.udt.length ∧ ∃ first, s.first = some first ∧ p1 ≤ first := by
  obtain ⟨first, last, hf, -, -, hr⟩ := overlap_some h
  obtain ⟨h1, h2, h3⟩ := union_range_bounds hb.bound hr
  exact ⟨Nat.lt_of_le_of_lt h1 (hb.first first hf).1, h2, h3, first, hf, h1⟩

/-- The state after a union. -/
def State.joined (s : State) (p1 p2 size : Nat) (tif : tinfo_t) : State where
  udt := s.udt.take p1 ++ union_member (s.at p1).offset p1 size tif :: s.udt.drop p2
  p := p1 + 1
  first := none
  last := some p1

/-- What one round of the loop does. -/
inductive Round (create : Create) (bf_bits : Bool) (s : State) : Result State (Except Fault (List pdb_udm_t)) → Prop where
  | union {p1 p2 size : Nat} {tif : tinfo_t} (ho : s.overlap = some (p1, p2))
      (hu : create_union create bf_bits s.udt p1 p2 = .ok (size, tif)) :
      Round create bf_bits s (.next (s.joined p1 p2 size tif))
  | failed {p1 p2 : Nat} {e : Fault} (ho : s.overlap = some (p1, p2))
      (hu : create_union create bf_bits s.udt p1 p2 = .error e) : Round create bf_bits s (.done (.error e))
  | begin (hp : s.p < s.udt.length) (hl : s.last = none) :
      Round create bf_bits s (.next { s with p := s.p + 1, last := some s.p })
  | found {last : Nat} (hp : s.p < s.udt.length) (hl : s.last = some last) (hf : s.first = none)
      (ho : (s.at s.p).begin < (s.at last).finish) : Round create bf_bits s (.next { s with first := some last }.next)
  | more {last first : Nat} (hp : s.p < s.udt.length) (hl : s.last = some last) (hf : s.first = some first) :
      Round create bf_bits s (.next s.next)
  | apart {last : Nat} (hp : s.p < s.udt.length) (hl : s.last = some last) (hf : s.first = none)
      (ho : (s.at last).finish ≤ (s.at s.p).begin) : Round create bf_bits s (.next s.next)
  | done (hp : s.udt.length ≤ s.p) (hf : s.first = none) : Round create bf_bits s (.done (.ok s.udt))

theorem at_mem (h : p < s.udt.length) : s.at p ∈ s.udt := by
  rw [State.at, List.getD_eq_getElem _ _ h]
  exact List.getElem_mem h

theorem Base.round (create : Create) (bf_bits : Bool) (hb : Base s) : Round create bf_bits s (step create bf_bits s) := by
  unfold step
  split
  · rename_i p1 p2 ho
    split
    · rename_i e hu
      exact .failed ho hu
    · rename_i size tif hu
      exact .union ho hu
  · rename_i ho
    split
    · rename_i hp
      split
      · rename_i hl
        exact .begin hp hl
      rename_i last hl
      have hbase := (hb.fit _ (at_mem (Nat.lt_trans (hb.last last hl) hp))).plain
      split
      · rename_i hcond
        exact .found hp hl hcond.2.1 hcond.1
      rename_i hcond
      cases hf : s.first with
      | some first => exact .more hp hl hf
      | none =>
          refine .apart hp hl hf (Nat.le_of_not_lt fun hlt => hcond ⟨hlt, hf, ?_⟩)
          rw [hbase]
          rfl
    · rename_i hp
      refine .done (Nat.le_of_not_lt hp) ?_
      cases hf : s.first with
      | none => rfl
      | some first =>
          obtain ⟨last, hl⟩ := Option.ne_none_iff_exists'.mp (hb.first first hf).2
          simp [State.overlap, hf, hl, hp] at ho

theorem union_member_fit {off fidx : Nat} (hoff : off < 2 ^ 64) (ms : List pdb_udm_t) {is_union invbf : Bool} {total : Nat} :
    Fit (union_member off fidx size (.udt is_union invbf total ms)) where
  bound := Nat.lt_of_le_of_lt (Nat.div_mul_le_self off 8) hoff
  unit n hn := by cases hn
  plain := rfl
  original h := absurd (Nat.mul_mod_left _ _) h

theorem at_bound (hb : Base s) (h : p < s.udt.length) : (s.at p).offset < 2 ^ 64 := (hb.fit _ (at_mem h)).bound

theorem next_base (hb : Base s) (hp : s.p < s.udt.length) : Base s.next where
  fit := hb.fit
  bound := hp
  last last hl := by
    simp only [State.next] at hl ⊢
    split at hl
    · obtain rfl := Option.some.inj hl
      exact Nat.lt_succ_self _
    rename_i last' hl'
    split at hl
    · obtain rfl := Option.some.inj hl
      exact Nat.lt_succ_self _
    · obtain rfl := Option.some.inj hl
      exact Nat.lt_succ_of_lt (hb.last _ hl')
  first first hf := by
    refine ⟨Nat.lt_succ_of_lt (hb.first first hf).1, ?_⟩
    simp only [State.next]
    split
    · simp
    · split <;> simp

theorem next_rest (hp : s.p < s.udt.length) : s.next.rest < s.rest := by
  change 2 * (s.udt.length - (s.p + 1)) + (if s.first = none then 0 else 1) <
    2 * (s.udt.length - s.p) + if s.first = none then 0 else 1
  omega

variable {last : Nat}

theorem found_base (hb : Base s) (hl : s.last = some last) : Base { s with first := some last } where
  fit := hb.fit
  bound := hb.bound
  last := hb.last
  first first hf := by
    obtain rfl := Option.some.inj hf
    refine ⟨hb.last _ hl, ?_⟩
    simp only [hl]
    simp

theorem joined_base (hb : Base s) (ho : s.overlap = some (p1, p2))
    (hu : create_union create bf_bits s.udt p1 p2 = .ok (size, tif)) : Base (s.joined p1 p2 size tif) := by
  obtain ⟨h1, h2, h3, -⟩ := hb.overlap ho
  obtain ⟨invbf, total, unimems, rfl, -⟩ := (create_union_made (Nat.lt_of_lt_of_le h1 h2) hu).union
  constructor
  · intro m hm
    simp only [State.joined, List.mem_append, List.mem_cons] at hm
    rcases hm with hm | rfl | hm
    · exact hb.fit m (List.mem_of_mem_take hm)
    · exact union_member_fit (at_bound hb (by omega)) _
    · exact hb.fit m (List.mem_of_mem_drop hm)
  · simp only [State.joined, List.length_append, List.length_take, List.length_cons]
    omega
  · intro last hl
    obtain rfl := Option.some.inj hl
    exact Nat.lt_succ_self _
  · intro first hf
    cases hf

theorem step_base (hb : Base s) (h : step create bf_bits s = .next s') : Base s' ∧ s'.rest < s.rest := by
  have hr := hb.round create bf_bits
  rw [h] at hr
  cases hr with
  | union ho hu =>
      obtain ⟨h1, h2, h3, first, hf, -⟩ := hb.overlap ho
      refine ⟨joined_base hb ho hu, ?_⟩
      simp only [State.rest, State.joined, List.length_append, List.length_take, List.length_cons, List.length_drop, hf,
        if_true, reduceCtorEq, if_false]
      omega
  | begin hp hl =>
      refine ⟨⟨hb.fit, hp, ?_, ?_⟩, ?_⟩
      · intro last hlast
        obtain rfl := Option.some.inj hlast
        exact Nat.lt_succ_self _
      · exact fun first hf => absurd hl (hb.first first hf).2
      · simp only [State.rest]
        omega
  | found hp hl hf ho =>
      refine ⟨next_base (found_base hb hl) hp, ?_⟩
      simp only [State.rest, State.next, hf, if_true, reduceCtorEq, if_false]
      omega
  | more hp hl hf =>
      exact ⟨next_base hb hp, next_rest hp⟩
  | apart hp hl hf ho =>
      exact ⟨next_base hb hp, next_rest hp⟩

theorem start_base (h : Convertible udt) : Base (start udt) where
  fit m hm := ⟨h.bound m hm, h.unit m hm, h.plain m hm, fun _ => h.original m hm⟩
  bound := Nat.zero_le _
  last last hl := by cases hl
  first first hf := by cases hf

theorem Base.stops (hb : Base s) : ∃ o, Stops (step create bf_bits) s o := by
  obtain ⟨n, hn⟩ : ∃ n, s.rest = n := ⟨_, rfl⟩
  induction n using Nat.strongRecOn generalizing s with
  | ind n ih =>
      cases hs : step create bf_bits s with
      | done o => exact ⟨o, Stops.of_done hs⟩
      | next s' =>
          obtain ⟨hb', hlt⟩ := step_base hb hs
          obtain ⟨o, ho⟩ := ih s'.rest (hn ▸ hlt) hb' rfl
          exact ⟨o, (Steps.of_next hs).stops_iff.mpr ho⟩

theorem done_error (hb : Base s) (h : step create bf_bits s = .done o) : o = .error .cvt_failed ∨ o = .ok s.udt := by
  have hr := hb.round create bf_bits
  rw [h] at hr
  cases hr with
  | failed ho hu =>
      obtain ⟨h1, h2, -⟩ := hb.overlap ho
      exact Or.inl (congrArg _ (create_union_error (Nat.lt_of_lt_of_le h1 h2) (fun m hm => (hb.fit m hm).unit) hu))
  | done hp hf => exact Or.inr rfl

/-! ### The layout -/

def Disjoint (ms : List pdb_udm_t) : Prop := ms.Pairwise fun m m' => m.finish ≤ m'.begin

/-- The layout during the loop. While an overlap is collected, it begins behind everything before it; otherwise `last`
is behind the members before it or has the highest end. -/
structure Good (udt₀ : List pdb_udm_t) (s : State) : Prop where
  once : (leaves 0 s.udt).Perm (udt₀.map pdb_udm_t.leaf)
  stems : ∀ ms ∈ structs s.udt, Ordered ms
  sorted : s.udt.Pairwise fun m m' => m.offset ≤ m'.offset
  collecting : ∀ first, s.first = some first → Disjoint (s.udt.take (first + 1))
  free : s.first = none → Disjoint (s.udt.take s.p) ∧ (s.last = none → s.p = 0) ∧
    ∀ last, s.last = some last → ∀ m ∈ s.udt.take s.p, m.finish ≤ (s.at last).finish ∨ m.finish ≤ (s.at last).begin

theorem start_good (h : Convertible udt) : Good udt (start udt) where
  once := by
    have heq : leaves 0 udt = udt.map pdb_udm_t.leaf := by
      have horig := h.original
      clear h
      induction udt with
      | nil => rfl
      | cons m udt ih =>
          rw [leaves, original_leaves (horig m List.mem_cons_self), ih fun m hm => horig m (List.mem_cons_of_mem _ hm)]
          rfl
    rw [show (start udt).udt = udt from rfl, heq]
  stems ms hms := by
    rw [show (start udt).udt = udt from rfl, structs_eq_flatMap] at hms
    obtain ⟨m, hm, hms⟩ := List.mem_flatMap.mp hms
    rw [original_structs (h.original m hm)] at hms
    cases hms
  sorted := h.sorted
  collecting first hf := by cases hf
  free _ := by
    refine ⟨?_, fun _ => rfl, fun last hl => by cases hl⟩
    rw [show (start udt).p = 0 from rfl, List.take_zero]
    exact List.Pairwise.nil

theorem take_succ_at (hp : p < s.udt.length) : s.udt.take (p + 1) = s.udt.take p ++ [s.at p] := by
  rw [List.take_succ_eq_append_getElem hp, State.at, List.getD_eq_getElem _ _ hp]

theorem sorted_at {i j : Nat} (hs : s.udt.Pairwise fun m m' => m.offset ≤ m'.offset) (hij : i < j)
    (hj : j < s.udt.length) : (s.at i).offset ≤ (s.at j).offset := by
  rw [State.at, State.at, List.getD_eq_getElem _ _ (Nat.lt_trans hij hj), List.getD_eq_getElem _ _ hj]
  exact List.pairwise_iff_getElem.mp hs i j _ _ hij

variable {ms : List pdb_udm_t}

theorem disjoint_snoc (h : Disjoint ms) (hm : ∀ m' ∈ ms, m'.finish ≤ m.begin) :
    Disjoint (ms ++ [m]) := by
  refine List.pairwise_append.mpr ⟨h, List.pairwise_singleton _ _, ?_⟩
  intro m' hm' m'' hm''
  rw [List.mem_singleton.mp hm'']
  exact hm m' hm'

theorem Disjoint.take {i j : Nat} (h : Disjoint (ms.take j)) (hij : i ≤ j) :
    Disjoint (ms.take i) := by
  have hsub : (ms.take i).Sublist (ms.take j) := List.take_sublist_take_left hij
  exact List.Pairwise.sublist hsub h

theorem found_good (h : Good udt₀ s) (hb : Base s) (hl : s.last = some last) (hf : s.first = none) :
    Good udt₀ { s with first := some last } where
  once := h.once
  stems := h.stems
  sorted := h.sorted
  collecting first hfirst := by
    obtain rfl := Option.some.inj hfirst
    exact (h.free hf).1.take (hb.last _ hl)
  free hnone := by cases hnone

theorem next_collecting (h : Good udt₀ s) (hf : s.first ≠ none) : Good udt₀ s.next where
  once := h.once
  stems := h.stems
  sorted := h.sorted
  collecting := h.collecting
  free hnone := absurd hnone hf

theorem next_apart (h : Good udt₀ s) (hb : Base s) (hp : s.p < s.udt.length) (hl : s.last = some last)
    (hf : s.first = none) (ho : (s.at last).finish ≤ (s.at s.p).begin) : Good udt₀ s.next where
  once := h.once
  stems := h.stems
  sorted := h.sorted
  collecting first hfirst := by
    rw [show s.next.first = s.first from rfl, hf] at hfirst
    cases hfirst
  free _ := by
    obtain ⟨hdis, -, hhigh⟩ := h.free hf
    have hsort : (s.at last).begin ≤ (s.at s.p).begin := sorted_at h.sorted (hb.last _ hl) hp
    have hbelow : ∀ m ∈ s.udt.take s.p, m.finish ≤ (s.at s.p).begin := by
      intro m hm
      rcases hhigh last hl m hm with hle | hle
      · exact Nat.le_trans hle ho
      · exact Nat.le_trans hle hsort
    have htake : s.next.udt.take s.next.p = s.udt.take s.p ++ [s.at s.p] := take_succ_at hp
    rw [htake]
    refine ⟨disjoint_snoc hdis hbelow, ?_, ?_⟩
    · intro hnone
      simp only [State.next, hl] at hnone
      split at hnone <;> cases hnone
    intro last' hl' m hm
    change m.finish ≤ (s.at last').finish ∨ m.finish ≤ (s.at last').begin
    simp only [State.next, hl] at hl'
    split at hl'
    · obtain rfl := Option.some.inj hl'
      rcases List.mem_append.mp hm with hm | hm
      · exact Or.inr (hbelow m hm)
      · rw [List.mem_singleton.mp hm]
        exact Or.inl (Nat.le_refl _)
    · rename_i hlow
      obtain rfl := Option.some.inj hl'
      rcases List.mem_append.mp hm with hm | hm
      · exact hhigh last hl m hm
      · rw [List.mem_singleton.mp hm]
        exact Or.inl (Nat.le_of_not_lt hlow)

theorem begin_good (h : Good udt₀ s) (hp : s.p < s.udt.length) (hf : s.first = none) (hl : s.last = none) :
    Good udt₀ { s with p := s.p + 1, last := some s.p } where
  once := h.once
  stems := h.stems
  sorted := h.sorted
  collecting first hfirst := by
    change s.first = some first at hfirst
    rw [hf] at hfirst
    cases hfirst
  free _ := by
    have hzero := (h.free hf).2.1 hl
    have htake : s.udt.take (s.p + 1) = [s.at s.p] := by
      rw [take_succ_at hp, hzero, List.take_zero, List.nil_append]
    change Disjoint (s.udt.take (s.p + 1)) ∧ _
    rw [htake]
    refine ⟨List.pairwise_singleton _ _, fun hnone => (by cases hnone), ?_⟩
    intro last hlast m hm
    obtain rfl := Option.some.inj hlast
    rw [List.mem_singleton.mp hm]
    exact Or.inl (Nat.le_refl _)

/-! ### A union -/

theorem range_behind (hs : s.udt.Pairwise fun m m' => m.offset ≤ m'.offset) (hlt : p1 < p2) (hlen : p2 ≤ s.udt.length)
    {q : pdb_udm_t} (hq : q ∈ range s.udt p1 p2) : (s.at p1).offset ≤ q.offset := by
  have hsub : (range s.udt p1 p2).Sublist s.udt := (List.drop_sublist _ _).trans (List.take_sublist _ _)
  have hr := hs.sublist hsub
  rw [range_cons hlt hlen] at hr hq
  rcases List.mem_cons.mp hq with rfl | hq
  · exact Nat.le_refl _
  · exact (List.pairwise_cons.mp hr).1 q hq

theorem range_mem {q : pdb_udm_t} (hq : q ∈ range udt p1 p2) : q ∈ udt :=
  List.mem_of_mem_take (List.mem_of_mem_drop hq)

theorem at_joined (hp : p1 < s.udt.length) :
    (s.joined p1 p2 size tif).at p1 = union_member (s.at p1).offset p1 size tif := by
  have hlen : (s.udt.take p1).length = p1 := by
    rw [List.length_take]
    omega
  simp only [State.at, State.joined, List.getD_eq_getElem?_getD]
  rw [List.getElem?_append_right (Nat.le_of_eq hlen), hlen, Nat.sub_self]
  rfl

theorem joined_good (h : Good udt₀ s) (hb : Base s) (ho : s.overlap = some (p1, p2))
    (hu : create_union create bf_bits s.udt p1 p2 = .ok (size, tif)) (halign : (s.at p1).offset % 8 = 0) :
    Good udt₀ (s.joined p1 p2 size tif) := by
  obtain ⟨h1, h2, h3, first, hf, hfirst⟩ := hb.overlap ho
  have hlt : p1 < p2 := Nat.lt_of_lt_of_le h1 h2
  have hlen : p1 < s.udt.length := Nat.lt_of_lt_of_le hlt h3
  obtain ⟨invbf, total, unimems, rfl, hleaves, hstructs⟩ := (create_union_made hlt hu).union
  have hoff : (s.at p1).offset / 8 * 8 = (s.at p1).offset := by omega
  have hbehind : ∀ q ∈ range s.udt p1 p2, (s.at p1).offset ≤ q.offset ∧ q.offset < 2 ^ 64 :=
    fun q hq => ⟨range_behind h.sorted hlt h3 hq, (hb.fit q (range_mem hq)).bound⟩
  have hsplit := split_range s.udt (Nat.le_of_lt hlt)
  have hrsorted : ((range s.udt p1 p2).map (rebase (s.at p1).offset)).Pairwise fun m m' => m.offset ≤ m'.offset := by
    have hsub : (range s.udt p1 p2).Sublist s.udt := (List.drop_sublist _ _).trans (List.take_sublist _ _)
    refine List.pairwise_map.mpr ((h.sorted.sublist hsub).imp_of_mem fun {m m'} hm hm' hle => ?_)
    rw [rebase_offset (hbehind m hm).1 (hbehind m hm).2, rebase_offset (hbehind m' hm').1 (hbehind m' hm').2]
    omega
  have htake : (s.joined p1 p2 size (.udt true invbf total unimems)).udt.take (p1 + 1) =
      s.udt.take p1 ++ [union_member (s.at p1).offset p1 size (.udt true invbf total unimems)] := by
    have hl : (s.udt.take p1).length = p1 := by
      rw [List.length_take]
      omega
    simp only [State.joined]
    rw [List.take_append, hl, List.take_of_length_le (by omega), Nat.add_sub_cancel_left]
    rfl
  have hbefore : ∀ m ∈ s.udt.take p1, m.finish ≤ (s.at p1).begin := by
    have hd := (h.collecting first hf).take (Nat.succ_le_succ hfirst)
    rw [take_succ_at hlen] at hd
    exact fun m hm => (List.pairwise_append.mp hd).2.2 m hm _ List.mem_cons_self
  constructor
  · have hu : pdb_udm_t.leaves 0 (union_member (s.at p1).offset p1 size (.udt true invbf total unimems)) =
        leaves (0 + (s.at p1).offset) unimems := by
      rw [union_leaves rfl]
      exact congrArg (fun x => leaves (0 + x) unimems) hoff
    refine List.Perm.trans ?_ h.once
    rw [← hsplit]
    simp only [State.joined]
    rw [leaves_append, leaves_append, leaves_append, leaves, hu, List.append_assoc]
    refine ((hleaves _).append_right _).append_left _ |>.trans ?_
    have hreb := rebase_all_leaves (b := 0) hbehind
    rw [State.at] at hreb ⊢
    rw [hreb]
  · intro ms hms
    simp only [State.joined] at hms
    rw [structs_append, structs, union_structs rfl] at hms
    have hold : ∀ ms ∈ structs s.udt, Ordered ms := h.stems
    rw [← hsplit, structs_append, structs_append] at hold
    rcases List.mem_append.mp hms with hms | hms
    · exact hold ms (List.mem_append_left _ (List.mem_append_left _ hms))
    rcases List.mem_append.mp hms with hms | hms
    · rcases hstructs hrsorted ms hms with hr | hr
      · exact hr
      · exact hold ms (List.mem_append_left _ (List.mem_append_right _ hr))
    · exact hold ms (List.mem_append_right _ hms)
  · have hs := h.sorted
    rw [← hsplit, List.append_assoc] at hs
    obtain ⟨hleft, hright, hcross⟩ := List.pairwise_append.mp hs
    obtain ⟨-, hdrop, hmid⟩ := List.pairwise_append.mp hright
    have hhead : s.at p1 ∈ range s.udt p1 p2 := by
      rw [range_cons hlt h3]
      exact List.mem_cons_self
    simp only [State.joined]
    refine List.pairwise_append.mpr ⟨hleft, List.pairwise_cons.mpr ⟨?_, hdrop⟩, ?_⟩
    · intro m hm
      exact Nat.le_trans (Nat.le_of_eq hoff) (hmid _ hhead m hm)
    · intro m hm m' hm'
      rcases List.mem_cons.mp hm' with rfl | hm'
      · exact Nat.le_trans (hcross m hm _ (List.mem_append_left _ hhead)) (Nat.le_of_eq hoff.symm)
      · exact hcross m hm m' (List.mem_append_right _ hm')
  · intro first hfirst
    cases hfirst
  · intro _
    have hbegin : ∀ m ∈ s.udt.take p1,
        m.finish ≤ (union_member (s.at p1).offset p1 size (.udt true invbf total unimems)).begin :=
      fun m hm => Nat.le_trans (hbefore m hm) (Nat.le_of_eq hoff.symm)
    have htake' : (s.joined p1 p2 size (.udt true invbf total unimems)).udt.take
        (s.joined p1 p2 size (.udt true invbf total unimems)).p = _ := htake
    rw [htake']
    refine ⟨disjoint_snoc ((h.collecting first hf).take (by omega)) hbegin, ?_, ?_⟩
    · intro hnone
      cases hnone
    intro last hl m hm
    obtain rfl := Option.some.inj hl
    rw [at_joined hlen]
    rcases List.mem_append.mp hm with hm | hm
    · exact Or.inr (hbegin m hm)
    · rw [List.mem_singleton.mp hm]
      exact Or.inl (Nat.le_refl _)

end IdaSdk.PdbOverlap
