import Mathlib.Algebra.Group.Nat.Defs
import Mathlib.Order.Interval.Set.Basic
import Mathlib.Data.Nat.Basic
import Mathlib.Tactic.Common

/-!
Ranges of bits with a 16-bit offset and a 16-bit size. A range denotes the set of its bit positions, and an empty range
is meant to be the one whose offset and size are zero. Each operation is compared with its meaning on sets.
-/

namespace IdaSdk.Bitrange

def u16 (x : Nat) : Nat := x % 2 ^ 16

/-- `bitrange_t`. -/
structure bitrange_t where
  offset : Nat
  nbits : Nat
deriving DecidableEq

namespace bitrange_t

def init (bit_ofs size_in_bits : Nat) : bitrange_t := ⟨u16 bit_ofs, u16 size_in_bits⟩

def reset : bitrange_t := init 0 0

variable (a : bitrange_t)

def last : Nat := u16 (a.offset + a.nbits)

def apply_mask (a submask : bitrange_t) : Bool × bitrange_t :=
  if a.nbits < submask.offset + submask.nbits then (false, a)
  else (true, init (a.offset + submask.offset) submask.nbits)

variable (a r : bitrange_t)

def intersect : bitrange_t :=
  if min a.last r.last < max a.offset r.offset then init 0 0
  else init (max a.offset r.offset) (min a.last r.last - max a.offset r.offset)

/-- `interval::last` of a range that is not empty. -/
def interval_last : Nat := a.offset + a.nbits - 1

def has_common : Bool :=
  a.nbits != 0 && r.nbits != 0 && r.offset ≤ a.interval_last && a.offset ≤ r.interval_last

def create_union : bitrange_t :=
  init (min a.offset r.offset) (max a.last r.last - min a.offset r.offset)

def sub : Bool × bitrange_t :=
  if a.offset < r.offset ∧ r.last < a.last then (false, a)
  else if r.offset ≤ a.offset then
    if a.last < r.last then (true, reset)
    else if a.offset < r.last then (true, ⟨r.last, u16 (a.last - r.last)⟩)
    else (true, a)
  else if r.offset < a.last then (true, { a with nbits := u16 (r.offset - a.offset) })
  else (true, a)

def shift_down (cnt : Nat) : bitrange_t :=
  if a.offset < cnt then ⟨0, if a.nbits < cnt - a.offset then 0 else u16 (a.nbits - (cnt - a.offset))⟩
  else { a with offset := u16 (a.offset - cnt) }

def shift_up (cnt : Nat) : bitrange_t := { a with offset := u16 (a.offset + cnt) }

def bits : Set Nat := Set.Ico a.offset (a.offset + a.nbits)

/-- A range of these positions; if there are none, the canonical empty range. -/
structure Denotes (a : bitrange_t) (s : Set Nat) : Prop where
  bits : a.bits = s
  canonical : s = ∅ → a = ⟨0, 0⟩

def Fits : Prop := a.offset + a.nbits < 2 ^ 16

variable {a b : bitrange_t} {cnt i : Nat}

theorem mem_bits : i ∈ a.bits ↔ a.offset ≤ i ∧ i < a.offset + a.nbits := Iff.rfl

theorem u16_of_lt {x : Nat} (h : x < 2 ^ 16) : u16 x = x := Nat.mod_eq_of_lt h

theorem last_eq (h : a.Fits) : a.last = a.offset + a.nbits := u16_of_lt h

theorem bits_eq_empty : a.bits = ∅ ↔ a.nbits = 0 := by
  rw [bits, Set.Ico_eq_empty_iff]
  omega

theorem denotes_bits : a.Denotes a.bits ↔ (a.nbits = 0 → a.offset = 0) := by
  constructor
  · intro h hz
    have heq := h.canonical (bits_eq_empty.2 hz)
    rw [heq]
  intro h
  refine ⟨rfl, fun hempty => ?_⟩
  have hz := bits_eq_empty.1 hempty
  obtain ⟨offset, nbits⟩ := a
  obtain rfl : nbits = 0 := hz
  obtain rfl : offset = 0 := h rfl
  rfl

theorem denotes_of_bits {s : Set Nat} (h : a.bits = s) : a.Denotes s ↔ (a.nbits = 0 → a.offset = 0) := by
  rw [← h]
  exact denotes_bits

/-! ### The operations -/

theorem intersect_denotes (ha : a.Fits) (hb : b.Fits) :
    (a.intersect b).Denotes (a.bits ∩ b.bits) ↔
      (min (a.offset + a.nbits) (b.offset + b.nbits) = max a.offset b.offset → max a.offset b.offset = 0) := by
  have hbits : (a.intersect b).bits = a.bits ∩ b.bits := by
    unfold Fits at ha hb
    ext i
    rw [Set.mem_inter_iff, mem_bits, mem_bits, mem_bits, intersect, last_eq ha, last_eq hb]
    split
    · simp only [init, u16]
      omega
    · simp only [init, u16]
      omega
  rw [denotes_of_bits hbits, intersect, last_eq ha, last_eq hb]
  unfold Fits at ha hb
  have hlow : max a.offset b.offset < 2 ^ 16 := by omega
  have hhigh : min (a.offset + a.nbits) (b.offset + b.nbits) < 2 ^ 16 := by omega
  generalize max a.offset b.offset = low at hlow
  generalize min (a.offset + a.nbits) (b.offset + b.nbits) = high at hhigh
  split
  · refine ⟨fun _ heq => by omega, fun _ _ => rfl⟩
  · have hfields : (init low (high - low)).offset = low ∧ (init low (high - low)).nbits = high - low :=
      ⟨u16_of_lt hlow, u16_of_lt (by omega)⟩
    rw [hfields.1, hfields.2]
    exact ⟨fun h heq => h (by omega), fun h hz => h (by omega)⟩

theorem has_common_iff : a.has_common b = true ↔ (a.bits ∩ b.bits).Nonempty := by
  simp only [has_common, Bool.and_eq_true, bne_iff_ne, decide_eq_true_eq]
  unfold interval_last
  constructor
  · rintro ⟨⟨⟨ha, hb⟩, h₁⟩, h₂⟩
    refine ⟨max a.offset b.offset, ?_⟩
    rw [Set.mem_inter_iff, mem_bits, mem_bits]
    omega
  · rintro ⟨i, hi⟩
    rw [Set.mem_inter_iff, mem_bits, mem_bits] at hi
    omega

/-- The positions between two positions of a set. -/
def hull (s : Set Nat) : Set Nat := {i | ∃ j ∈ s, ∃ k ∈ s, j ≤ i ∧ i ≤ k}

/-- An empty range stands in another range or at its end. -/
def Within (a b : bitrange_t) : Prop := a.nbits = 0 → b.offset ≤ a.offset ∧ a.offset ≤ b.offset + b.nbits

theorem hull_bits : hull a.bits = a.bits := by
  ext i
  constructor
  · rintro ⟨j, hj, k, hk, h⟩
    rw [mem_bits] at hj hk ⊢
    omega
  · exact fun hi => ⟨i, hi, i, hi, Nat.le_refl i, Nat.le_refl i⟩

theorem mem_hull_union (ha : a.nbits ≠ 0) (hb : b.nbits ≠ 0) :
    i ∈ hull (a.bits ∪ b.bits) ↔
      min a.offset b.offset ≤ i ∧ i < max (a.offset + a.nbits) (b.offset + b.nbits) := by
  constructor
  · rintro ⟨j, hj, k, hk, h⟩
    rw [Set.mem_union, mem_bits, mem_bits] at hj hk
    omega
  intro h
  refine ⟨min a.offset b.offset, ?_, max (a.offset + a.nbits) (b.offset + b.nbits) - 1, ?_, h.1, by omega⟩
  · rw [Set.mem_union, mem_bits, mem_bits]
    omega
  · rw [Set.mem_union, mem_bits, mem_bits]
    omega

theorem mem_create_union (ha : a.Fits) (hb : b.Fits) :
    i ∈ (a.create_union b).bits ↔
      min a.offset b.offset ≤ i ∧ i < max (a.offset + a.nbits) (b.offset + b.nbits) := by
  rw [mem_bits, create_union, last_eq ha, last_eq hb]
  unfold Fits at ha hb
  simp only [init, u16]
  omega

/-- The ranges and what is between them; wrong if an empty range does not stand in the other one. -/
theorem create_union_denotes (ha : a.Fits) (hb : b.Fits) :
    (a.create_union b).Denotes (hull (a.bits ∪ b.bits)) ↔
      Within a b ∧ Within b a ∧ (a.nbits = 0 → b.nbits = 0 → a.offset = 0) := by
  have hfields : (a.create_union b).offset = min a.offset b.offset ∧
      (a.create_union b).nbits = max (a.offset + a.nbits) (b.offset + b.nbits) - min a.offset b.offset := by
    rw [create_union, last_eq ha, last_eq hb]
    unfold Fits at ha hb
    simp only [init, u16]
    omega
  by_cases hza : a.nbits = 0
  · have hunion : hull (a.bits ∪ b.bits) = b.bits := by
      rw [bits_eq_empty.mpr hza, Set.empty_union, hull_bits]
    rw [hunion]
    constructor
    · intro h
      by_cases hzb : b.nbits = 0
      · have heq := h.canonical (bits_eq_empty.mpr hzb)
        rw [heq] at hfields
        simp only at hfields
        refine ⟨fun _ => ?_, fun _ => ?_, fun _ _ => ?_⟩ <;> omega
      · have hlow : b.offset ∈ b.bits := mem_bits.mpr (by omega)
        have hhigh : b.offset + b.nbits - 1 ∈ b.bits := mem_bits.mpr (by omega)
        have hmem : min a.offset b.offset ∈ b.bits := by
          rw [← h.bits] at hlow ⊢
          rw [mem_create_union ha hb] at hlow ⊢
          omega
        have hmem' : max a.offset (b.offset + b.nbits) - 1 ∈ b.bits := by
          rw [← h.bits] at hhigh ⊢
          rw [mem_create_union ha hb] at hhigh ⊢
          omega
        rw [mem_bits] at hmem hmem'
        refine ⟨fun _ => ?_, fun hz => absurd hz hzb, fun _ hz => absurd hz hzb⟩
        omega
    · rintro ⟨hab, hba, hzero⟩
      have hin := hab hza
      have hbits : (a.create_union b).bits = b.bits := by
        ext i
        rw [mem_create_union ha hb, mem_bits]
        omega
      rw [denotes_of_bits hbits]
      intro hz
      have hzb : b.nbits = 0 := by omega
      have h0 := hzero hza hzb
      omega
  · by_cases hzb : b.nbits = 0
    · have hunion : hull (a.bits ∪ b.bits) = a.bits := by
        rw [bits_eq_empty.mpr hzb, Set.union_empty, hull_bits]
      rw [hunion]
      constructor
      · intro h
        have hlow : a.offset ∈ a.bits := mem_bits.mpr (by omega)
        have hhigh : a.offset + a.nbits - 1 ∈ a.bits := mem_bits.mpr (by omega)
        have hmem : min a.offset b.offset ∈ a.bits := by
          rw [← h.bits] at hlow ⊢
          rw [mem_create_union ha hb] at hlow ⊢
          omega
        have hmem' : max b.offset (a.offset + a.nbits) - 1 ∈ a.bits := by
          rw [← h.bits] at hhigh ⊢
          rw [mem_create_union ha hb] at hhigh ⊢
          omega
        rw [mem_bits] at hmem hmem'
        refine ⟨fun hz => absurd hz hza, fun _ => ?_, fun hz => absurd hz hza⟩
        omega
      · rintro ⟨hab, hba, hzero⟩
        have hin := hba hzb
        have hbits : (a.create_union b).bits = a.bits := by
          ext i
          rw [mem_create_union ha hb, mem_bits]
          omega
        rw [denotes_of_bits hbits]
        omega
    · have hbits : (a.create_union b).bits = hull (a.bits ∪ b.bits) := by
        ext i
        rw [mem_create_union ha hb, mem_hull_union hza hzb]
      rw [denotes_of_bits hbits]
      constructor
      · exact fun _ => ⟨fun hz => absurd hz hza, fun hz => absurd hz hzb, fun hz => absurd hz hza⟩
      · omega

/-- What subtraction has to do: the difference if it is one range, else a failure and no change. -/
def SubMeaning (a b : bitrange_t) : Prop :=
  ((∃ low high, a.bits \ b.bits = Set.Ico low high) →
      (a.sub b).1 = true ∧ (a.sub b).2.Denotes (a.bits \ b.bits)) ∧
    ((¬∃ low high, a.bits \ b.bits = Set.Ico low high) → a.sub b = (false, a))

theorem not_range_of_hole (h : a.offset < b.offset) (h' : b.offset + b.nbits < a.offset + a.nbits)
    (hb : b.nbits ≠ 0) : ¬∃ low high, a.bits \ b.bits = Set.Ico low high := by
  rintro ⟨low, high, heq⟩
  have hfirst : a.offset ∈ a.bits \ b.bits := by
    rw [Set.mem_sdiff, mem_bits, mem_bits]
    omega
  have hlast : a.offset + a.nbits - 1 ∈ a.bits \ b.bits := by
    rw [Set.mem_sdiff, mem_bits, mem_bits]
    omega
  have hhole : b.offset ∉ a.bits \ b.bits := by
    rw [Set.mem_sdiff, mem_bits, mem_bits]
    omega
  rw [heq] at hfirst hlast hhole
  rw [Set.mem_Ico] at hfirst hlast hhole
  omega

theorem range_of_no_hole (h : a.offset < b.offset → b.offset + b.nbits < a.offset + a.nbits → b.nbits = 0) :
    ∃ low high, a.bits \ b.bits = Set.Ico low high := by
  by_cases hb : b.nbits = 0
  · refine ⟨a.offset, a.offset + a.nbits, ?_⟩
    rw [bits_eq_empty.mpr hb, Set.sdiff_empty]
    rfl
  by_cases hlow : b.offset ≤ a.offset
  · refine ⟨max a.offset (b.offset + b.nbits), a.offset + a.nbits, ?_⟩
    ext i
    rw [Set.mem_sdiff, mem_bits, mem_bits, Set.mem_Ico]
    omega
  · refine ⟨a.offset, min b.offset (a.offset + a.nbits), ?_⟩
    ext i
    rw [Set.mem_sdiff, mem_bits, mem_bits, Set.mem_Ico]
    omega


theorem sub_inside (ha : a.Fits) (hb : b.Fits)
    (h : ¬(a.offset < b.offset ∧ b.offset + b.nbits < a.offset + a.nbits)) :
    (a.sub b).1 = true ∧ (a.sub b).2.bits = a.bits \ b.bits ∧
      (((a.sub b).2.nbits = 0 → (a.sub b).2.offset = 0) ↔
        ¬(a.nbits ≠ 0 ∧ b.offset ≤ a.offset ∧ b.offset + b.nbits = a.offset + a.nbits) ∧
          (a.nbits = 0 → a.offset = 0 ∨ b.offset ≤ a.offset ∧ a.offset < b.offset + b.nbits)) := by
  unfold sub
  rw [last_eq ha, last_eq hb, if_neg h]
  unfold Fits at ha hb
  split
  · case isTrue hlow =>
    split
    · refine ⟨rfl, ?_, fun _ => ⟨by omega, by omega⟩, fun _ _ => rfl⟩
      ext i
      rw [Set.mem_sdiff, mem_bits, mem_bits, mem_bits]
      simp only [reset, init, u16]
      omega
    · split
      · case isTrue hcut =>
        have hsize : u16 (a.offset + a.nbits - (b.offset + b.nbits)) = a.offset + a.nbits - (b.offset + b.nbits) :=
          u16_of_lt (by omega)
        rw [hsize]
        refine ⟨rfl, ?_, fun hzero => ⟨fun hend => ?_, fun _ => by omega⟩, fun hend hz => ?_⟩
        · ext i
          rw [Set.mem_sdiff, mem_bits, mem_bits, mem_bits]
          simp only
          omega
        · have := hzero (by simp only; omega)
          simp only at this
          omega
        · simp only at hz
          have hcond := hend.1
          simp only
          omega
      · refine ⟨rfl, ?_, fun hzero => ⟨by omega, fun hz => .inl (hzero hz)⟩, fun hend hz => ?_⟩
        · ext i
          simp only [Set.mem_sdiff, mem_bits]
          omega
        · have hcover := hend.2 hz
          simp only at hz ⊢
          omega
  · split
    · have hsize : u16 (b.offset - a.offset) = b.offset - a.offset := u16_of_lt (by omega)
      rw [hsize]
      refine ⟨rfl, ?_, fun _ => ⟨by omega, by omega⟩, fun _ hz => ?_⟩
      · ext i
        rw [Set.mem_sdiff, mem_bits, mem_bits, mem_bits]
        simp only
        omega
      · simp only at hz
        omega
    · refine ⟨rfl, ?_, fun hzero => ⟨by omega, fun hz => .inl (hzero hz)⟩, fun hend hz => ?_⟩
      · ext i
        simp only [Set.mem_sdiff, mem_bits]
        omega
      · have hcover := hend.2 hz
        simp only at hz ⊢
        omega

/-- The conditions for subtraction: an empty range is not taken from the middle, the end is not cut off whole, and
an empty range is canonical or covered. -/
def SubAgrees (a b : bitrange_t) : Prop :=
  ¬(b.nbits = 0 ∧ a.offset < b.offset ∧ b.offset < a.offset + a.nbits) ∧
    ¬(a.nbits ≠ 0 ∧ b.offset ≤ a.offset ∧ b.offset + b.nbits = a.offset + a.nbits) ∧
    (a.nbits = 0 → a.offset = 0 ∨ b.offset ≤ a.offset ∧ a.offset < b.offset + b.nbits)

theorem sub_meaning (ha : a.Fits) (hb : b.Fits) : SubMeaning a b ↔ SubAgrees a b := by
  by_cases hhole : a.offset < b.offset ∧ b.offset + b.nbits < a.offset + a.nbits
  · have hfail : a.sub b = (false, a) := by
      unfold sub
      rw [last_eq ha, last_eq hb, if_pos hhole]
    by_cases hz : b.nbits = 0
    · constructor
      · intro h
        have htrue := (h.1 (range_of_no_hole fun _ _ => hz)).1
        rw [hfail] at htrue
        cases htrue
      · intro h
        have := h.1
        omega
    · have hnot := not_range_of_hole hhole.1 hhole.2 hz
      constructor
      · intro _
        exact ⟨by omega, by omega, by omega⟩
      · exact fun _ => ⟨fun hrange => absurd hrange hnot, fun _ => hfail⟩
  · have hrange := range_of_no_hole (a := a) (b := b) fun h h' => absurd ⟨h, h'⟩ hhole
    obtain ⟨htrue, hbits, hcanon⟩ := sub_inside ha hb hhole
    constructor
    · intro h
      have hden := (denotes_of_bits hbits).mp (h.1 hrange).2
      exact ⟨by omega, hcanon.mp hden⟩
    · intro h
      exact ⟨fun _ => ⟨htrue, (denotes_of_bits hbits).mpr (hcanon.mpr h.2)⟩, fun hnot => absurd hrange hnot⟩

theorem shift_down_denotes (ha : a.Fits) :
    (a.shift_down cnt).Denotes {i | i + cnt ∈ a.bits} ↔ (a.nbits = 0 → a.offset ≤ cnt) := by
  unfold Fits at ha
  have hbits : (a.shift_down cnt).bits = {i | i + cnt ∈ a.bits} := by
    ext i
    rw [Set.mem_ofPred_eq, mem_bits, mem_bits, shift_down]
    split
    · simp only [u16]
      split <;> omega
    · simp only [u16]
      omega
  rw [denotes_of_bits hbits, shift_down]
  split
  · exact ⟨fun _ _ => by omega, fun _ _ => rfl⟩
  have hoff : u16 (a.offset - cnt) = a.offset - cnt := u16_of_lt (by omega)
  simp only [hoff]
  refine ⟨fun h hz => ?_, fun h hz => ?_⟩
  · have := h hz
    omega
  · have := h hz
    omega

theorem shift_up_denotes (ha : a.Fits) :
    (a.shift_up cnt).Denotes {i | i < 2 ^ 16 ∧ ∃ j ∈ a.bits, i = j + cnt} ↔
      if a.nbits = 0 then (a.offset + cnt) % 2 ^ 16 = 0 else a.offset + cnt + a.nbits ≤ 2 ^ 16 := by
  unfold Fits at ha
  split
  · case isTrue hz =>
    have hbits : (a.shift_up cnt).bits = {i | i < 2 ^ 16 ∧ ∃ j ∈ a.bits, i = j + cnt} := by
      ext i
      rw [Set.mem_ofPred_eq, mem_bits]
      constructor
      · intro h
        simp only [shift_up, hz] at h
        omega
      · rintro ⟨-, j, hj, -⟩
        rw [mem_bits] at hj
        omega
    rw [denotes_of_bits hbits]
    exact ⟨fun h => h hz, fun h _ => h⟩
  · case isFalse hz =>
    constructor
    · intro h
      have hmem : (a.shift_up cnt).offset ∈ (a.shift_up cnt).bits := mem_bits.mpr ⟨Nat.le_refl _, by
        simp only [shift_up]
        omega⟩
      have hlast : (a.shift_up cnt).offset + a.nbits - 1 ∈ (a.shift_up cnt).bits := mem_bits.mpr ⟨by omega, by
        simp only [shift_up]
        omega⟩
      rw [h.bits] at hmem hlast
      obtain ⟨hlt, j, hj, hjeq⟩ := hmem
      obtain ⟨hlt', k, hk, hkeq⟩ := hlast
      rw [mem_bits] at hj hk
      simp only [shift_up, u16] at hlt hlt' hjeq hkeq
      omega
    · intro h
      have hoff : u16 (a.offset + cnt) = a.offset + cnt := u16_of_lt (by omega)
      have hbits : (a.shift_up cnt).bits = {i | i < 2 ^ 16 ∧ ∃ j ∈ a.bits, i = j + cnt} := by
        ext i
        rw [Set.mem_ofPred_eq, mem_bits]
        simp only [shift_up, hoff]
        constructor
        · intro hi
          exact ⟨by omega, i - cnt, mem_bits.mpr (by omega), by omega⟩
        · rintro ⟨hlt, j, hj, rfl⟩
          rw [mem_bits] at hj
          omega
      rw [denotes_of_bits hbits]
      exact fun hz' => absurd hz' hz

/-- What masking has to do: keep the named positions, or fail and change nothing if the mask does not fit. -/
def MaskMeaning (a b : bitrange_t) : Prop :=
  if b.offset + b.nbits ≤ a.nbits then
    (a.apply_mask b).1 = true ∧ (a.apply_mask b).2.Denotes {i | ∃ j ∈ b.bits, i = a.offset + j}
  else a.apply_mask b = (false, a)

theorem mask_meaning (ha : a.Fits) :
    MaskMeaning a b ↔ (b.offset + b.nbits ≤ a.nbits → b.nbits = 0 → a.offset + b.offset = 0) := by
  unfold Fits at ha
  unfold MaskMeaning apply_mask
  split
  · case isTrue hfit =>
    have hoff : u16 (a.offset + b.offset) = a.offset + b.offset := u16_of_lt (by omega)
    have hsize : u16 b.nbits = b.nbits := u16_of_lt (by omega)
    rw [if_neg (by omega)]
    have hbits : (init (a.offset + b.offset) b.nbits).bits = {i | ∃ j ∈ b.bits, i = a.offset + j} := by
      ext i
      rw [Set.mem_ofPred_eq, mem_bits]
      simp only [init, hoff, hsize]
      constructor
      · intro hi
        exact ⟨i - a.offset, mem_bits.mpr (by omega), by omega⟩
      · rintro ⟨j, hj, rfl⟩
        rw [mem_bits] at hj
        omega
    rw [denotes_of_bits hbits]
    simp only [init, hoff, hsize]
    exact ⟨fun h _ => h.2, fun h => ⟨trivial, h hfit⟩⟩
  · rw [if_pos (by omega)]
    exact ⟨fun _ h => absurd h ‹_›, fun _ => rfl⟩

inductive Operation where
  | intersect
  | has_common
  | create_union
  | sub
  | shift_down (cnt : Nat)
  | shift_up (cnt : Nat)
  | apply_mask

/-- The result of an operation is what it means on bit positions, and if there are no positions, canonical. -/
def Meaning (a b : bitrange_t) : Operation → Prop
  | .intersect => (a.intersect b).Denotes (a.bits ∩ b.bits)
  | .has_common => a.has_common b = true ↔ (a.bits ∩ b.bits).Nonempty
  | .create_union => (a.create_union b).Denotes (hull (a.bits ∪ b.bits))
  | .sub => SubMeaning a b
  | .shift_down cnt => (a.shift_down cnt).Denotes {i | i + cnt ∈ a.bits}
  | .shift_up cnt => (a.shift_up cnt).Denotes {i | i < 2 ^ 16 ∧ ∃ j ∈ a.bits, i = j + cnt}
  | .apply_mask => MaskMeaning a b

/-- The ranges for which an operation has its meaning. -/
def Agrees (a b : bitrange_t) : Operation → Prop
  | .intersect => min (a.offset + a.nbits) (b.offset + b.nbits) = max a.offset b.offset → max a.offset b.offset = 0
  | .has_common => True
  | .create_union => Within a b ∧ Within b a ∧ (a.nbits = 0 → b.nbits = 0 → a.offset = 0)
  | .sub => SubAgrees a b
  | .shift_down cnt => a.nbits = 0 → a.offset ≤ cnt
  | .shift_up cnt =>
    if a.nbits = 0 then (a.offset + cnt) % 2 ^ 16 = 0 else a.offset + cnt + a.nbits ≤ 2 ^ 16
  | .apply_mask => b.offset + b.nbits ≤ a.nbits → b.nbits = 0 → a.offset + b.offset = 0

/-- Each operation has its meaning on exactly these ranges. -/
theorem operation_meaning (ha : a.Fits) (hb : b.Fits) (op : Operation) : Meaning a b op ↔ Agrees a b op := by
  cases op with
  | intersect => exact intersect_denotes ha hb
  | has_common => exact ⟨fun _ => trivial, fun _ => has_common_iff⟩
  | create_union => exact create_union_denotes ha hb
  | sub => exact sub_meaning ha hb
  | shift_down cnt => exact shift_down_denotes ha
  | shift_up cnt => exact shift_up_denotes ha
  | apply_mask => exact mask_meaning ha

/-- The upper half of a byte is taken from it. -/
theorem upper_half_subtracted : Meaning ⟨0, 8⟩ ⟨4, 4⟩ .sub :=
  (operation_meaning (by unfold Fits; decide) (by unfold Fits; decide) .sub).mpr
    ⟨by decide, by decide, by decide⟩

/-- The halves of a byte have no bit in common, but their intersection is an empty range at offset 4. -/
theorem halves_not_intersected :
    ¬∀ (op : Operation) (a b : bitrange_t), a.Fits → b.Fits → Meaning a b op := by
  intro h
  have hden := h .intersect ⟨0, 4⟩ ⟨4, 4⟩ (by unfold Fits; decide) (by unfold Fits; decide)
  have hempty : (⟨0, 4⟩ : bitrange_t).bits ∩ (⟨4, 4⟩ : bitrange_t).bits = ∅ := by
    apply Set.eq_empty_of_forall_notMem
    rintro i ⟨hi, hi'⟩
    have hlt : i < 0 + 4 := hi.2
    have hle : 4 ≤ i := hi'.1
    omega
  have heq := hden.canonical hempty
  revert heq
  decide

end bitrange_t

end IdaSdk.Bitrange
