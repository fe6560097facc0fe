import IdaSdk.ElfModel

/-!
Addresses and file offsets. The loaded segments of a file map ranges of addresses to ranges of the file, and both
directions look for the first range that has the argument.
-/

namespace IdaSdk.Elf
open Words

structure mapping_t where
  offset : BitVec 64
  size : BitVec 64
  ea : BitVec 64
deriving DecidableEq

/-- The search of both directions. The end of a range is computed in 64 bits, and the distance is cut to 32. -/
def searchMappings (src dst : mapping_t → BitVec 64) : List mapping_t → BitVec 64 → BitVec 64
  | [], _ => -1
  | cur :: mappings, x =>
    if src cur ≤ x ∧ src cur + cur.size > x then (lowHalf (x - src cur)).setWidth 64 + dst cur
    else searchMappings src dst mappings x

def file_offset (mappings : List mapping_t) (ea : BitVec 64) : BitVec 64 :=
  searchMappings mapping_t.ea mapping_t.offset mappings ea

def file_vaddr (mappings : List mapping_t) (offset : BitVec 64) : BitVec 64 :=
  searchMappings mapping_t.offset mapping_t.ea mappings offset

namespace mapping_t

/-- The argument is in the range that starts at `src`. -/
def Covers (src : mapping_t → BitVec 64) (m : mapping_t) (x : BitVec 64) : Prop :=
  (src m).toNat ≤ x.toNat ∧ x.toNat < (src m).toNat + m.size.toNat

def Disjoint (src : mapping_t → BitVec 64) (m m' : mapping_t) : Prop := ∀ x, m.Covers src x → ¬m'.Covers src x

end mapping_t

open mapping_t

/-- Disjoint ranges of addresses, and disjoint ranges of the file. An address range may go up to the end of the address
space. -/
structure WellMapped (mappings : List mapping_t) : Prop where
  ea_disjoint : mappings.Pairwise (mapping_t.Disjoint mapping_t.ea)
  offset_disjoint : mappings.Pairwise (mapping_t.Disjoint mapping_t.offset)
  ea_bound : ∀ m ∈ mappings, m.ea.toNat + m.size.toNat ≤ 2 ^ 64
  offset_bound : ∀ m ∈ mappings, m.offset.toNat + m.size.toNat < 2 ^ 64

/-- The directions are inverse to each other, and what no mapping has is not found. -/
structure MutuallyInverse (mappings : List mapping_t) : Prop where
  offset_covered : ∀ m ∈ mappings, ∀ x, m.Covers mapping_t.ea x → m.Covers mapping_t.offset (file_offset mappings x)
  vaddr_offset : ∀ m ∈ mappings, ∀ x, m.Covers mapping_t.ea x → file_vaddr mappings (file_offset mappings x) = x
  offset_vaddr : ∀ m ∈ mappings, ∀ x, m.Covers mapping_t.offset x → file_offset mappings (file_vaddr mappings x) = x
  offset_none : ∀ x, (∀ m ∈ mappings, ¬m.Covers mapping_t.ea x) → file_offset mappings x = -1
  vaddr_none : ∀ x, (∀ m ∈ mappings, ¬m.Covers mapping_t.offset x) → file_vaddr mappings x = -1

section
variable {src dst : mapping_t → BitVec 64} {mappings : List mapping_t} {m : mapping_t} {x : BitVec 64}

theorem test_iff (hbound : (src m).toNat + m.size.toNat < 2 ^ 64) :
    (src m ≤ x ∧ src m + m.size > x) ↔ m.Covers src x := by
  rw [Covers, BitVec.le_def, gt_iff_lt, BitVec.lt_def, BitVec.toNat_add, Nat.mod_eq_of_lt hbound]

theorem not_test (hbound : (src m).toNat + m.size.toNat = 2 ^ 64) : ¬(src m ≤ x ∧ src m + m.size > x) := by
  intro h
  have hlt := BitVec.lt_def.1 h.2
  rw [BitVec.toNat_add, hbound, Nat.mod_self] at hlt
  exact Nat.not_lt_zero _ hlt

theorem covers_of_test (hbound : (src m).toNat + m.size.toNat ≤ 2 ^ 64) (h : src m ≤ x ∧ src m + m.size > x) :
    m.Covers src x := by
  obtain hlt | heq := Nat.lt_or_eq_of_le hbound
  · exact (test_iff hlt).1 h
  · exact absurd h (not_test heq)

theorem searchMappings_none (hbound : ∀ m ∈ mappings, (src m).toNat + m.size.toNat ≤ 2 ^ 64)
    (h : ∀ m ∈ mappings, (src m).toNat + m.size.toNat < 2 ^ 64 → ¬m.Covers src x) :
    searchMappings src dst mappings x = -1 := by
  induction mappings with
  | nil => rfl
  | cons cur mappings ih =>
      have hcur : ¬(src cur ≤ x ∧ src cur + cur.size > x) := by
        obtain hlt | heq := Nat.lt_or_eq_of_le (hbound cur (List.mem_cons_self ..))
        · exact fun htest => h cur (List.mem_cons_self ..) hlt ((test_iff hlt).1 htest)
        · exact not_test heq
      rw [searchMappings, if_neg hcur]
      exact ih (fun m hm => hbound m (List.mem_cons_of_mem _ hm)) (fun m hm => h m (List.mem_cons_of_mem _ hm))

theorem searchMappings_covered (hbound : ∀ m ∈ mappings, (src m).toNat + m.size.toNat ≤ 2 ^ 64)
    (hdisjoint : mappings.Pairwise (mapping_t.Disjoint src)) (hm : m ∈ mappings)
    (hlt : (src m).toNat + m.size.toNat < 2 ^ 64) (h : m.Covers src x) :
    searchMappings src dst mappings x = (lowHalf (x - src m)).setWidth 64 + dst m := by
  induction mappings with
  | nil => cases hm
  | cons cur mappings ih =>
      rw [List.pairwise_cons] at hdisjoint
      rw [searchMappings]
      obtain rfl | hm := List.mem_cons.1 hm
      · rw [if_pos ((test_iff hlt).2 h)]
      have hcur : ¬(src cur ≤ x ∧ src cur + cur.size > x) := by
        intro htest
        exact hdisjoint.1 m hm x (covers_of_test (hbound cur (List.mem_cons_self ..)) htest) h
      rw [if_neg hcur]
      exact ih (fun m hm => hbound m (List.mem_cons_of_mem _ hm)) hdisjoint.2 hm

theorem toNat_distance (hdst : (dst m).toNat + m.size.toNat ≤ 2 ^ 64) (h : m.Covers src x) :
    ((lowHalf (x - src m)).setWidth 64 + dst m).toNat = (x.toNat - (src m).toNat) % 2 ^ 32 + (dst m).toNat := by
  have hx := x.isLt
  have hsub : (x - src m).toNat = x.toNat - (src m).toNat := BitVec.toNat_sub_of_le (BitVec.le_def.2 h.1)
  have hcover := h.2
  have hmod := Nat.mod_le (x.toNat - (src m).toNat) (2 ^ 32)
  rw [BitVec.toNat_add, BitVec.toNat_setWidth, toNat_lowHalf, hsub]
  omega

theorem searchMappings_small (hbound : ∀ m ∈ mappings, (src m).toNat + m.size.toNat < 2 ^ 64)
    (hdisjoint : mappings.Pairwise (mapping_t.Disjoint src)) (hm : m ∈ mappings) (hsize : m.size.toNat ≤ 2 ^ 32)
    (hdst : (dst m).toNat + m.size.toNat ≤ 2 ^ 64) (h : m.Covers src x) :
    (searchMappings src dst mappings x).toNat = x.toNat - (src m).toNat + (dst m).toNat := by
  have hcover := h.2
  have hsrc := h.1
  have hdistance : x.toNat - (src m).toNat < 2 ^ 32 := by omega
  rw [searchMappings_covered (fun m hm => Nat.le_of_lt (hbound m hm)) hdisjoint hm (hbound m hm) h,
    toNat_distance hdst h, Nat.mod_eq_of_lt hdistance]

theorem searchMappings_covers (hbound : ∀ m ∈ mappings, (src m).toNat + m.size.toNat < 2 ^ 64)
    (hdisjoint : mappings.Pairwise (mapping_t.Disjoint src)) (hm : m ∈ mappings) (hsize : m.size.toNat ≤ 2 ^ 32)
    (hdst : (dst m).toNat + m.size.toNat ≤ 2 ^ 64) (h : m.Covers src x) :
    m.Covers dst (searchMappings src dst mappings x) := by
  have hcover := h.2
  have hsrc := h.1
  have hval := searchMappings_small hbound hdisjoint hm hsize hdst h
  constructor <;> omega

theorem searchMappings_back (hbound : ∀ m ∈ mappings, (src m).toNat + m.size.toNat < 2 ^ 64)
    (hbound' : ∀ m ∈ mappings, (dst m).toNat + m.size.toNat < 2 ^ 64)
    (hdisjoint : mappings.Pairwise (mapping_t.Disjoint src)) (hdisjoint' : mappings.Pairwise (mapping_t.Disjoint dst))
    (hm : m ∈ mappings) (hsize : m.size.toNat ≤ 2 ^ 32) (h : m.Covers src x) :
    searchMappings dst src mappings (searchMappings src dst mappings x) = x := by
  have hdst := Nat.le_of_lt (hbound' m hm)
  have hsrc := Nat.le_of_lt (hbound m hm)
  have hthere := searchMappings_small hbound hdisjoint hm hsize hdst h
  have hcovers := searchMappings_covers hbound hdisjoint hm hsize hdst h
  have hback := searchMappings_small hbound' hdisjoint' hm hsize hsrc hcovers
  have hlow := h.1
  apply BitVec.eq_of_toNat_eq
  omega

end

section
variable {mappings : List mapping_t} {m : mapping_t}

theorem WellMapped.inverse (h : WellMapped mappings)
    (hsmall : ∀ m ∈ mappings, m.size.toNat ≤ 2 ^ 32 ∧ m.ea.toNat + m.size.toNat < 2 ^ 64) :
    MutuallyInverse mappings := by
  have hea : ∀ m ∈ mappings, m.ea.toNat + m.size.toNat < 2 ^ 64 := fun m hm => (hsmall m hm).2
  refine ⟨?_, ?_, ?_, ?_, ?_⟩
  · intro m hm x hx
    exact searchMappings_covers hea h.ea_disjoint hm (hsmall m hm).1 (Nat.le_of_lt (h.offset_bound m hm)) hx
  · intro m hm x hx
    exact searchMappings_back hea h.offset_bound h.ea_disjoint h.offset_disjoint hm (hsmall m hm).1 hx
  · intro m hm x hx
    exact searchMappings_back h.offset_bound hea h.offset_disjoint h.ea_disjoint hm (hsmall m hm).1 hx
  · intro x hx
    exact searchMappings_none h.ea_bound fun m hm _ => hx m hm
  · intro x hx
    exact searchMappings_none (fun m hm => Nat.le_of_lt (h.offset_bound m hm)) fun m hm _ => hx m hm

theorem WellMapped.ea_lt (h : WellMapped mappings) (hinv : MutuallyInverse mappings) (hm : m ∈ mappings) :
    m.ea.toNat + m.size.toNat < 2 ^ 64 := by
  have hbound := h.ea_bound m hm
  have hoffset := h.offset_bound m hm
  have hea := m.ea.isLt
  have hlast : (BitVec.allOnes 64).toNat = 2 ^ 64 - 1 := BitVec.toNat_allOnes
  by_contra hnot
  have hcovers : m.Covers mapping_t.ea (BitVec.allOnes 64) := by
    constructor <;> omega
  have hnone : file_offset mappings (BitVec.allOnes 64) = -1 := by
    apply searchMappings_none h.ea_bound
    intro m' _ hlt hcovers'
    have hend := hcovers'.2
    omega
  have hinside := (hinv.offset_covered m hm _ hcovers).2
  have hminus : (-1 : BitVec 64).toNat = 2 ^ 64 - 1 := rfl
  rw [hnone, hminus] at hinside
  omega

theorem WellMapped.size_le (h : WellMapped mappings) (hinv : MutuallyInverse mappings) (hm : m ∈ mappings) :
    m.size.toNat ≤ 2 ^ 32 := by
  have hea := h.ea_lt hinv hm
  have hoffset := h.offset_bound m hm
  by_contra hlarge
  have hx : (BitVec.ofNat 64 (m.ea.toNat + 2 ^ 32)).toNat = m.ea.toNat + 2 ^ 32 := by
    rw [BitVec.toNat_ofNat]
    omega
  have hcovers : m.Covers mapping_t.ea (BitVec.ofNat 64 (m.ea.toNat + 2 ^ 32)) := by
    constructor <;> omega
  have hstart : m.Covers mapping_t.offset m.offset := by
    constructor <;> omega
  have hthere : file_offset mappings (BitVec.ofNat 64 (m.ea.toNat + 2 ^ 32)) = m.offset := by
    apply BitVec.eq_of_toNat_eq
    rw [file_offset, searchMappings_covered h.ea_bound h.ea_disjoint hm hea hcovers,
      toNat_distance (Nat.le_of_lt hoffset) hcovers, hx, Nat.add_sub_cancel_left, Nat.mod_self, Nat.zero_add]
  have hback : (file_vaddr mappings m.offset).toNat = m.ea.toNat := by
    rw [file_vaddr, searchMappings_covered (fun m hm => Nat.le_of_lt (h.offset_bound m hm)) h.offset_disjoint hm hoffset
      hstart, toNat_distance (Nat.le_of_lt hea) hstart, Nat.sub_self, Nat.zero_mod, Nat.zero_add]
  have hround := congrArg BitVec.toNat (hinv.vaddr_offset m hm _ hcovers)
  rw [hthere, hback, hx] at hround
  omega

/-- Both directions agree on segments of at most 4 GiB that end below the last address. -/
theorem mutuallyInverse_iff (h : WellMapped mappings) :
    MutuallyInverse mappings ↔ ∀ m ∈ mappings, m.size.toNat ≤ 2 ^ 32 ∧ m.ea.toNat + m.size.toNat < 2 ^ 64 :=
  ⟨fun hinv _ hm => ⟨h.size_le hinv hm, h.ea_lt hinv hm⟩, h.inverse⟩

theorem wellMapped_single (hea : m.ea.toNat + m.size.toNat ≤ 2 ^ 64) (hoffset : m.offset.toNat + m.size.toNat < 2 ^ 64) :
    WellMapped [m] := by
  constructor
  · exact List.pairwise_singleton _ _
  · exact List.pairwise_singleton _ _
  · intro m' hm
    rwa [List.mem_singleton.1 hm]
  · intro m' hm
    rwa [List.mem_singleton.1 hm]

theorem mutuallyInverse_text : MutuallyInverse [⟨0x1000, 0x2000, 0x401000⟩] := by
  apply (mutuallyInverse_iff (wellMapped_single (by decide) (by decide))).2
  intro m hm
  rw [List.mem_singleton.1 hm]
  exact ⟨by decide, by decide⟩

/-- The address `0x100400000` of a segment of 8 GiB is taken for `0x400000`. -/
theorem not_mutuallyInverse_large :
    WellMapped [⟨0x1000, 0x200000000, 0x400000⟩] ∧
      file_vaddr [⟨0x1000, 0x200000000, 0x400000⟩] (file_offset [⟨0x1000, 0x200000000, 0x400000⟩] 0x100400000) = 0x400000 ∧
      ¬MutuallyInverse [⟨0x1000, 0x200000000, 0x400000⟩] := by
  refine ⟨wellMapped_single (by decide) (by decide), by decide, fun h => ?_⟩
  have hround := h.vaddr_offset _ (List.mem_singleton_self _) 0x100400000 ⟨by decide, by decide⟩
  exact absurd hround (by decide)

end
end IdaSdk.Elf
